import Mathlib.Logic.Function.Iterate
import Mathlib.Tactic.IntervalCases
import Oberon.DataType.Catalog

/-!
# The graph of types

A catalog grows by types that are made of earlier ones.

**Growth.**  `c.Extends d` says that the types of `d` are types of `c` under the same numbers and
with the same shapes.

**Layers.**  A catalog is layered if it begins with the built-in types and every later type is made
of an earlier one: an array of elements that are not arrays, or a pointer to a built-in scalar or to
something unknown.  The built-in types are layered, and adding such a type keeps the layers
(`Layered.add`).  In a layered catalog no chain of bases comes back to its start
(`Layered.climb_ne`), and an element of an array has elements of its own only if its type is unknown
(`Layered.element_unknown`).
-/

namespace Oberon
namespace TypeCatalog

variable {c d e : TypeCatalog} {t : DataType} {shape : Shape}

/-- The number of the type was given out. -/
def Has (c : TypeCatalog) (t : DataType) : Prop := t.number < c.size

/-- The catalog begins with the types of an earlier one. -/
def Extends (c earlier : TypeCatalog) : Prop := earlier.shapes.toList <+: c.shapes.toList

/-- What a type is made of. -/
def base (c : TypeCatalog) (t : DataType) : DataType := (c.shape t).base

instance (c : TypeCatalog) (t : DataType) :
    Decidable (c.Has t) :=
  inferInstanceAs (Decidable (_ < _))

/-! ### Growth -/

theorem Extends.refl (c : TypeCatalog) : c.Extends c := List.prefix_rfl

theorem Extends.trans (hcd : c.Extends d) (hde : d.Extends e) :
    c.Extends e :=
  List.IsPrefix.trans hde hcd

theorem extends_add (c : TypeCatalog) (shape : Shape) : (c.add shape).2.Extends c := by
  simp [Extends, add]

theorem Extends.size_le (h : c.Extends d) : d.size ≤ c.size := by
  simpa [size] using List.IsPrefix.length_le h

theorem Extends.has (h : c.Extends d) (ht : d.Has t) : c.Has t :=
  Nat.lt_of_lt_of_le ht h.size_le

theorem Extends.getElem?
    {number : Nat} (h : c.Extends d) (hshape : d.shapes[number]? = some shape) :
    c.shapes[number]? = some shape := by
  obtain ⟨later, hlater⟩ := h
  rw [← Array.getElem?_toList] at hshape ⊢
  rw [← hlater, List.getElem?_append_left (List.getElem?_eq_some_iff.1 hshape).1, hshape]

theorem getElem?_of_has (ht : c.Has t) : c.shapes[t.number]? = some (c.shape t) := by
  have hlt : t.number < c.shapes.size := ht
  simp [TypeCatalog.shape, hlt]

theorem has_of_getElem? (h : c.shapes[t.number]? = some shape) :
    c.Has t :=
  (Array.getElem?_eq_some_iff.1 h).1

theorem shape_of_getElem? (h : c.shapes[t.number]? = some shape) : c.shape t = shape := by
  simp [TypeCatalog.shape, h]

theorem Extends.shape_eq (h : c.Extends d) (ht : d.Has t) : c.shape t = d.shape t := by
  rw [TypeCatalog.shape, h.getElem? (getElem?_of_has ht)]
  rfl

theorem Extends.form_eq (h : c.Extends d) (ht : d.Has t) : c.form t = d.form t :=
  congrArg Shape.form (h.shape_eq ht)

theorem Extends.base_eq (h : c.Extends d) (ht : d.Has t) : c.base t = d.base t :=
  congrArg Shape.base (h.shape_eq ht)

theorem getElem?_add (c : TypeCatalog) (shape : Shape) :
    (c.add shape).2.shapes[c.size]? = some shape := by
  simp [add, size]

theorem shape_of_not_has (ht : ¬ c.Has t) : c.shape t = {} := by
  have hbeyond : c.shapes[t.number]? = none := Array.getElem?_eq_none (Nat.le_of_not_lt ht)
  simp [TypeCatalog.shape, hbeyond]

/-! ### Layers -/

/-- The shape of a type that is made of an earlier one. -/
structure Composed (c : TypeCatalog) (number : Nat) (shape : Shape) : Prop where
  form_ne : shape.form ≠ .scalar
  base_lt : shape.base.number < number
  element : shape.form = .array → c.form shape.base ≠ .array
  target : shape.form = .pointer → shape.base = .unknown ∨ shape.base.isBuiltin = true ∧
    c.form shape.base = .scalar

/-- The built-in types, and behind them types that are made of earlier ones. -/
structure Layered (c : TypeCatalog) : Prop where
  builtin : c.Extends builtin
  composed : ∀ number shape, DataType.firstDeclared ≤ number → c.shapes[number]? = some shape →
    c.Composed number shape

theorem layered_builtin : Layered builtin := by
  refine ⟨.refl _, fun number shape hnumber hshape => ?_⟩
  have hbeyond : builtin.shapes[number]? = none := Array.getElem?_eq_none hnumber
  rw [hbeyond] at hshape
  cases hshape

theorem has_builtin (ht : t.isBuiltin = true) : builtin.Has t := by
  change t.number < DataType.firstDeclared
  exact of_decide_eq_true ht

/-- Of the built-in types only that of strings has a base. -/
theorem number_builtin_base_lt (h : builtin.Has t) (ht : t ≠ .unknown) :
    (builtin.base t).number < t.number := by
  obtain ⟨number⟩ := t
  change number < 10 at h
  interval_cases number <;> first | exact absurd rfl ht | decide

theorem form_builtin_base_ne (h : builtin.Has t) (ht : builtin.form t = .array) :
    builtin.form (builtin.base t) ≠ .array := by
  obtain ⟨number⟩ := t
  change number < 10 at h
  interval_cases number <;> revert ht <;> decide

namespace Layered

/--
A type is built in, made of an earlier one, or read as a scalar because its number was never given
out.
-/
theorem cases (h : c.Layered) (t : DataType) :
    TypeCatalog.builtin.Has t ∨ c.Composed t.number (c.shape t) ∨ c.shape t = {} := by
  by_cases hhas : c.Has t
  · by_cases hdeclared : DataType.firstDeclared ≤ t.number
    · exact Or.inr (Or.inl (h.composed _ _ hdeclared (getElem?_of_has hhas)))
    · exact Or.inl (Nat.lt_of_not_le hdeclared)
  · exact Or.inr (Or.inr (shape_of_not_has hhas))

theorem has_of_isBuiltin (h : c.Layered) (ht : t.isBuiltin = true) :
    c.Has t :=
  h.builtin.has (has_builtin ht)

theorem has_unknown (h : c.Layered) : c.Has .unknown := h.has_of_isBuiltin rfl

/-- What a type is made of has a smaller number. -/
theorem number_base_lt (h : c.Layered) (ht : t ≠ .unknown) : (c.base t).number < t.number := by
  rcases h.cases t with hbuiltin | hcomposed | hscalar
  · rw [h.builtin.base_eq hbuiltin]
    exact number_builtin_base_lt hbuiltin ht
  · exact hcomposed.base_lt
  · rw [base, hscalar]
    exact Nat.pos_of_ne_zero fun hzero => ht (congrArg DataType.mk hzero)

theorem base_unknown (h : c.Layered) : c.base .unknown = .unknown := by
  rw [h.builtin.base_eq (has_builtin rfl)]
  rfl

theorem number_base_le (h : c.Layered) (t : DataType) : (c.base t).number ≤ t.number := by
  by_cases ht : t = .unknown
  · rw [ht, h.base_unknown]
  · exact Nat.le_of_lt (h.number_base_lt ht)

theorem has_base (h : c.Layered) (t : DataType) : c.Has (c.base t) := by
  by_cases ht : c.Has t
  · exact Nat.lt_of_le_of_lt (h.number_base_le t) ht
  · rw [base, shape_of_not_has ht]
    exact h.has_unknown

theorem number_climb_le
    (h : c.Layered) (steps : Nat) (t : DataType) :
    (c.base^[steps] t).number ≤ t.number := by
  induction steps generalizing t with
  | zero => exact Nat.le_refl _
  | succ steps ih => exact Nat.le_trans (ih (c.base t)) (h.number_base_le t)

/-- A chain of bases never comes back to its start. -/
theorem climb_ne (h : c.Layered) (ht : t ≠ .unknown) (steps : Nat) : c.base^[steps + 1] t ≠ t := by
  intro hreturn
  have hle := h.number_climb_le steps (c.base t)
  have hlt := h.number_base_lt ht
  rw [← Function.iterate_succ_apply, hreturn] at hle
  omega

/-- A type that is made of an earlier one may be added. -/
theorem add (h : c.Layered) (hshape : c.Composed c.size shape) : (c.add shape).2.Layered := by
  have hgrowth := extends_add c shape
  -- The base of a type was given out before the type, so its form stays the same.
  have hcomposed : ∀ number shape', number ≤ c.size → c.Composed number shape' →
      (c.add shape).2.Composed number shape' := by
    intro number shape' hnumber hold
    have hform : (c.add shape).2.form shape'.base = c.form shape'.base :=
      hgrowth.form_eq (Nat.lt_of_lt_of_le hold.base_lt hnumber)
    exact ⟨hold.form_ne, hold.base_lt, hform ▸ hold.element, hform ▸ hold.target⟩
  refine ⟨hgrowth.trans h.builtin, fun number shape' hnumber hshape' => ?_⟩
  rcases Nat.lt_trichotomy number c.size with hlt | rfl | hgt
  · have hold : c.shapes[number]? = some shape' := by
      have hne : number ≠ c.shapes.size := Nat.ne_of_lt hlt
      simpa [TypeCatalog.add, Array.getElem?_push, hne] using hshape'
    exact hcomposed _ _ (Nat.le_of_lt hlt) (h.composed _ _ hnumber hold)
  · rw [getElem?_add] at hshape'
    cases hshape'
    exact hcomposed _ _ (Nat.le_refl _) hshape
  · have hbeyond : (c.add shape).2.shapes[number]? = none := by
      refine Array.getElem?_eq_none ?_
      rw [TypeCatalog.add, Array.size_push]
      exact Nat.succ_le_of_lt hgt
    rw [hbeyond] at hshape'
    cases hshape'

/-- The elements of an array are no arrays. -/
theorem form_base_ne (h : c.Layered) (ht : c.form t = .array) : c.form (c.base t) ≠ .array := by
  rcases h.cases t with hbuiltin | hcomposed | hscalar
  · rw [h.builtin.form_eq hbuiltin] at ht
    rw [h.builtin.base_eq hbuiltin, h.builtin.form_eq (layered_builtin.has_base t)]
    exact form_builtin_base_ne hbuiltin ht
  · exact hcomposed.element ht
  · rw [form, hscalar] at ht
    cases ht

/-- Where an element can be indexed again, its type is unknown. -/
theorem element_unknown
    {element inner : DataType}
    (h : c.Layered)
    (hfirst : c.element t = .ok element)
    (hsecond : c.element element = .ok inner) :
    element = .unknown := by
  unfold TypeCatalog.element at hfirst hsecond
  split at hfirst
  · cases hfirst
    rfl
  · split at hfirst
    · rename_i harray
      cases hfirst
      have hbase := h.form_base_ne harray
      split at hsecond
      · assumption
      · exact absurd hsecond (by simp [show c.form (c.shape t).base ≠ .array from hbase])
    · cases hfirst

end Layered

end TypeCatalog
end Oberon
