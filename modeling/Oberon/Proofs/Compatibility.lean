import Mathlib.Data.Setoid.Partition
import Oberon.Proofs.Catalog

/-!
# Compatible types

Which types go together, in every catalog that grows from the built-in types by additions of
whatever shapes.

**Kin.**  Two types are kin if they are equal or of one family, the integers or the reals.  Types
that are neither unknown nor that of `NIL` go together exactly if they are kin
(`compatible_iff_kin`), so that on them compatibility is an equivalence.  The two special types are
the ones that break it: an unknown type goes with all types, and `NIL` with all pointers.

**Growth.**  Catalogs grow at their end, so that what is known of a type stays as it is
(`Extends.compatible_eq`).

**Main statement.**  `compatible_of_catalog`.
-/

namespace Oberon

namespace DataType

/-- The types apart from the unknown one and that of `NIL`. -/
abbrev Proper := { t : DataType // t ≠ .unknown ∧ t ≠ .nil }

/-- The families of number types. -/
inductive Family
  | integers | reals
  deriving DecidableEq, Repr

namespace Family

def has : Family → DataType → Bool
  | integers => isInteger
  | reals => isReal

/-- The types of a family. -/
def types : Family → Set Proper
  | integers => { t | t.1 = .integer ∨ t.1 = .longInteger }
  | reals => { t | t.1 = .real ∨ t.1 = .longReal }

theorem mem_types_iff {f : Family} {t : Proper} : t ∈ f.types ↔ f.has t = true := by
  cases f <;> simp [types, has, isInteger, isReal]

/-- No type is of two families. -/
theorem eq_of_has
    {f g : Family}
    {t : DataType}
    (hf : f.has t = true)
    (hg : g.has t = true) :
    f = g := by
  have hdisjoint : t.isInteger = true → t.isReal = true → False := by
    intro hinteger hreal
    simp only [isInteger, Bool.or_eq_true, beq_iff_eq] at hinteger
    rcases hinteger with rfl | rfl <;> cases hreal
  cases f <;> cases g
  · rfl
  · exact (hdisjoint hf hg).elim
  · exact (hdisjoint hg hf).elim
  · rfl

theorem nontrivial_types (f : Family) : f.types.Nontrivial := by
  cases f with
  | integers =>
    exact ⟨⟨.integer, by decide⟩, .inl rfl, ⟨.longInteger, by decide⟩, .inr rfl, by decide⟩
  | reals => exact ⟨⟨.real, by decide⟩, .inl rfl, ⟨.longReal, by decide⟩, .inr rfl, by decide⟩

end Family

/-- The types are equal or of one family. -/
def Kin (a b : DataType) : Prop := a = b ∨ ∃ f : Family, f.has a = true ∧ f.has b = true

namespace Kin

variable {a b c : DataType}

theorem symm (h : Kin a b) : Kin b a := by
  rcases h with h | ⟨f, ha, hb⟩
  · exact .inl h.symm
  · exact .inr ⟨f, hb, ha⟩

theorem trans (hab : Kin a b) (hbc : Kin b c) : Kin a c := by
  rcases hab with rfl | ⟨f, ha, hb⟩
  · exact hbc
  · rcases hbc with rfl | ⟨g, hb', hc⟩
    · exact .inr ⟨f, ha, hb⟩
    · obtain rfl := Family.eq_of_has hb hb'
      exact .inr ⟨f, ha, hc⟩

/-- What is kin to a type of a family is of that family. -/
theorem has_iff {f : Family} (ha : f.has a = true) : Kin b a ↔ f.has b = true := by
  constructor
  · rintro (rfl | ⟨g, hb, ha'⟩)
    · exact ha
    · rwa [Family.eq_of_has ha ha']
  · exact fun hb => .inr ⟨f, hb, ha⟩

end Kin

end DataType

namespace TypeCatalog

open DataType

variable {c d : TypeCatalog} {a b t : DataType}

/-! ### Kin and compatible types -/

theorem compatible_iff :
    c.compatible a b = true ↔
      a = .unknown ∨
      b = .unknown ∨
      a.Kin b ∨
      b = .nil ∧ c.form a = .pointer ∨
      a = .nil ∧ c.form b = .pointer := by
  have hkin : a.Kin b ↔
      a = b ∨ a.isInteger = true ∧ b.isInteger = true ∨ a.isReal = true ∧ b.isReal = true := by
    refine or_congr_right ⟨?_, ?_⟩
    · rintro ⟨f, h⟩
      cases f
      · exact .inl h
      · exact .inr h
    · rintro (h | h)
      · exact ⟨.integers, h⟩
      · exact ⟨.reals, h⟩
  simp [compatible, hkin, or_assoc]

theorem compatible_self (c : TypeCatalog) (t : DataType) : c.compatible t t = true :=
  compatible_iff.2 (.inr (.inr (.inl (.inl rfl))))

theorem compatible_of_symm (h : c.compatible a b = true) : c.compatible b a = true := by
  rw [compatible_iff] at h ⊢
  rcases h with h | h | h | h | h
  · exact .inr (.inl h)
  · exact .inl h
  · exact .inr (.inr (.inl h.symm))
  · exact .inr (.inr (.inr (.inr h)))
  · exact .inr (.inr (.inr (.inl h)))

theorem compatible_comm (c : TypeCatalog) (a b : DataType) : c.compatible a b = c.compatible b a :=
  Bool.eq_iff_iff.2 ⟨compatible_of_symm, compatible_of_symm⟩

/-- Without an unknown type and `NIL` only kin go together. -/
theorem compatible_iff_kin (c : TypeCatalog) (a b : Proper) :
    c.compatible a b = true ↔ Kin a b := by
  simp [compatible_iff, a.2, b.2]

/--
The types apart from the unknown one and that of `NIL`, with those equivalent that go together.
-/
def family (c : TypeCatalog) : Setoid Proper where
  r a b := c.compatible a b = true
  iseqv := {
    refl := fun a => c.compatible_self a
    symm := fun h => compatible_of_symm h
    trans := fun hab hbc => (c.compatible_iff_kin _ _).2
      (((c.compatible_iff_kin _ _).1 hab).trans ((c.compatible_iff_kin _ _).1 hbc)) }

/-- The class of a type of a family is the family. -/
theorem class_of_mem_types
    {f : Family} {t : Proper} (ht : t ∈ f.types) :
    { u | c.family u t } = f.types := by
  ext u
  change c.compatible u t = true ↔ u ∈ f.types
  rw [compatible_iff_kin, Kin.has_iff (Family.mem_types_iff.1 ht), Family.mem_types_iff]

/-- Only the families have more than one type. -/
theorem family_classes (c : TypeCatalog) :
    { k ∈ c.family.classes | k.Nontrivial } = { Family.integers.types, Family.reals.types } := by
  have hfamily : ∀ f : Family, f.types ∈ { k ∈ c.family.classes | k.Nontrivial } := by
    intro f
    obtain ⟨t, ht, -⟩ := f.nontrivial_types
    exact ⟨⟨t, (class_of_mem_types ht).symm⟩, f.nontrivial_types⟩
  ext k
  constructor
  · rintro ⟨⟨t, rfl⟩, u, hu, v, hv, hne⟩
    -- Two types of a class are kin, and unless they are equal they have a family.
    have hkin := (c.compatible_iff_kin u v).1 (c.family.trans hu (c.family.symm hv))
    rcases hkin with heq | ⟨f, hf, -⟩
    · exact absurd (Subtype.ext heq) hne
    · have ht : t ∈ f.types := by
        rw [← class_of_mem_types (c := c) (Family.mem_types_iff.2 hf)]
        exact c.family.symm hu
      rw [class_of_mem_types ht]
      cases f
      · exact .inl rfl
      · exact .inr rfl
  · rintro (rfl | rfl)
    · exact hfamily .integers
    · exact hfamily .reals

theorem compatible_nil_iff :
    c.compatible .nil t = true ↔ t = .unknown ∨ t = .nil ∨ c.form t = .pointer := by
  have hknown : DataType.nil ≠ .unknown := by decide
  have hkin : DataType.nil.Kin t ↔ t = .nil := by
    have hnone : ∀ f : Family, f.has .nil = false := by
      intro f
      cases f <;> rfl
    simp only [Kin, hnone, Bool.false_eq_true, false_and, exists_false, or_false]
    exact eq_comm
  rw [compatible_iff, hkin]
  constructor
  · rintro (h | h | h | ⟨h, -⟩ | ⟨-, h⟩)
    · exact absurd h hknown
    · exact .inl h
    · exact .inr (.inl h)
    · exact .inr (.inl h)
    · exact .inr (.inr h)
  · rintro (h | h | h)
    · exact .inr (.inl h)
    · exact .inr (.inr (.inl h))
    · exact .inr (.inr (.inr (.inr ⟨rfl, h⟩)))

/-! ### Growth -/

theorem Extends.compatible_eq
    (h : c.Extends d) (ha : d.Has a) (hb : d.Has b) :
    c.compatible a b = d.compatible a b := by
  rw [compatible, compatible, h.form_eq ha, h.form_eq hb]

theorem Extends.element_eq (h : c.Extends d) (ht : d.Has t) : c.element t = d.element t := by
  rw [element, element, h.form_eq ht, h.shape_eq ht]

/-- The built-in types and behind them types of the given shapes, added one after the other. -/
def ofShapes (shapes : List Shape) : TypeCatalog :=
  shapes.foldl (fun c shape => (c.add shape).2) .builtin

theorem shapes_ofShapes (shapes : List Shape) :
    (ofShapes shapes).shapes.toList = TypeCatalog.builtin.shapes.toList ++ shapes := by
  induction shapes using List.reverseRecOn with
  | nil => simp [ofShapes]
  | append_singleton shapes shape ih =>
    rw [ofShapes, List.foldl_append]
    change ((ofShapes shapes).add shape).2.shapes.toList = _
    simp [add, ih]

theorem extends_ofShapes (shapes later : List Shape) :
    (ofShapes (shapes ++ later)).Extends (ofShapes shapes) := by
  rw [Extends, shapes_ofShapes, shapes_ofShapes, ← List.append_assoc]
  exact List.prefix_append _ _

/-- The pointers are `NIL` and what was added as a pointer. -/
theorem form_ofShapes_eq_pointer_iff (shapes : List Shape) :
    (ofShapes shapes).form t = .pointer ↔
      t = .nil ∨
      ∃ number shape,
        t = ⟨firstDeclared + number⟩ ∧ shapes[number]? = some shape ∧ shape.form = .pointer := by
  obtain ⟨number⟩ := t
  have hshape : (ofShapes shapes).shape ⟨number⟩ =
      ((TypeCatalog.builtin.shapes.toList ++ shapes)[number]?).getD {} := by
    rw [shape, ← shapes_ofShapes, Array.getElem?_toList]
  rw [form, hshape]
  by_cases hbuiltin : number < firstDeclared
  · have hnone : ¬ ∃ more shape, (⟨number⟩ : DataType) = ⟨firstDeclared + more⟩ ∧
          shapes[more]? = some shape ∧
        shape.form = .pointer := by
      rintro ⟨more, shape, h, -⟩
      rw [DataType.mk.injEq] at h
      omega
    rw [List.getElem?_append_left hbuiltin, or_iff_left hnone]
    change number < 10 at hbuiltin
    interval_cases number <;> decide
  · obtain ⟨more, rfl⟩ := Nat.exists_eq_add_of_le (Nat.le_of_not_lt hbuiltin)
    have hnil : (⟨firstDeclared + more⟩ : DataType) ≠ .nil := by
      intro h
      have hnumber : firstDeclared + more = 8 := congrArg DataType.number h
      have hfirst : firstDeclared = 10 := rfl
      omega
    have hlength : TypeCatalog.builtin.shapes.toList.length = firstDeclared := rfl
    rw [List.getElem?_append_right (hlength ▸ Nat.le_add_right _ _), hlength,
      Nat.add_sub_cancel_left, or_iff_right hnil]
    constructor
    · intro h
      cases hmore : shapes[more]? with
      | none => simp [hmore] at h
      | some shape => exact ⟨more, shape, rfl, hmore, by simpa [hmore] using h⟩
    · rintro ⟨more', shape, h, hmore, hform⟩
      obtain rfl : more = more' := by
        rw [DataType.mk.injEq] at h
        omega
      simp [hmore, hform]

end TypeCatalog

open TypeCatalog DataType in
/--
In every catalog that grows from the built-in types, compatibility is reflexive and symmetric, and
an unknown type is compatible with all types.  Without the unknown type and that of `NIL` it is an
equivalence, and its only classes with more than one member are the integers and the reals.  `NIL`
is compatible with the unknown type, itself and the types that were added as pointers. Further types
leave the answers for the earlier ones, and their shapes and elements, as they are.
-/
theorem compatible_of_catalog (shapes later : List Shape) :
    (∀ t,
      (ofShapes shapes).compatible t t = true ∧ (ofShapes shapes).compatible .unknown t = true) ∧
    (∀ a b, (ofShapes shapes).compatible a b = (ofShapes shapes).compatible b a) ∧
    (∃ family : Setoid Proper,
      (∀ a b : Proper, family a b ↔ (ofShapes shapes).compatible a b = true) ∧
      { k ∈ family.classes | k.Nontrivial } = { Family.integers.types, Family.reals.types }) ∧
    (∀ t,
      (ofShapes shapes).compatible .nil t = true ↔
        t = .unknown ∨ t = .nil ∨ (ofShapes shapes).form t = .pointer) ∧
    (∀ t,
      (ofShapes shapes).form t = .pointer ↔
        t = .nil ∨
        ∃ number shape,
          t = ⟨firstDeclared + number⟩ ∧ shapes[number]? = some shape ∧ shape.form = .pointer) ∧
    ∀ a b, (ofShapes shapes).Has a → (ofShapes shapes).Has b →
      (ofShapes (shapes ++ later)).compatible a b = (ofShapes shapes).compatible a b ∧
      (ofShapes (shapes ++ later)).shape a = (ofShapes shapes).shape a ∧
      (ofShapes (shapes ++ later)).element a = (ofShapes shapes).element a := by
  have hgrowth := extends_ofShapes shapes later
  refine ⟨fun t => ⟨compatible_self _ t, compatible_iff.2 (.inl rfl)⟩, compatible_comm _,
    ⟨family _, fun _ _ => Iff.rfl, family_classes _⟩, fun _ => compatible_nil_iff,
    fun _ => form_ofShapes_eq_pointer_iff shapes, fun a b ha hb => ?_⟩
  exact ⟨hgrowth.compatible_eq ha hb, hgrowth.shape_eq ha, hgrowth.element_eq ha⟩

end Oberon
