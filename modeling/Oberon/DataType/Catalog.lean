import Oberon.DataType.Basic

/-!
# The types of a module

A catalog holds the shape of every type known while one module is compiled: first the built-in
types, then the arrays and pointers in the order of their declaration.  A number beyond the catalog
reads as a scalar.
-/

namespace Oberon

/-- The form of a type. -/
inductive Form
  | scalar | array | pointer
  deriving DecidableEq, Repr

/-- What is known of a type; the length is 0 for anything but an array of known size. -/
structure Shape where
  form : Form := .scalar
  base : DataType := .unknown
  length : Nat := 0
  deriving DecidableEq, Repr

/-- The shapes of the known types, by number. -/
structure TypeCatalog where
  shapes : Array Shape
  deriving DecidableEq, Repr

namespace TypeCatalog

/-- The built-in types alone. -/
def builtin : TypeCatalog :=
  ⟨#[{}, {}, {}, {}, {}, {}, {}, { form := .array, base := .char }, { form := .pointer }, {}]⟩

def size (c : TypeCatalog) : Nat := c.shapes.size

/-- Adds a type under the next number. -/
def add (c : TypeCatalog) (shape : Shape) : DataType × TypeCatalog :=
  (⟨c.size⟩, ⟨c.shapes.push shape⟩)

/-- The shape of a type; a number that was never given out reads as a scalar. -/
def shape (c : TypeCatalog) (t : DataType) : Shape :=
  c.shapes[t.number]?.getD {}

def form (c : TypeCatalog) (t : DataType) : Form := (c.shape t).form

/-- The type of the elements of an array; an unknown type has elements of unknown type. -/
def element (c : TypeCatalog) (t : DataType) : Except TypeError DataType :=
  if t = .unknown then .ok .unknown
  else if c.form t = .array then .ok (c.shape t).base
  else .error .arrayExpected

/--
Whether values of one type may stand for values of the other: one of them is unknown, they are
equal, both are integers, both are reals, or one is the type of `NIL` and the other a pointer.
-/
def compatible (c : TypeCatalog) (a b : DataType) : Bool :=
  a == .unknown || b == .unknown || a == b
    || (a.isInteger && b.isInteger) || (a.isReal && b.isReal)
    || (b == .nil && c.form a == .pointer) || (a == .nil && c.form b == .pointer)

/-- Demands compatible types. -/
def requireCompatible (c : TypeCatalog) (a b : DataType) : Except TypeError Unit :=
  if c.compatible a b then .ok () else .error (.mismatch a b)

end TypeCatalog
end Oberon
