/-!
# The name buffer

The names of all symbols stand one behind the other in one text and are found by byte offsets.  An
offset inside a character, or behind the end, is no place in the text.
-/

namespace Oberon
namespace Names

/-- The text between two byte offsets, if both are places in the buffer. -/
def slice? (names : String) (start stop : Nat) : Option String :=
  if h : (String.Pos.Raw.mk start).IsValid names ∧ (String.Pos.Raw.mk stop).IsValid names then
    some (names.extract ⟨⟨start⟩, h.1⟩ ⟨⟨stop⟩, h.2⟩)
  else none

/-- The first `bytes` bytes of the buffer, if they end behind a character. -/
def take? (names : String) (bytes : Nat) : Option String :=
  slice? names 0 bytes

end Names
end Oberon
