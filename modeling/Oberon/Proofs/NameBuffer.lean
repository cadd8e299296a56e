import Oberon.SymbolTable.Basic
import Mathlib.Tactic

/-!
# Slices of the name buffer

A slice of the name buffer is a part of it as a text: what stands before and behind it makes up the
rest.
-/

namespace Oberon
namespace Names

/-- The places in a buffer are the ends of the texts that it begins with. -/
theorem isValid_iff (names : String) (bytes : Nat) :
    (String.Pos.Raw.mk bytes).IsValid names ↔
      ∃ before behind, names = before ++ behind ∧ bytes = before.utf8ByteSize := by
  constructor
  · intro h
    have hsplits := String.Pos.splits (⟨⟨bytes⟩, h⟩ : names.Pos)
    exact ⟨_, _, hsplits.eq_append, congrArg String.Pos.Raw.byteIdx hsplits.offset_eq_rawEndPos⟩
  · rintro ⟨before, behind, rfl, rfl⟩
    exact String.Pos.Raw.isValid_rawEndPos.append_right behind

theorem slice?_eq_some_iff
    (names : String) (start length : Nat) (text : String) :
    slice? names start (start + length) = some text ↔
      ∃ before behind,
        names = before ++ text ++ behind ∧
        start = before.utf8ByteSize ∧
        length = text.utf8ByteSize := by
  unfold slice?
  constructor
  · intro h
    split at h
    · rename_i hvalid
      have hle : (⟨⟨start⟩, hvalid.1⟩ : names.Pos) ≤ ⟨⟨start + length⟩, hvalid.2⟩ :=
        Nat.le_add_right start length
      rw [Option.some.injEq, String.extract_eq_copy_slice _ _ hle] at h
      obtain ⟨before, behind, hstart, hstop⟩ := String.copy_slice_eq_iff_splits.1 ⟨hle, h⟩
      have hbefore : start = before.utf8ByteSize :=
        congrArg String.Pos.Raw.byteIdx hstart.offset_eq_rawEndPos
      have htext : start + length = (before ++ text).utf8ByteSize :=
        congrArg String.Pos.Raw.byteIdx hstop.offset_eq_rawEndPos
      rw [String.utf8ByteSize_append] at htext
      exact ⟨before, behind, hstop.eq_append, hbefore, by omega⟩
    · cases h
  · rintro ⟨before, behind, rfl, rfl, rfl⟩
    have hstart := (isValid_iff (before ++ text ++ behind) before.utf8ByteSize).2
      ⟨before, text ++ behind, String.append_assoc, rfl⟩
    have hstop :=
      (isValid_iff (before ++ text ++ behind) (before.utf8ByteSize + text.utf8ByteSize)).2
      ⟨before ++ text, behind, rfl, (String.utf8ByteSize_append ..).symm⟩
    rw [dif_pos ⟨hstart, hstop⟩, Option.some.injEq]
    have hle : (⟨⟨before.utf8ByteSize⟩, hstart⟩ : (before ++ text ++ behind).Pos) ≤
        ⟨⟨before.utf8ByteSize + text.utf8ByteSize⟩, hstop⟩ := Nat.le_add_right _ _
    rw [String.extract_eq_copy_slice _ _ hle]
    obtain ⟨_, hcopy⟩ := String.copy_slice_eq_iff_splits.2
      ⟨before, behind,
        (⟨String.append_assoc, rfl⟩ :
          (⟨⟨before.utf8ByteSize⟩, hstart⟩ : (before ++ text ++ behind).Pos).Splits _ _),
        (⟨rfl, congrArg String.Pos.Raw.mk (String.utf8ByteSize_append ..).symm⟩ :
          (⟨⟨before.utf8ByteSize + text.utf8ByteSize⟩, hstop⟩ :
            (before ++ text ++ behind).Pos).Splits _ _)⟩
    exact hcopy

theorem take?_eq_some_iff
    (names : String) (bytes : Nat) (text : String) :
    take? names bytes = some text ↔
      ∃ behind, names = text ++ behind ∧ bytes = text.utf8ByteSize := by
  have hslice := slice?_eq_some_iff names 0 bytes text
  rw [Nat.zero_add] at hslice
  rw [take?, hslice]
  constructor
  · rintro ⟨before, behind, hnames, hbefore, hbytes⟩
    obtain rfl : before = "" := String.utf8ByteSize_eq_zero_iff.1 hbefore.symm
    exact ⟨behind, by simpa using hnames, hbytes⟩
  · rintro ⟨behind, rfl, rfl⟩
    exact ⟨"", behind, by simp, by simp, rfl⟩

end Names
end Oberon
