import Mathlib.Data.List.TakeWhile
import Oberon.Proofs.Files.Outputs

/-!
# Pairs of outputs

The names of the outputs of a source, for every path with a file name.

**Parts.**  Such a path is a folder, a name and a tail of slashes and dots that do not count
(`exists_tail_of_parts?`).  The base of a name is what stands in front of its extension.

**Cuts.**  The extension is cut from the end of the whole path, so that a tail is cut first and some
of the extension may stay. The dot in front of it stays in every case (`dropExtension_append_tail`),
and then all that is left behind the base gives way.  So a path has its folder and the base of its
name in common with both outputs, unless nothing but `..` is left (`replaceExtension_append_tail`).

**Main statement.**  `outputs_paired_iff`: the outputs are a pair which is that of either output
again, unless the base is a single dot.
-/

namespace Oberon
namespace Path

variable {folder name behind base extension : List Char}

/-- What may stand behind the name of a path: slashes, and single dots behind slashes. -/
inductive IsTail : List Char → Prop
  | nil : IsTail []
  | slash {rest : List Char} (h : IsTail rest) : IsTail (rest ++ ['/'])
  | dot {rest : List Char} (h : IsTail rest) : IsTail (rest ++ ['/', '.'])

/--
The base of a name: all of it, or what stands in front of the last dot if that is not nothing.
-/
inductive IsBase : List Char → List Char → Prop
  | whole {name : List Char} (h : '.' ∉ name.tail) : IsBase name name
  | cut {base extension : List Char} (hbase : base ≠ []) (hextension : '.' ∉ extension) :
      IsBase (base ++ '.' :: extension) base

/--
The outputs of a path have all but their extensions in common, and are the outputs of either of them
again.
-/
structure Paired (path : String) (common : List Char) : Prop where
  implementation : Path.implementation path = String.ofList common ++ ".c"
  interface : Path.interface path = String.ofList common ++ ".h"
  apart : Path.implementation path ≠ Path.interface path
  again : ∀ output ∈ [Path.implementation path, Path.interface path],
    Path.implementation output = Path.implementation path ∧
      Path.interface output = Path.interface path

/-! ### Tails -/

/-- A tail does not count in a path. -/
theorem IsTail.dropSeparators_eq (h : IsTail behind) (path : List Char) :
    dropSeparators (path ++ behind).reverse = dropSeparators path.reverse := by
  induction h with
  | nil => simp
  | @slash rest _ ih => simpa [dropSeparators] using ih
  | @dot rest _ ih => simpa [dropSeparators] using ih

theorem IsTail.parts?_eq (h : IsTail behind) (path : List Char) :
    parts? (path ++ behind) = parts? path := by
  rw [parts?, parts?, h.dropSeparators_eq]

/-- The beginning of a tail is one. -/
theorem IsTail.beginning
    {text : List Char} (h : IsTail behind) (htext : text <+: behind) :
    IsTail text := by
  induction h with
  | nil =>
    rw [List.prefix_nil.1 htext]
    exact .nil
  | @slash rest hrest ih =>
    rcases List.prefix_concat_iff.1 htext with rfl | htext
    · exact .slash hrest
    · exact ih htext
  | @dot rest hrest ih =>
    have hconcat : rest ++ ['/', '.'] = (rest ++ ['/']) ++ ['.'] := by simp
    rw [hconcat] at htext
    rcases List.prefix_concat_iff.1 htext with rfl | htext
    · rw [← hconcat]
      exact .dot hrest
    · rcases List.prefix_concat_iff.1 htext with rfl | htext
      · exact .slash hrest
      · exact ih htext

theorem exists_tail_of_dropSeparators (backwards : List Char) :
    ∃ behind, IsTail behind ∧ backwards.reverse = (dropSeparators backwards).reverse ++ behind := by
  fun_induction dropSeparators backwards with
  | case1 rest ih =>
    obtain ⟨behind, hbehind, hrest⟩ := ih
    exact ⟨_, .slash hbehind, by simp [hrest]⟩
  | case2 rest ih =>
    obtain ⟨behind, hbehind, hrest⟩ := ih
    exact ⟨_, .dot hbehind, by simp [hrest]⟩
  | case3 rest => exact ⟨[], .nil, by simp⟩

/-- A path with a file name is its folder, the name and a tail. -/
theorem exists_tail_of_parts?
    {path : List Char} {parts : Parts} (h : parts? path = some parts) :
    ∃ behind,
      path = parts.before ++ parts.name ++ behind ∧
      IsFolder parts.before ∧
      IsName parts.name ∧
      IsTail behind := by
  obtain ⟨behind, hbehind, hpath⟩ := exists_tail_of_dropSeparators path.reverse
  rw [List.reverse_reverse] at hpath
  unfold parts? at h
  simp only [Option.ite_none_left_eq_some, not_or, Option.some.injEq] at h
  obtain ⟨⟨hnil, hhere, habove⟩, rfl⟩ := h
  refine ⟨behind, ?_, ?_, ⟨?_, hnil, hhere, habove⟩, hbehind⟩
  · rw [← List.reverse_append, List.takeWhile_append_dropWhile]
    exact hpath
  · -- The folder ends where the name begins, with a slash.
    cases hfolder : (dropSeparators path.reverse).dropWhile (· != '/') with
    | nil => exact .inl rfl
    | cons c rest =>
      have hc := List.head?_dropWhile_not (· != '/') (dropSeparators path.reverse)
      rw [hfolder] at hc
      have hslash : c = '/' := by simpa using hc
      exact .inr ⟨rest.reverse, by simp [hslash]⟩
  · intro hmem
    simpa using List.mem_takeWhile_imp (List.mem_reverse.1 hmem)

/-! ### Bases -/

theorem extension?_append (hbase : base ≠ []) (hextension : '.' ∉ extension) :
    extension? (base ++ '.' :: extension) = some (base, extension) := by
  obtain ⟨front, c, rfl⟩ : ∃ front c, base = front ++ [c] :=
    ⟨_, _, (List.dropLast_append_getLast hbase).symm⟩
  have hrun : ∀ d ∈ extension.reverse, (d != '.') = true := fun d hd => by
    simpa using fun h : d = '.' => hextension (h ▸ List.mem_reverse.1 hd)
  have hreverse : (front ++ [c] ++ '.' :: extension).reverse =
      extension.reverse ++ '.' :: c :: front.reverse := by
    simp
  unfold extension?
  rw [hreverse, List.dropWhile_append_of_pos hrun, List.takeWhile_append_of_pos hrun]
  simp

theorem stem_append (hbase : base ≠ []) (hextension : '.' ∉ extension) :
    stem (base ++ '.' :: extension) = base := by
  rw [stem, extension?_append hbase hextension]

theorem not_mem_of_extension? (h : extension? name = some (base, extension)) : '.' ∉ extension := by
  unfold extension? at h
  split at h
  · cases h
    intro hmem
    simpa using List.mem_takeWhile_imp (List.mem_reverse.1 hmem)
  · cases h

/-- Without an extension no dot stands behind the first character. -/
theorem not_mem_tail_of_extension? (h : extension? name = none) : '.' ∉ name.tail := by
  intro hmem
  cases name with
  | nil => cases hmem
  | cons c rest =>
    obtain ⟨extension, others, hrest, hextension⟩ :=
      List.eq_append_cons_of_mem (List.mem_reverse.2 hmem)
    have hname : c :: rest = (c :: others.reverse) ++ '.' :: extension.reverse := by
      rw [← List.reverse_reverse rest, show rest.reverse = _ from hrest]
      simp
    rw [hname, extension?_append (by simp) (by simpa using hextension)] at h
    cases h

theorem isBase_stem (name : List Char) : IsBase name (stem name) := by
  unfold stem
  cases hextension : extension? name with
  | none => exact .whole (not_mem_tail_of_extension? hextension)
  | some cut =>
    obtain ⟨base, extension⟩ := cut
    obtain ⟨hbase, hname⟩ := extension?_eq_some hextension
    rw [hname]
    exact .cut hbase (not_mem_of_extension? hextension)

/-! ### Cuts -/

/-- A cut of so many bytes leaves the end of a text that has at least as many. -/
theorem exists_dropBytes_append
    {bytes : Nat}
    {text : List Char}
    (h : bytes ≤ byteCount text)
    (rest : List Char) :
    ∃ left,
      left <:+ text ∧
      byteCount text ≤ bytes + byteCount left ∧
      dropBytes bytes (text ++ rest) = left ++ rest := by
  induction text generalizing bytes with
  | nil =>
    obtain rfl : bytes = 0 := Nat.le_zero.1 h
    exact ⟨[], List.suffix_refl _, Nat.le_refl _, dropBytes_byteCount [] rest⟩
  | cons c text ih =>
    by_cases hc : c.utf8Size ≤ bytes
    · rw [byteCount] at h
      have hle : bytes - c.utf8Size ≤ byteCount text := by omega
      obtain ⟨left, hleft, hcount, hdrop⟩ := ih hle
      refine ⟨left, hleft.trans (List.suffix_cons c text), ?_, ?_⟩
      · rw [byteCount]
        omega
      · rw [List.cons_append, dropBytes, if_pos hc, hdrop]
    · refine ⟨c :: text, List.suffix_refl _, Nat.le_add_left _ _, ?_⟩
      rw [List.cons_append, dropBytes, if_neg hc]

theorem byteCount_pos {text : List Char} (h : text ≠ []) : 0 < byteCount text := by
  obtain ⟨c, rest, rfl⟩ := List.exists_cons_of_ne_nil h
  have hc := Char.utf8Size_pos c
  rw [byteCount]
  omega

/--
A cut of the bytes of some text in front of other text keeps a beginning of both; only if there is
no other text it is empty.
-/
theorem exists_dropBytes_reverse (before text behind : List Char) :
    ∃ kept,
      kept <+: text ++ behind ∧
      (kept = [] ↔ behind = []) ∧
      (dropBytes (byteCount text) (before ++ (text ++ behind)).reverse).reverse =
        before ++ kept := by
  have hle : byteCount text ≤ byteCount (text ++ behind).reverse := by
    rw [byteCount_reverse, byteCount_append]
    exact Nat.le_add_right _ _
  obtain ⟨left, hleft, hcount, hdrop⟩ := exists_dropBytes_append hle before.reverse
  rw [byteCount_reverse, byteCount_append] at hcount
  refine ⟨left.reverse, List.reverse_suffix.1 (by simpa using hleft), ?_, ?_⟩
  · rw [List.reverse_eq_nil_iff]
    constructor
    · rintro rfl
      by_contra hbehind
      have hpos := byteCount_pos hbehind
      simp only [byteCount] at hcount
      omega
    · rintro rfl
      rw [List.append_nil, ← byteCount_reverse, dropBytes_byteCount] at hdrop
      simpa using hdrop
  · rw [List.reverse_append, hdrop, List.reverse_append, List.reverse_reverse]

/-- Behind a tail only some of an extension is cut off; the dot and the base stay in every case. -/
theorem dropExtension_append_tail
    (hfolder : IsFolder folder)
    (hname : IsName (base ++ '.' :: extension))
    (hbehind : IsTail behind)
    (hbase : base ≠ [])
    (hextension : '.' ∉ extension) :
    ∃ kept rest,
      kept <+: extension ∧
      rest <+: behind ∧
      (extension ≠ [] → (kept = [] ↔ behind = [])) ∧
      dropExtension (folder ++ (base ++ '.' :: extension) ++ behind) =
        folder ++ (base ++ '.' :: kept) ++ rest := by
  obtain ⟨kept, hkept, hnil, hcut⟩ :=
    exists_dropBytes_reverse (folder ++ (base ++ ['.'])) extension behind
  have hdrop : dropExtension (folder ++ (base ++ '.' :: extension) ++ behind) =
      folder ++ (base ++ ['.']) ++ kept := by
    rw [dropExtension, hbehind.parts?_eq, parts?_append_of_isName hfolder hname, Option.bind_some,
      extension?_append hbase hextension]
    simpa using hcut
  rcases List.prefix_or_prefix_of_prefix hkept (List.prefix_append _ _) with hfront | ⟨rest, rfl⟩
  · exact ⟨kept, [], hfront, ⟨behind, rfl⟩, fun _ => hnil, by rw [hdrop]; simp⟩
  · refine ⟨extension, rest, List.prefix_refl _, (List.prefix_append_right_inj _).1 hkept,
      fun hne => ?_, by rw [hdrop]; simp⟩
    simpa [hne] using hnil

/--
The path with another extension: the folder, the base of the name and the extension.  Of a name with
a single dot for a base nothing is left but the directory above, unless a tail stands behind it.
-/
theorem replaceExtension_append_tail
    (hfolder : IsFolder folder)
    (hname : IsName name)
    (hbehind : IsTail behind)
    (ending : String) :
    replaceExtension (String.ofList (folder ++ name ++ behind)) ending =
      if stem name = ['.'] ∧ behind = [] then String.ofList (folder ++ ['.', '.'])
        else String.ofList (folder ++ (stem name ++ '.' :: ending.toList)) := by
  have hparts : parts? (folder ++ name ++ behind) = some ⟨folder, name⟩ := by
    rw [hbehind.parts?_eq, parts?_append_of_isName hfolder hname]
  cases hextension : extension? name with
  | none =>
    have hstem : stem name = name := by rw [stem, hextension]
    have hkept : parts? (dropExtension (String.ofList (folder ++ name ++ behind)).toList) =
        some ⟨folder, name⟩ := by
      rw [String.toList_ofList, dropExtension, hparts, Option.bind_some, hextension]
      exact hparts
    rw [replaceExtension_of_parts? hkept, hstem, if_neg fun h => hname.ne_here h.1]
  | some cut =>
    obtain ⟨base, extension⟩ := cut
    obtain ⟨hbase, rfl⟩ := extension?_eq_some hextension
    have hdot := not_mem_of_extension? hextension
    obtain ⟨kept, rest, hkept, hrest, hnil, hdrop⟩ :=
      dropExtension_append_tail hfolder hname hbehind hbase hdot
    have hslash : '/' ∉ base ++ '.' :: kept := by
      have hmem := hname.not_mem
      simp only [List.mem_append, List.mem_cons, not_or] at hmem ⊢
      exact ⟨hmem.1, hmem.2.1, fun h => hmem.2.2 (hkept.subset h)⟩
    have hcut : parts?
          (dropExtension (String.ofList (folder ++ (base ++ '.' :: extension) ++ behind)).toList) =
        if base ++ '.' :: kept = ['.', '.'] then none else some ⟨folder, base ++ '.' :: kept⟩ := by
      rw [String.toList_ofList, hdrop, (hbehind.beginning hrest).parts?_eq]
      exact parts?_append hfolder hslash (by simp) (by simp [List.append_eq_cons_iff, hbase])
    -- The name of the directory above is left of a dot and an extension that was cut off whole.
    have habove : base ++ '.' :: kept = ['.', '.'] ↔ base = ['.'] ∧ behind = [] := by
      constructor
      · intro h
        obtain ⟨rfl, hkept⟩ : base = ['.'] ∧ kept = [] := by
          obtain ⟨c, front, rfl⟩ := List.exists_cons_of_ne_nil hbase
          simpa [List.append_eq_singleton_iff, and_assoc] using h
        exact ⟨rfl, (hnil fun hnone => hname.ne_above (by simp [hnone])).1 hkept⟩
      · rintro ⟨rfl, hbehind⟩
        rw [(hnil fun hnone => hname.ne_above (by simp [hnone])).2 hbehind]
        rfl
    rw [stem_append hbase hdot]
    by_cases h : base = ['.'] ∧ behind = []
    · rw [if_pos (habove.2 h)] at hcut
      obtain rfl : rest = [] := List.prefix_nil.1 (h.2 ▸ hrest)
      rw [if_pos h, replaceExtension, hcut, String.toList_ofList, hdrop, habove.2 h,
        List.append_nil]
    · rw [if_neg fun heq => h (habove.1 heq)] at hcut
      rw [if_neg h, replaceExtension_of_parts? hcut,
        stem_append hbase fun h => hdot (hkept.subset h)]

theorem IsBase.of_isName (h : IsBase name base) (hname : IsName name) : base ≠ [] ∧ '/' ∉ base := by
  cases h with
  | whole _ => exact ⟨hname.ne_nil, hname.not_mem⟩
  | cut hbase _ => exact ⟨hbase, fun hslash => hname.not_mem (List.mem_append_left _ hslash)⟩

theorem ofList_append_ending (folder base : List Char) (ending : String) :
    String.ofList (folder ++ (base ++ '.' :: ending.toList)) =
      String.ofList (folder ++ base) ++ ("." ++ ending) := by
  apply String.toList_injective
  simp

/-- The outputs of a path. -/
theorem replaceExtension_of_toList
    {path : String}
    (hpath : path.toList = folder ++ name ++ behind)
    (hfolder : IsFolder folder)
    (hname : IsName name)
    (hbehind : IsTail behind)
    (ending : String) :
    replaceExtension path ending =
      if stem name = ['.'] ∧ behind = [] then String.ofList (folder ++ ['.', '.'])
        else String.ofList (folder ++ stem name) ++ ("." ++ ending) := by
  rw [← String.ofList_toList (s := path), hpath, replaceExtension_append_tail hfolder hname hbehind,
    ofList_append_ending]

/-- The outputs of an output. -/
theorem replaceExtension_output
    (hfolder : IsFolder folder)
    (hname : IsName name)
    {ending : String}
    (hending : ending ∈ ["c", "h"])
    (other : String) :
    replaceExtension (String.ofList (folder ++ stem name) ++ ("." ++ ending)) other =
      if stem name = ['.'] then String.ofList (folder ++ ['.', '.'])
        else String.ofList (folder ++ stem name) ++ ("." ++ other) := by
  have hplain : ∀ ending ∈ ["c", "h"],
      ending.toList ≠ [] ∧ '/' ∉ ending.toList ∧ '.' ∉ ending.toList := by
    decide
  obtain ⟨hne, hslash, hdot⟩ := hplain ending hending
  obtain ⟨hbase, hbaseslash⟩ := (isBase_stem name).of_isName hname
  have houtput : IsName (stem name ++ '.' :: ending.toList) :=
    FileTree.isName_append_extension hbase hbaseslash hne hslash
  have hpath : (String.ofList (folder ++ stem name) ++ ("." ++ ending)).toList =
      folder ++ (stem name ++ '.' :: ending.toList) ++ [] := by
    rw [← ofList_append_ending, String.toList_ofList, List.append_nil]
  rw [replaceExtension_of_toList hpath hfolder houtput .nil, stem_append hbase hdot]
  simp

/--
A path with a file name is a folder, the name and a tail.  Its outputs have the folder and the base
of the name in common and differ in their extensions, and they are the outputs of either of them
again, unless the base is a single dot.  In that case both outputs are the directory above if there
is no tail, and otherwise both outputs of an output are.
-/
theorem outputs_paired_iff
    {path : String} {parts : Parts} (h : parts? path.toList = some parts) :
    ∃ base behind,
      path.toList = parts.before ++ parts.name ++ behind ∧
      IsFolder parts.before ∧
      IsName parts.name ∧
      IsTail behind ∧
      IsBase parts.name base ∧
      (Paired path (parts.before ++ base) ↔ base ≠ ['.']) ∧
      (base = ['.'] →
        behind = [] →
        implementation path = String.ofList (parts.before ++ ['.', '.']) ∧
        interface path = String.ofList (parts.before ++ ['.', '.'])) ∧
      (base = ['.'] →
        behind ≠ [] →
        implementation path = String.ofList (parts.before ++ base) ++ ".c" ∧
        interface path = String.ofList (parts.before ++ base) ++ ".h" ∧
        ∀ output ∈ [implementation path, interface path],
          implementation output = String.ofList (parts.before ++ ['.', '.']) ∧
          interface output = String.ofList (parts.before ++ ['.', '.'])) := by
  obtain ⟨behind, hpath, hfolder, hname, hbehind⟩ := exists_tail_of_parts? h
  obtain ⟨folder, name⟩ := parts
  dsimp only at hpath hfolder hname ⊢
  have houtput := replaceExtension_of_toList hpath hfolder hname hbehind
  have hagain : ∀ ending ∈ ["c", "h"], ∀ other,
      replaceExtension (String.ofList (folder ++ stem name) ++ ("." ++ ending)) other =
        if stem name = ['.'] then
        String.ofList (folder ++ ['.', '.']) else String.ofList (folder ++ stem name) ++
          ("." ++ other) :=
    fun _ hending => replaceExtension_output hfolder hname hending
  have habove : stem name = ['.'] → behind = [] →
        implementation path = String.ofList (folder ++ ['.', '.']) ∧
      interface path = String.ofList (folder ++ ['.', '.']) := by
    intro hdot hnone
    exact ⟨(houtput "c").trans (if_pos ⟨hdot, hnone⟩), (houtput "h").trans (if_pos ⟨hdot, hnone⟩)⟩
  have hbeside : ¬(stem name = ['.'] ∧ behind = []) →
        implementation path = String.ofList (folder ++ stem name) ++ ".c" ∧
      interface path = String.ofList (folder ++ stem name) ++ ".h" := by
    intro hrest
    exact ⟨(houtput "c").trans (if_neg hrest), (houtput "h").trans (if_neg hrest)⟩
  have hlost : stem name = ['.'] → behind ≠ [] → ∀ output ∈ [implementation path, interface path],
      implementation output = String.ofList (folder ++ ['.', '.']) ∧
        interface output = String.ofList (folder ++ ['.', '.']) := by
    intro hdot htail output houtput
    obtain ⟨hc, hh⟩ := hbeside fun hnone => htail hnone.2
    rw [hc, hh, List.mem_pair] at houtput
    obtain rfl | rfl := houtput
    · exact ⟨(hagain "c" (by decide) "c").trans (if_pos hdot),
        (hagain "c" (by decide) "h").trans (if_pos hdot)⟩
    · exact ⟨(hagain "h" (by decide) "c").trans (if_pos hdot),
        (hagain "h" (by decide) "h").trans (if_pos hdot)⟩
  refine ⟨stem name, behind, hpath, hfolder, hname, hbehind, isBase_stem name, ⟨?_, ?_⟩, habove, ?_⟩
  · intro hpaired hdot
    by_cases htail : behind = []
    · exact hpaired.apart ((habove hdot htail).1.trans (habove hdot htail).2.symm)
    · -- The outputs of the implementation are one file, and so not the two outputs of the source.
      obtain ⟨hc, hh⟩ := hpaired.again (implementation path) (by simp)
      obtain ⟨hc', hh'⟩ := hlost hdot htail (implementation path) (by simp)
      exact hpaired.apart (hc.symm.trans (hc'.trans (hh'.symm.trans hh)))
  · intro hdot
    obtain ⟨hc, hh⟩ := hbeside fun hnone => hdot hnone.1
    refine ⟨hc, hh, ?_, ?_⟩
    · rw [hc, hh]
      intro heq
      have hlists := congrArg String.toList heq
      simp at hlists
    · intro output houtput
      rw [hc, hh, List.mem_pair] at houtput
      rw [hc, hh]
      obtain rfl | rfl := houtput
      · exact ⟨(hagain "c" (by decide) "c").trans (if_neg hdot),
          (hagain "c" (by decide) "h").trans (if_neg hdot)⟩
      · exact ⟨(hagain "h" (by decide) "c").trans (if_neg hdot),
          (hagain "h" (by decide) "h").trans (if_neg hdot)⟩
  · intro hdot htail
    obtain ⟨hc, hh⟩ := hbeside fun hnone => htail hnone.2
    exact ⟨hc, hh, hlost hdot htail⟩

theorem outputs_paired_iff_double_dot :
    parts? "src/..Mod".toList = some ⟨"src/".toList, "..Mod".toList⟩ ∧
    ∃ base behind,
      "src/..Mod".toList = "src/".toList ++ "..Mod".toList ++ behind ∧
      IsBase "..Mod".toList base ∧
      (Paired "src/..Mod" ("src/".toList ++ base) ↔ base ≠ ['.']) := by
  have hparts : parts? "src/..Mod".toList = some ⟨"src/".toList, "..Mod".toList⟩ := by decide
  obtain ⟨base, behind, hpath, _, _, _, hbase, hpaired, _⟩ := outputs_paired_iff hparts
  exact ⟨hparts, base, behind, hpath, hbase, hpaired⟩

end Path
end Oberon
