import Oberon.Path
import Oberon.Proofs.Files.Tree

/-!
# Where outputs go

The outputs of a source file stand next to it: the path of an output is the folder of the source,
its name up to the last dot, and another extension (`Path.replaceExtension_append`).  A name such as
`..a` is an exception, for which both outputs are the directory above.

`Sites.At` collects what follows for the locations of a source that can be read and of its outputs:
the outputs are two locations unless they are directories, and the source is neither of them unless
its path is the path of an output.
-/

namespace Oberon

namespace Path

variable {folder name : List Char}

theorem dropSeparators_eq_self {path : List Char} (hslash : ∀ rest, path ≠ '/' :: rest)
    (hdot : ∀ rest, path ≠ '.' :: '/' :: rest) : dropSeparators path = path := by
  fun_cases dropSeparators path with
  | case1 rest => exact absurd rfl (hslash rest)
  | case2 rest => exact absurd rfl (hdot rest)
  | case3 => rfl

theorem dropSeparators_reverse (hname : '/' ∉ name) (hne : name ≠ []) (hhere : name ≠ ['.']) :
    dropSeparators (folder ++ name).reverse = (folder ++ name).reverse := by
  obtain ⟨front, c, rfl⟩ := List.eq_nil_or_concat name |>.resolve_left hne
  have hc : c ≠ '/' := by rintro rfl; simp at hname
  refine dropSeparators_eq_self ?_ ?_
  · intro rest h
    simp [hc] at h
  · intro rest h
    cases front using List.reverseRecOn with
    | nil => simp_all
    | append_singleton front d => simp_all

theorem ne_slash_of_mem_reverse (hname : '/' ∉ name) : ∀ c ∈ name.reverse, (c != '/') = true := by
  intro c hc
  simpa using fun h : c = '/' => hname (h ▸ List.mem_reverse.mp hc)

theorem takeWhile_reverse (hfolder : IsFolder folder) (hname : '/' ∉ name) :
    (folder ++ name).reverse.takeWhile (· != '/') = name.reverse := by
  rw [List.reverse_append, List.takeWhile_append_of_pos (ne_slash_of_mem_reverse hname)]
  rcases hfolder with rfl | ⟨front, rfl⟩ <;> simp

theorem dropWhile_reverse (hfolder : IsFolder folder) (hname : '/' ∉ name) :
    (folder ++ name).reverse.dropWhile (· != '/') = folder.reverse := by
  rw [List.reverse_append, List.dropWhile_append_of_pos (ne_slash_of_mem_reverse hname)]
  rcases hfolder with rfl | ⟨front, rfl⟩ <;> simp

/--
The folder and the name of a path are its parts, unless the name is that of the directory above.
-/
theorem parts?_append
    (hfolder : IsFolder folder)
    (hname : '/' ∉ name)
    (hne : name ≠ [])
    (hhere : name ≠ ['.']) :
    parts? (folder ++ name) = if name = ['.', '.'] then none else some ⟨folder, name⟩ := by
  simp [parts?, dropSeparators_reverse hname hne hhere, takeWhile_reverse hfolder hname,
    dropWhile_reverse hfolder hname,
    hne, hhere, - List.reverse_append]

theorem extension?_eq_some
    {base extension : List Char} (h : extension? name = some (base, extension)) :
    base ≠ [] ∧ name = base ++ '.' :: extension := by
  unfold extension? at h
  split at h
  case h_1 c rest hdrop =>
    cases h
    refine ⟨by simp, ?_⟩
    have hsplit := List.takeWhile_append_dropWhile (p := (· != '.')) (l := name.reverse)
    rw [hdrop] at hsplit
    simpa using (congrArg List.reverse hsplit).symm
  case h_2 => cases h

theorem extension?_append_dot {base : List Char} (hne : base ≠ []) :
    extension? (base ++ ['.']) = some (base, []) := by
  obtain ⟨front, c, rfl⟩ := List.eq_nil_or_concat base |>.resolve_left hne
  simp [extension?]

theorem byteCount_append (text rest : List Char) :
    byteCount (text ++ rest) = byteCount text + byteCount rest := by
  induction text with
  | nil => simp [byteCount]
  | cons c text ih => simp [byteCount, ih, Nat.add_assoc]

theorem byteCount_reverse (text : List Char) : byteCount text.reverse = byteCount text := by
  induction text with
  | nil => rfl
  | cons c text ih => simp [byteCount_append, byteCount, ih, Nat.add_comm]

theorem dropBytes_byteCount (text rest : List Char) :
    dropBytes (byteCount text) (text ++ rest) = rest := by
  induction text with
  | nil =>
    cases rest with
    | nil => rfl
    | cons c rest => simp [dropBytes, byteCount, (Char.utf8Size_pos c).ne']
  | cons c text ih => simp [dropBytes, byteCount, ih]

theorem parts?_append_of_isName (hfolder : IsFolder folder) (hname : IsName name) :
    parts? (folder ++ name) = some ⟨folder, name⟩ := by
  rw [parts?_append hfolder hname.not_mem hname.ne_nil hname.ne_here, if_neg hname.ne_above]

theorem dropExtension_append_of_none
    (hfolder : IsFolder folder)
    (hname : IsName name)
    (hextension : extension? name = none) :
    dropExtension (folder ++ name) = folder ++ name := by
  simp [dropExtension, parts?_append_of_isName hfolder hname, hextension]

theorem dropExtension_append_of_some
    (hfolder : IsFolder folder)
    (hname : IsName name)
    {base extension : List Char}
    (hextension : extension? name = some (base, extension)) :
    dropExtension (folder ++ name) = folder ++ (base ++ ['.']) := by
  have hreverse : (folder ++ name).reverse =
      extension.reverse ++ (folder ++ (base ++ ['.'])).reverse := by
    simp [(extension?_eq_some hextension).2]
  simp only [dropExtension, parts?_append_of_isName hfolder hname, Option.bind_some, hextension]
  rw [hreverse, ← byteCount_reverse, dropBytes_byteCount, List.reverse_reverse]

theorem replaceExtension_of_parts?
    {path extension : String}
    {parts : Parts}
    (hparts : parts? (dropExtension path.toList) = some parts) :
    replaceExtension path extension =
      String.ofList (parts.before ++ (stem parts.name ++ '.' :: extension.toList)) := by
  simp only [replaceExtension, hparts]
  apply String.toList_injective
  simp

/--
A path with another extension: the name up to its last dot takes the extension, or nothing is left
but the directory above.
-/
theorem replaceExtension_append (hfolder : IsFolder folder) (hname : IsName name) :
    (∃ base,
      base ≠ [] ∧
      '/' ∉ base ∧
      ∀ extension,
        replaceExtension (String.ofList (folder ++ name)) extension =
          String.ofList (folder ++ (base ++ '.' :: extension.toList))) ∨
    ∀ extension,
      replaceExtension (String.ofList (folder ++ name)) extension =
        String.ofList (folder ++ ['.', '.']) := by
  cases hextension : extension? name with
  | none =>
    refine .inl ⟨name, hname.ne_nil, hname.not_mem, fun extension => ?_⟩
    have hparts : parts? (dropExtension (String.ofList (folder ++ name)).toList) =
        some ⟨folder, name⟩ := by
      rw [String.toList_ofList, dropExtension_append_of_none hfolder hname hextension,
        parts?_append_of_isName hfolder hname]
    rw [replaceExtension_of_parts? hparts, stem, hextension]
  | some cut =>
    obtain ⟨base, dropped⟩ := cut
    obtain ⟨hbase, hdropped⟩ := extension?_eq_some hextension
    have hslash : '/' ∉ base := fun h => hname.not_mem (by simp [hdropped, h])
    -- the dot stays behind when the extension is taken off
    have hparts : parts? (dropExtension (String.ofList (folder ++ name)).toList) =
        if base ++ ['.'] = ['.', '.'] then none else some ⟨folder, base ++ ['.']⟩ := by
      rw [String.toList_ofList, dropExtension_append_of_some hfolder hname hextension]
      exact parts?_append hfolder (by simp [hslash]) (by simp) (by simp [hbase])
    by_cases habove : base ++ ['.'] = ['.', '.']
    · refine .inr fun extension => ?_
      rw [if_pos habove] at hparts
      simp only [replaceExtension, hparts]
      rw [String.toList_ofList, dropExtension_append_of_some hfolder hname hextension, habove]
    · refine .inl ⟨base, hbase, hslash, fun extension => ?_⟩
      rw [if_neg habove] at hparts
      rw [replaceExtension_of_parts? hparts, stem, extension?_append_dot hbase]

end Path

/-- The locations of a source and of its outputs. -/
structure Sites where
  source : Location
  implementation : Location
  interface : Location

/-- The locations where the path of a source and the paths of its outputs lead. -/
structure Sites.At (sites : Sites) (t : FileTree) (path : String) : Prop where
  source : t.resolve path = .ok sites.source
  implementation : t.resolve (Path.implementation path) = .ok sites.implementation
  interface : t.resolve (Path.interface path) = .ok sites.interface
  apart : sites.implementation = sites.interface → t.IsDirectory sites.implementation
  own_implementation : sites.source = sites.implementation → Path.implementation path = path
  own_interface : sites.source = sites.interface → Path.interface path = path

namespace FileTree

variable {t u : FileTree} {path : String} {content : ByteArray}

theorem SameDirectories.at
    {sites : Sites} (hsame : SameDirectories t u) (h : sites.At t path) : sites.At u path where
  source := hsame.resolve_eq_ok h.source
  implementation := hsame.resolve_eq_ok h.implementation
  interface := hsame.resolve_eq_ok h.interface
  apart heq := hsame.isDirectory (h.apart heq)
  own_implementation := h.own_implementation
  own_interface := h.own_interface

theorem isName_append_extension
    {base extension : List Char}
    (hbase : base ≠ [])
    (hslash : '/' ∉ base)
    (hextension : extension ≠ [])
    (hslash' : '/' ∉ extension) :
    Path.IsName (base ++ '.' :: extension) := by
  have hlength : 2 < (base ++ '.' :: extension).length := by
    have hbase : 0 < base.length := List.length_pos_iff.mpr hbase
    have hextension : 0 < extension.length := List.length_pos_iff.mpr hextension
    simp
    omega
  refine ⟨by simp [hslash, hslash'], by simp, ?_, ?_⟩
  · intro h
    simp [h] at hlength
  · intro h
    simp [h] at hlength

theorem eq_of_append_name_eq
    {location : Location}
    {name other : List Char}
    (h : location ++ [String.ofList name] = location ++ [String.ofList other]) :
    name = other :=
  String.ofList_inj.mp (List.singleton_inj.mp (List.append_cancel_left h))

/-- A source that can be read has locations for its outputs. -/
theorem exists_sites_of_read (h : t.read path = .ok content) :
    ∃ sites : Sites, sites.At t path ∧ t.get? sites.source = some (.file content) := by
  obtain ⟨location, hresolve, hnode⟩ := read_eq_ok_iff.mp h
  obtain ⟨folder, name, inner, hpath, hfolder, hname, hreach, hinner⟩ := exists_folder_of_read h
  obtain rfl : path = String.ofList (folder ++ name) := by rw [← hpath, String.ofList_toList]
  have hsource := resolve_append_of_isName hfolder hreach hinner hname
  obtain rfl : location = inner ++ [String.ofList name] := by
    rw [hresolve] at hsource
    injection hsource
  rcases Path.replaceExtension_append hfolder hname with ⟨base, hbase, hslash, houtput⟩ | houtput
  · have himplementation : Path.IsName (base ++ '.' :: "c".toList) :=
      isName_append_extension hbase hslash (by decide) (by decide)
    have hinterface : Path.IsName (base ++ '.' :: "h".toList) :=
      isName_append_extension hbase hslash (by decide) (by decide)
    let sites : Sites :=
      ⟨inner ++ [String.ofList name],
        inner ++ [String.ofList (base ++ '.' :: "c".toList)],
        inner ++ [String.ofList (base ++ '.' :: "h".toList)]⟩
    refine ⟨sites, ⟨hresolve, ?_, ?_, ?_, ?_, ?_⟩, hnode⟩
    · rw [Path.implementation, houtput]
      exact resolve_append_of_isName hfolder hreach hinner himplementation
    · rw [Path.interface, houtput]
      exact resolve_append_of_isName hfolder hreach hinner hinterface
    · intro heq
      simpa using eq_of_append_name_eq heq
    · intro heq
      rw [Path.implementation, houtput, ← eq_of_append_name_eq heq]
    · intro heq
      rw [Path.interface, houtput, ← eq_of_append_name_eq heq]
  · obtain ⟨above, habove, hdirectory⟩ := exists_resolve_append_above hfolder hreach hinner
    have hne : inner ++ [String.ofList name] ≠ above := by
      rintro rfl
      simp [IsDirectory, hnode] at hdirectory
    refine ⟨⟨_, above, above⟩, ⟨hresolve, ?_, ?_, ?_, ?_, ?_⟩, hnode⟩
    · rw [Path.implementation, houtput, habove]
    · rw [Path.interface, houtput, habove]
    · exact fun _ => hdirectory
    · exact fun heq => absurd heq hne
    · exact fun heq => absurd heq hne

end FileTree
end Oberon
