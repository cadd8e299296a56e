import Mathlib.Tactic
import Oberon.FileTree.Store

/-!
# Locations in a file tree

What writing and removing files does to a tree, seen from the locations where paths lead.

**Locations.**  `put` and `erase` change one location.  Where that is no directory they leave every
other location as it was, and with it all directories (`SameDirectories`).

**Resolution.**  A path that leads somewhere leads to the same location in every tree with the same
directories (`SameDirectories.resolve_eq_ok`).  All directories above a location where a path leads
are there (`Grounded.of_follow`).  So the last component of a path to a file is a proper name, and
what stands before it leads to the directory of the file (`exists_folder_of_read`).
-/

namespace Oberon

namespace Path

/-- A text that a name may follow in a path: nothing, or one that ends in a slash. -/
def IsFolder (folder : List Char) : Prop := folder = [] ∨ ∃ front, folder = front ++ ['/']

/-- A component that can name a file. -/
structure IsName (name : List Char) : Prop where
  not_mem : '/' ∉ name
  ne_nil : name ≠ []
  ne_here : name ≠ ['.']
  ne_above : name ≠ ['.', '.']

theorem exists_folder (path : List Char) :
    ∃ folder name, path = folder ++ name ∧ IsFolder folder ∧ '/' ∉ name := by
  induction path with
  | nil => exact ⟨[], [], rfl, .inl rfl, List.not_mem_nil⟩
  | cons c path ih =>
    obtain ⟨folder, name, rfl, hfolder | ⟨front, hfolder⟩, hname⟩ := ih
    · subst hfolder
      by_cases hc : c = '/'
      · exact ⟨[c], name, rfl, .inr ⟨[], by simp [hc]⟩, hname⟩
      · exact ⟨[], c :: name, rfl, .inl rfl, by simp [hname, Ne.symm hc]⟩
    · exact ⟨c :: folder, name, rfl, .inr ⟨c :: front, by simp [hfolder]⟩, hname⟩

end Path

namespace FileTree

variable {t u v : FileTree} {location other : Location} {content : ByteArray} {path : String}

/-! ## Nodes -/

theorem lookup_filter_self
    {α : Type} (location : Location) (entries : List (Location × α)) :
    (entries.filter fun entry => entry.1 != location).lookup location = none := by
  rw [List.lookup_eq_none_iff]
  intro entry hentry
  rw [bne_comm]
  exact (List.mem_filter.mp hentry).2

theorem lookup_filter_of_ne
    {α : Type} (hne : other ≠ location) (entries : List (Location × α)) :
    (entries.filter fun entry => entry.1 != location).lookup other = entries.lookup other := by
  induction entries with
  | nil => rfl
  | cons entry entries ih =>
    obtain ⟨key, value⟩ := entry
    by_cases hkey : key = location
    · have hother : (other == key) = false := by simpa [hkey] using hne
      simp [hkey, List.lookup_cons, ih, hkey ▸ hother]
    · simp [hkey, List.lookup_cons, ih]

/-- The location holds a directory. -/
def IsDirectory (t : FileTree) (location : Location) : Prop := t.get? location = some .directory

theorem IsDirectory.get?_eq (h : t.IsDirectory location) : t.get? location = some .directory := h

instance (t : FileTree) (location : Location) : Decidable (t.IsDirectory location) :=
  match h : t.get? location with
  | some .directory => isTrue h
  | some (.file _) => isFalse (by simp [IsDirectory, h])
  | none => isFalse (by simp [IsDirectory, h])

/-- The working directory and what leads to it are directories. -/
theorem isDirectory_of_isPrefix (h : location <+: t.home) : t.IsDirectory location := by
  rw [IsDirectory, get?, if_pos h]

/-- What is no directory is looked up. -/
theorem get?_eq_lookup (h : ¬ t.IsDirectory location) :
    t.get? location = t.nodes.lookup location := by
  rw [get?, if_neg (mt isDirectory_of_isPrefix h)]

/-- The tree with a file at a location. -/
def put (t : FileTree) (location : Location) (content : ByteArray) : FileTree :=
  t.insert location (.file content)

theorem get?_put_self (h : ¬ t.IsDirectory location) :
    (t.put location content).get? location = some (.file content) := by
  have hoff : ¬ location <+: t.home := mt isDirectory_of_isPrefix h
  rw [get?, put, insert, if_neg hoff]
  exact List.lookup_cons_self

theorem get?_put_of_ne (hne : other ≠ location) :
    (t.put location content).get? other = t.get? other := by
  have hkey : (other == location) = false := by simpa using hne
  simp [get?, put, insert, List.lookup_cons, hkey, lookup_filter_of_ne hne]

theorem get?_erase_self (h : ¬ t.IsDirectory location) :
    (t.erase location).get? location = none := by
  have hoff : ¬ location <+: t.home := mt isDirectory_of_isPrefix h
  rw [get?, erase, if_neg hoff]
  exact lookup_filter_self location t.nodes

theorem get?_erase_of_ne (hne : other ≠ location) :
    (t.erase location).get? other = t.get? other := by
  simp [get?, erase, lookup_filter_of_ne hne]

theorem erase_eq_self (h : t.get? location = none) : t.erase location = t := by
  rw [get?_eq_lookup (by simp [IsDirectory, h]), List.lookup_eq_none_iff] at h
  have hfilter : (t.nodes.filter fun entry => entry.1 != location) = t.nodes := by
    refine List.filter_eq_self.mpr fun entry hentry => ?_
    rw [bne_comm]
    exact h entry hentry
  rw [erase, hfilter]

theorem put_put_self : (t.put location content).put location content = t.put location content := by
  simp [put, insert, List.filter_filter]

/-- Writing two files a second time changes nothing. -/
theorem put_put_again {second : ByteArray} (hne : location ≠ other) :
    (((t.put location content).put other second).put location content).put other second =
      (t.put location content).put other second := by
  simp [put, insert, List.filter_filter, hne, hne.symm, Bool.and_comm, Bool.and_left_comm]

/-! ## Directories -/

/-- The directories of two trees are the same, and so are their working directories. -/
structure SameDirectories (t u : FileTree) : Prop where
  home_eq : u.home = t.home
  isDirectory_iff : ∀ location, t.IsDirectory location ↔ u.IsDirectory location

namespace SameDirectories

theorem refl (t : FileTree) : SameDirectories t t := ⟨rfl, fun _ => .rfl⟩

theorem symm (h : SameDirectories t u) : SameDirectories u t where
  home_eq := h.home_eq.symm
  isDirectory_iff location := (h.isDirectory_iff location).symm

theorem trans (h : SameDirectories t u) (h' : SameDirectories u v) : SameDirectories t v where
  home_eq := h'.home_eq.trans h.home_eq
  isDirectory_iff location := (h.isDirectory_iff location).trans (h'.isDirectory_iff location)

theorem isDirectory (h : SameDirectories t u) (hlocation : t.IsDirectory location) :
    u.IsDirectory location :=
  (h.isDirectory_iff location).mp hlocation

theorem not_isDirectory (h : SameDirectories t u) (hlocation : ¬ t.IsDirectory location) :
    ¬ u.IsDirectory location :=
  mt (h.isDirectory_iff location).mpr hlocation

end SameDirectories

/-- A change at one location that neither was nor becomes a directory keeps the directories. -/
theorem sameDirectories_of_get?
    (hhome : u.home = t.home)
    (ht : ¬ t.IsDirectory location)
    (hu : ¬ u.IsDirectory location)
    (hothers : ∀ other, other ≠ location → u.get? other = t.get? other) :
    SameDirectories t u := by
  refine ⟨hhome, fun other => ?_⟩
  by_cases hother : other = location
  · subst hother
    exact iff_of_false ht hu
  · rw [IsDirectory, IsDirectory, hothers other hother]

theorem sameDirectories_put (h : ¬ t.IsDirectory location) :
    SameDirectories t (t.put location content) := by
  refine sameDirectories_of_get? rfl h ?_ fun other => get?_put_of_ne
  simp [IsDirectory, get?_put_self h]

/-- Two files that are written at two locations are both there. -/
theorem get?_put_put
    {second : ByteArray}
    (hne : location ≠ other)
    (hlocation : ¬ t.IsDirectory location)
    (hother : ¬ t.IsDirectory other) :
    ((t.put location content).put other second).get? location = some (.file content) ∧
      ((t.put location content).put other second).get? other = some (.file second) := by
  refine ⟨?_, get?_put_self ((sameDirectories_put hlocation).not_isDirectory hother)⟩
  rw [get?_put_of_ne hne, get?_put_self hlocation]

theorem sameDirectories_erase (h : ¬ t.IsDirectory location) :
    SameDirectories t (t.erase location) := by
  refine sameDirectories_of_get? rfl h ?_ fun other => get?_erase_of_ne
  simp [IsDirectory, get?_erase_self h]

/-! ## Resolution -/

/-- Follows components one after the other. -/
def follow (t : FileTree) (location : Location) (parts : List (List Char)) :
    Except FileFault Location :=
  parts.foldlM (fun location component => t.enter location (String.ofList component)) location

theorem resolve_eq_follow (hne : path ≠ "") :
    t.resolve path = t.follow (t.origin path.toList) (components path.toList) := by
  simp [resolve, hne, follow]

theorem follow_cons_eq_ok_iff {component : List Char} {parts : List (List Char)} :
    t.follow location (component :: parts) = .ok other ↔
      ∃ next,
        t.enter location (String.ofList component) = .ok next ∧
        t.follow next parts = .ok other := by
  rw [follow, List.foldlM_cons]
  cases t.enter location (String.ofList component) with
  | error fault => simp [bind, Except.bind]
  | ok next => simp [bind, Except.bind, follow]

/-- What entering a component can do: stay, go up, or go down to a name. -/
theorem enter_cases {component : String} (h : t.enter location component = .ok other) :
    t.IsDirectory location ∧
      (other = location ∨ other = location.dropLast ∨
        other = location ++ [component] ∧
          component ≠ "" ∧ component ≠ "." ∧ component ≠ "..") := by
  unfold enter at h
  split at h
  case h_1 => cases h
  case h_2 => cases h
  case h_3 hdirectory =>
    refine ⟨hdirectory, ?_⟩
    split at h
    case isTrue =>
      cases h
      exact .inl rfl
    case isFalse hstay =>
      obtain ⟨hempty, hhere⟩ := not_or.mp hstay
      split at h
      case isTrue =>
        cases h
        exact .inr (.inl rfl)
      case isFalse habove =>
        cases h
        exact .inr (.inr ⟨rfl, hempty, hhere, habove⟩)

theorem enter_congr
    {component : String} (ht : t.IsDirectory location) (hu : u.IsDirectory location) :
    t.enter location component = u.enter location component := by
  unfold enter
  rw [ht.get?_eq, hu.get?_eq]

theorem SameDirectories.follow_eq_ok
    {parts : List (List Char)}
    (h : SameDirectories t u)
    (hfollow : t.follow location parts = .ok other) :
    u.follow location parts = .ok other := by
  induction parts generalizing location with
  | nil => exact hfollow
  | cons component parts ih =>
    obtain ⟨next, henter, hrest⟩ := follow_cons_eq_ok_iff.mp hfollow
    have hlocation : t.IsDirectory location := (enter_cases henter).1
    refine follow_cons_eq_ok_iff.mpr ⟨next, ?_, ih hrest⟩
    rw [← enter_congr hlocation (h.isDirectory hlocation), henter]

theorem SameDirectories.origin_eq (h : SameDirectories t u) (path : List Char) :
    u.origin path = t.origin path := by
  rw [origin, origin, h.home_eq]

/-- Trees with the same directories lead a path to the same location. -/
theorem SameDirectories.resolve_eq_ok
    (h : SameDirectories t u) (hresolve : t.resolve path = .ok location) :
    u.resolve path = .ok location := by
  have hne : path ≠ "" := by
    rintro rfl
    simp [resolve] at hresolve
  rw [resolve_eq_follow hne] at hresolve ⊢
  rw [h.origin_eq]
  exact h.follow_eq_ok hresolve

/-- All locations above a location are directories. -/
def Grounded (t : FileTree) (location : Location) : Prop :=
  ∀ n < location.length, t.IsDirectory (location.take n)

theorem Grounded.isDirectory_take
    {n : Nat}
    (h : t.Grounded location)
    (hlocation : t.IsDirectory location)
    (hn : n ≤ location.length) :
    t.IsDirectory (location.take n) := by
  rcases hn.lt_or_eq with hlt | rfl
  · exact h n hlt
  · rwa [List.take_length]

/-- One component keeps what is above, and a component that is no name leads to a directory. -/
theorem Grounded.of_enter
    {component : String}
    (hlocation : t.Grounded location)
    (henter : t.enter location component = .ok other) :
    t.Grounded other ∧
      (t.IsDirectory other ∨ component ≠ "" ∧ component ≠ "." ∧ component ≠ "..") := by
  obtain ⟨hdirectory, rfl | rfl | ⟨rfl, hname⟩⟩ := enter_cases henter
  · exact ⟨hlocation, .inl hdirectory⟩
  · rw [List.dropLast_eq_take]
    refine ⟨fun n hn => ?_, .inl (hlocation.isDirectory_take hdirectory (Nat.sub_le _ _))⟩
    rw [List.take_take]
    exact hlocation.isDirectory_take hdirectory (by omega)
  · refine ⟨fun n hn => ?_, .inr hname⟩
    have hn : n ≤ location.length := by simpa [Nat.lt_succ_iff] using hn
    rw [List.take_append_of_le_length hn]
    exact hlocation.isDirectory_take hdirectory hn

theorem Grounded.of_follow
    {parts : List (List Char)}
    (hlocation : t.Grounded location)
    (hfollow : t.follow location parts = .ok other) :
    t.Grounded other := by
  induction parts generalizing location with
  | nil =>
    cases hfollow
    exact hlocation
  | cons component parts ih =>
    obtain ⟨next, henter, hrest⟩ := follow_cons_eq_ok_iff.mp hfollow
    exact ih (hlocation.of_enter henter).1 hrest

/-- What is above the beginning of a path is there, be it the root or the working directory. -/
theorem grounded_origin (path : List Char) : t.Grounded (t.origin path) := by
  intro n hn
  unfold origin at hn ⊢
  split
  · rw [List.take_nil]
    exact isDirectory_of_isPrefix List.nil_prefix
  · exact isDirectory_of_isPrefix (List.take_prefix n t.home)

/-! ## Folders and names -/

theorem components_ne_nil (path : List Char) : components path ≠ [] := by
  fun_cases components path <;> simp

theorem components_of_not_mem {name : List Char} (h : '/' ∉ name) : components name = [name] := by
  induction name with
  | nil => rfl
  | cons c name ih =>
    obtain ⟨hc, hname⟩ : '/' ≠ c ∧ '/' ∉ name := by simpa using h
    rw [components, ih hname]
    exact hc.symm

theorem components_append_slash (folder rest : List Char) :
    components (folder ++ '/' :: rest) = components folder ++ components rest := by
  induction folder with
  | nil => rfl
  | cons c folder ih =>
    by_cases hc : c = '/'
    · subst hc
      simp [components, ih]
    · have hparts : components folder ≠ [] := components_ne_nil folder
      rw [List.cons_append, components, components, ih]
      · cases hfolder : components folder with
        | nil => exact absurd hfolder hparts
        | cons first others => rfl
      · exact hc
      · exact hc

/-- Where the folder of a path leads. -/
def reach (t : FileTree) (folder : List Char) : Except FileFault Location :=
  t.follow (t.origin folder) (components folder).dropLast

/-- A path is resolved by entering its name where its folder leads. -/
theorem resolve_append
    {folder name : List Char}
    (hfolder : Path.IsFolder folder)
    (hname : '/' ∉ name)
    (hne : folder ++ name ≠ []) :
    t.resolve (String.ofList (folder ++ name)) =
      (t.reach folder).bind fun location => t.enter location (String.ofList name) := by
  have hpath : String.ofList (folder ++ name) ≠ "" := by
    intro h
    exact hne (by simpa using congrArg String.toList h)
  have hparts : components (folder ++ name) = (components folder).dropLast ++ [name] := by
    rcases hfolder with rfl | ⟨front, rfl⟩
    · exact components_of_not_mem hname
    · rw [List.append_assoc, List.singleton_append, components_append_slash,
        components_append_slash, components_of_not_mem hname]
      simp [components]
  have horigin : t.origin (folder ++ name) = t.origin folder := by
    rcases hfolder with rfl | ⟨front, rfl⟩
    · cases name with
      | nil => exact absurd rfl hne
      | cons c name =>
        have hc : c ≠ '/' := fun h => hname (h ▸ List.mem_cons_self)
        simp [origin, hc]
    · cases front <;> rfl
  rw [resolve_eq_follow hpath, String.toList_ofList, hparts, horigin, reach, follow,
    List.foldlM_append, follow]
  simp only [List.foldlM_cons, List.foldlM_nil, bind_pure]
  rfl

theorem resolve_append_of_isName
    {folder name : List Char}
    (hfolder : Path.IsFolder folder)
    (hreach : t.reach folder = .ok location)
    (hlocation : t.IsDirectory location)
    (hname : Path.IsName name) :
    t.resolve (String.ofList (folder ++ name)) = .ok (location ++ [String.ofList name]) := by
  have hne : folder ++ name ≠ [] := List.append_ne_nil_of_right_ne_nil _ hname.ne_nil
  have hempty : String.ofList name ≠ "" :=
    fun h => hname.ne_nil (by simpa using congrArg String.toList h)
  have hhere : String.ofList name ≠ "." :=
    fun h => hname.ne_here (by simpa using congrArg String.toList h)
  have habove : String.ofList name ≠ ".." :=
    fun h => hname.ne_above (by simpa using congrArg String.toList h)
  rw [resolve_append hfolder hname.not_mem hne, hreach, Except.bind]
  unfold enter
  rw [hlocation.get?_eq]
  simp [hempty, hhere, habove]

/-- The directory above a folder is there. -/
theorem exists_resolve_append_above
    {folder : List Char}
    (hfolder : Path.IsFolder folder)
    (hreach : t.reach folder = .ok location)
    (hlocation : t.IsDirectory location) :
    ∃ above,
      t.resolve (String.ofList (folder ++ ['.', '.'])) = .ok above ∧ t.IsDirectory above := by
  have henter : t.enter location ".." = .ok location.dropLast := by
    unfold enter
    rw [hlocation.get?_eq]
    rfl
  refine ⟨location.dropLast, ?_, ?_⟩
  · rw [resolve_append hfolder (by decide) (by simp), hreach]
    exact henter
  · have hgrounded : t.Grounded location := (grounded_origin folder).of_follow hreach
    obtain hdirectory | ⟨-, -, hup⟩ := (hgrounded.of_enter henter).2
    · exact hdirectory
    · exact absurd rfl hup

theorem read_eq_ok_iff :
    t.read path = .ok content ↔
      ∃ location, t.resolve path = .ok location ∧ t.get? location = some (.file content) := by
  unfold read
  cases t.resolve path with
  | error fault => simp
  | ok location =>
    cases hnode : t.get? location with
    | none => simp [hnode]
    | some node => cases node <;> simp [hnode]

/-- The path of a file is a name behind a folder that leads to a directory. -/
theorem exists_folder_of_read (h : t.read path = .ok content) :
    ∃ folder name location,
      path.toList = folder ++ name ∧ Path.IsFolder folder ∧ Path.IsName name ∧
      t.reach folder = .ok location ∧ t.IsDirectory location := by
  obtain ⟨location, hresolve, hnode⟩ := read_eq_ok_iff.mp h
  have hfile : ¬ t.IsDirectory location := by simp [IsDirectory, hnode]
  obtain ⟨folder, name, hpath, hfolder, hname⟩ := Path.exists_folder path.toList
  have hne : folder ++ name ≠ [] := by
    intro hnil
    have hempty : path = "" := String.toList_eq_nil_iff.mp (hpath.trans hnil)
    simp [hempty, resolve] at hresolve
  rw [← String.ofList_toList (s := path), hpath, resolve_append hfolder hname hne] at hresolve
  cases hreach : t.reach folder with
  | error fault => simp [hreach, Except.bind] at hresolve
  | ok inner =>
    have henter : t.enter inner (String.ofList name) = .ok location := by
      simpa [hreach, Except.bind] using hresolve
    have hgrounded : t.Grounded inner := (grounded_origin folder).of_follow hreach
    obtain hdirectory | ⟨hempty, hhere, habove⟩ := (hgrounded.of_enter henter).2
    · exact absurd hdirectory hfile
    · refine ⟨folder, name, inner, hpath, hfolder, ⟨hname, ?_, ?_, ?_⟩, hreach,
        (enter_cases henter).1⟩
      · rintro rfl
        exact hempty rfl
      · rintro rfl
        exact hhere rfl
      · rintro rfl
        exact habove rfl

end FileTree
end Oberon
