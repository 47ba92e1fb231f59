import Mathlib.Data.List.Induction
import Mathlib.Data.List.TakeWhile
import Offload.Files.Path

/-!
# Where paths lead

Paths with different texts can lead to one file. A location is what is left of a path once empty
parts and dots are followed: up by some directories, then down by names. Paths to files in one
directory differ in their last part only, and so do their locations. This holds of a file and its
marked sibling, and of a file and the path with a suffix behind its name.
-/

namespace Offload.Files

open List

variable {dir : List String} {last name part path suffix : String}

/-! ### Parts of a path -/

theorem splitOnChar_eq_splitOn (sep : Char) (cs : List Char) :
    Text.splitOnChar sep cs = cs.splitOn sep := by
  induction cs with
  | nil => rfl
  | cons c cs ih =>
    rw [Text.splitOnChar, ih, splitOn, splitOn, splitOnP_cons_eq_if_modifyHead]
    cases hparts : cs.splitOnP (· == sep) with
    | nil => exact absurd hparts (splitOn_ne_nil sep cs)
    | cons part parts => simp

theorem intercalate_components (path : String) : "/".intercalate (components path) = path := by
  rw [← String.toList_inj, String.toList_intercalate, components, map_map]
  simp [Function.comp_def, splitOnChar_eq_splitOn]

theorem components_intercalate {parts : List String} (hne : parts ≠ [])
    (hslash : ∀ part ∈ parts, '/' ∉ part.toList) : components ("/".intercalate parts) = parts := by
  have hsplit : (['/'].intercalate (parts.map String.toList)).splitOn '/' =
      parts.map String.toList := by
    apply splitOn_intercalate
    · simpa using hslash
    · simpa using hne
  rw [components, String.toList_intercalate, splitOnChar_eq_splitOn]
  change (splitOn '/' (['/'].intercalate _)).map String.ofList = parts
  rw [hsplit, map_map]
  simp [Function.comp_def]

theorem components_ne_nil (path : String) : components path ≠ [] := by
  rw [components, splitOnChar_eq_splitOn]
  simp

theorem slash_not_mem_of_mem_components (h : part ∈ components path) : '/' ∉ part.toList := by
  have hparts : ∀ cs : List Char, ∀ p ∈ Text.splitOnChar '/' cs, '/' ∉ p := by
    intro cs
    induction cs with
    | nil => simp [Text.splitOnChar]
    | cons c cs ih =>
      rw [Text.splitOnChar]
      split
      · rename_i hnil
        rw [splitOnChar_eq_splitOn] at hnil
        exact absurd hnil (splitOn_ne_nil '/' cs)
      · rename_i part parts hcons
        rw [hcons, forall_mem_cons] at ih
        split_ifs with hc
        · simpa using ih
        · rw [forall_mem_cons, mem_cons, not_or]
          exact ⟨⟨Ne.symm hc, ih.1⟩, ih.2⟩
  rw [components, mem_map] at h
  obtain ⟨p, hp, rfl⟩ := h
  rw [String.toList_ofList]
  exact hparts _ p hp

/-- The parts of a path up to its last, and that one. -/
theorem exists_components (path : String) : ∃ dir last, components path = dir ++ [last] :=
  ⟨_, _, (dropLast_concat_getLast (components_ne_nil path)).symm⟩

theorem intercalate_concat_append (dir : List String) (last suffix : String) :
    "/".intercalate (dir ++ [last ++ suffix]) = "/".intercalate (dir ++ [last]) ++ suffix := by
  cases dir with
  | nil => simp
  | cons first dir =>
    have hfirst : first :: dir ≠ [] := cons_ne_nil _ _
    rw [String.intercalate_append_of_ne_nil hfirst (cons_ne_nil _ _),
      String.intercalate_append_of_ne_nil hfirst (cons_ne_nil _ _), String.intercalate_singleton,
      String.intercalate_singleton, String.append_assoc, String.append_assoc, String.append_assoc]

/-- Text without a slash behind a path goes to its last part. -/
theorem components_append (h : components path = dir ++ [last]) (hslash : '/' ∉ suffix.toList) :
    components (path ++ suffix) = dir ++ [last ++ suffix] := by
  have hmem : ∀ part ∈ dir ++ [last], '/' ∉ part.toList := by
    rw [← h]
    intro part hpart
    exact slash_not_mem_of_mem_components hpart
  have hjoin : "/".intercalate (dir ++ [last ++ suffix]) = path ++ suffix := by
    rw [intercalate_concat_append, ← h, intercalate_components]
  rw [← hjoin]
  apply components_intercalate
  · simp
  · intro part hpart
    rcases mem_append.mp hpart with hdir | hlast
    · exact hmem part (mem_append_left _ hdir)
    · rw [mem_singleton.mp hlast, String.toList_append, mem_append, not_or]
      exact ⟨hmem last (by simp), hslash⟩

/-- A path from the root has nothing before its first slash. -/
theorem startsWith_slash_iff (h : components path = dir ++ [last]) :
    path.startsWith "/" = true ↔ dir.head? = some "" := by
  have hmem : ∀ part ∈ dir ++ [last], '/' ∉ part.toList := by
    rw [← h]
    intro part hpart
    exact slash_not_mem_of_mem_components hpart
  have hhead : ∀ cs : List Char, ['/'] <+: cs ↔ cs.head? = some '/' := by
    intro cs
    cases cs <;> simp [eq_comm]
  rw [String.startsWith_string_iff, ← intercalate_components path, h]
  change ['/'] <+: _ ↔ _
  rw [hhead]
  cases dir with
  | nil =>
    have hlast := hmem last (by simp)
    rw [nil_append, String.intercalate_singleton, head?_nil]
    constructor
    · intro hslash
      exact absurd (mem_of_head? hslash) hlast
    · simp
  | cons first dir =>
    have hfirst := hmem first (by simp)
    rw [cons_append, String.intercalate_cons_of_ne_nil (by simp), head?_cons]
    constructor
    · intro hslash
      cases hcs : first.toList with
      | nil => rw [String.toList_eq_nil_iff.mp hcs]
      | cons c cs =>
        have hc : c = '/' := by simpa [hcs] using hslash
        exact absurd (by simp [hcs, hc]) hfirst
    · intro hempty
      simp [Option.some.inj hempty]

/-! ### Locations -/

/-- Where a path leads from the root, or from the working directory. -/
structure Location where
  isAbsolute : Bool
  /-- How many directories above the working directory. -/
  up : Nat
  down : List String
deriving DecidableEq, Repr

/-- A part of a path that names something in a directory. -/
def Proper (part : String) : Prop := part ≠ "" ∧ part ≠ "." ∧ part ≠ ".."

/-- Two dots lead up, from the root to itself. -/
def Location.enter (l : Location) (part : String) : Location :=
  if part = "" ∨ part = "." then l
  else if part ≠ ".." then { l with down := l.down ++ [part] }
  else if l.down ≠ [] then { l with down := l.down.dropLast }
  else if l.isAbsolute then l
  else { l with up := l.up + 1 }

def location (path : String) : Location :=
  (components path).foldl Location.enter ⟨path.startsWith "/", 0, []⟩

/-- The last part of the path is a name. -/
def NamesFile (path : String) : Prop := ∃ dir last, components path = dir ++ [last] ∧ Proper last

theorem Location.enter_of_proper (h : Proper part) (l : Location) :
    l.enter part = { l with down := l.down ++ [part] } := by
  rw [enter, if_neg (not_or.mpr ⟨h.1, h.2.1⟩), if_pos h.2.2]

/-- The location of a name in the directory that some parts of a path lead to. -/
def inDirectory (dir : List String) (name : String) : Location :=
  let here := dir.foldl Location.enter ⟨dir.head? == some "", 0, []⟩
  { here with down := here.down ++ [name] }

theorem inDirectory_inj {name' : String} :
    inDirectory dir name = inDirectory dir name' ↔ name = name' := by
  simp [inDirectory]

theorem location_of_components (h : components path = dir ++ [last]) (hlast : Proper last) :
    location path = inDirectory dir last := by
  have habsolute : path.startsWith "/" = (dir.head? == some "") := by
    rw [Bool.eq_iff_iff, startsWith_slash_iff h, beq_iff_eq]
  rw [location, h, habsolute, foldl_append, foldl_cons, foldl_nil,
    Location.enter_of_proper hlast, inDirectory]

/-! ### Names beside a file -/

theorem trimTail_append (dir : List String) (hlast : Proper last) :
    trimTail (dir ++ [last]) = dir ++ [last] := by
  have hkeep : (last == "" || last == ".") = false := by simp [hlast.1, hlast.2.1]
  cases dir with
  | nil => rfl
  | cons first dir =>
    cases dir <;> simp [trimTail, hkeep]

theorem mem_of_mem_trimTail {parts : List String} (h : part ∈ trimTail parts) : part ∈ parts := by
  unfold trimTail at h
  split at h
  · exact h
  · exact h
  · rcases mem_cons.mp h with rfl | hrest
    · exact mem_cons_self
    · apply mem_cons_of_mem
      apply mem_reverse.mp
      exact (dropWhile_sublist _).subset (mem_reverse.mp hrest)

/-- What is trimmed off leads nowhere else. -/
theorem foldl_enter_trim (parts : List String) (l : Location) :
    (parts.reverse.dropWhile fun c => c == "" || c == ".").reverse.foldl Location.enter l =
      parts.foldl Location.enter l := by
  induction parts using reverseRecOn with
  | nil => rfl
  | append_singleton parts part ih =>
    rw [reverse_append, reverse_singleton, singleton_append, dropWhile_cons]
    split_ifs with hpart
    · have hstay : part = "" ∨ part = "." := by simpa using hpart
      rw [ih, foldl_append, foldl_cons, foldl_nil]
      exact (if_pos hstay).symm
    · rw [reverse_cons, reverse_reverse]

theorem inDirectory_trimTail (dir : List String) (name : String) :
    inDirectory (trimTail dir) name = inDirectory dir name := by
  unfold trimTail
  split
  · rfl
  · rfl
  · rename_i first rest _
    rw [inDirectory, inDirectory, head?_cons, head?_cons, foldl_cons, foldl_cons, foldl_enter_trim]

theorem fileName?_of_components (h : components path = dir ++ [last]) (hlast : Proper last) :
    fileName? path = some last := by
  simp [fileName?, h, trimTail_append dir hlast, hlast.1, hlast.2.1, hlast.2.2]

theorem components_sibling (h : components path = dir ++ [last]) (hlast : Proper last)
    (hname : '/' ∉ name.toList) : components (sibling path name) = trimTail dir ++ [name] := by
  rw [sibling, fileName?_of_components h hlast, Option.isSome_some, if_pos rfl, h,
    trimTail_append dir hlast, dropLast_concat]
  apply components_intercalate
  · simp
  · intro part hpart
    rcases mem_append.mp hpart with hdir | hpart
    · have hmem : part ∈ components path := by
        rw [h]
        exact mem_append_left _ (mem_of_mem_trimTail hdir)
      exact slash_not_mem_of_mem_components hmem
    · rwa [mem_singleton.mp hpart]

theorem location_sibling (h : components path = dir ++ [last]) (hlast : Proper last)
    (hname : Proper name) (hslash : '/' ∉ name.toList) :
    location (sibling path name) = inDirectory dir name := by
  rw [location_of_components (components_sibling h hlast hslash) hname, inDirectory_trimTail]

/-! ### Stems and extensions -/

/-- An extension is what stands behind the last dot. -/
theorem stemExtension_cases (name : String) : stemExtension name = (name, none) ∨
    ∃ stem ext, stemExtension name = (stem, some ext) ∧ name = stem ++ "." ++ ext ∧
      '.' ∉ ext.toList := by
  have hsplit := takeWhile_append_dropWhile (p := (· != '.')) (l := name.toList.reverse)
  have hext : '.' ∉ name.toList.reverse.takeWhile (· != '.') := by
    intro hmem
    simpa using mem_takeWhile_imp hmem
  have hstop := head?_dropWhile_not (· != '.') name.toList.reverse
  rw [stemExtension]
  generalize name.toList.reverse.takeWhile (· != '.') = after at hsplit hext ⊢
  generalize name.toList.reverse.dropWhile (· != '.') = before at hsplit hstop
  have hname : name.toList = before.reverse ++ after.reverse := by
    rw [← reverse_append, hsplit, reverse_reverse]
  cases before with
  | nil =>
    left
    simp [hname]
  | cons c before =>
    obtain rfl : c = '.' := by simpa using hstop
    rw [reverse_cons, append_assoc, singleton_append] at hname
    have htake : name.toList.take (name.toList.length - after.reverse.length - 1) =
        before.reverse := by
      rw [hname, take_left' (by simp; omega)]
    rw [htake]
    by_cases hempty : before = []
    · left
      apply if_pos
      simp [hempty]
    · right
      refine ⟨String.ofList before.reverse, String.ofList after.reverse, ?_, ?_, ?_⟩
      · apply if_neg
        simp [hempty, hname]
        omega
      · rw [← String.toList_inj, hname]
        simp
      · simpa using hext

/-- A file's name with a mark before its extension. -/
def markedName (mark name : String) : String :=
  let (stem, ext) := stemExtension name
  match ext with
  | some e => stem ++ "." ++ mark ++ "." ++ e
  | none => stem ++ "." ++ mark

theorem markedSibling_eq (mark : String) (h : components path = dir ++ [last])
    (hlast : Proper last) : markedSibling mark path = sibling path (markedName mark last) := by
  rw [markedSibling, fileName?_of_components h hlast]
  rfl

theorem markedName_of_none (mark : String) (h : stemExtension name = (name, none)) :
    markedName mark name = name ++ "." ++ mark := by
  rw [markedName, h]

theorem markedName_of_some {stem ext : String} (mark : String)
    (h : stemExtension name = (stem, some ext)) :
    markedName mark name = stem ++ "." ++ mark ++ "." ++ ext := by
  rw [markedName, h]

theorem length_markedName (mark name : String) :
    (markedName mark name).length = name.length + mark.length + 1 := by
  have hdot : ".".length = 1 := by decide
  rcases stemExtension_cases name with hnone | ⟨stem, ext, hsome, hname, -⟩
  · simp only [markedName_of_none mark hnone, String.length_append]
    omega
  · rw [markedName_of_some mark hsome, hname]
    simp only [String.length_append]
    omega

theorem slash_not_mem_markedName {mark : String} (hmark : '/' ∉ mark.toList)
    (hname : '/' ∉ name.toList) : '/' ∉ (markedName mark name).toList := by
  rcases stemExtension_cases name with hnone | ⟨stem, ext, hsome, rfl, -⟩
  · simp [markedName_of_none mark hnone, hmark, hname]
  · simp only [String.toList_append, mem_append, not_or] at hname
    simp [markedName_of_some mark hsome, hmark, hname]

/-! ### Suffixes that give a marked name -/

/-- The suffix that makes the name marked with `cpu` out of a name with the given extension. -/
def clashingSuffix? : Option String → Option String
  | none => some ".cpu"
  | some "" => some "cpu."
  | some "c" => some "pu.c"
  | some "cp" => some "u.cp"
  | some "cpu" => some ".cpu"
  | some _ => none

/-- An extension without a dot is repeated behind the mark only if it starts the mark. -/
theorem append_eq_mark_append_iff {ext : List Char} (hext : '.' ∉ ext) (suffix : List Char) :
    ext ++ suffix = ['c', 'p', 'u', '.'] ++ ext ↔
      ext = [] ∧ suffix = ['c', 'p', 'u', '.'] ∨ ext = ['c'] ∧ suffix = ['p', 'u', '.', 'c'] ∨
      ext = ['c', 'p'] ∧ suffix = ['u', '.', 'c', 'p'] ∨
      ext = ['c', 'p', 'u'] ∧ suffix = ['.', 'c', 'p', 'u'] := by
  rcases ext with _ | ⟨a, _ | ⟨b, _ | ⟨c, _ | ⟨d, ext⟩⟩⟩⟩
  · simp
  · grind
  · grind
  · grind
  · have hd : d ≠ '.' := by
      intro heq
      simp [heq] at hext
    simp [hd]

theorem clashingSuffix?_some {ext : String} : clashingSuffix? (some ext) = some suffix ↔
    ext = "" ∧ suffix = "cpu." ∨ ext = "c" ∧ suffix = "pu.c" ∨ ext = "cp" ∧ suffix = "u.cp" ∨
      ext = "cpu" ∧ suffix = ".cpu" := by
  unfold clashingSuffix?
  split <;> grind

theorem append_eq_markedName_iff (name suffix : String) :
    name ++ suffix = markedName "cpu" name ↔
      clashingSuffix? (stemExtension name).2 = some suffix := by
  rcases stemExtension_cases name with hnone | ⟨stem, ext, hsome, hname, hext⟩
  · rw [markedName_of_none "cpu" hnone, hnone, String.append_assoc, String.append_right_inj]
    simp [clashingSuffix?, eq_comm]
  · rw [markedName_of_some "cpu" hsome, hsome, clashingSuffix?_some, ← String.toList_inj, hname]
    have hiff := append_eq_mark_append_iff hext suffix.toList
    have hcpu : "cpu".toList = ['c', 'p', 'u'] := rfl
    have hdot : ".".toList = ['.'] := rfl
    simp only [String.toList_append, append_assoc, append_cancel_left_eq, hcpu, hdot]
    simp only [← String.toList_inj]
    exact hiff

theorem proper_iff : Proper name ↔
    name.toList ≠ [] ∧ name.toList ≠ ['.'] ∧ name.toList ≠ ['.', '.'] := by
  simp only [Proper, Ne, ← String.toList_inj]
  rfl

theorem Proper.append (h : Proper name) (suffix : String) : Proper (name ++ suffix) := by
  rw [proper_iff] at h ⊢
  rw [String.toList_append]
  generalize name.toList = cs at h ⊢
  rcases cs with _ | ⟨a, _ | ⟨b, cs⟩⟩
  · exact absurd rfl h.1
  · grind
  · simp_all

theorem proper_markedName (name : String) : Proper (markedName "cpu" name) := by
  have hlength := length_markedName "cpu" name
  have hcpu : "cpu".length = 3 := by decide
  have hne : ∀ s : String, s.length ≤ 2 → markedName "cpu" name ≠ s := by
    intro s hs heq
    rw [heq] at hlength
    omega
  exact ⟨hne "" (by decide), hne "." (by decide), hne ".." (by decide)⟩

section

variable {path : String}

theorem location_markedSibling (h : components path = dir ++ [last]) (hlast : Proper last) :
    location (markedSibling "cpu" path) = inDirectory dir (markedName "cpu" last) := by
  rw [markedSibling_eq "cpu" h hlast]
  apply location_sibling h hlast (proper_markedName last)
  apply slash_not_mem_markedName (by decide)
  apply slash_not_mem_of_mem_components
  rw [h]
  exact mem_concat_self

theorem location_append (h : components path = dir ++ [last]) (hlast : Proper last)
    (hslash : '/' ∉ suffix.toList) : location (path ++ suffix) = inDirectory dir (last ++ suffix) :=
  location_of_components (components_append h hslash) (hlast.append suffix)

theorem location_markedSibling_ne (h : NamesFile path) :
    location (markedSibling "cpu" path) ≠ location path := by
  obtain ⟨dir, last, hparts, hlast⟩ := h
  rw [location_markedSibling hparts hlast, location_of_components hparts hlast, Ne, inDirectory_inj]
  intro heq
  have hlength := length_markedName "cpu" last
  rw [heq] at hlength
  omega

/-- A file's marked sibling is below the working directory with it. -/
theorem inside_markedSibling (h : NamesFile path) {q : List String}
    (hinside : location path = ⟨false, 0, q⟩) :
    ∃ q', location (markedSibling "cpu" path) = ⟨false, 0, q'⟩ := by
  obtain ⟨dir, last, hparts, hlast⟩ := h
  rw [location_of_components hparts hlast, inDirectory] at hinside
  rw [location_markedSibling hparts hlast, inDirectory]
  simp only [Location.mk.injEq] at hinside ⊢
  exact ⟨_, hinside.1, hinside.2.1, rfl⟩

theorem location_append_eq_iff (h : NamesFile path) (hslash : '/' ∉ suffix.toList) :
    location (path ++ suffix) = location path ↔ suffix = "" := by
  obtain ⟨dir, last, hparts, hlast⟩ := h
  rw [location_append hparts hlast hslash, location_of_components hparts hlast, inDirectory_inj,
    String.append_eq_left_iff]

theorem location_append_eq_markedSibling_iff (h : NamesFile path) (hslash : '/' ∉ suffix.toList) :
    location (path ++ suffix) = location (markedSibling "cpu" path) ↔
      clashingSuffix? (stemExtension ((fileName? path).getD "")).2 = some suffix := by
  obtain ⟨dir, last, hparts, hlast⟩ := h
  rw [location_append hparts hlast hslash, location_markedSibling hparts hlast, inDirectory_inj,
    append_eq_markedName_iff, fileName?_of_components hparts hlast, Option.getD_some]

end

end Offload.Files
