import Offload.Files.Tree
import Offload.Proofs.Files.Location
import Offload.Proofs.Outcome

/-!
# Reading and writing file trees

A path that can be followed passes through directories only, and it leads below the working
directory exactly if its location does. What is written to a place is read from every path with its
location. All else is read as before: the directories on the way were there, so the write adds none.
-/

namespace Offload.Files

open List

theorem part_cases (part : String) : (part = "" ∨ part = ".") ∨ part = ".." ∨ Proper part := by
  by_cases hstay : part = "" ∨ part = "."
  · exact .inl hstay
  · rw [not_or] at hstay
    by_cases hup : part = ".."
    · exact .inr (.inl hup)
    · exact .inr (.inr ⟨hstay.1, hstay.2, hup⟩)

/-- Nothing leads back below the working directory. -/
theorem Location.enter_outside {l : Location} (h : ∀ path, l ≠ ⟨false, 0, path⟩) (part : String) :
    ∀ path, l.enter part ≠ ⟨false, 0, path⟩ := by
  intro path heq
  apply h l.down
  unfold enter at heq
  split_ifs at heq <;> cases l <;> simp_all

namespace Place

theorem enter_stay (here : Place) {part : String} (h : part = "" ∨ part = ".") :
    here.enter part = here := by
  unfold enter
  exact if_pos (by simpa using h)

theorem enter_name (path : List String) {part : String} (h : Proper part) :
    (inside path).enter part = inside (path ++ [part]) := by
  simp [enter, h.1, h.2.1, h.2.2]

theorem enter_up (path : List String) :
    (inside path).enter ".." = if path = [] then above else inside path.dropLast := by
  simp [enter]

theorem enter_outside {here : Place} (h : ∀ path, here ≠ inside path) (part : String) :
    ∀ path, here.enter part ≠ inside path := by
  unfold enter
  split
  · exact h
  · cases here with
    | inside path => exact absurd rfl (h path)
    | above =>
      dsimp only
      split <;> simp
    | unknown | nullDevice => simp

theorem enter_ne_nullDevice {here : Place} (h : here ≠ nullDevice) (part : String) :
    here.enter part ≠ nullDevice := by
  unfold enter
  split
  · exact h
  · split
    · split_ifs <;> simp
    · split_ifs <;> simp
    · simp
    · exact absurd rfl h

end Place

namespace FileTree

variable {t t' : FileTree} {l : Location} {here place : Place} {path text : String}
  {parts : List String}

/-! ### Where a path leads -/

/-- The place is that of the location if either is below the working directory, and the directories
on the way to it are there. -/
structure Follows (t : FileTree) (l : Location) (place : Place) : Prop where
  inside_iff : ∀ path, place = .inside path ↔ l = ⟨false, 0, path⟩
  directory : ∀ path dir, place = .inside path → dir <+: path → dir ≠ path →
    t.look (.inside dir) = .directory

theorem follows_inside {path : List String}
    (h : ∀ dir, dir <+: path → dir ≠ path → t.look (.inside dir) = .directory) :
    t.Follows ⟨false, 0, path⟩ (.inside path) where
  inside_iff := by simp
  directory other dir heq := by
    obtain rfl := Place.inside.inj heq
    exact h dir

theorem follows_outside (hl : ∀ path, l ≠ ⟨false, 0, path⟩) (h : ∀ path, place ≠ .inside path) :
    t.Follows l place where
  inside_iff path := iff_of_false (h path) (hl path)
  directory path _ heq := absurd heq (h path)

theorem Follows.enter (h : t.Follows l here) (hdir : t.look here = .directory) (part : String) :
    t.Follows (l.enter part) (here.enter part) := by
  rcases part_cases part with hstay | hmove
  · rwa [Place.enter_stay here hstay, Location.enter, if_pos hstay]
  by_cases hinside : ∃ path, here = .inside path
  · obtain ⟨path, rfl⟩ := hinside
    obtain rfl := (h.inside_iff path).mp rfl
    rcases hmove with rfl | hname
    · rw [Place.enter_up]
      by_cases hpath : path = []
      · rw [if_pos hpath, hpath]
        apply follows_outside <;> simp [Location.enter]
      · rw [if_neg hpath]
        have hup : (⟨false, 0, path⟩ : Location).enter ".." = ⟨false, 0, path.dropLast⟩ := by
          simp [Location.enter, hpath]
        rw [hup]
        apply follows_inside
        intro dir hinitial _
        apply h.directory path dir rfl (hinitial.trans ( dropLast_prefix path))
        rintro rfl
        have hlength := hinitial.length_le
        have hpos := length_pos_iff.mpr hpath
        rw [length_dropLast] at hlength
        omega
    · rw [Place.enter_name path hname, Location.enter_of_proper hname]
      apply follows_inside
      intro dir hinitial hne
      rcases prefix_concat_iff.mp hinitial with heq | hinitial
      · exact absurd heq hne
      · by_cases heq : dir = path
        · rwa [heq]
        · exact h.directory path dir rfl hinitial heq
  · have houtside := not_exists.mp hinside
    apply follows_outside _ (Place.enter_outside houtside part)
    apply Location.enter_outside
    intro path heq
    exact houtside path ((h.inside_iff path).mpr heq)

theorem walk_cons_ok {part : String} : t.walk here (part :: parts) = .ok place ↔
    t.look here = .directory ∧ part.utf8ByteSize ≤ maxNameBytes ∧
      t.walk (here.enter part) parts = .ok place := by
  rw [walk]
  cases hlook : t.look here with
  | file text => simp
  | missing => simp
  | directory =>
    by_cases hsize : maxNameBytes < part.utf8ByteSize
    · simp [hsize, Nat.not_le.mpr hsize]
    · simp [hsize, Nat.not_lt.mp hsize]

/-- The last part of a path is looked up in a directory. -/
theorem walk_concat_ok {last : String} (h : t.walk here (parts ++ [last]) = .ok place) :
    ∃ mid, t.walk here parts = .ok mid ∧ t.look mid = .directory ∧ place = mid.enter last := by
  induction parts generalizing here with
  | nil =>
    obtain ⟨hdir, -, hwalk⟩ := walk_cons_ok.mp h
    exact ⟨here, rfl, hdir, (Except.ok.inj hwalk).symm⟩
  | cons part parts ih =>
    obtain ⟨hdir, hsize, hwalk⟩ := walk_cons_ok.mp h
    obtain ⟨mid, hmid, hrest⟩ := ih hwalk
    exact ⟨mid, walk_cons_ok.mpr ⟨hdir, hsize, hmid⟩, hrest⟩

theorem Follows.walk (h : t.Follows l here) (hwalk : t.walk here parts = .ok place) :
    t.Follows (parts.foldl Location.enter l) place := by
  induction parts generalizing here l with
  | nil => rwa [← Except.ok.inj hwalk]
  | cons part parts ih =>
    obtain ⟨hdir, -, hwalk⟩ := walk_cons_ok.mp hwalk
    exact ih (h.enter hdir part) hwalk

/-- The path can be followed, and leads to the place. -/
def Leads (t : FileTree) (path : String) (place : Place) : Prop :=
  ∃ here parts, start path = .ok (here, parts) ∧ t.walk here parts = .ok place

/-- Where the parts of a path start from. -/
def origin (path : String) : Place := if path.startsWith "/" then .above else .inside []

/-- Only the null device is not found by its parts. -/
theorem leads_cases (h : t.Leads path place) : path = nullDevice ∧ place = .nullDevice ∨
    t.walk (origin path) (components path) = .ok place := by
  obtain ⟨here, parts, hstart, hwalk⟩ := h
  unfold start at hstart
  split at hstart
  · cases hstart
  split at hstart
  · cases hstart
  split at hstart
  · rename_i hnull
    cases hstart
    exact .inl ⟨beq_iff_eq.mp hnull, (Except.ok.inj hwalk).symm⟩
  · cases hstart
    exact .inr hwalk

theorem follows_origin (t : FileTree) (path : String) :
    t.Follows ⟨path.startsWith "/", 0, []⟩ (origin path) := by
  unfold origin
  cases path.startsWith "/" with
  | true => apply follows_outside <;> simp
  | false =>
    apply follows_inside
    intro dir hinitial hne
    exact absurd (prefix_nil.mp hinitial) hne

theorem components_nullDevice : components nullDevice = ["", "dev"] ++ ["null"] := by decide

theorem Leads.follows (h : t.Leads path place) : t.Follows (location path) place := by
  rcases leads_cases h with ⟨rfl, rfl⟩ | hwalk
  · rw [location_of_components components_nullDevice ⟨by decide, by decide, by decide⟩]
    apply follows_outside <;> simp [inDirectory, Location.enter]
  · exact (follows_origin t path).walk hwalk

theorem read_ok : t.read path = .ok text ↔
    ∃ place, t.Leads path place ∧ t.look place = .file text := by
  unfold read
  simp only [except_bind_ok]
  constructor
  · rintro ⟨⟨here, parts⟩, hstart, place, hwalk, hlook⟩
    refine ⟨place, ⟨here, parts, hstart, hwalk⟩, ?_⟩
    split at hlook
    · rename_i heq
      rw [heq, Except.ok.inj hlook]
    · cases hlook
    · cases hlook
  · rintro ⟨place, ⟨here, parts, hstart, hwalk⟩, hlook⟩
    refine ⟨(here, parts), hstart, place, hwalk, ?_⟩
    rw [hlook]
    rfl

/-- Two dots lead from a directory to one. -/
theorem Follows.look_up (h : t.Follows l here) (hdir : t.look here = .directory) :
    t.look (here.enter "..") = .directory := by
  cases here with
  | inside path =>
    rw [Place.enter_up]
    split_ifs with hpath
    · rfl
    · apply h.directory path _ rfl ( dropLast_prefix path)
      intro heq
      have hlength := congrArg List.length heq
      have hpos := length_pos_iff.mpr hpath
      rw [length_dropLast] at hlength
      omega
  | above => rfl
  | unknown => cases hdir
  | nullDevice => cases hdir

/-- A file's path ends in a name. -/
theorem namesFile_of_read (h : t.read path = .ok text) : NamesFile path := by
  obtain ⟨place, hleads, hlook⟩ := read_ok.mp h
  rcases leads_cases hleads with ⟨rfl, -⟩ | hwalk
  · exact ⟨_, _, components_nullDevice, by decide, by decide, by decide⟩
  · obtain ⟨dir, last, hparts⟩ := exists_components path
    rw [hparts] at hwalk
    obtain ⟨mid, hmid, hdir, rfl⟩ := walk_concat_ok hwalk
    refine ⟨dir, last, hparts, ?_⟩
    rcases part_cases last with hstay | rfl | hname
    · rw [Place.enter_stay mid hstay, hdir] at hlook
      cases hlook
    · rw [((follows_origin t path).walk hmid).look_up hdir] at hlook
      cases hlook
    · exact hname

theorem walk_ne_nullDevice (h : here ≠ .nullDevice) (hwalk : t.walk here parts = .ok place) :
    place ≠ .nullDevice := by
  induction parts generalizing here with
  | nil => rwa [← Except.ok.inj hwalk]
  | cons part parts ih =>
    exact ih (Place.enter_ne_nullDevice h part) (walk_cons_ok.mp hwalk).2.2

/-- All other files are below the working directory. -/
theorem inside_of_read (h : t.read path = .ok text) (hpath : path ≠ nullDevice) :
    ∃ q, location path = ⟨false, 0, q⟩ := by
  obtain ⟨place, hleads, hlook⟩ := read_ok.mp h
  rcases leads_cases hleads with ⟨heq, -⟩ | hwalk
  · exact absurd heq hpath
  · have hplace : place ≠ .nullDevice := by
      apply walk_ne_nullDevice _ hwalk
      unfold origin
      split_ifs <;> simp
    cases place with
    | inside q => exact ⟨q, (hleads.follows.inside_iff q).mp rfl⟩
    | above => cases hlook
    | unknown => cases hlook
    | nullDevice => exact absurd rfl hplace

/-! ### Writing -/

theorem get?_put (t : FileTree) (path : List String) (text : String) (other : List String) :
    (t.put path text).get? other = if other = path then some text else t.get? other := by
  have hreplace : ∀ files : List (List String × String),
      (files.map fun f => if f.1 == path then (path, text) else f).lookup other =
        if other = path then (files.lookup other).map fun _ => text else files.lookup other := by
    intro files
    induction files with
    | nil => simp
    | cons f files ih =>
      rw [map_cons, lookup_cons, ih, lookup_cons]
      by_cases hpath : f.1 = path <;> by_cases hother : other = f.1 <;> grind
  unfold put
  by_cases hknown : (t.get? path).isSome = true
  · rw [if_pos hknown]
    refine (hreplace t.files).trans ?_
    by_cases heq : other = path
    · rw [if_pos heq, if_pos heq, heq]
      obtain ⟨old, hold⟩ := Option.isSome_iff_exists.mp hknown
      rw [show t.files.lookup path = some old from hold]
      rfl
    · rw [if_neg heq, if_neg heq, get?]
  · rw [if_neg hknown]
    have hnone : t.files.lookup path = none := Option.not_isSome_iff_eq_none.mp hknown
    by_cases heq : other = path
    · simp [get?, lookup_append, heq, hnone]
    · have hbeq : (other == path) = false := beq_eq_false_iff_ne.mpr heq
      simp [get?, lookup_append, lookup_cons, hbeq, heq]

theorem look_inside (t : FileTree) (path : List String) : t.look (.inside path) =
    match t.get? path with
    | some text => .file text
    | none => if t.isDirectory path then .directory else .missing := by
  rfl

theorem isDirectory_of_look {dir : List String} (h : t.look (.inside dir) = .directory) :
    t.isDirectory dir = true := by
  rw [look_inside] at h
  split at h
  · cases h
  · by_contra hnot
    rw [if_neg hnot] at h
    cases h

section

variable {w : List String}
  (h : ∀ dir, dir <+: w → dir ≠ w → t.look (.inside dir) = .directory)

include h

theorem isDirectory_put (other : List String) :
    (t.put w text).isDirectory other = t.isDirectory other := by
  unfold put
  split_ifs with hknown
  · have hkeys : ∀ f : List String × String, (if f.1 == w then (w, text) else f).1 = f.1 := by
      intro f
      split_ifs with heq
      · exact (beq_iff_eq.mp heq).symm
      · rfl
    simp only [isDirectory, any_map, Function.comp_def, hkeys]
  · have hadded : (⟨t.files ++ [(w, text)]⟩ : FileTree).isDirectory other =
        (t.isDirectory other || (other.isPrefixOf w && decide (other.length < w.length))) := by
      simp [isDirectory, Bool.or_assoc]
    rw [hadded]
    by_cases hinitial : (other.isPrefixOf w && decide (other.length < w.length)) = true
    · rw [hinitial, Bool.or_true]
      rw [Bool.and_eq_true, isPrefixOf_iff_prefix, decide_eq_true_iff] at hinitial
      refine (isDirectory_of_look (h other hinitial.1 ?_)).symm
      rintro rfl
      exact absurd hinitial.2 (Nat.lt_irrefl _)
    · rw [Bool.not_eq_true] at hinitial
      rw [hinitial, Bool.or_false]

theorem look_put (place : Place) :
    (t.put w text).look place = if place = .inside w then .file text else t.look place := by
  cases place with
  | inside other =>
    rw [look_inside, look_inside, get?_put, isDirectory_put h]
    by_cases heq : other = w
    · simp [heq]
    · simp [heq]
  | above | unknown | nullDevice => rfl

end

/-- A write changes what is at its place, and nothing else. -/
theorem look_write (h : t.write path text = .ok t') : ∃ place, t.Leads path place ∧
    t.look place ≠ .directory ∧ ∀ q, t'.look (.inside q) =
      if place = .inside q then .file text else t.look (.inside q) := by
  unfold write at h
  obtain ⟨⟨here, parts⟩, hstart, h⟩ := except_bind_ok.mp h
  dsimp only at h
  split at h
  · obtain ⟨_, -, hthrow⟩ := except_bind_ok.mp h
    cases hthrow
  · obtain ⟨place, hwalk, h⟩ := except_bind_ok.mp h
    have hleads : t.Leads path place := ⟨here, parts, hstart, hwalk⟩
    split at h
    · cases h
    · rename_i hdir
      refine ⟨place, hleads, hdir, ?_⟩
      intro q
      cases place with
      | inside w =>
        obtain rfl := Except.ok.inj h
        rw [look_put (hleads.follows.directory w · rfl)]
        simp [eq_comm]
      | above | unknown | nullDevice =>
        obtain rfl := Except.ok.inj h
        simp

/-- A path leads where it led before, since it does not pass the file that is written. -/
theorem Leads.write {other : String} (h : t.Leads other place)
    (hwrite : t.write path text = .ok t') : t'.Leads other place := by
  obtain ⟨written, -, hwritten, hlook⟩ := look_write hwrite
  have hkeep : ∀ mid, t.look mid = .directory → t'.look mid = .directory := by
    intro mid hmid
    cases mid with
    | inside q =>
      rw [hlook, if_neg, hmid]
      rintro rfl
      exact hwritten hmid
    | above | unknown | nullDevice => exact hmid
  obtain ⟨here, parts, hstart, hwalk⟩ := h
  refine ⟨here, parts, hstart, ?_⟩
  clear hstart
  induction parts generalizing here with
  | nil => exact hwalk
  | cons part parts ih =>
    obtain ⟨hdir, hsize, hwalk⟩ := walk_cons_ok.mp hwalk
    exact walk_cons_ok.mpr ⟨hkeep here hdir, hsize, ih _ hwalk⟩

section

variable {q : List String} (hwrite : t.write path text = .ok t')

include hwrite

/-- A file below the working directory is read as before, unless its location is written to. -/
theorem read_write {other old : String} (hread : t.read other = .ok old)
    (hinside : location other = ⟨false, 0, q⟩) :
    t'.read other = .ok (if location path = location other then text else old) := by
  obtain ⟨place, hleads, hold⟩ := read_ok.mp hread
  obtain ⟨written, hpath, -, hlook⟩ := look_write hwrite
  obtain rfl := (hleads.follows.inside_iff q).mpr hinside
  refine read_ok.mpr ⟨_, hleads.write hwrite, ?_⟩
  rw [hlook, hold, hinside]
  simp only [hpath.follows.inside_iff]
  split_ifs <;> rfl

theorem read_write_self (hinside : location path = ⟨false, 0, q⟩) : t'.read path = .ok text := by
  obtain ⟨written, hpath, -, hlook⟩ := look_write hwrite
  obtain rfl := (hpath.follows.inside_iff q).mpr hinside
  refine read_ok.mpr ⟨_, hpath.write hwrite, ?_⟩
  rw [hlook, if_pos rfl]

end

end FileTree

end Offload.Files
