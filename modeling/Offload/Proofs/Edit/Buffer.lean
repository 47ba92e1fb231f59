import Mathlib.Tactic
import Offload.Edit.Buffer

/-!
# What an edit buffer keeps

Whatever is asked of a buffer, the removals and replacements in it lie in the document, share no
byte, and none covers another; no insertion lies strictly inside one of them. The invariant is
carried from call to call by what the placement of a new range says about the edits already there.
-/

namespace Offload

open List

variable {c : Call} {b b' : EditBuffer} {e : EditError} {kind : EditKind} {edits : List Edit}
  {offset : Nat} {s span t : Span} {text : String}

namespace Span

/-- The span runs forward. -/
def Ordered (s : Span) : Prop := s.start ≤ s.stop

/-- The byte at an offset belongs to the span. -/
def contains (s : Span) (offset : Nat) : Bool := s.start ≤ offset && offset < s.stop

/-- The offset lies between the ends of the span and is neither of them. -/
def strictlyContains (s : Span) (offset : Nat) : Bool := s.start < offset && offset < s.stop

theorem covers_iff : s.covers t = true ↔ s.start ≤ t.start ∧ t.stop ≤ s.stop := by
  simp [covers]

theorem overlaps_iff : s.overlaps t = true ↔ s.start < t.stop ∧ t.start < s.stop := by
  simp [overlaps]

theorem contains_iff : s.contains offset = true ↔ s.start ≤ offset ∧ offset < s.stop := by
  simp [contains]

theorem strictlyContains_iff :
    s.strictlyContains offset = true ↔ s.start < offset ∧ offset < s.stop := by
  simp [strictlyContains]

theorem covers_refl (s : Span) : s.covers s = true := by simp [covers]

theorem covers_trans {u : Span} (hst : s.covers t = true) (htu : t.covers u = true) :
    s.covers u = true := by
  rw [covers_iff] at *
  omega

theorem eq_of_covers (hst : s.covers t = true) (hts : t.covers s = true) : s = t := by
  rw [covers_iff] at *
  obtain ⟨_, _⟩ := s
  obtain ⟨_, _⟩ := t
  simp only [mk.injEq]
  simp only at hst hts
  omega

theorem contains_of_covers (h : s.covers t = true) (ht : t.contains offset = true) :
    s.contains offset = true := by
  rw [covers_iff] at h
  rw [contains_iff] at *
  omega

end Span

namespace Edit

/-- The edit puts something in the place of a span, if only nothing. -/
def isRange (e : Edit) : Bool := !e.isInsertion

/-- Neither range covers or overlaps the other. -/
def Apart (a b : Edit) : Prop :=
  a.span.overlaps b.span = false ∧ a.span.covers b.span = false ∧ b.span.covers a.span = false

theorem Apart.symm {a b : Edit} (h : a.Apart b) : b.Apart a := by
  obtain ⟨hover, hab, hba⟩ := h
  refine ⟨?_, hba, hab⟩
  rw [← Bool.not_eq_true, Span.overlaps_iff] at hover ⊢
  omega

instance : Std.Symm Apart := ⟨fun _ _ => Apart.symm⟩

/-- What a list of edits of a document of the given length has to satisfy. -/
structure Sound (length : Nat) (edits : List Edit) : Prop where
  ordered : ∀ e ∈ edits, e.span.Ordered
  inBounds : ∀ e ∈ edits, e.span.stop ≤ length
  point : ∀ e ∈ edits, e.isInsertion = true → e.span.stop = e.span.start
  apart : (edits.filter isRange).Pairwise Apart
  outside : ∀ i ∈ edits, i.isInsertion = true → ∀ e ∈ edits, e.isRange = true →
    e.span.strictlyContains i.span.start = false

theorem sound_nil (length : Nat) : Sound length [] := by
  constructor <;> simp

theorem Sound.sublist {length : Nat} {kept : List Edit} (h : Sound length edits)
    (hk : kept.Sublist edits) : Sound length kept where
  ordered e he := h.ordered e (hk.subset he)
  inBounds e he := h.inBounds e (hk.subset he)
  point e he := h.point e (hk.subset he)
  apart := h.apart.sublist (hk.filter _)
  outside i hi hins e he := h.outside i (hk.subset hi) hins e (hk.subset he)

theorem Sound.perm {length : Nat} {edits' : List Edit} (h : Sound length edits)
    (hp : edits.Perm edits') : Sound length edits' where
  ordered e he := h.ordered e (hp.mem_iff.mpr he)
  inBounds e he := h.inBounds e (hp.mem_iff.mpr he)
  point e he := h.point e (hp.mem_iff.mpr he)
  apart := ((hp.filter isRange).pairwise_iff Apart.symm).mp h.apart
  outside i hi hins e he := h.outside i (hp.mem_iff.mpr hi) hins e (hp.mem_iff.mpr he)

end Edit

namespace EditBuffer

/-! ### Placing a range -/

/-- The edit stays beside a new range: an insertion unless it falls strictly inside, a range unless
it is covered. -/
def staysBeside (span : Span) (e : Edit) : Bool :=
  if e.isInsertion then !span.strictlyContains e.span.start
  else !span.covers e.span

/-- The range decides about the placement of a new one: it covers it, or overlaps it without being
covered by it. -/
def decidesAbout (span : Span) (e : Edit) : Bool :=
  e.isRange && (e.span.covers span || (!span.covers e.span && span.overlaps e.span))

/-- The first range that decides about the placement settles it; without one the new range fits. -/
theorem place_eq (span : Span) (edits : List Edit) :
    place span edits =
      match edits.find? (decidesAbout span) with
      | some e => if e.span.covers span then .absorbed else .conflict e.span
      | none => .fits (edits.filter (staysBeside span)) := by
  induction edits with
  | nil => rfl
  | cons e rest ih =>
    have hkeep : staysBeside span e = true → decidesAbout span e = false →
        (place span rest).keep e =
          match (e :: rest).find? (decidesAbout span) with
          | some e => if e.span.covers span then .absorbed else .conflict e.span
          | none => .fits ((e :: rest).filter (staysBeside span)) := by
      intro hstay hdecides
      rw [ih, find?_cons_of_neg (by simp [hdecides]), filter_cons_of_pos hstay]
      cases rest.find? (decidesAbout span) with
      | none => rfl
      | some x => by_cases hx : x.span.covers span = true <;> simp [hx, Placement.keep]
    have hdrop : staysBeside span e = false → decidesAbout span e = false →
        place span rest =
          match (e :: rest).find? (decidesAbout span) with
          | some e => if e.span.covers span then .absorbed else .conflict e.span
          | none => .fits ((e :: rest).filter (staysBeside span)) := by
      intro hstay hdecides
      rw [ih, find?_cons_of_neg (by simp [hdecides]), filter_cons_of_neg (by simp [hstay])]
    rw [place]
    split_ifs with hins hinside hcovers hcovered hover
    · exact hdrop (by simp [staysBeside, hins, Span.strictlyContains, hinside])
        (by simp [decidesAbout, Edit.isRange, hins])
    · exact hkeep (by simp [staysBeside, hins, Span.strictlyContains, hinside])
        (by simp [decidesAbout, Edit.isRange, hins])
    · rw [find?_cons_of_pos (by simp [decidesAbout, Edit.isRange, hins, hcovers])]
      simp [hcovers]
    · exact hdrop (by simp [staysBeside, hins, hcovered])
        (by simp [decidesAbout, hcovers, hcovered])
    · rw [find?_cons_of_pos (by simp [decidesAbout, Edit.isRange, hins, hcovered, hover])]
      simp [hcovers]
    · exact hkeep (by simp [staysBeside, hins, hcovered])
        (by simp [decidesAbout, hcovers, hover])

theorem place_absorbed (h : place span edits = .absorbed) :
    ∃ e ∈ edits, e.isRange = true ∧ e.span.covers span = true := by
  rw [place_eq] at h
  split at h
  · rename_i e he
    split_ifs at h with hcovers
    have hdecides := find?_some he
    simp only [decidesAbout, Bool.and_eq_true] at hdecides
    exact ⟨e, mem_of_find?_eq_some he, hdecides.1, hcovers⟩
  · cases h

theorem place_conflict {existing : Span} (h : place span edits = .conflict existing) :
    ∃ e ∈ edits, e.isRange = true ∧ e.span = existing ∧ span.overlaps existing = true ∧
      existing.covers span = false ∧ span.covers existing = false := by
  rw [place_eq] at h
  split at h
  · rename_i e he
    split_ifs at h with hcovers
    obtain rfl := Placement.conflict.inj h
    have hdecides := find?_some he
    simp only [decidesAbout, Bool.and_eq_true, Bool.or_eq_true, Bool.not_eq_true', hcovers,
      false_or, Bool.false_eq_true] at hdecides
    exact ⟨e, mem_of_find?_eq_some he, hdecides.1, rfl, hdecides.2.2, by simpa using hcovers,
      hdecides.2.1⟩
  · cases h

/-- A range that fits is covered by none of the ranges there, and overlaps only those it covers. -/
theorem place_fits {survivors : List Edit} (h : place span edits = .fits survivors) :
    survivors = edits.filter (staysBeside span) ∧
      ∀ e ∈ edits, e.isRange = true → e.span.covers span = false ∧
        (span.covers e.span = false → span.overlaps e.span = false) := by
  rw [place_eq] at h
  split at h
  · split_ifs at h
  · rename_i hnone
    refine ⟨(Placement.fits.inj h).symm, ?_⟩
    intro e he hrange
    have hfree := find?_eq_none.mp hnone e he
    simp only [decidesAbout, hrange, Bool.true_and, Bool.or_eq_true, Bool.and_eq_true,
      Bool.not_eq_true', not_or, not_and, Bool.not_eq_true] at hfree
    exact hfree

/-! ### What a call does -/

theorem checkBounds_ok (h : span.stop ≤ b.document.length) :
    b.checkBounds span = .ok () := if_neg (not_lt.mpr h)

theorem checkBounds_error (h : b.document.length < span.stop) :
    b.checkBounds span = .error (.outOfBounds span b.document.length) := if_pos h

/-- A range that is recorded fits into the document and beside the edits that stay. -/
structure Fits (b : EditBuffer) (span : Span) (kind : EditKind) : Prop where
  inBounds : span.stop ≤ b.document.length
  recorded : ¬ (span.isEmpty = true ∧ kind = .remove)
  free : ∀ e ∈ b.edits, e.isRange = true → e.span.covers span = false ∧
    (span.covers e.span = false → span.overlaps e.span = false)

/-- An accepted range has no effect, because it removes nothing or lies in a range already there,
or it takes its place at the end of the edits that stay. -/
theorem addRange_ok (h : b.addRange span kind = .ok b') :
    span.stop ≤ b.document.length ∧
      (b' = b ∧ (span.isEmpty = true ∧ kind = .remove ∨
          ∃ e ∈ b.edits, e.isRange = true ∧ e.span.covers span = true) ∨
        b' = { b with edits := b.edits.filter (staysBeside span) ++ [⟨span, kind⟩] } ∧
          b.Fits span kind) := by
  unfold addRange at h
  rcases Nat.lt_or_ge b.document.length span.stop with hlt | hle
  · simp [checkBounds_error hlt, bind, Except.bind] at h
  refine ⟨hle, ?_⟩
  simp only [checkBounds_ok hle, bind, Except.bind, pure, Except.pure, Bool.and_eq_true,
    beq_iff_eq] at h
  split_ifs at h with hempty
  · obtain rfl := Except.ok.inj h
    exact Or.inl ⟨rfl, Or.inl hempty⟩
  split at h
  · rename_i habsorbed
    obtain rfl := Except.ok.inj h
    exact Or.inl ⟨rfl, Or.inr (place_absorbed habsorbed)⟩
  · cases h
  · rename_i survivors hfits
    obtain ⟨rfl, hfree⟩ := place_fits hfits
    exact Or.inr ⟨(Except.ok.inj h).symm, hle, hempty, hfree⟩

/-- A range is refused for lying outside the document or for overlapping a range that neither
covers it nor is covered. -/
theorem addRange_error (h : b.addRange span kind = .error e) :
    e = .outOfBounds span b.document.length ∧ b.document.length < span.stop ∨
      ∃ r ∈ b.edits, r.isRange = true ∧ e = .overlap r.span span ∧
        span.overlaps r.span = true ∧ r.span.covers span = false ∧ span.covers r.span = false := by
  unfold addRange at h
  rcases Nat.lt_or_ge b.document.length span.stop with hlt | hle
  · simp only [checkBounds_error hlt, bind, Except.bind, Except.error.injEq] at h
    exact Or.inl ⟨h.symm, hlt⟩
  simp only [checkBounds_ok hle, bind, Except.bind, pure, Except.pure] at h
  split_ifs at h
  split at h
  · cases h
  · rename_i existing hconflict
    obtain ⟨r, hr, hrange, rfl, hover, hcovers, hcovered⟩ := place_conflict hconflict
    exact Or.inr ⟨r, hr, hrange, (Except.error.inj h).symm, hover, hcovers, hcovered⟩
  · cases h

theorem insertAfter_ok (h : b.insertAfter offset text = .ok b') :
    offset ≤ b.document.length ∧
      (b' = b ∧ (∃ e ∈ b.edits, e.isRange = true ∧ e.span.strictlyContains offset = true) ∨
        b' = { b with edits := b.edits ++ [⟨.point offset, .insert text⟩] } ∧
          ∀ e ∈ b.edits, e.isRange = true → e.span.strictlyContains offset = false) := by
  unfold insertAfter at h
  rcases Nat.lt_or_ge b.document.length offset with hlt | hle
  · simp [checkBounds_error (show b.document.length < (Span.point offset).stop from hlt), bind,
      Except.bind] at h
  refine ⟨hle, ?_⟩
  simp only [checkBounds_ok (show (Span.point offset).stop ≤ b.document.length from hle), bind,
    Except.bind, pure, Except.pure] at h
  split_ifs at h with hhidden
  · obtain rfl := Except.ok.inj h
    obtain ⟨e, he, hin⟩ := any_eq_true.mp hhidden
    simp only [Bool.and_eq_true, decide_eq_true_eq] at hin
    exact Or.inl ⟨rfl, e, he, hin.1.1, Span.strictlyContains_iff.mpr ⟨hin.1.2, hin.2⟩⟩
  · refine Or.inr ⟨(Except.ok.inj h).symm, ?_⟩
    intro e he hrange
    have hnot := (any_eq_false.mp (Bool.not_eq_true _ ▸ hhidden)) e he
    rw [← Bool.not_eq_true, Span.strictlyContains_iff]
    intro hin
    have hins : (!e.isInsertion) = true := hrange
    simp [hins, hin.1, hin.2] at hnot

theorem insertAfter_error (h : b.insertAfter offset text = .error e) :
    e = .outOfBounds (.point offset) b.document.length ∧ b.document.length < offset := by
  unfold insertAfter at h
  rcases Nat.lt_or_ge b.document.length offset with hlt | hle
  · rw [checkBounds_error (show b.document.length < (Span.point offset).stop from hlt)] at h
    exact ⟨(Except.error.inj h).symm, hlt⟩
  · simp only [checkBounds_ok (show (Span.point offset).stop ≤ b.document.length from hle), bind,
      Except.bind, pure, Except.pure] at h
    split_ifs at h

/-! ### The invariant -/

/-- The edits of a buffer are sound for its document. -/
def Sound (b : EditBuffer) : Prop := Edit.Sound b.document.length b.edits

theorem sound_ofDocument (doc : Document) : (ofDocument doc).Sound := Edit.sound_nil _

theorem Fits.sound (hf : b.Fits span kind) (hb : b.Sound) (ho : span.Ordered)
    (hk : (⟨span, kind⟩ : Edit).isRange = true) :
    Edit.Sound b.document.length (b.edits.filter (staysBeside span) ++ [⟨span, kind⟩]) := by
  have hkept : Edit.Sound b.document.length (b.edits.filter (staysBeside span)) :=
    Edit.Sound.sublist hb filter_sublist
  have hnotIns : (⟨span, kind⟩ : Edit).isInsertion = false := by simpa [Edit.isRange] using hk
  constructor
  · intro e he
    rcases mem_append.mp he with he | he
    · exact hkept.ordered e he
    · rw [mem_singleton.mp he]
      exact ho
  · intro e he
    rcases mem_append.mp he with he | he
    · exact hkept.inBounds e he
    · rw [mem_singleton.mp he]
      exact hf.inBounds
  · intro e he hins
    rcases mem_append.mp he with he | he
    · exact hkept.point e he hins
    · rw [mem_singleton.mp he, hnotIns] at hins
      cases hins
  · rw [filter_append, filter_cons_of_pos hk, filter_nil, pairwise_append]
    refine ⟨hkept.apart, pairwise_singleton _ _, ?_⟩
    intro e he x hx
    rw [mem_singleton.mp hx]
    obtain ⟨hmem, hrange⟩ := mem_filter.mp he
    obtain ⟨hmem, hstay⟩ := mem_filter.mp hmem
    obtain ⟨hcovers, hfree⟩ := hf.free e hmem hrange
    -- a range that stays is not covered by the new one
    have hcovered : span.covers e.span = false := by
      have hins : e.isInsertion = false := by simpa [Edit.isRange] using hrange
      simpa [staysBeside, hins] using hstay
    have hover := hfree hcovered
    rw [← Bool.not_eq_true, Span.overlaps_iff] at hover
    refine ⟨?_, hcovers, hcovered⟩
    rw [← Bool.not_eq_true, Span.overlaps_iff]
    exact fun h => hover ⟨h.2, h.1⟩
  · intro i hi hins e he hrange
    have hi : i ∈ b.edits.filter (staysBeside span) := by
      rcases mem_append.mp hi with hi | hi
      · exact hi
      · rw [mem_singleton.mp hi, hnotIns] at hins
        cases hins
    rcases mem_append.mp he with he | he
    · exact hkept.outside i hi hins e he hrange
    · rw [mem_singleton.mp he]
      have hstay := (mem_filter.mp hi).2
      simpa [staysBeside, hins] using hstay

theorem addRange_sound (hb : b.Sound) (ho : span.Ordered)
    (hk : (⟨span, kind⟩ : Edit).isRange = true) (h : b.addRange span kind = .ok b') : b'.Sound := by
  obtain ⟨-, ⟨rfl, -⟩ | ⟨rfl, hf⟩⟩ := addRange_ok h
  · exact hb
  · exact hf.sound hb ho hk

theorem insertAfter_sound (hb : b.Sound) (h : b.insertAfter offset text = .ok b') : b'.Sound := by
  obtain ⟨hle, ⟨rfl, -⟩ | ⟨rfl, hfree⟩⟩ := insertAfter_ok h
  · exact hb
  constructor
  · intro e he
    rcases mem_append.mp he with he | he
    · exact hb.ordered e he
    · rw [mem_singleton.mp he]
      exact le_rfl
  · intro e he
    rcases mem_append.mp he with he | he
    · exact hb.inBounds e he
    · rw [mem_singleton.mp he]
      exact hle
  · intro e he hins
    rcases mem_append.mp he with he | he
    · exact hb.point e he hins
    · rw [mem_singleton.mp he]
      rfl
  · rw [filter_append, filter_cons_of_neg (by simp [Edit.isRange, Edit.isInsertion]),
      filter_nil, append_nil]
    exact hb.apart
  · intro i hi hins e he hrange
    have he : e ∈ b.edits := by
      rcases mem_append.mp he with he | he
      · exact he
      · rw [mem_singleton.mp he] at hrange
        simp [Edit.isRange, Edit.isInsertion] at hrange
    rcases mem_append.mp hi with hi | hi
    · exact hb.outside i hi hins e he hrange
    · rw [mem_singleton.mp hi]
      exact hfree e he hrange

/-! ### Calls -/

/-- What can be asked of a buffer. -/
inductive Call where
  | remove (span : Span)
  | replace (span : Span) (text : String)
  | insertAfter (offset : Nat) (text : String)
deriving DecidableEq, Repr

namespace Call

/-- The edit that is asked for. -/
def edit : Call → Edit
  | remove span => ⟨span, .remove⟩
  | replace span text => ⟨span, .replace text⟩
  | insertAfter offset text => ⟨.point offset, .insert text⟩

@[simp] theorem edit_remove (span : Span) : (remove span).edit = ⟨span, .remove⟩ := rfl

@[simp] theorem edit_replace (span : Span) (text : String) :
    (replace span text).edit = ⟨span, .replace text⟩ := rfl

@[simp] theorem edit_insertAfter (offset : Nat) (text : String) :
    (insertAfter offset text).edit = ⟨.point offset, .insert text⟩ := rfl

end Call

def request (b : EditBuffer) : Call → Except EditError EditBuffer
  | .remove span => b.remove span
  | .replace span text => b.replace span text
  | .insertAfter offset text => b.insertAfter offset text

/-- The answer to a call, and the buffer after it. -/
def perform (b : EditBuffer) (c : Call) : Except EditError Unit × EditBuffer :=
  match b.request c with
  | .ok b' => (.ok (), b')
  | .error e => (.error e, b)

/-- The buffer after some calls, whatever each of them answers. -/
def performAll (b : EditBuffer) (calls : List Call) : EditBuffer :=
  calls.foldl (fun b c => (b.perform c).2) b

theorem performAll_concat (b : EditBuffer) (calls : List Call) (c : Call) :
    b.performAll (calls ++ [c]) = ((b.performAll calls).perform c).2 := by
  simp [performAll]

/-- Every call answers with the buffer as it was, or with the edit added to the edits that stay. -/
theorem request_ok (h : b.request c = .ok b') :
    b' = b ∨
      ∃ kept, kept.Sublist b.edits ∧ b' = { b with edits := kept ++ [c.edit] } ∧
        c.edit.span.stop ≤ b.document.length := by
  cases c with
  | remove span =>
    obtain ⟨hle, ⟨rfl, -⟩ | ⟨rfl, -⟩⟩ := addRange_ok h
    · exact Or.inl rfl
    · exact Or.inr ⟨_, filter_sublist, rfl, hle⟩
  | replace span text =>
    obtain ⟨hle, ⟨rfl, -⟩ | ⟨rfl, -⟩⟩ := addRange_ok h
    · exact Or.inl rfl
    · exact Or.inr ⟨_, filter_sublist, rfl, hle⟩
  | insertAfter offset text =>
    obtain ⟨hle, ⟨rfl, -⟩ | ⟨rfl, -⟩⟩ := insertAfter_ok h
    · exact Or.inl rfl
    · exact Or.inr ⟨_, List.Sublist.refl _, rfl, hle⟩

theorem request_document (h : b.request c = .ok b') : b'.document = b.document := by
  rcases request_ok h with rfl | ⟨kept, -, rfl, -⟩ <;> rfl

theorem request_sound (hb : b.Sound) (ho : c.edit.span.Ordered) (h : b.request c = .ok b') :
    b'.Sound := by
  cases c with
  | remove span => exact addRange_sound hb ho rfl h
  | replace span text => exact addRange_sound hb ho rfl h
  | insertAfter offset text => exact insertAfter_sound hb h

theorem perform_of_ok (h : b.request c = .ok b') : b.perform c = (.ok (), b') := by
  rw [perform, h]

theorem perform_of_error (h : b.request c = .error e) : b.perform c = (.error e, b) := by
  rw [perform, h]

theorem performAll_document (b : EditBuffer) (calls : List Call) :
    (b.performAll calls).document = b.document := by
  induction calls using List.reverseRecOn with
  | nil => rfl
  | append_singleton calls c ih =>
    rw [performAll_concat]
    cases hr : (b.performAll calls).request c with
    | ok b' => rw [perform_of_ok hr, request_document hr, ih]
    | error e => rw [perform_of_error hr, ih]

theorem performAll_sound (hb : b.Sound) {calls : List Call}
    (ho : ∀ c ∈ calls, c.edit.span.Ordered) : (b.performAll calls).Sound := by
  induction calls using List.reverseRecOn with
  | nil => exact hb
  | append_singleton calls c ih =>
    have hs := ih fun x hx => ho x (mem_append_left _ hx)
    rw [performAll_concat]
    cases hr : (b.performAll calls).request c with
    | ok b' =>
      rw [perform_of_ok hr]
      exact request_sound hs (ho c (by simp)) hr
    | error e =>
      rw [perform_of_error hr]
      exact hs

/-- The edits of a buffer are among those asked for. -/
theorem performAll_edits_subset (doc : Document) (calls : List Call) :
    ∀ e ∈ ((ofDocument doc).performAll calls).edits,
      e.span.stop ≤ doc.length ∧ ∃ c ∈ calls, c.edit = e := by
  induction calls using List.reverseRecOn with
  | nil => simp [performAll, ofDocument]
  | append_singleton calls c ih =>
    have hprev : ∀ e ∈ ((ofDocument doc).performAll calls).edits,
        e.span.stop ≤ doc.length ∧ ∃ x ∈ calls ++ [c], x.edit = e := by
      intro e he
      obtain ⟨hle, x, hx, hxe⟩ := ih e he
      exact ⟨hle, x, mem_append_left _ hx, hxe⟩
    rw [performAll_concat]
    cases hr : ((ofDocument doc).performAll calls).request c with
    | error e =>
      rw [perform_of_error hr]
      exact hprev
    | ok b' =>
      rw [perform_of_ok hr]
      rcases request_ok hr with rfl | ⟨kept, hkept, rfl, hle⟩
      · exact hprev
      · intro e he
        rcases mem_append.mp he with he | he
        · exact hprev e (hkept.subset he)
        · rw [performAll_document] at hle
          rw [mem_singleton.mp he]
          exact ⟨hle, c, by simp, rfl⟩

end EditBuffer

end Offload
