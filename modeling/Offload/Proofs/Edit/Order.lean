import Offload.Proofs.Edit.Accepted

/-!
# Edits in any order

Where no call is refused, the buffer depends on the calls and hardly on their order. The ranges left
are the largest of those asked for, and an insertion is left unless some range asked for lies around
it, whichever of them came first. Two orders that agree on the insertions at each offset therefore
leave edits that are the same once they are sorted.
-/

namespace Offload

open List

variable {c : Call} {e : Edit} {xs ys : List Edit} {offset : Nat}

theorem Span.strictlyContains_of_covers {s t : Span} (h : s.covers t = true)
    (ht : t.strictlyContains offset = true) : s.strictlyContains offset = true := by
  rw [covers_iff] at h
  rw [strictlyContains_iff] at *
  omega

namespace Edit

/-- The edit is an insertion at an offset. -/
def insertsAt (offset : Nat) (e : Edit) : Bool := e.isInsertion && e.span.start == offset

theorem insertsAt_iff :
    insertsAt offset e = true ↔ e.isInsertion = true ∧ e.span.start = offset := by
  simp [insertsAt]

theorem insertsAt_of_isRange (h : e.isRange = true) (offset : Nat) :
    insertsAt offset e = false := by
  have hins : e.isInsertion = false := by simpa [isRange] using h
  simp [insertsAt, hins]

/-! ### Sorting -/

/-- Place in the order of application: two for each offset, one for the insertions there and one for
the range that starts there. -/
def rank (e : Edit) : Nat := 2 * e.span.start + if e.isInsertion then 0 else 1

theorem precedes_iff_rank_le {a b : Edit} : a.precedes b = true ↔ a.rank ≤ b.rank := by
  rw [precedes_iff, rank, rank]
  cases a.isInsertion <;> cases b.isInsertion <;> simp <;> omega

theorem rank_eq_even_iff : e.rank = 2 * offset ↔ insertsAt offset e = true := by
  rw [insertsAt_iff, rank]
  cases e.isInsertion <;> simp
  omega

theorem rank_eq_odd_iff : e.rank = 2 * offset + 1 ↔ startsAt offset e = true := by
  rw [startsAt_iff, rank, isRange]
  cases e.isInsertion <;> simp
  omega

theorem filter_rank_mergeSort (edits : List Edit) (k : Nat) :
    (edits.mergeSort precedes).filter (·.rank == k) = edits.filter (·.rank == k) := by
  refine filter_mergeSort edits fun a b ha hb => ?_
  rw [beq_iff_eq] at ha hb
  exact precedes_iff_rank_le.mpr (by omega)

theorem mem_iff_of_filter_rank_eq (h : ∀ k, xs.filter (·.rank == k) = ys.filter (·.rank == k))
    (e : Edit) : e ∈ xs ↔ e ∈ ys := by
  have hmem : e ∈ xs.filter (·.rank == e.rank) ↔ e ∈ ys.filter (·.rank == e.rank) := by rw [h]
  simpa using hmem

/-- A sorted list is told by what it has of each rank. -/
theorem eq_of_filter_rank_eq (hx : xs.Pairwise fun a b => a.rank ≤ b.rank)
    (hy : ys.Pairwise fun a b => a.rank ≤ b.rank)
    (h : ∀ k, xs.filter (·.rank == k) = ys.filter (·.rank == k)) : xs = ys := by
  have hmem := mem_iff_of_filter_rank_eq h
  induction xs generalizing ys with
  | nil =>
    symm
    exact eq_nil_iff_forall_not_mem.mpr fun e he => by simpa using (hmem e).mpr he
  | cons x xs ih =>
    cases ys with
    | nil => exact absurd ((hmem x).mp mem_cons_self) (by simp)
    | cons y ys =>
      obtain ⟨hxs, hx'⟩ := pairwise_cons.mp hx
      obtain ⟨hys, hy'⟩ := pairwise_cons.mp hy
      -- neither list has a smaller rank than the head of the other
      have hxy : x.rank ≤ y.rank := by
        rcases mem_cons.mp ((hmem y).mpr mem_cons_self) with rfl | hin
        · exact le_rfl
        · exact hxs y hin
      have hyx : y.rank ≤ x.rank := by
        rcases mem_cons.mp ((hmem x).mp mem_cons_self) with rfl | hin
        · exact le_rfl
        · exact hys x hin
      have hrank : y.rank = x.rank := le_antisymm hyx hxy
      have hhead : x = y := by
        have hk := h x.rank
        rw [filter_cons_of_pos (by simp), filter_cons_of_pos (by simp [hrank])] at hk
        exact head_eq_of_cons_eq hk
      subst hhead
      have hrest : ∀ k, xs.filter (·.rank == k) = ys.filter (·.rank == k) := by
        intro k
        have hk := h k
        by_cases hxk : x.rank = k
        · rw [filter_cons_of_pos (by simp [hxk]), filter_cons_of_pos (by simp [hxk])] at hk
          exact tail_eq_of_cons_eq hk
        · rwa [filter_cons_of_neg (by simp [hxk]), filter_cons_of_neg (by simp [hxk])] at hk
      rw [ih hx' hy' hrest (mem_iff_of_filter_rank_eq hrest)]

/-- Edits that agree on the insertions at each offset and on the ranges that start there are the
same once they are sorted. -/
theorem mergeSort_eq_of_filter_eq {edits edits' : List Edit}
    (hinsert : ∀ offset, edits.filter (insertsAt offset) = edits'.filter (insertsAt offset))
    (hstart : ∀ offset, edits.filter (startsAt offset) = edits'.filter (startsAt offset)) :
    edits.mergeSort precedes = edits'.mergeSort precedes := by
  have hsorted : ∀ edits : List Edit,
      (edits.mergeSort precedes).Pairwise fun a b => a.rank ≤ b.rank := by
    intro edits
    exact (pairwise_mergeSort precedes_trans precedes_total edits).imp precedes_iff_rank_le.mp
  apply eq_of_filter_rank_eq (hsorted edits) (hsorted edits')
  intro k
  rw [filter_rank_mergeSort, filter_rank_mergeSort]
  rcases Nat.even_or_odd' k with ⟨offset, rfl | rfl⟩
  · have hclass : (fun e : Edit => e.rank == 2 * offset) = insertsAt offset := by
      funext e
      rw [Bool.eq_iff_iff, beq_iff_eq, rank_eq_even_iff]
    rw [hclass, hinsert]
  · have hclass : (fun e : Edit => e.rank == 2 * offset + 1) = startsAt offset := by
      funext e
      rw [Bool.eq_iff_iff, beq_iff_eq, rank_eq_odd_iff]
    rw [hclass, hstart]

end Edit

namespace EditBuffer

variable {doc : Document} {b b' : EditBuffer} {calls calls' : List Call}

/-! ### Ranges left -/

/-- A range that is left was asked for. -/
theorem exists_records_of_mem (h : (ofDocument doc).requestAll calls = .ok b) (he : e ∈ b.edits)
    (hr : e.isRange = true) : ∃ c ∈ calls, c.edit = e ∧ c.records = true := by
  induction calls using List.reverseRecOn generalizing b with
  | nil =>
    rw [← Except.ok.inj h] at he
    simp [ofDocument] at he
  | append_singleton calls last ih =>
    obtain ⟨m, hm, hlast⟩ := requestAll_concat_ok.mp h
    have hbefore : e ∈ m.edits → ∃ c ∈ calls ++ [last], c.edit = e ∧ c.records = true := by
      intro hmem
      obtain ⟨c, hc, hce⟩ := ih hm hmem
      exact ⟨c, mem_append_left _ hc, hce⟩
    cases hl : last.records with
    | false => exact hbefore ((request_not_records hl hlast e hr).mp he)
    | true =>
      rcases request_records hl hlast with ⟨rfl, -⟩ | ⟨rfl, -⟩
      · exact hbefore he
      · rcases mem_append.mp he with he | he
        · exact hbefore (mem_of_mem_filter he)
        · exact ⟨last, by simp, (mem_singleton.mp he).symm, hl⟩

/-- Neither range covers the other. -/
def Incomparable (r s : Edit) : Prop :=
  r.span.covers s.span = false ∧ s.span.covers r.span = false

/-- No range that is left covers another. -/
theorem requestAll_incomparable (h : (ofDocument doc).requestAll calls = .ok b) :
    (b.edits.filter Edit.isRange).Pairwise Incomparable := by
  induction calls using List.reverseRecOn generalizing b with
  | nil =>
    rw [← Except.ok.inj h]
    exact List.Pairwise.nil
  | append_singleton calls last ih =>
    obtain ⟨m, hm, hlast⟩ := requestAll_concat_ok.mp h
    cases hl : last.records with
    | false =>
      rw [filter_isRange_request hl hlast]
      exact ih hm
    | true =>
      rcases request_records hl hlast with ⟨rfl, -⟩ | ⟨rfl, hfits⟩
      · exact ih hm
      · have hrange : last.edit.isRange = true := (Bool.and_eq_true _ _ ▸ hl).1
        rw [filter_append, filter_cons_of_pos hrange, filter_nil, pairwise_append]
        refine ⟨(ih hm).sublist (filter_sublist.filter _), pairwise_singleton _ _, ?_⟩
        intro e he x hx
        rw [mem_singleton.mp hx]
        obtain ⟨he, her⟩ := mem_filter.mp he
        obtain ⟨he, hstay⟩ := mem_filter.mp he
        have hins : e.isInsertion = false := by simpa [Edit.isRange] using her
        exact ⟨(hfits.free e he her).1, by simpa [staysBeside, hins] using hstay⟩

/-- No two calls put different things in the place of one span. -/
def Unambiguous (calls : List Call) : Prop :=
  ∀ c ∈ calls, ∀ d ∈ calls, c.edit.isRange = true → d.edit.isRange = true →
    c.edit.span = d.edit.span → c = d

instance (calls : List Call) : Decidable (Unambiguous calls) :=
  inferInstanceAs (Decidable (∀ c ∈ calls, ∀ d ∈ calls, _))

/-- The ranges left are the largest ones asked for, so other runs of the same calls leave them
too. -/
theorem mem_edits_of_mem (hspan : Unambiguous calls) (hmem : ∀ c, c ∈ calls' ↔ c ∈ calls)
    (h : (ofDocument doc).requestAll calls = .ok b)
    (h' : (ofDocument doc).requestAll calls' = .ok b') (he : e ∈ b.edits) (hr : e.isRange = true) :
    e ∈ b'.edits := by
  obtain ⟨c, hc, rfl, hrec⟩ := exists_records_of_mem h he hr
  obtain ⟨r, hr', hrr, hrc⟩ := requestAll_covered h' c ((hmem c).mpr hc) hrec
  obtain ⟨d, hd, rfl, hdrec⟩ := exists_records_of_mem h' hr' hrr
  have hd := (hmem d).mp hd
  -- what covers it in the other run is covered in this one, and that can only be itself
  obtain ⟨s, hs, hsr, hsd⟩ := requestAll_covered h d hd hdrec
  have hsame : s = c.edit := Edit.eq_of_covers (requestAll_incomparable h) hs hsr he hr
    (Span.covers_trans hsd hrc)
  rw [hsame] at hsd
  rw [hspan c hc d hd hr hrr (Span.eq_of_covers hsd hrc)]
  exact hr'

theorem filter_startsAt_eq (hspan : Unambiguous calls) (hperm : calls.Perm calls')
    (h : (ofDocument doc).requestAll calls = .ok b)
    (h' : (ofDocument doc).requestAll calls' = .ok b') (offset : Nat) :
    b.edits.filter (Edit.startsAt offset) = b'.edits.filter (Edit.startsAt offset) := by
  have hspan' : Unambiguous calls' := by
    intro c hc d hd
    exact hspan c (hperm.mem_iff.mpr hc) d (hperm.mem_iff.mpr hd)
  have hmem : ∀ e, e ∈ b.edits.filter (Edit.startsAt offset) ↔
      e ∈ b'.edits.filter (Edit.startsAt offset) := by
    intro e
    simp only [mem_filter]
    refine and_congr_left fun hstart => ?_
    have hr := (Edit.startsAt_iff.mp hstart).1
    constructor
    · exact fun he => mem_edits_of_mem hspan (fun c => hperm.mem_iff.symm) h h' he hr
    · exact fun he => mem_edits_of_mem hspan' (fun c => hperm.mem_iff) h' h he hr
  apply Edit.eq_of_length_le_one _ _ hmem
  · exact Edit.startsAt_length_le (requestAll_incomparable h) offset
  · exact Edit.startsAt_length_le (requestAll_incomparable h') offset

/-! ### Insertions left -/

/-- Some range asked for lies around an offset. -/
def Hidden (calls : List Call) (offset : Nat) : Prop :=
  ∃ c ∈ calls, c.records = true ∧ c.edit.span.strictlyContains offset = true

instance (calls : List Call) (offset : Nat) : Decidable (Hidden calls offset) :=
  inferInstanceAs (Decidable (∃ c ∈ calls, _))

/-- An offset lies inside a range that is left exactly if it is hidden. -/
theorem hidden_iff (h : (ofDocument doc).requestAll calls = .ok b) :
    Hidden calls offset ↔
      ∃ e ∈ b.edits, e.isRange = true ∧ e.span.strictlyContains offset = true := by
  constructor
  · rintro ⟨c, hc, hrec, hin⟩
    obtain ⟨e, he, hr, hcov⟩ := requestAll_covered h c hc hrec
    exact ⟨e, he, hr, Span.strictlyContains_of_covers hcov hin⟩
  · rintro ⟨e, he, hr, hin⟩
    obtain ⟨c, hc, rfl, hrec⟩ := exists_records_of_mem h he hr
    exact ⟨c, hc, hrec, hin⟩

theorem hidden_concat_iff {last : Call} :
    Hidden (calls ++ [last]) offset ↔ Hidden calls offset ∨
      last.records = true ∧ last.edit.span.strictlyContains offset = true := by
  simp [Hidden, or_and_right, exists_or]

/-- A range that is recorded drops the insertions inside it and no other. -/
theorem filter_insertsAt_beside (he : e.isRange = true) (edits : List Edit) (offset : Nat) :
    (edits.filter (staysBeside e.span) ++ [e]).filter (Edit.insertsAt offset) =
      if e.span.strictlyContains offset then [] else edits.filter (Edit.insertsAt offset) := by
  have hclass : ∀ i : Edit, (Edit.insertsAt offset i && staysBeside e.span i) =
      (Edit.insertsAt offset i && !e.span.strictlyContains offset) := by
    intro i
    cases hi : Edit.insertsAt offset i with
    | false => rfl
    | true =>
      obtain ⟨hins, rfl⟩ := Edit.insertsAt_iff.mp hi
      simp [staysBeside, hins]
  rw [filter_append, filter_filter, filter_cons_of_neg (by simp [Edit.insertsAt_of_isRange he]),
    filter_nil, append_nil, filter_congr fun i _ => hclass i]
  cases e.span.strictlyContains offset <;> simp

/-- A range drops the insertions that it hides, also if it is absorbed by another. -/
theorem filter_insertsAt_request_range (hm : (ofDocument doc).requestAll calls = .ok b)
    (hr : c.edit.isRange = true) (h : b.request c = .ok b')
    (hb : Hidden calls offset → b.edits.filter (Edit.insertsAt offset) = []) :
    b'.edits.filter (Edit.insertsAt offset) =
      if c.records = true ∧ c.edit.span.strictlyContains offset = true then []
      else b.edits.filter (Edit.insertsAt offset) := by
  cases hrec : c.records with
  | false => simp [request_of_not_records hr hrec h]
  | true =>
    rcases request_records hrec h with ⟨rfl, e, he, her, hcov⟩ | ⟨rfl, -⟩
    · split
      · -- the range that absorbs it hides what it would hide
        rename_i hin
        exact hb ((hidden_iff hm).mpr ⟨e, he, her, Span.strictlyContains_of_covers hcov hin.2⟩)
      · rfl
    · simp only [filter_insertsAt_beside hr, true_and]

/-- An insertion is dropped if it is hidden, and comes last otherwise. -/
theorem filter_insertsAt_request_insertion (hm : (ofDocument doc).requestAll calls = .ok b)
    (hc : c.edit.isRange = false) (h : b.request c = .ok b')
    (hb : Hidden calls offset → b.edits.filter (Edit.insertsAt offset) = []) :
    b'.edits.filter (Edit.insertsAt offset) =
      if Hidden calls offset then []
      else b.edits.filter (Edit.insertsAt offset) ++ [c.edit].filter (Edit.insertsAt offset) := by
  cases c with
  | remove span | replace span text => simp [Edit.isRange, Edit.isInsertion] at hc
  | insertAfter at_ text =>
    have hother : at_ ≠ offset →
        [(Call.insertAfter at_ text).edit].filter (Edit.insertsAt offset) = [] := by
      intro hne
      simp [Edit.insertsAt, Span.point, hne]
    obtain ⟨-, ⟨rfl, hinside⟩ | ⟨rfl, hfree⟩⟩ := insertAfter_ok h
    · split
      · rename_i hhidden
        exact hb hhidden
      · rename_i hshown
        rw [hother, append_nil]
        rintro rfl
        exact hshown ((hidden_iff hm).mpr hinside)
    · rw [filter_append]
      split
      · rename_i hhidden
        rw [hb hhidden]
        apply hother
        rintro rfl
        obtain ⟨e, he, her, hin⟩ := (hidden_iff hm).mp hhidden
        exact absurd hin (by simp [hfree e he her])
      · rfl

/-- The insertions left are those that are not hidden, in the order of the calls. -/
theorem filter_insertsAt_requestAll (h : (ofDocument doc).requestAll calls = .ok b) (offset : Nat) :
    b.edits.filter (Edit.insertsAt offset) =
      if Hidden calls offset then []
      else (calls.map Call.edit).filter (Edit.insertsAt offset) := by
  induction calls using List.reverseRecOn generalizing b with
  | nil =>
    rw [← Except.ok.inj h]
    simp [ofDocument]
  | append_singleton calls last ih =>
    obtain ⟨m, hm, hlast⟩ := requestAll_concat_ok.mp h
    have hempty : Hidden calls offset → m.edits.filter (Edit.insertsAt offset) = [] := by
      intro hhidden
      rw [ih hm, if_pos hhidden]
    simp only [hidden_concat_iff, map_append, map_singleton, filter_append]
    cases hr : last.edit.isRange with
    | true =>
      have hnone : [last.edit].filter (Edit.insertsAt offset) = [] := by
        simp [Edit.insertsAt_of_isRange hr]
      rw [filter_insertsAt_request_range hm hr hlast hempty, ih hm, hnone, append_nil]
      split_ifs <;> simp_all
    | false =>
      have hrec : last.records = false := by simp [Call.records, hr]
      rw [filter_insertsAt_request_insertion hm hr hlast hempty, ih hm]
      split_ifs <;> simp_all

/-! ### Other orders -/

/-- The calls in another order, with the insertions at each offset in the same one. -/
structure Reordered (calls calls' : List Call) : Prop where
  perm : calls.Perm calls'
  insertions : ∀ offset, calls.filter (fun c => Edit.insertsAt offset c.edit) =
    calls'.filter fun c => Edit.insertsAt offset c.edit

theorem Reordered.hidden_iff (h : Reordered calls calls') :
    Hidden calls offset ↔ Hidden calls' offset := by
  simp only [Hidden, h.perm.mem_iff]

theorem Reordered.filter_insertsAt (h : Reordered calls calls') (offset : Nat) :
    (calls.map Call.edit).filter (Edit.insertsAt offset) =
      (calls'.map Call.edit).filter (Edit.insertsAt offset) := by
  rw [filter_map, filter_map]
  exact congrArg (List.map Call.edit) (h.insertions offset)

/-- The edits left are in the same order of application, in whichever order they were asked for. -/
theorem mergeSort_edits_eq (hspan : Unambiguous calls) (hre : Reordered calls calls')
    (h : (ofDocument doc).requestAll calls = .ok b)
    (h' : (ofDocument doc).requestAll calls' = .ok b') :
    b.edits.mergeSort Edit.precedes = b'.edits.mergeSort Edit.precedes := by
  apply Edit.mergeSort_eq_of_filter_eq
  · intro offset
    rw [filter_insertsAt_requestAll h, filter_insertsAt_requestAll h', hre.filter_insertsAt]
    simp only [hre.hidden_iff]
  · exact filter_startsAt_eq hspan hre.perm h h'

/-- Calls on a text leave a buffer with a result, if none is refused. -/
theorem requestAll_result_isOk (h : (ofDocument doc).requestAll calls = .ok b)
    (hplaced : ∀ c ∈ calls, c.WellPlaced doc) : ∃ text, b.result = .ok text := by
  have hdoc : b.document = doc := requestAll_document h
  have hbound : ∀ e ∈ b.edits, Text.isBoundary b.document.bytes e.span.start = true ∧
      Text.isBoundary b.document.bytes e.span.stop = true := by
    intro e he
    obtain ⟨hle, c, hc, rfl⟩ := requestAll_edits_subset h e he
    obtain ⟨ho, hstart, hstop⟩ := hplaced c hc
    rw [hdoc]
    exact ⟨hstart (ho.trans hle), hstop hle⟩
  obtain ⟨bytes, hbytes⟩ :=
    (requestAll_sound h fun c hc => (hplaced c hc).1).resultBytes_isOk hbound
  exact ⟨Text.ofBytes bytes, by rw [result, hbytes]; rfl⟩

/-- The order of the calls makes no difference, as long as the insertions at each offset keep theirs
and no span is given two contents: if neither order is refused anything, both give one result. It
is a text wherever the offsets fall between characters. -/
theorem result_eq_of_reordered (doc : Document) {calls calls' : List Call} {b b' : EditBuffer}
    (hspan : Unambiguous calls) (hre : Reordered calls calls')
    (h : (ofDocument doc).requestAll calls = .ok b)
    (h' : (ofDocument doc).requestAll calls' = .ok b') :
    b.result = b'.result ∧
      ((∀ c ∈ calls, c.WellPlaced doc) →
        ∃ text, b.result = .ok text ∧ b'.result = .ok text) := by
  have hresult : b.result = b'.result := by
    rw [result, result, resultBytes, resultBytes, mergeSort_edits_eq hspan hre h h',
      requestAll_document h, requestAll_document h']
  refine ⟨hresult, fun hplaced => ?_⟩
  obtain ⟨text, htext⟩ := requestAll_result_isOk h hplaced
  exact ⟨text, htext, hresult ▸ htext⟩

/-- A range inside a larger one, insertions inside and at the ends of it, and twice the same
removal. -/
def nestedCalls : List Call :=
  [.insertAfter 4 "lost", .replace ⟨3, 5⟩ "x", .remove ⟨2, 6⟩, .insertAfter 6 ")", .remove ⟨2, 6⟩,
    .insertAfter 2 "(", .insertAfter 6 "!", .replace ⟨8, 8⟩ "é"]

/-- The larger range ahead of what it hides. -/
def nestedCallsReordered : List Call :=
  [.replace ⟨8, 8⟩ "é", .remove ⟨2, 6⟩, .insertAfter 2 "(", .insertAfter 6 ")",
    .replace ⟨3, 5⟩ "x", .insertAfter 4 "lost", .insertAfter 6 "!", .remove ⟨2, 6⟩]

theorem result_eq_of_reordered_nested :
    Unambiguous nestedCalls ∧ Reordered nestedCalls nestedCallsReordered ∧
      ∃ b b', (ofDocument (.ofText "b" "ab[cd]ef")).requestAll nestedCalls = .ok b ∧
        (ofDocument (.ofText "b" "ab[cd]ef")).requestAll nestedCallsReordered = .ok b' ∧
        ∃ text, b.result = .ok text ∧ b'.result = .ok text := by
  have hspan : Unambiguous nestedCalls := by decide
  have hre : Reordered nestedCalls nestedCallsReordered := by
    refine ⟨by decide, fun offset => ?_⟩
    by_cases htwo : offset = 2
    · subst htwo
      decide
    by_cases hfour : offset = 4
    · subst hfour
      decide
    by_cases hsix : offset = 6
    · subst hsix
      decide
    · simp [nestedCalls, nestedCallsReordered, Edit.insertsAt, Edit.isInsertion, Span.point,
        Ne.symm htwo, Ne.symm hfour, Ne.symm hsix]
  obtain ⟨b, hb⟩ : ∃ b, (ofDocument (.ofText "b" "ab[cd]ef")).requestAll nestedCalls = .ok b :=
    ⟨_, rfl⟩
  obtain ⟨b', hb'⟩ : ∃ b', (ofDocument (.ofText "b" "ab[cd]ef")).requestAll
      nestedCallsReordered = .ok b' := ⟨_, rfl⟩
  exact ⟨hspan, hre, b, b', hb, hb', (result_eq_of_reordered _ hspan hre hb hb').2 (by decide)⟩

end EditBuffer

end Offload
