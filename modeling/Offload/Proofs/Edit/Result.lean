import Offload.Proofs.Edit.Buffer
import Offload.Proofs.Outcome
import Offload.Proofs.Text.Utf8

/-!
# The text of an edit buffer

The edited text is described offset by offset: what is inserted there, what replaces a range that
starts there, and the byte itself unless a range takes it away. Applying sound edits in order gives
exactly this text. The cursor is safe because in a sound list every edit starts behind the ranges
before it.
-/

namespace Offload

open List

variable {doc : Document} {e : Edit} {b : EditBuffer} {edits edits' rest : List Edit}
  {result : List UInt8} {cursor length offset : Nat}

namespace Edit

/-- Texts inserted at an offset, in the order of the edits. -/
def insertedAt (edits : List Edit) (offset : Nat) : List UInt8 :=
  (edits.filter fun e => e.isInsertion && e.span.start == offset).flatMap text

/-- The edit is a range that starts at an offset. -/
def startsAt (offset : Nat) (e : Edit) : Bool := e.isRange && e.span.start == offset

/-- What stands for the range that starts at an offset, if there is one. -/
def replacementAt (edits : List Edit) (offset : Nat) : List UInt8 :=
  match edits.find? (startsAt offset) with
  | some e => e.text
  | none => []

/-- Some range takes the byte at an offset away. -/
def takesAway (edits : List Edit) (offset : Nat) : Bool :=
  edits.any fun e => e.isRange && e.span.contains offset

/-- All that stands at an offset of the document in the edited text. -/
def textAt (doc : Document) (edits : List Edit) (offset : Nat) : List UInt8 :=
  insertedAt edits offset ++ replacementAt edits offset ++
    if takesAway edits offset then [] else doc.bytes[offset]?.toList

/-- The edited text, offset by offset. -/
def pointwise (doc : Document) (edits : List Edit) : List UInt8 :=
  (List.range (doc.length + 1)).flatMap (textAt doc edits)

theorem insertedAt_append (edits more : List Edit) (offset : Nat) :
    insertedAt (edits ++ more) offset = insertedAt edits offset ++ insertedAt more offset := by
  simp [insertedAt]

theorem takesAway_iff :
    takesAway edits offset = true ↔
      ∃ e ∈ edits, e.isRange = true ∧ e.span.contains offset = true := by
  simp [takesAway]

/-! ### Order of application -/

theorem precedes_iff {a b : Edit} :
    a.precedes b = true ↔ a.span.start < b.span.start ∨
      a.span.start = b.span.start ∧ (a.isInsertion = true ∨ b.isInsertion = false) := by
  simp [precedes]

theorem precedes_trans (a b c : Edit) (hab : a.precedes b = true) (hbc : b.precedes c = true) :
    a.precedes c = true := by
  rw [precedes_iff] at *
  rcases hab with hab | ⟨hab, hia⟩ <;> rcases hbc with hbc | ⟨hbc, hib⟩
  · exact Or.inl (by omega)
  · exact Or.inl (by omega)
  · exact Or.inl (by omega)
  · refine Or.inr ⟨by omega, ?_⟩
    rcases hia with h | h
    · exact Or.inl h
    · exact Or.inr (by simpa [h] using hib)

theorem precedes_total (a b : Edit) : (a.precedes b || b.precedes a) = true := by
  rw [Bool.or_eq_true, precedes_iff, precedes_iff]
  rcases Nat.lt_trichotomy a.span.start b.span.start with h | h | h
  · exact Or.inl (Or.inl h)
  · cases ha : a.isInsertion with
    | true => exact Or.inl (Or.inr ⟨h, Or.inl rfl⟩)
    | false => exact Or.inr (Or.inr ⟨h.symm, Or.inr rfl⟩)
  · exact Or.inr (Or.inl h)

/-- Sorting is stable: edits that need not change places keep their order. -/
theorem filter_mergeSort {p : Edit → Bool} (edits : List Edit)
    (h : ∀ a b, p a = true → p b = true → a.precedes b = true) :
    (edits.mergeSort precedes).filter p = edits.filter p := by
  have hpair : (edits.filter p).Pairwise fun a b => a.precedes b = true :=
    pairwise_of_forall_mem_list fun a ha b hb => h a b (mem_filter.mp ha).2 (mem_filter.mp hb).2
  have hsub : (edits.filter p).Sublist ((edits.mergeSort precedes).filter p) := by
    have hsorted := sublist_mergeSort precedes_trans precedes_total hpair filter_sublist
    simpa using hsorted.filter p
  exact (hsub.eq_of_length ((mergeSort_perm edits precedes).filter p).length_eq.symm).symm

theorem insertedAt_mergeSort (edits : List Edit) (offset : Nat) :
    insertedAt (edits.mergeSort precedes) offset = insertedAt edits offset := by
  unfold insertedAt
  rw [filter_mergeSort]
  intro a b ha hb
  simp only [Bool.and_eq_true, beq_iff_eq] at ha hb
  exact precedes_iff.mpr (Or.inr ⟨by omega, Or.inl ha.1⟩)

theorem takesAway_perm (h : edits.Perm edits') (offset : Nat) :
    takesAway edits offset = takesAway edits' offset := by
  rw [Bool.eq_iff_iff]
  simp only [takesAway, any_eq_true]
  exact ⟨fun ⟨e, he, hc⟩ => ⟨e, h.mem_iff.mp he, hc⟩, fun ⟨e, he, hc⟩ => ⟨e, h.mem_iff.mpr he, hc⟩⟩

theorem startsAt_iff : startsAt offset e = true ↔ e.isRange = true ∧ e.span.start = offset := by
  simp [startsAt]

section

variable (h : (edits.filter isRange).Pairwise fun r s =>
  r.span.covers s.span = false ∧ s.span.covers r.span = false)
include h

/-- Where no range covers another, one that covers a range is the same. -/
theorem eq_of_covers {r : Edit} (hr : r ∈ edits) (hrr : r.isRange = true) (he : e ∈ edits)
    (her : e.isRange = true) (hcov : r.span.covers e.span = true) : r = e := by
  rcases eq_or_rel_of_pairwise h (mem_filter.mpr ⟨hr, hrr⟩) (mem_filter.mpr ⟨he, her⟩) with
    heq | hre | her
  · exact heq
  · exact absurd hcov (by simp [hre.1])
  · exact absurd hcov (by simp [her.2])

/-- At most one range starts at an offset: of two, one would cover the other. -/
theorem startsAt_length_le (offset : Nat) : (edits.filter (startsAt offset)).length ≤ 1 := by
  have hfilter : edits.filter (startsAt offset) =
      (edits.filter isRange).filter fun e => e.span.start == offset := by
    rw [filter_filter]
    exact filter_congr fun e _ => Bool.and_comm _ _
  have hpair := h.sublist (filter_sublist (p := fun e => e.span.start == offset))
  rw [← hfilter] at hpair
  have hstart : ∀ e ∈ edits.filter (startsAt offset), e.span.start = offset :=
    fun e he => (startsAt_iff.mp (mem_filter.mp he).2).2
  rcases hl : edits.filter (startsAt offset) with _ | ⟨r, _ | ⟨s, rest⟩⟩
  · simp
  · simp
  · rw [hl] at hpair hstart
    have hr := hstart r (by simp)
    have hs := hstart s (by simp)
    obtain ⟨hrs, hsr⟩ := (pairwise_cons.mp hpair).1 s (by simp)
    rw [← Bool.not_eq_true, Span.covers_iff] at hrs hsr
    omega

end

theorem eq_of_length_le_one {xs ys : List Edit} (hx : xs.length ≤ 1) (hy : ys.length ≤ 1)
    (h : ∀ e, e ∈ xs ↔ e ∈ ys) : xs = ys := by
  rcases xs with _ | ⟨x, _ | ⟨x', xs⟩⟩
  · exact (eq_nil_iff_forall_not_mem.mpr fun e he => by simpa using (h e).mpr he).symm
  · obtain ⟨y, rfl⟩ := length_eq_one_iff.mp
      (le_antisymm hy (length_pos_of_mem ((h x).mp mem_cons_self)))
    rw [mem_singleton.mp ((h x).mp mem_cons_self)]
  · simp at hx

/-- A range that starts at an offset is the one found there. -/
theorem Sound.find?_startsAt (h : Sound length edits) (he : e ∈ edits) (hr : e.isRange = true)
    (hstart : e.span.start = offset) : edits.find? (startsAt offset) = some e := by
  have hle := startsAt_length_le (h.apart.imp And.right) offset
  have hmem : e ∈ edits.filter (startsAt offset) :=
    mem_filter.mpr ⟨he, startsAt_iff.mpr ⟨hr, hstart⟩⟩
  obtain ⟨a, ha⟩ := length_eq_one_iff.mp (le_antisymm hle (length_pos_of_mem hmem))
  rw [ha, mem_singleton] at hmem
  rw [← head?_filter, ha, hmem]
  rfl

theorem Sound.replacementAt_perm (h : Sound length edits) (hp : edits.Perm edits') (offset : Nat) :
    replacementAt edits offset = replacementAt edits' offset := by
  have hperm := hp.filter (startsAt offset)
  have hle := startsAt_length_le (h.apart.imp And.right) offset
  have hfilter := eq_of_length_le_one hle (hperm.length_eq ▸ hle) fun e => hperm.mem_iff
  rw [replacementAt, replacementAt, ← head?_filter, ← head?_filter, hfilter]

/-- The text does not depend on the order of the edits, as long as it is a stable one. -/
theorem Sound.pointwise_mergeSort (h : Sound doc.length edits) :
    pointwise doc (edits.mergeSort precedes) = pointwise doc edits := by
  have hp := mergeSort_perm edits precedes
  unfold pointwise
  congr 1
  funext offset
  rw [textAt, textAt, insertedAt_mergeSort, ← h.replacementAt_perm hp.symm, takesAway_perm hp]

/-! ### Text from an offset on -/

/-- The edited text from an offset of the document on. -/
def textFrom (doc : Document) (edits : List Edit) (cursor : Nat) : List UInt8 :=
  (List.range' cursor (doc.length + 1 - cursor)).flatMap (textAt doc edits)

theorem textFrom_zero (doc : Document) (edits : List Edit) :
    textFrom doc edits 0 = pointwise doc edits := by
  rw [textFrom, pointwise, range_eq_range', Nat.sub_zero]

theorem textFrom_split (doc : Document) (edits : List Edit) {start stop : Nat}
    (hle : start ≤ stop) (hstop : stop ≤ doc.length + 1) :
    textFrom doc edits start =
      (List.range' start (stop - start)).flatMap (textAt doc edits) ++ textFrom doc edits stop := by
  have hrange : List.range' start (doc.length + 1 - start) =
      List.range' start (stop - start) ++ List.range' stop (doc.length + 1 - stop) := by
    have h := range'_append_1 (s := start) (m := stop - start) (n := doc.length + 1 - stop)
    rw [show start + (stop - start) = stop by omega,
      show stop - start + (doc.length + 1 - stop) = doc.length + 1 - start by omega] at h
    exact h.symm
  rw [textFrom, hrange, flatMap_append, textFrom]

theorem flatMap_getElem? (bs : List UInt8) (start n : Nat) :
    (List.range' start n).flatMap (fun i => bs[i]?.toList) = (bs.drop start).take n := by
  induction n generalizing start with
  | zero => simp
  | succ n ih =>
    rw [range'_succ, flatMap_cons, ih]
    rcases Nat.lt_or_ge start bs.length with hlt | hge
    · rw [getElem?_eq_getElem hlt, drop_eq_getElem_cons hlt]
      rfl
    · simp [getElem?_eq_none hge, drop_eq_nil_of_le hge, drop_eq_nil_of_le (Nat.le_succ_of_le hge)]

section

variable {edits : List Edit} {offset : Nat} (h : ∀ e ∈ edits, offset < e.span.start)

include h

theorem insertedAt_of_lt : insertedAt edits offset = [] := by
  unfold insertedAt
  rw [filter_eq_nil_iff.mpr, flatMap_nil]
  intro e he
  have := h e he
  simp only [Bool.and_eq_true, beq_iff_eq, not_and]
  omega

theorem replacementAt_of_lt : replacementAt edits offset = [] := by
  have hfind : edits.find? (startsAt offset) = none := by
    rw [find?_eq_none]
    intro e he
    have := h e he
    rw [startsAt_iff]
    omega
  rw [replacementAt, hfind]

theorem takesAway_of_lt : takesAway edits offset = false := by
  rw [takesAway, any_eq_false]
  intro e he
  have := h e he
  rw [Bool.and_eq_true, Span.contains_iff]
  omega

/-- In front of all edits stands the document. -/
theorem textAt_of_lt (doc : Document) : textAt doc edits offset = doc.bytes[offset]?.toList := by
  simp [textAt, insertedAt_of_lt h, replacementAt_of_lt h, takesAway_of_lt h]

end

/-- An insertion comes first at its own offset. -/
theorem textAt_cons_insertion (doc : Document) (hi : e.isInsertion = true) (rest : List Edit)
    (offset : Nat) :
    textAt doc (e :: rest) offset =
      (if e.span.start = offset then e.text else []) ++ textAt doc rest offset := by
  have hrange : e.isRange = false := by simp [isRange, hi]
  have hins : insertedAt (e :: rest) offset =
      (if e.span.start = offset then e.text else []) ++ insertedAt rest offset := by
    unfold insertedAt
    by_cases h : e.span.start = offset <;> simp [hi, h]
  simp [textAt, hins, replacementAt, takesAway, startsAt, hrange]

section

variable {e : Edit} (hr : e.isRange = true) {rest : List Edit}

include hr

theorem insertedAt_cons_range (offset : Nat) :
    insertedAt (e :: rest) offset = insertedAt rest offset := by
  have hins : e.isInsertion = false := by simpa [isRange] using hr
  simp [insertedAt, hins]

theorem takesAway_cons_range (offset : Nat) :
    takesAway (e :: rest) offset = (e.span.contains offset || takesAway rest offset) := by
  simp [takesAway, hr]

/-- A range stands at its start. If it is empty, the text goes on there. -/
theorem textAt_range_start (doc : Document) (hrest : ∀ x ∈ rest, e.span.start < x.span.start) :
    textAt doc (e :: rest) e.span.start =
      e.text ++ if e.span.start < e.span.stop then [] else textAt doc rest e.span.start := by
  have hfind : (e :: rest).find? (startsAt e.span.start) = some e :=
    find?_cons_of_pos (startsAt_iff.mpr ⟨hr, rfl⟩)
  rw [textAt_of_lt hrest]
  simp [textAt, insertedAt_cons_range hr, insertedAt_of_lt hrest, replacementAt, hfind,
    takesAway_cons_range hr, takesAway_of_lt hrest, Span.contains]

/-- Behind its start a range only takes bytes away. -/
theorem textAt_range_behind (doc : Document) (hlt : e.span.start < offset) :
    textAt doc (e :: rest) offset =
      insertedAt rest offset ++ replacementAt rest offset ++
        if e.span.contains offset || takesAway rest offset then []
        else doc.bytes[offset]?.toList := by
  have hfind : (e :: rest).find? (startsAt offset) = rest.find? (startsAt offset) :=
    find?_cons_of_neg (by simp [startsAt, Nat.ne_of_lt hlt])
  simp [textAt, insertedAt_cons_range hr, replacementAt, hfind, takesAway_cons_range hr]

theorem textAt_range_inside (doc : Document) (hrest : ∀ x ∈ rest, e.span.stop ≤ x.span.start)
    (hlo : e.span.start < offset) (hhi : offset < e.span.stop) :
    textAt doc (e :: rest) offset = [] := by
  have hlt : ∀ x ∈ rest, offset < x.span.start := fun x hx => hhi.trans_le (hrest x hx)
  have hcontains : e.span.contains offset = true := Span.contains_iff.mpr ⟨hlo.le, hhi⟩
  rw [textAt_range_behind hr doc hlo, insertedAt_of_lt hlt, replacementAt_of_lt hlt, hcontains]
  rfl

theorem textAt_range_after (doc : Document) (hlo : e.span.start < offset)
    (hhi : e.span.stop ≤ offset) : textAt doc (e :: rest) offset = textAt doc rest offset := by
  have hcontains : e.span.contains offset = false := by
    rw [← Bool.not_eq_true, Span.contains_iff]
    omega
  rw [textAt_range_behind hr doc hlo, hcontains, Bool.false_or, textAt]

end

/-- In order of application, all that follows an edit starts behind it. -/
theorem Sound.stop_le (h : Sound length (e :: rest)) (hs : ∀ x ∈ rest, e.precedes x = true) :
    ∀ x ∈ rest, e.span.stop ≤ x.span.start ∧ (e.isRange = true → e.span.start < x.span.start) := by
  intro x hx
  have hmem : x ∈ e :: rest := mem_cons_of_mem _ hx
  have hxo : x.span.start ≤ x.span.stop := h.ordered x hmem
  have hprec := precedes_iff.mp (hs x hx)
  cases hi : e.isInsertion with
  | true =>
    have hpoint := h.point e mem_cons_self hi
    refine ⟨by omega, fun hr => ?_⟩
    simp [isRange, hi] at hr
  | false =>
    have hr : e.isRange = true := by simp [isRange, hi]
    cases hxi : x.isInsertion with
    | true =>
      have hout := h.outside x hmem hxi e mem_cons_self hr
      rw [← Bool.not_eq_true, Span.strictlyContains_iff] at hout
      simp only [hi, hxi, Bool.false_eq_true, or_false, and_false, reduceCtorEq] at hprec
      omega
    | false =>
      have hxr : x.isRange = true := by simp [isRange, hxi]
      have hapart := h.apart
      rw [filter_cons_of_pos hr] at hapart
      obtain ⟨hover, hcovers, hcovered⟩ := (pairwise_cons.mp hapart).1 x (mem_filter.mpr ⟨hx, hxr⟩)
      rw [← Bool.not_eq_true, Span.overlaps_iff] at hover
      rw [← Bool.not_eq_true, Span.covers_iff] at hcovers hcovered
      have heo : e.span.start ≤ e.span.stop := h.ordered e mem_cons_self
      omega

theorem textFrom_cons (doc : Document) (edits : List Edit) (h : cursor ≤ doc.length) :
    textFrom doc edits cursor = textAt doc edits cursor ++ textFrom doc edits (cursor + 1) := by
  have hone : cursor + 1 - cursor = 1 := by omega
  rw [textFrom_split doc edits (show cursor ≤ cursor + 1 by omega) (by omega), hone]
  simp

theorem textFrom_congr (h : ∀ i, cursor ≤ i → textAt doc edits i = textAt doc edits' i) :
    textFrom doc edits cursor = textFrom doc edits' cursor :=
  flatMap_congr fun i hi => h i (mem_range'_1.mp hi).1

theorem textFrom_insertion (doc : Document) (hi : e.isInsertion = true) (rest : List Edit)
    (hb : e.span.start ≤ doc.length) :
    textFrom doc (e :: rest) e.span.start = e.text ++ textFrom doc rest e.span.start := by
  rw [textFrom_cons doc _ hb, textFrom_cons doc _ hb, textAt_cons_insertion doc hi rest,
    if_pos rfl, append_assoc]
  congr 2
  apply textFrom_congr
  intro i hlt
  rw [textAt_cons_insertion doc hi rest, if_neg (by omega), nil_append]

theorem textFrom_range (doc : Document) (hr : e.isRange = true) (ho : e.span.start ≤ e.span.stop)
    (hb : e.span.stop ≤ doc.length)
    (hrest : ∀ x ∈ rest, e.span.stop ≤ x.span.start ∧ e.span.start < x.span.start) :
    textFrom doc (e :: rest) e.span.start = e.text ++ textFrom doc rest e.span.stop := by
  have hhead := textAt_range_start hr doc fun x hx => (hrest x hx).2
  rcases Nat.lt_or_ge e.span.start e.span.stop with hlt | hge
  · -- from its start to its end there is only what the range puts there
    have hinside : (List.range' (e.span.start + 1) (e.span.stop - (e.span.start + 1))).flatMap
        (textAt doc (e :: rest)) = [] := by
      rw [flatMap_eq_nil_iff]
      intro i hi
      obtain ⟨hlo, hhi⟩ := mem_range'_1.mp hi
      exact textAt_range_inside hr doc (fun x hx => (hrest x hx).1) (by omega) (by omega)
    rw [textFrom_cons doc _ (by omega), hhead, if_pos hlt, append_nil,
      textFrom_split doc _ (Nat.succ_le_of_lt hlt) (by omega), hinside, nil_append]
    congr 1
    apply textFrom_congr
    intro i hi
    exact textAt_range_after hr doc (by omega) hi
  · have hstop : e.span.stop = e.span.start := by omega
    rw [hstop, textFrom_cons doc _ (by omega), hhead, if_neg (by omega), append_assoc,
      textFrom_cons doc rest (by omega)]
    congr 2
    apply textFrom_congr
    intro i hi
    exact textAt_range_after hr doc (by omega) (by omega)

/-- The text of a list of edits is the document up to the first of them, what that puts there, and
the text of the others from its end on. -/
theorem Sound.textFrom_eq (h : Sound doc.length (e :: rest)) (hs : ∀ x ∈ rest, e.precedes x = true)
    (hc : cursor ≤ e.span.start) :
    textFrom doc (e :: rest) cursor =
      (doc.bytes.drop cursor).take (e.span.start - cursor) ++ e.text ++
        textFrom doc rest e.span.stop := by
  have hbehind := h.stop_le hs
  have ho : e.span.start ≤ e.span.stop := h.ordered e mem_cons_self
  have hb : e.span.stop ≤ doc.length := h.inBounds e mem_cons_self
  have hbefore : (List.range' cursor (e.span.start - cursor)).flatMap (textAt doc (e :: rest)) =
      (doc.bytes.drop cursor).take (e.span.start - cursor) := by
    rw [← flatMap_getElem?]
    apply flatMap_congr
    intro i hi
    have hlt := (mem_range'_1.mp hi).2
    apply textAt_of_lt
    intro x hx
    rcases mem_cons.mp hx with rfl | hx
    · omega
    · have := (hbehind x hx).1
      omega
  have hfrom : textFrom doc (e :: rest) e.span.start = e.text ++ textFrom doc rest e.span.stop := by
    cases hi : e.isInsertion with
    | true =>
      rw [h.point e mem_cons_self hi]
      exact textFrom_insertion doc hi rest (by omega)
    | false =>
      have hr : e.isRange = true := by simp [isRange, hi]
      exact textFrom_range doc hr ho hb fun x hx => ⟨(hbehind x hx).1, (hbehind x hx).2 hr⟩
  rw [textFrom_split doc (e :: rest) hc (by omega), hbefore, hfrom, append_assoc]

end Edit

namespace EditBuffer

/-! ### Applying edits -/

theorem slice_ok_iff {span : Span} {part : List UInt8} :
    doc.slice span = .ok part ↔ Text.slice doc.bytes span.start span.stop = some part := by
  unfold Document.slice
  cases Text.slice doc.bytes span.start span.stop <;> simp

theorem applyFrom_cons_ok (h : applyFrom doc cursor (e :: rest) = .ok result) :
    ∃ before after, doc.slice ⟨cursor, e.span.start⟩ = .ok before ∧
      applyFrom doc e.span.stop rest = .ok after ∧ result = before ++ e.text ++ after := by
  rw [applyFrom] at h
  cases hb : doc.slice ⟨cursor, e.span.start⟩ with
  | error f => simp [hb, bind, Except.bind] at h
  | ok before =>
    cases ha : applyFrom doc e.span.stop rest with
    | error f => simp [hb, ha, bind, Except.bind] at h
    | ok after =>
      simp only [hb, ha, bind, Except.bind, pure, Except.pure, Except.ok.injEq] at h
      exact ⟨before, after, rfl, rfl, h.symm⟩

/-- Sound edits in order of application give the text that they describe. -/
theorem applyFrom_eq_textFrom (h : Edit.Sound doc.length edits)
    (hs : edits.Pairwise fun a b => a.precedes b = true) (hc : ∀ e ∈ edits, cursor ≤ e.span.start)
    (hr : applyFrom doc cursor edits = .ok result) : result = Edit.textFrom doc edits cursor := by
  induction edits generalizing cursor result with
  | nil =>
    obtain ⟨⟨hle, -⟩, rfl⟩ := Text.slice_eq_some_iff.mp (slice_ok_iff.mp hr)
    have hnone : ∀ i, Edit.textAt doc [] i = doc.bytes[i]?.toList := fun i =>
      Edit.textAt_of_lt (by simp) doc
    rw [Edit.textFrom, funext hnone, Edit.flatMap_getElem?, take_of_length_le, take_of_length_le]
    · simp only [length_drop, Document.length]
      omega
    · simp only [length_drop, Document.length]
      omega
  | cons e rest ih =>
    obtain ⟨before, after, hbefore, hafter, rfl⟩ := applyFrom_cons_ok hr
    obtain ⟨hfirst, hrest⟩ := pairwise_cons.mp hs
    have hle := hc e mem_cons_self
    obtain ⟨-, rfl⟩ := Text.slice_eq_some_iff.mp (slice_ok_iff.mp hbefore)
    rw [h.textFrom_eq hfirst hle]
    congr 1
    exact ih (h.sublist (sublist_cons_self e rest)) hrest
      (fun x hx => (h.stop_le hfirst x hx).1) hafter

/-- Edits that start and stop at boundaries can be applied: no cut is out of order or range. -/
theorem applyFrom_isOk (h : Edit.Sound doc.length edits)
    (hs : edits.Pairwise fun a b => a.precedes b = true) (hc : ∀ e ∈ edits, cursor ≤ e.span.start)
    (hle : cursor ≤ doc.length) (hcursor : Text.isBoundary doc.bytes cursor = true)
    (hb : ∀ e ∈ edits, Text.isBoundary doc.bytes e.span.start = true ∧
      Text.isBoundary doc.bytes e.span.stop = true) :
    ∃ result, applyFrom doc cursor edits = .ok result := by
  induction edits generalizing cursor with
  | nil =>
    have hend : Text.isBoundary doc.bytes doc.length = true := by
      simp [Text.isBoundary, Document.length]
    exact ⟨_, slice_ok_iff.mpr
      (Text.slice_eq_some_iff.mpr ⟨⟨hle, le_rfl, hcursor, hend⟩, rfl⟩)⟩
  | cons e rest ih =>
    obtain ⟨hfirst, hrest⟩ := pairwise_cons.mp hs
    obtain ⟨hstart, hstop⟩ := hb e mem_cons_self
    have ho : e.span.start ≤ e.span.stop := h.ordered e mem_cons_self
    have hbound : e.span.stop ≤ doc.length := h.inBounds e mem_cons_self
    have hslice : doc.slice ⟨cursor, e.span.start⟩ =
        .ok ((doc.bytes.drop cursor).take (e.span.start - cursor)) :=
      slice_ok_iff.mpr (Text.slice_eq_some_iff.mpr
        ⟨⟨hc e mem_cons_self, ho.trans hbound, hcursor, hstart⟩, rfl⟩)
    obtain ⟨after, hafter⟩ := ih (h.sublist (sublist_cons_self e rest)) hrest
      (fun x hx => (h.stop_le hfirst x hx).1) hbound hstop
      fun x hx => hb x (mem_cons_of_mem _ hx)
    refine ⟨(doc.bytes.drop cursor).take (e.span.start - cursor) ++ e.text ++ after, ?_⟩
    simp [applyFrom, hslice, hafter, bind, Except.bind, pure, Except.pure]

/-- Edits of a text give a text. -/
theorem applyFrom_isUtf8 (hd : Text.IsUtf8 doc.bytes)
    (h : applyFrom doc cursor edits = .ok result) : Text.IsUtf8 result := by
  induction edits generalizing cursor result with
  | nil => exact hd.slice (slice_ok_iff.mp h)
  | cons e rest ih =>
    obtain ⟨before, after, hbefore, hafter, rfl⟩ := applyFrom_cons_ok h
    have htext : Text.IsUtf8 e.text := by
      unfold Edit.text
      split
      · exact Text.isUtf8_nil
      · exact Text.isUtf8_bytes _
      · exact Text.isUtf8_bytes _
    exact ((hd.slice (slice_ok_iff.mp hbefore)).append htext).append (ih hafter)

theorem pairwise_precedes_mergeSort (edits : List Edit) :
    (edits.mergeSort Edit.precedes).Pairwise fun a b => a.precedes b = true :=
  pairwise_mergeSort Edit.precedes_trans Edit.precedes_total edits

theorem Sound.mergeSort (hb : b.Sound) :
    Edit.Sound b.document.length (b.edits.mergeSort Edit.precedes) :=
  Edit.Sound.perm hb (mergeSort_perm _ _).symm

/-- Where a sound buffer has a result, it is the text that its edits describe. -/
theorem Sound.resultBytes_eq (hb : b.Sound) (h : b.resultBytes = .ok result) :
    result = Edit.pointwise b.document b.edits := by
  rw [← Edit.Sound.pointwise_mergeSort hb, ← Edit.textFrom_zero]
  exact applyFrom_eq_textFrom hb.mergeSort (pairwise_precedes_mergeSort _)
    (fun e _ => Nat.zero_le _) h

theorem Sound.resultBytes_isOk (hb : b.Sound)
    (hbound : ∀ e ∈ b.edits, Text.isBoundary b.document.bytes e.span.start = true ∧
      Text.isBoundary b.document.bytes e.span.stop = true) : ∃ result, b.resultBytes = .ok result :=
  applyFrom_isOk hb.mergeSort (pairwise_precedes_mergeSort _) (fun e _ => Nat.zero_le _)
    (Nat.zero_le _) (by simp [Text.isBoundary])
    fun e he => hbound e ((mergeSort_perm _ _).mem_iff.mp he)

/-- The bytes of the result are the text that the edits describe. -/
theorem Sound.bytes_result (hb : b.Sound) (hd : Text.IsUtf8 b.document.bytes) {text : String}
    (h : b.result = .ok text) : Text.bytes text = Edit.pointwise b.document b.edits := by
  unfold result at h
  cases hr : b.resultBytes with
  | error f => simp [hr, Except.map] at h
  | ok bytes =>
    simp only [hr, Except.map, Except.ok.injEq] at h
    rw [← h, (applyFrom_isUtf8 hd hr).bytes_ofBytes, hb.resultBytes_eq hr]

/-! ### Any calls -/

/-- The offsets of the call are in order, and those in the document fall between characters. -/
def Call.WellPlaced (doc : Document) (c : Call) : Prop :=
  c.edit.span.start ≤ c.edit.span.stop ∧
    (c.edit.span.start ≤ doc.length → Text.isBoundary doc.bytes c.edit.span.start = true) ∧
      (c.edit.span.stop ≤ doc.length → Text.isBoundary doc.bytes c.edit.span.stop = true)

instance (doc : Document) (c : Call) : Decidable (c.WellPlaced doc) :=
  inferInstanceAs (Decidable (_ ∧ _ ∧ _))

/-- The reasons for refusing a call: it reaches past the document, or it shares some but not all of
its bytes with a range. -/
inductive Refused (b : EditBuffer) (c : Call) : EditError → Prop
  | outOfBounds (h : b.document.length < c.edit.span.stop) :
    Refused b c (.outOfBounds c.edit.span b.document.length)
  | overlap {r : Edit} (hr : r ∈ b.edits) (hrange : r.isRange = true)
    (hover : c.edit.span.overlaps r.span = true) (hcovered : r.span.covers c.edit.span = false)
    (hcovers : c.edit.span.covers r.span = false) : Refused b c (.overlap r.span c.edit.span)

theorem perform_error {c : Call} {e : EditError} (h : (b.perform c).1 = .error e) :
    (b.perform c).2 = b ∧ b.Refused c e := by
  cases hr : b.request c with
  | ok b' => simp [perform_of_ok hr] at h
  | error e' =>
    rw [perform_of_error hr] at h ⊢
    obtain rfl := Except.error.inj h
    refine ⟨rfl, ?_⟩
    cases c with
    | remove span | replace span text =>
      rcases addRange_error hr with ⟨rfl, hlt⟩ | ⟨r, hmem, hrange, rfl, hover, hcov, hcov'⟩
      · exact .outOfBounds hlt
      · exact .overlap hmem hrange hover hcov hcov'
    | insertAfter offset text =>
      obtain ⟨rfl, hlt⟩ := insertAfter_error hr
      exact .outOfBounds hlt

/-- A removal that takes an insertion along, one refused for a partial overlap, and insertions at
both ends of what is removed. -/
def bracketCalls : List Call :=
  [.insertAfter 4 "lost", .remove ⟨2, 6⟩, .replace ⟨4, 8⟩ "x", .insertAfter 6 ")",
    .insertAfter 2 "(", .remove ⟨3, 4⟩, .replace ⟨8, 9⟩ "é"]

end EditBuffer

end Offload
