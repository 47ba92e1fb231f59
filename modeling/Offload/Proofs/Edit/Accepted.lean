import Offload.Proofs.Edit.Result

/-!
# Calls that are all accepted

When no call of a sequence is refused, the buffer can be told from the calls alone. The bytes taken
away are those of all the ranges asked for, text inserted at the end of the document stays in the
order of the calls, and a range survives unless an earlier one covers it or a later one is larger.
-/

namespace Offload

open List

namespace Document

/-- The text without the bytes of some spans. -/
def without (doc : Document) (spans : List Span) : List UInt8 :=
  (List.range doc.length).flatMap fun offset =>
    if spans.any (·.contains offset) then [] else doc.bytes[offset]?.toList

/-- The text without the bytes of some spans, and with a text at the start of each replaced one. -/
def rewritten (doc : Document) (removed : List Span) (replaced : List (Span × String)) :
    List UInt8 :=
  (List.range (doc.length + 1)).flatMap fun offset =>
    ((replaced.filter fun r => r.1.start == offset).flatMap fun r => Text.bytes r.2) ++
      if removed.any (·.contains offset) || replaced.any (·.1.contains offset) then []
      else doc.bytes[offset]?.toList

end Document

namespace EditBuffer

variable {doc : Document} {b b' : EditBuffer} {calls : List Call} {c : Call}

/-- The buffer after calls none of which is refused. -/
def requestAll (b : EditBuffer) (calls : List Call) : Except EditError EditBuffer :=
  calls.foldlM request b

@[simp] theorem requestAll_nil (b : EditBuffer) : b.requestAll [] = .ok b := rfl

theorem requestAll_append (b : EditBuffer) (calls more : List Call) :
    b.requestAll (calls ++ more) = b.requestAll calls >>= (·.requestAll more) := foldlM_append ..

theorem requestAll_append_ok {more : List Call} :
    b.requestAll (calls ++ more) = .ok b' ↔
      ∃ m, b.requestAll calls = .ok m ∧ m.requestAll more = .ok b' := by
  rw [requestAll_append]
  cases b.requestAll calls <;> simp [bind, Except.bind]

theorem requestAll_singleton (b : EditBuffer) (c : Call) : b.requestAll [c] = b.request c := by
  unfold requestAll
  rw [foldlM_cons]
  cases b.request c <;> rfl

theorem requestAll_concat_ok :
    b.requestAll (calls ++ [c]) = .ok b' ↔
      ∃ m, b.requestAll calls = .ok m ∧ m.request c = .ok b' := by
  simp only [requestAll_append_ok, requestAll_singleton]

theorem performAll_of_requestAll (h : b.requestAll calls = .ok b') : b.performAll calls = b' := by
  induction calls using List.reverseRecOn generalizing b' with
  | nil => exact Except.ok.inj h
  | append_singleton calls c ih =>
    obtain ⟨m, hm, hc⟩ := requestAll_concat_ok.mp h
    rw [performAll_concat, ih hm, perform_of_ok hc]

theorem requestAll_document (h : b.requestAll calls = .ok b') : b'.document = b.document := by
  rw [← performAll_of_requestAll h, performAll_document]

theorem requestAll_sound (h : (ofDocument doc).requestAll calls = .ok b)
    (ho : ∀ c ∈ calls, c.edit.span.Ordered) : b.Sound := by
  rw [← performAll_of_requestAll h]
  exact performAll_sound (sound_ofDocument doc) ho

theorem requestAll_bytes (h : (ofDocument doc).requestAll calls = .ok b)
    (ho : ∀ c ∈ calls, c.edit.span.Ordered) (hdoc : Text.IsUtf8 doc.bytes) {out : String}
    (hout : b.result = .ok out) : Text.bytes out = Edit.pointwise doc b.edits := by
  have hdocument : b.document = doc := requestAll_document h
  have hbytes := (requestAll_sound h ho).bytes_result (hdocument ▸ hdoc) hout
  rwa [hdocument] at hbytes

theorem requestAll_edits_subset (h : (ofDocument doc).requestAll calls = .ok b) :
    ∀ e ∈ b.edits, e.span.stop ≤ doc.length ∧ ∃ c ∈ calls, c.edit = e := by
  rw [← performAll_of_requestAll h]
  exact performAll_edits_subset doc calls

/-! ### Ranges that are recorded -/

/-- The call asks for a range, and not for the removal of nothing. -/
def Call.records (c : Call) : Bool :=
  c.edit.isRange && !(c.edit.span.isEmpty && c.edit.kind == .remove)

@[simp] theorem Call.records_replace (span : Span) (text : String) :
    (Call.replace span text).records = true := by
  simp [records, Edit.isRange, Edit.isInsertion]

theorem request_range (hc : c.edit.isRange = true) :
    b.request c = b.addRange c.edit.span c.edit.kind := by
  cases c with
  | remove span | replace span text => rfl
  | insertAfter offset text => simp [Edit.isRange, Edit.isInsertion] at hc

/-- A call for a range is absorbed by a range that covers it, or takes its place. -/
theorem request_records (hc : c.records = true) (h : b.request c = .ok b') :
    b' = b ∧ (∃ e ∈ b.edits, e.isRange = true ∧ e.span.covers c.edit.span = true) ∨
      b' = { b with edits := b.edits.filter (staysBeside c.edit.span) ++ [c.edit] } ∧
        b.Fits c.edit.span c.edit.kind := by
  simp only [Call.records, Bool.and_eq_true, Bool.not_eq_true'] at hc
  rw [request_range hc.1] at h
  obtain ⟨-, ⟨rfl, hempty | hcovered⟩ | hfits⟩ := addRange_ok h
  · simp [hempty] at hc
  · exact Or.inl ⟨rfl, hcovered⟩
  · exact Or.inr hfits

/-- The removal of nothing leaves the buffer as it is. -/
theorem request_of_not_records (hr : c.edit.isRange = true) (hc : c.records = false)
    (h : b.request c = .ok b') : b' = b := by
  rw [request_range hr] at h
  obtain ⟨-, ⟨rfl, -⟩ | ⟨-, hf⟩⟩ := addRange_ok h
  · rfl
  · have hrec := hf.recorded
    simp_all [Call.records]

/-- A call that records no range leaves the list of ranges as it is. -/
theorem filter_isRange_request (hc : c.records = false) (h : b.request c = .ok b') :
    b'.edits.filter Edit.isRange = b.edits.filter Edit.isRange := by
  cases c with
  | remove span | replace span text => rw [request_of_not_records rfl hc h]
  | insertAfter offset text =>
    obtain ⟨-, ⟨rfl, -⟩ | ⟨rfl, -⟩⟩ := insertAfter_ok h
    · rfl
    · simp [Edit.isRange, Edit.isInsertion]

theorem request_not_records (hc : c.records = false) (h : b.request c = .ok b') (e : Edit)
    (he : e.isRange = true) : e ∈ b'.edits ↔ e ∈ b.edits := by
  have hmem : e ∈ b'.edits.filter Edit.isRange ↔ e ∈ b.edits.filter Edit.isRange := by
    rw [filter_isRange_request hc h]
  simpa [he] using hmem

/-- Every range recorded so far is covered by one that is still there. -/
theorem requestAll_covered (h : (ofDocument doc).requestAll calls = .ok b) :
    ∀ c ∈ calls, c.records = true →
      ∃ e ∈ b.edits, e.isRange = true ∧ e.span.covers c.edit.span = true := by
  induction calls using List.reverseRecOn generalizing b with
  | nil => simp
  | append_singleton calls last ih =>
    obtain ⟨m, hm, hlast⟩ := requestAll_concat_ok.mp h
    intro c hc hrec
    cases hl : last.records with
    | false =>
      have hc : c ∈ calls := by
        rcases mem_append.mp hc with hc | hc
        · exact hc
        · rw [mem_singleton.mp hc, hl] at hrec
          cases hrec
      obtain ⟨e, he, hrange, hcov⟩ := ih hm c hc hrec
      exact ⟨e, (request_not_records hl hlast e hrange).mpr he, hrange, hcov⟩
    | true =>
      have hrange : last.edit.isRange = true := (Bool.and_eq_true _ _ ▸ hl).1
      rcases request_records hl hlast with ⟨rfl, hcov⟩ | ⟨rfl, -⟩
      · rcases mem_append.mp hc with hc | hc
        · exact ih hm c hc hrec
        · rw [mem_singleton.mp hc]
          exact hcov
      · have hnew : last.edit ∈ m.edits.filter (staysBeside last.edit.span) ++ [last.edit] := by
          simp
        rcases mem_append.mp hc with hc | hc
        · -- what covered it before stays, or the new range covers it through that one
          obtain ⟨e, he, her, hcov⟩ := ih hm c hc hrec
          have hins : e.isInsertion = false := by simpa [Edit.isRange] using her
          cases hstay : last.edit.span.covers e.span with
          | true => exact ⟨_, hnew, hrange, Span.covers_trans hstay hcov⟩
          | false =>
            refine ⟨e, mem_append_left _ (mem_filter.mpr ⟨he, ?_⟩), her, hcov⟩
            simp [staysBeside, hins, hstay]
        · rw [mem_singleton.mp hc]
          exact ⟨_, hnew, hrange, Span.covers_refl _⟩

/-! ### Bytes taken away and text at the end -/

/-- What the calls take away is taken away by the buffer, and nothing else. -/
theorem takesAway_requestAll (h : (ofDocument doc).requestAll calls = .ok b) (offset : Nat) :
    Edit.takesAway b.edits offset = Edit.takesAway (calls.map Call.edit) offset := by
  rw [Bool.eq_iff_iff, Edit.takesAway_iff, Edit.takesAway_iff]
  constructor
  · rintro ⟨e, he, hrange, hin⟩
    obtain ⟨-, c, hc, rfl⟩ := requestAll_edits_subset h e he
    exact ⟨c.edit, mem_map_of_mem hc, hrange, hin⟩
  · rintro ⟨e, he, hrange, hin⟩
    obtain ⟨c, hc, rfl⟩ := mem_map.mp he
    -- a span that contains an offset is not empty, so the range was recorded
    have hrec : c.records = true := by
      rw [Span.contains_iff] at hin
      have hne : c.edit.span.isEmpty = false := by
        simp only [Span.isEmpty, beq_eq_false_iff_ne]
        omega
      simp [Call.records, hrange, hne]
    obtain ⟨e, he, her, hcov⟩ := requestAll_covered h c hc hrec
    exact ⟨e, he, her, Span.contains_of_covers hcov hin⟩

theorem request_insertedAt_end (hb : ∀ e ∈ b.edits, e.span.stop ≤ b.document.length)
    (h : b.request c = .ok b') :
    Edit.insertedAt b'.edits b.document.length =
      Edit.insertedAt b.edits b.document.length ++ Edit.insertedAt [c.edit] b.document.length := by
  cases c with
  | remove span | replace span text =>
    obtain ⟨hle, ⟨rfl, -⟩ | ⟨rfl, -⟩⟩ := addRange_ok h
    · simp [Edit.insertedAt, Edit.isInsertion]
    · -- no range of the document reaches past its end
      have hstay : ∀ e ∈ b.edits, (e.isInsertion && e.span.start == b.document.length) = true →
          staysBeside span e = true := by
        intro e _ hins
        simp only [Bool.and_eq_true, beq_iff_eq] at hins
        simp [staysBeside, hins.1, hins.2, Span.strictlyContains, hle]
      rw [Edit.insertedAt_append, Edit.insertedAt, filter_filter]
      congr 2
      refine filter_congr fun e he => ?_
      cases hins : (e.isInsertion && e.span.start == b.document.length) with
      | false => rfl
      | true => simp [hstay e he hins]
  | insertAfter offset text =>
    obtain ⟨-, ⟨hsame, e, he, -, hin⟩ | ⟨hnew, -⟩⟩ := insertAfter_ok h
    · have hlt : offset < b.document.length :=
        (Span.strictlyContains_iff.mp hin).2.trans_le (hb e he)
      simp [hsame, Edit.insertedAt, Span.point, hlt.ne]
    · rw [hnew]
      exact Edit.insertedAt_append _ _ _

/-- Text inserted at the end of the document stays, in the order of the calls. -/
theorem insertedAt_requestAll_end (h : (ofDocument doc).requestAll calls = .ok b) :
    Edit.insertedAt b.edits doc.length = Edit.insertedAt (calls.map Call.edit) doc.length := by
  induction calls using List.reverseRecOn generalizing b with
  | nil => rw [← Except.ok.inj h]; rfl
  | append_singleton calls c ih =>
    obtain ⟨m, hm, hc⟩ := requestAll_concat_ok.mp h
    have hdoc : m.document = doc := requestAll_document hm
    have hbound : ∀ e ∈ m.edits, e.span.stop ≤ m.document.length := by
      intro e he
      rw [hdoc]
      exact (requestAll_edits_subset hm e he).1
    have hstep := request_insertedAt_end hbound hc
    rw [hdoc] at hstep
    rw [hstep, ih hm, map_append, Edit.insertedAt_append, map_singleton]

/-! ### Ranges that survive -/

/-- The edit was asked for by a call that no earlier one covers, and every later one that covers it
has the same span. -/
def Survives (calls : List Call) (e : Edit) : Prop :=
  ∃ before c after, calls = before ++ c :: after ∧ c.edit = e ∧ c.records = true ∧
    (∀ x ∈ before, x.records = true → x.edit.span.covers e.span = false) ∧
      ∀ x ∈ after, x.records = true → x.edit.span.covers e.span = true →
        e.span.covers x.edit.span = true

theorem survives_concat_iff {last : Call} {e : Edit} :
    Survives (calls ++ [last]) e ↔
      Survives calls e ∧ (last.records = true → last.edit.span.covers e.span = true →
          e.span.covers last.edit.span = true) ∨
        last.edit = e ∧ last.records = true ∧
          ∀ x ∈ calls, x.records = true → x.edit.span.covers e.span = false := by
  constructor
  · rintro ⟨before, c, after, hcalls, rfl, hrec, hbefore, hafter⟩
    rcases eq_nil_or_concat' after with rfl | ⟨after, x, rfl⟩
    · obtain ⟨rfl, hlast⟩ := append_inj' hcalls rfl
      obtain rfl := singleton_inj.mp hlast
      exact Or.inr ⟨rfl, hrec, hbefore⟩
    · rw [← cons_append, ← append_assoc] at hcalls
      obtain ⟨rfl, hlast⟩ := append_inj' hcalls rfl
      obtain rfl := singleton_inj.mp hlast
      refine Or.inl ⟨⟨before, c, after, rfl, rfl, hrec, hbefore, ?_⟩, hafter last (by simp)⟩
      exact fun y hy => hafter y (mem_append_left _ hy)
  · rintro (⟨⟨before, c, after, rfl, rfl, hrec, hbefore, hafter⟩, hlast⟩ | ⟨rfl, hrec, hbefore⟩)
    · refine ⟨before, c, after ++ [last], by simp, rfl, hrec, hbefore, ?_⟩
      intro x hx
      rcases mem_append.mp hx with hx | hx
      · exact hafter x hx
      · rw [mem_singleton.mp hx]
        exact hlast
    · exact ⟨calls, last, [], rfl, rfl, hrec, hbefore, by simp⟩

/-- A recorded call keeps the ranges it does not outgrow, and joins them if none covers it. -/
theorem mem_edits_request_iff (hb : b.Sound) (hc : c.records = true)
    (h : b.request c = .ok b') {e : Edit} (he : e.isRange = true) :
    e ∈ b'.edits ↔
      e ∈ b.edits ∧ (c.edit.span.covers e.span = true → e.span.covers c.edit.span = true) ∨
        c.edit = e ∧ ∀ r ∈ b.edits, r.isRange = true → r.span.covers e.span = false := by
  rcases request_records hc h with ⟨rfl, r, hr, hrr, hcov⟩ | ⟨rfl, hfits⟩
  · constructor
    · intro hmem
      refine Or.inl ⟨hmem, fun hle => ?_⟩
      rw [← Edit.eq_of_covers (hb.apart.imp And.right) hr hrr hmem he
        (Span.covers_trans hcov hle)]
      exact hcov
    · rintro (⟨hmem, -⟩ | ⟨rfl, hfree⟩)
      · exact hmem
      · rw [hfree r hr hrr] at hcov
        cases hcov
  · have hins : e.isInsertion = false := by simpa [Edit.isRange] using he
    simp only [mem_append, mem_filter, mem_singleton, staysBeside, hins,
      Bool.not_eq_true', Bool.false_eq_true, if_false]
    constructor
    · rintro (⟨hmem, hstay⟩ | rfl)
      · exact Or.inl ⟨hmem, fun hle => by rw [hstay] at hle; cases hle⟩
      · exact Or.inr ⟨rfl, fun r hr hrr => (hfits.free r hr hrr).1⟩
    · rintro (⟨hmem, hlater⟩ | ⟨rfl, -⟩)
      · refine Or.inl ⟨hmem, ?_⟩
        rw [← Bool.not_eq_true]
        intro hle
        rw [(hfits.free e hmem he).1] at hlater
        exact absurd (hlater hle) (by simp)
      · exact Or.inr rfl

/-- The ranges in the buffer cover what the recorded calls cover. -/
theorem ranges_free_iff (h : (ofDocument doc).requestAll calls = .ok b)
    (hsurvive : ∀ r ∈ b.edits, r.isRange = true → Survives calls r) (span : Span) :
    (∀ r ∈ b.edits, r.isRange = true → r.span.covers span = false) ↔
      ∀ c ∈ calls, c.records = true → c.edit.span.covers span = false := by
  constructor
  · intro hfree c hc hrec
    obtain ⟨r, hr, hrr, hrc⟩ := requestAll_covered h c hc hrec
    rw [← Bool.not_eq_true]
    intro hcov
    exact absurd (Span.covers_trans hrc hcov) (by simp [hfree r hr hrr])
  · intro hfree r hr hrr
    obtain ⟨before, c, after, rfl, rfl, hrec, -⟩ := hsurvive r hr hrr
    exact hfree c (by simp) hrec

/-- The ranges in the buffer are those that survive. -/
theorem mem_edits_iff_survives (h : (ofDocument doc).requestAll calls = .ok b)
    (ho : ∀ c ∈ calls, c.edit.span.Ordered) {e : Edit} (he : e.isRange = true) :
    e ∈ b.edits ↔ Survives calls e := by
  induction calls using List.reverseRecOn generalizing b e with
  | nil =>
    rw [← Except.ok.inj h]
    simp [ofDocument, Survives]
  | append_singleton calls last ih =>
    obtain ⟨m, hm, hlast⟩ := requestAll_concat_ok.mp h
    have ho' : ∀ c ∈ calls, c.edit.span.Ordered := fun c hc => ho c (mem_append_left _ hc)
    rw [survives_concat_iff, ← ih hm ho' he]
    cases hrec : last.records with
    | false => simp [request_not_records hrec hlast e he]
    | true =>
      have hfree := ranges_free_iff hm (fun r hr hrr => (ih hm ho' hrr).mp hr) e.span
      simp only [mem_edits_request_iff (requestAll_sound hm ho') hrec hlast he, hfree,
        forall_const, true_and]

/-- A replacement survives if no other call covers it, provided no call after a replacement has the
same span. -/
theorem mem_edits_replace_iff (h : (ofDocument doc).requestAll calls = .ok b)
    (ho : ∀ c ∈ calls, c.edit.span.Ordered)
    (hlater : calls.Pairwise fun a c => ∀ span text, a = .replace span text →
      c.records = true → c.edit.span ≠ span) {span : Span} {text : String} :
    (⟨span, .replace text⟩ : Edit) ∈ b.edits ↔
      .replace span text ∈ calls ∧ ∀ c ∈ calls, c.records = true → c ≠ .replace span text →
        c.edit.span.covers span = false := by
  rw [mem_edits_iff_survives h ho rfl]
  constructor
  · rintro ⟨before, c, after, rfl, hedit, -, hbefore, hafter⟩
    obtain rfl : c = .replace span text := by
      cases c <;> simp_all
    refine ⟨by simp, fun x hx hrec hne => ?_⟩
    rw [mem_append, mem_cons] at hx
    rcases hx with hx | rfl | hx
    · exact hbefore x hx hrec
    · exact absurd rfl hne
    · rw [← Bool.not_eq_true]
      intro hcov
      have hdiffer := (pairwise_cons.mp (pairwise_append.mp hlater).2.1).1 x hx span text
        rfl hrec
      exact hdiffer (Span.eq_of_covers hcov (hafter x hx hrec hcov))
  · rintro ⟨hmem, hfree⟩
    obtain ⟨before, after, rfl⟩ := append_of_mem hmem
    obtain ⟨-, hcons, hcross⟩ := pairwise_append.mp hlater
    refine ⟨before, _, after, rfl, rfl, by simp, fun x hx hrec => ?_, fun x hx hrec hcov => ?_⟩
    · refine hfree x (mem_append_left _ hx) hrec ?_
      rintro rfl
      exact hcross _ hx _ mem_cons_self span text rfl (by simp) rfl
    · have hne : x ≠ .replace span text := by
        rintro rfl
        exact (pairwise_cons.mp hcons).1 _ hx span text rfl (by simp) rfl
      rw [hfree x (by simp [hx]) hrec hne] at hcov
      cases hcov

/-! ### Removals and replacements -/

section Rewritten

variable {edits : List Edit} {removed : List Span} {replaced : List (Span × String)}
  (hedits : ∀ e ∈ edits, (∃ span ∈ removed, e = ⟨span, .remove⟩) ∨
    ∃ r ∈ replaced, e = ⟨r.1, .replace r.2⟩)
  (hreplaced : ∀ r ∈ replaced, ⟨r.1, .replace r.2⟩ ∈ edits)
include hedits hreplaced

theorem takesAway_rewritten
    (hremoved : ∀ span ∈ removed, ∀ offset, span.contains offset = true →
      Edit.takesAway edits offset = true) (offset : Nat) :
    Edit.takesAway edits offset =
      (removed.any (·.contains offset) || replaced.any (·.1.contains offset)) := by
  rw [Bool.eq_iff_iff, Bool.or_eq_true, any_eq_true, any_eq_true]
  constructor
  · intro htake
    obtain ⟨e, he, -, hin⟩ := Edit.takesAway_iff.mp htake
    rcases hedits e he with ⟨span, hspan, rfl⟩ | ⟨r, hr, rfl⟩
    · exact Or.inl ⟨span, hspan, hin⟩
    · exact Or.inr ⟨r, hr, hin⟩
  · rintro (⟨span, hspan, hin⟩ | ⟨r, hr, hin⟩)
    · exact hremoved span hspan offset hin
    · exact Edit.takesAway_iff.mpr ⟨_, hreplaced r hr, rfl, hin⟩

/-- The replacements that start at an offset are that of the one range that does, if any. -/
theorem filter_start_replaced (hsound : Edit.Sound doc.length edits) (hnodup : replaced.Nodup)
    (offset : Nat) :
    ((replaced.filter fun r => r.1.start == offset).flatMap fun r => Text.bytes r.2) =
      Edit.replacementAt edits offset := by
  generalize hhits : (replaced.filter fun r => r.1.start == offset) = hits
  have hfind : ∀ r ∈ hits, edits.find? (Edit.startsAt offset) = some ⟨r.1, .replace r.2⟩ := by
    intro r hr
    rw [← hhits, mem_filter] at hr
    exact hsound.find?_startsAt (hreplaced r hr.1) rfl (by simpa using hr.2)
  have hnil : (∀ r ∈ hits, edits.find? (Edit.startsAt offset) ≠ some ⟨r.1, .replace r.2⟩) →
      hits = [] := fun hno => eq_nil_iff_forall_not_mem.mpr fun r hr => hno r hr (hfind r hr)
  unfold Edit.replacementAt
  cases hfound : edits.find? (Edit.startsAt offset) with
  | none =>
    rw [hnil (by simp [hfound])]
    rfl
  | some e =>
    rcases hedits e (mem_of_find?_eq_some hfound) with ⟨span, -, rfl⟩ | ⟨r, hr, rfl⟩
    · rw [hnil (by simp [hfound])]
      rfl
    · have hmem : r ∈ hits := by
        rw [← hhits, mem_filter]
        exact ⟨hr, by simpa using (Edit.startsAt_iff.mp (find?_some hfound)).2⟩
      have hall : ∀ x ∈ hits, x = r := by
        intro x hx
        have hsame := (hfind x hx).symm.trans hfound
        simp only [Option.some.injEq, Edit.mk.injEq, EditKind.replace.injEq] at hsame
        exact Prod.ext hsame.1 hsame.2
      have hone : hits = [r] := by
        have hdistinct : hits.Nodup := hhits ▸ hnodup.filter _
        refine perm_singleton.mp ((perm_ext_iff_of_nodup hdistinct
          (nodup_singleton r)).mpr fun x => ?_)
        rw [mem_singleton]
        exact ⟨hall x, fun hx => hx ▸ hmem⟩
      rw [hone]
      simp [Edit.text]

/-- Sound edits without insertions are told by what they remove and what they replace. -/
theorem pointwise_rewritten (hsound : Edit.Sound doc.length edits) (hnodup : replaced.Nodup)
    (hremoved : ∀ span ∈ removed, ∀ offset, span.contains offset = true →
      Edit.takesAway edits offset = true) :
    Edit.pointwise doc edits = doc.rewritten removed replaced := by
  have hinserted : ∀ offset, Edit.insertedAt edits offset = [] := by
    intro offset
    rw [Edit.insertedAt, filter_eq_nil_iff.mpr, flatMap_nil]
    intro e he
    rcases hedits e he with ⟨span, -, rfl⟩ | ⟨r, -, rfl⟩ <;> simp [Edit.isInsertion]
  refine flatMap_congr fun offset _ => ?_
  rw [Edit.textAt, hinserted, nil_append, takesAway_rewritten hedits hreplaced hremoved,
    filter_start_replaced hedits hreplaced hsound hnodup]

end Rewritten

/-! ### Removals, with text at the end -/

/-- Edits that only remove, apart from text inserted at the end, leave the rest of the document and
add that text to it. -/
theorem pointwise_removals {edits : List Edit} {spans : List Span}
    (hranges : ∀ e ∈ edits, e.isRange = true → e.text = [])
    (hinsertions : ∀ e ∈ edits, e.isInsertion = true → e.span.start = doc.length)
    (hspans : ∀ offset, Edit.takesAway edits offset = spans.any (·.contains offset)) :
    Edit.pointwise doc edits = doc.without spans ++ Edit.insertedAt edits doc.length := by
  have hreplacement : ∀ offset, Edit.replacementAt edits offset = [] := by
    intro offset
    unfold Edit.replacementAt
    split
    · rename_i e he
      exact hranges e (mem_of_find?_eq_some he) (Edit.startsAt_iff.mp (find?_some he)).1
    · rfl
  have hinserted : ∀ offset ∈ List.range doc.length, Edit.insertedAt edits offset = [] := by
    intro offset hlt
    rw [Edit.insertedAt, filter_eq_nil_iff.mpr, flatMap_nil]
    intro e he hat
    simp only [Bool.and_eq_true, beq_iff_eq] at hat
    have hend := hinsertions e he hat.1
    have := mem_range.mp hlt
    omega
  have hbehind : doc.bytes[doc.length]? = none := getElem?_eq_none le_rfl
  rw [Edit.pointwise, range_succ, flatMap_append, flatMap_singleton, Document.without]
  congr 1
  · refine flatMap_congr fun offset hlt => ?_
    rw [Edit.textAt, hinserted offset hlt, hreplacement, hspans]
    rfl
  · rw [Edit.textAt, hreplacement, hbehind]
    simp

/-- Calls that remove some spans and append texts leave the rest of the document, and the texts in
the order of the calls. -/
theorem requestAll_removals {spans : List Span} {out : String}
    (h : (ofDocument doc).requestAll calls = .ok b)
    (hkinds : ∀ c ∈ calls, (∃ span ∈ spans, c = .remove span) ∨
      ∃ text, c = .insertAfter doc.length text)
    (hmem : ∀ span ∈ spans, .remove span ∈ calls) (hordered : ∀ span ∈ spans, span.Ordered)
    (hdoc : Text.IsUtf8 doc.bytes) (hout : b.result = .ok out) :
    Text.bytes out = doc.without spans ++ Edit.insertedAt (calls.map Call.edit) doc.length := by
  have ho : ∀ c ∈ calls, c.edit.span.Ordered := by
    intro c hc
    rcases hkinds c hc with ⟨span, hspan, rfl⟩ | ⟨text, rfl⟩
    · exact hordered span hspan
    · exact le_rfl
  rw [requestAll_bytes h ho hdoc hout, pointwise_removals, insertedAt_requestAll_end h]
  · intro e he hrange
    obtain ⟨-, c, hc, rfl⟩ := requestAll_edits_subset h e he
    rcases hkinds c hc with ⟨span, -, rfl⟩ | ⟨text, rfl⟩
    · rfl
    · simp [Edit.isRange, Edit.isInsertion] at hrange
  · intro e he hins
    obtain ⟨-, c, hc, rfl⟩ := requestAll_edits_subset h e he
    rcases hkinds c hc with ⟨span, -, rfl⟩ | ⟨text, rfl⟩
    · simp [Edit.isInsertion] at hins
    · rfl
  · intro offset
    rw [takesAway_requestAll h, Bool.eq_iff_iff, Edit.takesAway_iff, any_eq_true]
    constructor
    · rintro ⟨e, he, hrange, hin⟩
      obtain ⟨c, hc, rfl⟩ := mem_map.mp he
      rcases hkinds c hc with ⟨span, hspan, rfl⟩ | ⟨text, rfl⟩
      · exact ⟨span, hspan, hin⟩
      · simp [Edit.isRange, Edit.isInsertion] at hrange
    · rintro ⟨span, hspan, hin⟩
      exact ⟨_, mem_map_of_mem (hmem span hspan), rfl, hin⟩

end EditBuffer

end Offload
