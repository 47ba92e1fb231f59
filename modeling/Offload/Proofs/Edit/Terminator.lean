import Offload.Proofs.Edit.Dual
import Offload.Proofs.Source.Directive

/-!
# Terminated spans

The span edited for a stretch of tokens ends with the stretch, or with a semicolon if that is the
next token of the text. So it reaches into no token after the stretch, such a semicolon apart, and
stretches that do not share a token or lie one in the other keep that relation when each of them
takes its terminator along.
-/

namespace Offload

open Source

/-- One span lies in the other, or they share no byte. -/
def Span.Nested (s t : Span) : Prop := s.covers t ∨ t.covers s ∨ s.overlaps t = false

namespace Span.Nested

variable {s t : Span}

instance : Decidable (Span.Nested s t) := inferInstanceAs (Decidable (_ ∨ _ ∨ _))

theorem refl (s : Span) : s.Nested s := .inl (covers_iff.mpr ⟨le_rfl, le_rfl⟩)

theorem symm (h : s.Nested t) : t.Nested s := by
  rcases h with h | h | h
  · exact .inr (.inl h)
  · exact .inl h
  · refine .inr (.inr ?_)
    rw [← Bool.not_eq_true, overlaps_iff] at h ⊢
    omega

theorem of_le (h : s.stop ≤ t.start) : s.Nested t := by
  refine .inr (.inr ?_)
  rw [← Bool.not_eq_true, overlaps_iff]
  omega

end Span.Nested

namespace Source.Lexed

variable {doc : Document} {raw : List Token} {y z : Token}

/-- The next token of the text, with everything that starts after `y` behind it. -/
theorem exists_follows (h : Lexed doc raw) (hy : y ∈ raw) (hne : y.lexeme ≠ .eof) :
    ∃ u ∈ raw, Follows doc y u ∧
      ∀ z ∈ raw, y.span.stop ≤ z.span.start → z = u ∨ u.span.stop ≤ z.span.start := by
  obtain ⟨i, hi⟩ := List.mem_iff_getElem?.mp hy
  obtain ⟨u, hu⟩ := h.tokenized.exists_next hi hne
  refine ⟨u, List.mem_of_getElem? hu, h.follows_getElem? hi hu, fun z hz hle => ?_⟩
  obtain ⟨k, hk⟩ := List.mem_iff_getElem?.mp hz
  have hpos := (h.takes y hy).pos hne
  have hordered := (h.takes z hz).ordered
  rcases Nat.lt_trichotomy k (i + 1) with hlt | rfl | hgt
  · -- A token that is not after `y` starts before its end.
    exfalso
    rcases Nat.eq_or_lt_of_le (Nat.le_of_lt_succ hlt) with rfl | hlt
    · rw [hi] at hk
      obtain rfl := Option.some.inj hk
      omega
    · have := h.tokenized.stop_le_start hlt hk hi
      omega
  · rw [hu] at hk
    exact .inl (Option.some.inj hk).symm
  · exact .inr (h.tokenized.stop_le_start hgt hu hk)

end Source.Lexed

/-! ### The span edited for a stretch of tokens -/

theorem semicolonAfter_eq {doc : Document} {range : SourceRange} {step : Step}
    (hlast : range.last ≠ .expansion) (hin : range.span.stop ≤ doc.length)
    (hstep : (Scan.resume doc range.span.stop).step = .ok step) :
    semicolonAfter doc range = .ok (if step.token.lexeme = .symbol .semicolon then
      some step.token.span else none) := by
  have hguard : (range.last == .expansion || decide (doc.length < range.span.stop)) = false := by
    simpa using ⟨hlast, hin⟩
  unfold semicolonAfter
  rw [hguard, if_neg (by simp), hstep]
  simp only [beq_iff_eq]
  rfl

/-- The edited span of the stretch that starts with `x` and ends with `y`. -/
structure Edited (doc : Document) (raw : List Token) (x y : Token) (span : Span) : Prop where
  lexed : Lexed doc raw
  first : x ∈ raw
  last : y ∈ raw
  le : x.span.start ≤ y.span.start
  notEof : y.lexeme ≠ .eof
  starts : x.lexeme ≠ .symbol .semicolon
  terminated : withTerminator doc (.file ⟨x.span.start, y.span.stop⟩) = .ok span

namespace Edited

variable {doc : Document} {raw : List Token} {x y x' y' z : Token} {span span' : Span}

theorem start (h : Edited doc raw x y span) : span.start = x.span.start :=
  (withTerminator_ok h.terminated).1

theorem stop_le_stop (h : Edited doc raw x y span) : y.span.stop ≤ span.stop :=
  (withTerminator_ok h.terminated).2

/-- The span ends where the stretch does or with the semicolon that follows. -/
theorem stop_eq (h : Edited doc raw x y span) {u : Token} (hu : Follows doc y u) :
    span.stop = if u.lexeme = .symbol .semicolon then u.span.stop else y.span.stop := by
  obtain ⟨step, hstep, rfl⟩ := hu.step
  have hterminated := h.terminated
  rw [withTerminator, semicolonAfter_eq (by simp [SourceRange.file])
    (h.lexed.takes y h.last).stop hstep] at hterminated
  simp only [except_bind_ok] at hterminated
  obtain ⟨found, hfound, hspan⟩ := hterminated
  obtain rfl := Except.ok.inj hfound
  by_cases hsemicolon : step.token.lexeme = .symbol .semicolon
  · simp only [if_pos hsemicolon, Span.between] at hspan ⊢
    split_ifs at hspan
    rw [← Except.ok.inj hspan]
  · simp only [if_neg hsemicolon] at hspan ⊢
    rw [← Except.ok.inj hspan]
    rfl

/-- The span does not go beyond a token after the stretch, and does not reach into it unless it is
a semicolon. -/
theorem stop_le (h : Edited doc raw x y span) (hz : z ∈ raw) (hle : y.span.stop ≤ z.span.start) :
    span.stop ≤ z.span.stop ∧ (z.lexeme ≠ .symbol .semicolon → span.stop ≤ z.span.start) := by
  obtain ⟨u, -, hfollows, hafter⟩ := h.lexed.exists_follows h.last h.notEof
  have hstop := h.stop_eq hfollows
  have hordered := (h.lexed.takes z hz).ordered
  have hu := hfollows.takes.ordered
  have hyu := hfollows.takes.start
  rcases hafter z hz hle with rfl | hbehind
  · constructor
    · split_ifs at hstop <;> omega
    · intro hne
      rw [if_neg hne] at hstop
      omega
  · have : span.stop ≤ u.span.stop := by split_ifs at hstop <;> omega
    exact ⟨by omega, fun _ => by omega⟩

theorem in_bounds (h : Edited doc raw x y span) :
    span.start < span.stop ∧ span.stop ≤ doc.length := by
  obtain ⟨u, -, hfollows, -⟩ := h.lexed.exists_follows h.last h.notEof
  have hstart := h.start
  have hle := h.le
  have hpos := (h.lexed.takes y h.last).pos h.notEof
  have hstop := h.stop_eq hfollows
  have hy := (h.lexed.takes y h.last).stop
  have hu := hfollows.takes.stop
  have hle' := h.stop_le_stop
  exact ⟨by omega, by split_ifs at hstop <;> omega⟩

/-- Stretches one after the other. -/
theorem nested_of_before (h : Edited doc raw x y span) (h' : Edited doc raw x' y' span')
    (hle : y.span.stop ≤ x'.span.start) : span.Nested span' := by
  refine .of_le ?_
  rw [h'.start]
  exact (h.stop_le h'.first hle).2 h'.starts

/-- A stretch inside another, up to its last token or short of it. -/
theorem nested_of_inside (h : Edited doc raw x y span) (h' : Edited doc raw x' y' span')
    (hstart : x.span.start ≤ x'.span.start) (hlast : y' = y ∨ y'.span.stop ≤ y.span.start) :
    span.Nested span' := by
  refine .inl (Span.covers_iff.mpr ⟨?_, ?_⟩)
  · rw [h.start, h'.start]
    exact hstart
  · rcases hlast with rfl | hlast
    · obtain ⟨u, -, hfollows, -⟩ := h.lexed.exists_follows h.last h.notEof
      rw [h.stop_eq hfollows, h'.stop_eq hfollows]
    · exact (h'.stop_le h.last hlast).1.trans h.stop_le_stop

end Edited

/-! ### Edits that are not refused -/

/-- The span is edited for one of the ranges of the side. -/
def SpanOf (doc : Document) (spots : Side → SourceRange → Prop) (side : Side) (span : Span) :
    Prop :=
  ∃ range, spots side range ∧ withTerminator doc range = .ok span

/-- Ranges whose edited spans are not empty, lie in the document and, on each side, lie one in the
other or apart. -/
structure Harmonious (doc : Document) (spots : Side → SourceRange → Prop) : Prop where
  in_bounds : ∀ {side span}, SpanOf doc spots side span →
    span.start < span.stop ∧ span.stop ≤ doc.length
  nested : ∀ {side span span'}, SpanOf doc spots side span → SpanOf doc spots side span' →
    span.Nested span'

theorem EditBuffer.addRange_ne_error {b : EditBuffer} {span : Span} {kind : EditKind}
    {e : EditError} (hin : span.stop ≤ b.document.length)
    (hnested : ∀ r ∈ b.edits, r.isRange = true → span.Nested r.span) :
    b.addRange span kind ≠ .error e := by
  intro h
  rcases addRange_error h with ⟨-, hlt⟩ | ⟨r, hr, hrange, -, hoverlaps, hcovered, hcovers⟩
  · omega
  · rcases hnested r hr hrange with h | h | h
    · rw [h] at hcovers
      cases hcovers
    · rw [h] at hcovered
      cases hcovered
    · rw [h] at hoverlaps
      cases hoverlaps

/-- Calls in the document any two of which lie one in the other or apart are not refused. -/
theorem EditBuffer.requestAll_ne_error {doc : Document} {calls : List Call}
    (hin : ∀ c ∈ calls, c.edit.span.stop ≤ doc.length)
    (hnested : ∀ c ∈ calls, ∀ c' ∈ calls, c.edit.span.Nested c'.edit.span) (e : EditError) :
    (ofDocument doc).requestAll calls ≠ .error e := by
  induction calls using List.reverseRecOn generalizing e with
  | nil => simp
  | append_singleton calls c ih =>
    simp only [List.forall_mem_append, List.forall_mem_singleton] at hin hnested
    rw [requestAll_append]
    cases hm : (ofDocument doc).requestAll calls with
    | error e' => exact absurd hm (ih hin.1 (fun c hc => (hnested.1 c hc).1) e')
    | ok m =>
      intro h
      have hreq : m.request c = .error e := (requestAll_singleton m c).symm.trans h
      have hdoc : m.document = doc := requestAll_document hm
      have hbeside : ∀ r ∈ m.edits, r.isRange = true → c.edit.span.Nested r.span := by
        intro r hr _
        obtain ⟨-, c', hc', rfl⟩ := requestAll_edits_subset hm r hr
        exact hnested.2.1 c' hc'
      cases c with
      | remove span | replace span text =>
        exact addRange_ne_error (hdoc ▸ hin.2) hbeside hreq
      | insertAfter offset text =>
        have hlt := (insertAfter_error hreq).2
        rw [hdoc] at hlt
        exact absurd hin.2 (Nat.not_le.mpr hlt)

namespace DualBuffer

variable {doc : Document} {spots : Side → SourceRange → Prop} {c : Call}

/-- The call edits one of the ranges, or appends. -/
def Call.Allowed (spots : Side → SourceRange → Prop) : Call → Prop
  | .remove side range | .replace side range _ => spots side range
  | .append _ _ => True

theorem Call.Allowed.spanOf (h : c.Allowed spots) {x : EditBuffer.Call}
    (hx : c.onBuffer? doc = some x) :
    SpanOf doc spots c.side x.edit.span ∨ ∃ text, x = .insertAfter doc.length text := by
  cases c with
  | remove side range =>
    obtain ⟨span, hspan, rfl⟩ := Call.onBuffer?_remove.mp hx
    exact .inl ⟨range, h, hspan⟩
  | replace side range text =>
    obtain ⟨span, hspan, rfl⟩ := Call.onBuffer?_replace.mp hx
    exact .inl ⟨range, h, hspan⟩
  | append side text => exact .inr ⟨text, (Option.some.inj hx).symm⟩

end DualBuffer

end Offload
