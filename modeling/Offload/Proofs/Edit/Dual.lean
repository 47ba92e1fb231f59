import Offload.Edit.Dual
import Offload.Proofs.Edit.Accepted
import Offload.Proofs.Source.Lexer

/-!
# Edits of both sides

A range takes its terminator along, so the span that is edited starts where the range does and ends
no earlier. Calls on the two sides do not interfere: each side sees only its own, in order.
-/

namespace Offload

variable {c : Call} {doc : Document} {e : EditBuffer.Call} {range : SourceRange} {span : Span}

/-! ### The span edited for a range -/

theorem semicolonAfter_some {semicolon : Span}
    (h : semicolonAfter doc range = .ok (some semicolon)) : range.span.stop ≤ semicolon.stop := by
  simp only [semicolonAfter, bind, Except.bind, pure, Except.pure] at h
  split at h
  · cases h
  · rename_i hin
    simp only [Bool.or_eq_true, decide_eq_true_eq, not_or, not_lt] at hin
    split at h
    · cases h
    · rename_i step hstep
      have hsteps : Source.Scan.StepsOn _ doc step := Source.Scan.stepsOn rfl hstep
      have hstart := hsteps.start
      have hordered := hsteps.stands.ordered
      simp only [Source.Scan.resume, Nat.min_eq_left hin.2] at hstart
      split_ifs at h with hsemi
      · obtain rfl := Option.some.inj (Except.ok.inj h)
        omega
      · cases h

theorem withTerminator_ok (h : withTerminator doc range = .ok span) :
    span.start = range.span.start ∧ range.span.stop ≤ span.stop := by
  simp only [withTerminator, bind, Except.bind, pure, Except.pure] at h
  split at h
  · cases h
  · rename_i found hfound
    cases found with
    | none =>
      obtain rfl := Except.ok.inj h
      exact ⟨rfl, le_rfl⟩
    | some semicolon =>
      simp only [Span.between] at h
      split_ifs at h with hle
      obtain rfl := Except.ok.inj h
      have hstop : range.span.stop ≤ semicolon.stop := semicolonAfter_some hfound
      exact ⟨rfl, hstop⟩

/-- The spans edited for some ranges. -/
def expanded (doc : Document) (ranges : List SourceRange) : List Span :=
  ranges.filterMap fun range => (withTerminator doc range).toOption

theorem mem_expanded {ranges : List SourceRange} :
    span ∈ expanded doc ranges ↔ ∃ range ∈ ranges, withTerminator doc range = .ok span := by
  unfold expanded
  rw [List.mem_filterMap]
  refine exists_congr fun range => and_congr_right fun _ => ?_
  cases withTerminator doc range <;> simp [Except.toOption]

theorem ordered_of_mem_expanded {ranges : List SourceRange}
    (ho : ∀ range ∈ ranges, range.span.Ordered) (h : span ∈ expanded doc ranges) :
    span.Ordered := by
  obtain ⟨range, hr, hspan⟩ := mem_expanded.mp h
  obtain ⟨hstart, hstop⟩ := withTerminator_ok hspan
  have hrange := ho range hr
  unfold Span.Ordered at *
  omega

/-! ### Calls on two sides -/

namespace DualBuffer

/-- What can be asked of the two outputs. -/
inductive Call where
  | remove (side : Side) (range : SourceRange)
  | replace (side : Side) (range : SourceRange) (text : String)
  | append (side : Side) (text : String)
deriving DecidableEq, Repr

namespace Call

def side : Call → Side
  | remove side _ | replace side _ _ | append side _ => side

/-- The call that the buffer of the side gets, unless the range has no terminated form. -/
def onBuffer? (doc : Document) : Call → Option EditBuffer.Call
  | remove _ range => (withTerminator doc range).toOption.map .remove
  | replace _ range text => (withTerminator doc range).toOption.map (.replace · text)
  | append _ text => some (.insertAfter doc.length text)

theorem onBuffer?_remove {side : Side} :
    (remove side range).onBuffer? doc = some e ↔
      ∃ span, withTerminator doc range = .ok span ∧ e = .remove span := by
  cases h : withTerminator doc range <;> simp [onBuffer?, h, Except.toOption, eq_comm]

theorem onBuffer?_replace {side : Side} {text : String} :
    (replace side range text).onBuffer? doc = some e ↔
      ∃ span, withTerminator doc range = .ok span ∧ e = .replace span text := by
  cases h : withTerminator doc range <;> simp [onBuffer?, h, Except.toOption, eq_comm]

end Call

/-- The calls that one side gets, in order. -/
def callsOn (doc : Document) (side : Side) (calls : List Call) : List EditBuffer.Call :=
  (calls.filter fun c => c.side = side).filterMap (Call.onBuffer? doc)

@[simp] theorem callsOn_append (doc : Document) (side : Side) (calls more : List Call) :
    callsOn doc side (calls ++ more) = callsOn doc side calls ++ callsOn doc side more := by
  simp [callsOn]

theorem mem_callsOn {side : Side} {calls : List Call} :
    e ∈ callsOn doc side calls ↔ ∃ c ∈ calls, c.side = side ∧ c.onBuffer? doc = some e := by
  simp [callsOn, and_assoc]

def request (b : DualBuffer) : Call → Except EditFailure DualBuffer
  | .remove side range => (b.remove side range).map (·.2)
  | .replace side range text => (b.replace side range text).map (·.2)
  | .append side text => b.append side text

/-- The buffers after calls none of which is refused. -/
def requestAll (b : DualBuffer) (calls : List Call) : Except EditFailure DualBuffer :=
  calls.foldlM request b

variable {b b' : DualBuffer} {calls : List Call}

theorem requestAll_append_ok {more : List Call} :
    b.requestAll (calls ++ more) = .ok b' ↔
      ∃ m, b.requestAll calls = .ok m ∧ m.requestAll more = .ok b' := by
  unfold requestAll
  rw [List.foldlM_append]
  cases calls.foldlM request b <;> simp [bind, Except.bind]

theorem requestAll_singleton (b : DualBuffer) (c : Call) : b.requestAll [c] = b.request c := by
  unfold requestAll
  rw [List.foldlM_cons]
  cases b.request c <;> rfl

theorem requestAll_cons_ok :
    b.requestAll (c :: calls) = .ok b' ↔
      ∃ m, b.request c = .ok m ∧ m.requestAll calls = .ok b' := by
  rw [← List.singleton_append, requestAll_append_ok, requestAll_singleton]

/-- An edit of a range edits the terminated span, if there is one. -/
theorem target_bind {side : Side} (edit : Span → EditBuffer → Except EditError EditBuffer) :
    (∃ f, Except.map Prod.snd (do
      let span ← b.target range
      let b ← b.onSide side (edit span)
      return (span, b) : Except EditFailure (Span × DualBuffer)) = .error (.fault f)) ∨
    ∃ span, withTerminator b.document range = .ok span ∧ Except.map Prod.snd (do
      let span ← b.target range
      let b ← b.onSide side (edit span)
      return (span, b) : Except EditFailure (Span × DualBuffer)) = b.onSide side (edit span) := by
  unfold target
  cases withTerminator b.document range with
  | error f => exact .inl ⟨f, rfl⟩
  | ok span =>
    refine .inr ⟨span, rfl, ?_⟩
    simp only [bind, Except.bind]
    cases b.onSide side (edit span) <;> rfl

/-- A call edits the buffer of its side, if its range has a terminated form. -/
theorem request_cases (b : DualBuffer) (c : Call) : (∃ f, b.request c = .error (.fault f)) ∨
    ∃ e, c.onBuffer? b.document = some e ∧ b.request c = b.onSide c.side (·.request e) := by
  cases c with
  | remove side range =>
    refine (target_bind fun span b => b.remove span).imp_right ?_
    rintro ⟨span, hspan, hedit⟩
    exact ⟨.remove span, Call.onBuffer?_remove.mpr ⟨span, hspan, rfl⟩, hedit⟩
  | replace side range text =>
    refine (target_bind fun span b => b.replace span text).imp_right ?_
    rintro ⟨span, hspan, hedit⟩
    exact ⟨.replace span text, Call.onBuffer?_replace.mpr ⟨span, hspan, rfl⟩, hedit⟩
  | append side text => exact .inr ⟨.insertAfter b.document.length text, rfl, rfl⟩

theorem request_ok (h : b.request c = .ok b') :
    ∃ e buffer, c.onBuffer? b.document = some e ∧ (b.side c.side).request e = .ok buffer ∧
      b' = b.set c.side buffer := by
  rcases request_cases b c with ⟨f, hfault⟩ | ⟨e, he, hside⟩
  · rw [hfault] at h
    cases h
  · rw [hside, onSide] at h
    split at h
    · exact ⟨e, _, he, ‹_›, (Except.ok.inj h).symm⟩
    · cases h

/-- A refused call has been refused by the buffer of its side. -/
theorem request_refused {error : EditError} (h : b.request c = .error (.refused error)) :
    ∃ e, c.onBuffer? b.document = some e ∧ (b.side c.side).request e = .error error := by
  rcases request_cases b c with ⟨f, hfault⟩ | ⟨e, he, hside⟩
  · rw [hfault] at h
    cases h
  · rw [hside, onSide] at h
    split at h
    · cases h
    · cases h
      exact ⟨e, he, ‹_›⟩

@[simp] theorem side_set (b : DualBuffer) (side : Side) (buffer : EditBuffer) :
    (b.set side buffer).side side = buffer := by
  cases side <;> rfl

theorem side_set_of_ne {side other : Side} (h : side ≠ other) (buffer : EditBuffer) :
    (b.set side buffer).side other = b.side other := by
  cases side <;> cases other <;> simp_all [set, DualBuffer.side]

theorem request_side (h : b.request c = .ok b') (side : Side) :
    (b.side side).requestAll (callsOn b.document side [c]) = .ok (b'.side side) := by
  obtain ⟨e, buffer, he, hbuffer, rfl⟩ := request_ok h
  rcases eq_or_ne c.side side with rfl | hne
  · simpa [callsOn, he, EditBuffer.requestAll_singleton] using hbuffer
  · simp [callsOn, hne, side_set_of_ne hne]

theorem request_document (h : b.request c = .ok b') : b'.document = b.document :=
  EditBuffer.requestAll_document (request_side h .host)

/-- Each side sees its own calls. -/
theorem requestAll_side (h : b.requestAll calls = .ok b') (side : Side) :
    (b.side side).requestAll (callsOn b.document side calls) = .ok (b'.side side) := by
  induction calls generalizing b with
  | nil =>
    obtain rfl := Except.ok.inj h
    rfl
  | cons c rest ih =>
    obtain ⟨m, hc, hrest⟩ := requestAll_cons_ok.mp h
    have hside := ih hrest
    rw [request_document hc] at hside
    rw [← List.singleton_append, callsOn_append, EditBuffer.requestAll_append_ok]
    exact ⟨_, request_side hc side, hside⟩

/-- Calls that are refused are refused by one of the sides. -/
theorem requestAll_refused {error : EditError} (h : b.requestAll calls = .error (.refused error)) :
    ∃ side, (b.side side).requestAll (callsOn b.document side calls) = .error error := by
  induction calls generalizing b with
  | nil => cases h
  | cons c rest ih =>
    rw [requestAll, List.foldlM_cons] at h
    cases hc : b.request c with
    | error failure =>
      rw [hc] at h
      cases h
      obtain ⟨e, he, herror⟩ := request_refused hc
      refine ⟨c.side, ?_⟩
      rw [← List.singleton_append, callsOn_append, EditBuffer.requestAll_append]
      simp [callsOn, he, EditBuffer.requestAll_singleton, herror, bind, Except.bind]
    | ok m =>
      rw [hc] at h
      obtain ⟨side, hside⟩ := ih h
      refine ⟨side, ?_⟩
      rw [request_document hc] at hside
      rw [← List.singleton_append, callsOn_append, EditBuffer.requestAll_append, request_side hc]
      exact hside

/-- Calls that succeed all reach their buffer. -/
theorem requestAll_onBuffer (h : b.requestAll calls = .ok b') :
    ∀ c ∈ calls, ∃ e, c.onBuffer? b.document = some e := by
  induction calls generalizing b with
  | nil => simp
  | cons first rest ih =>
    obtain ⟨m, hfirst, hrest⟩ := requestAll_cons_ok.mp h
    intro c hc
    rcases List.mem_cons.mp hc with rfl | hc
    · obtain ⟨e, -, he, -⟩ := request_ok hfirst
      exact ⟨e, he⟩
    · rw [← request_document hfirst]
      exact ih hrest c hc

theorem requestAll_remove_ok (h : b.requestAll calls = .ok b') {side : Side}
    (hc : .remove side range ∈ calls) : ∃ span, withTerminator b.document range = .ok span := by
  obtain ⟨e, he⟩ := requestAll_onBuffer h _ hc
  obtain ⟨span, hspan, -⟩ := Call.onBuffer?_remove.mp he
  exact ⟨span, hspan⟩

theorem requestAll_replace_ok (h : b.requestAll calls = .ok b') {side : Side} {text : String}
    (hc : .replace side range text ∈ calls) :
    ∃ span, withTerminator b.document range = .ok span := by
  obtain ⟨e, he⟩ := requestAll_onBuffer h _ hc
  obtain ⟨span, hspan, -⟩ := Call.onBuffer?_replace.mp he
  exact ⟨span, hspan⟩

end DualBuffer

end Offload
