import Offload.Proofs.Compiled.Reading

/-!
# The readers of a module

Every reader is put together from its parts, one lemma for each. What is skipped and how types and
values are read does not depend on what stands behind, and a type, a value, an instruction or a
terminator can end an instruction: it is read the same before a comma with an exclamation mark.
-/

namespace Offload.Compiled

open Read

section

variable {α β : Type}

theorem ite_bind {c : Prop} [Decidable c] (p q : Read α) (k : α → Read β) :
    (if c then p else q) >>= k = if c then p >>= k else q >>= k :=
  apply_ite (· >>= k) c p q

theorem get_bind_bind (f : Reader → Read α) (k : α → Read β) :
    (MonadState.get >>= fun r => f r >>= k) = (MonadState.get >>= f) >>= k := rfl

def isInt : Tok → Bool
  | .int _ => true
  | _ => false

/-- A word, and behind it a token that is matched. -/
theorem atWord_then_peekAt {x : String} {w : Tok → Bool} {p q : Read α} {f : Tok → Read α}
    (hf : ∀ t, f t = if w t then p else q) :
    (do if ← atWord x then f (← peekAt 1) else q) =
      (do if ← looking (· == .word x) w then p else q) := by
  obtain rfl : f = fun t => if w t then p else q := funext hf
  funext r
  change (if (r.peek == .word x) = true then (do let t ← peekAt 1; if w t then p else q) else q) r =
    (if (r.peek == .word x && w (r.peekAt 1)) = true then p else q) r
  cases r.peek == .word x with
  | true => rfl
  | false => rfl

end

theorem inner_defineStruct (d : StructDef) : Inner (defineStruct d) (defineStruct d) := by
  refine frames_state fun r ts => ?_
  rw [Reader.module_withRest]
  dsimp only
  split
  · exact frames_updateModule trivial
  · split
    · split_ifs
      · exact frames_updateModule trivial
      · exact frames_fail
    · exact frames_pure trivial

/-- A reader that repeats a step which takes a token. -/
def Repeats (g : Grade) (p : Read Unit) : Prop :=
  ∃ step, p = repeatWhile step ∧
    ∀ {Good : Place → Prop} {K : ReadProp}, Hereditary Good K → Steps K g step

namespace Hereditary

variable {Good : Place → Prop} {K : ReadProp} {H : Tok → Prop} {g : Grade} {n fuel fuel' : Nat}
  {α : Type} {c close : Char} {t : Tok} {dest : Option String} {isDefinition : Bool}
  {item item' : Read α}

variable (h : Hereditary Good K)

include h

/-! ### Tokens -/

theorem expect (ht : t ≠ .eof) {e : Expected} : Reads K .moving n
    (do if !(← Read.eat t) then Read.unexpected e) := by
  refine (h.bind (g := .inner) h.eat fun _ => .ite h.unexpected (h.pure _)).takes
    fun {r _ r'} hgives => ?_
  obtain ⟨rfl, rfl⟩ : r.peek = t ∧ r' = r.advance := by simpa using hgives
  exact Reader.length_advance_lt ht

theorem expectMark : Reads K .moving n (Read.expectMark c) := h.expect (by simp)

theorem expectWord {w : String} : Reads K .moving n (Read.expectWord w) := h.expect (by simp)

/-- A mark that is not looked past can end an instruction. -/
theorem closing (hc : looksPast (.mark c) = false) : Reads K .final n (Read.expectMark c) :=
  h.eat_final (by simp) hc (h.done _) h.unexpected

theorem word : Reads K .moving n Read.word := by
  refine h.peeking rfl fun t _ => ?_
  cases t with
  | word w => exact h.moving (h.advance_moving (by simp)) fun _ => h.pure _
  | _ => exact h.unexpected

theorem localValue : Reads K .final n Read.localValue := by
  refine h.peeking rfl fun t _ => ?_
  cases t with
  | value name => exact h.take_final (by simp) rfl (h.done _)
  | _ => exact h.unexpected

theorem globalName : Reads K .moving n Read.globalName := by
  refine h.peeking rfl fun t _ => ?_
  cases t with
  | symbol name => exact h.moving (h.advance_moving (by simp)) fun _ => h.pure _
  | _ => exact h.unexpected

theorem string : Reads K .moving n Read.string := by
  refine h.peeking rfl fun t _ => ?_
  cases t with
  | str s => exact h.moving (h.advance_moving (by simp)) fun _ => h.pure _
  | _ => exact h.unexpected

theorem skipWhile {p : Nat → Token → Bool} : Reads K .inner n (Read.skipWhile p) :=
  ⟨inner_skipWhile, fun _ _ _ => h.bindAt h.getAt fun _ _ _ => h.takeAt _⟩

theorem skipLine (hH : ¬ H .eof) : Built K H .moving n Read.skipLine Read.skipLine := by
  rw [skipLine_eq]
  exact h.moving (h.advance_moving hH) fun _ => h.skipWhile

/-- What is left is skipped, if what should be there is not. -/
theorem holds_skip {r : Reader} (len : Option Nat) (m : Nat) {e : Expected} : K Unit r (do
    match len with
    | some n => Read.advanceBy n
    | none =>
      Read.advanceBy m
      Read.unexpected e) := by
  cases len with
  | some n => exact h.takeAt n
  | none => exact h.bindAt (h.takeAt m) fun _ _ _ => h.unexpectedHere

theorem skipGroup : Reads K .final n Read.skipGroup where
  frames := (countsOnly_wholeGroup?.mono fun _ => solid_of_two_le).frames gives_skipGroup
  holds _ _ hn := h.bindAt (h.expectMark.holds trivial hn) fun _ _ _ =>
    h.bindAt h.getAt fun _ _ _ => h.holds_skip _ _

theorem skipThrough : Reads K .moving n (Read.skipThrough c) where
  frames := (countsOnly_lengthThrough? _).frames gives_skipThrough
  holds _ _ _ := h.bindAt h.getAt fun _ _ _ => h.holds_skip _ _

/-! ### Repeated steps -/

theorem repeated {p : Read Unit} (hp : Repeats g p) (hg : g.Takes []) : Reads K g n p := by
  obtain ⟨step, rfl, hstep⟩ := hp
  exact h.repeatWhile (hstep h) hg

omit h in
theorem repeats_skipValueAttributes : Repeats .inner Read.skipValueAttributes := by
  refine ⟨_, rfl, fun h n β f f' htrue hfalse => ?_⟩
  rw [atWordIn_and_peekAt, atWord_then_peekAt (w := isInt) fun t => by cases t <;> rfl]
  simp only [bind_assoc, pure_bind, ite_bind]
  refine h.looking (fun _ => looksPast_of_isWordIn) ?_ (h.eatWordIn_steps _ htrue ?_)
  · exact h.take (by simp [isWordIn]) (h.bind h.skipGroup.inner fun _ => htrue)
  · refine h.looking (by simp +contextual [looksPast, pastWords]) ?_ hfalse
    rw [advanceBy_two_bind, advanceBy_two_bind]
    exact h.take (by simp) (h.bind h.advance fun _ => htrue)

theorem skipValueAttributes : Reads K .inner n Read.skipValueAttributes :=
  h.repeated repeats_skipValueAttributes trivial

theorem wordsIn {ws : List String} : Reads K .inner n (Read.repeatWhile (Read.eatWordIn ws)) :=
  h.repeatWhile (h.eatWordIn_steps ws) trivial

theorem skipFlags : Reads K .inner n Read.skipFlags := h.wordsIn

omit h in
theorem repeats_skipTrailers : Repeats .inner Read.skipTrailers := by
  refine ⟨_, rfl, fun h n β f f' htrue hfalse => ?_⟩
  rw [atMark_and_peekAt]
  simp only [bind_assoc, pure_bind, ite_bind]
  refine h.looking (by simp +contextual [looksPast]) (h.take (by simp) ?_) hfalse
  rw [get_bind_bind, get_bind_bind]
  exact h.bind (h.skipWhile (p := fun line t => t.place.line == line && !endsTrailer t.tok))
    fun _ => htrue

theorem skipTrailers : Reads K .inner n Read.skipTrailers := h.repeated repeats_skipTrailers trivial

omit h in
theorem repeats_skipCallAttributes : Repeats .trailing Read.skipCallAttributes := by
  refine ⟨_, rfl, fun h n β f f' htrue hfalse => ?_⟩
  simp only [bind_assoc, pure_bind, ite_bind]
  refine ⟨frames_eat (fun _ h => h.2) (fun _ h => h) rfl ?_ hfalse.frames, fun r _ hn => ?_⟩
  · rw [if_pos rfl, if_pos rfl, ← bind_assoc, ← bind_assoc]
    exact (final_take_two (by simp) rfl).bind (fun _ => htrue.frames)
      (fun _ _ _ hpre h => EndView.append h hpre) fun _ _ => Solid.append_plain
  · exact h.holds_test (g := .inner) (q := do Read.advance; f' true) h.eat
      (lt_eat (t := .mark '#') (by simp)) (by exact h.bind h.advance fun _ => htrue.inner)
      (by exact hfalse) hn

theorem skipCallAttributes : Reads K .trailing n Read.skipCallAttributes :=
  h.repeated repeats_skipCallAttributes plain_nil

/-! ### Types and values -/

theorem items_succ (hclose : looksPast (.mark close) = false) (hitem : Twins K .final n item item')
    (hnext : Twins K .final (n - 1) (listUntil.items close item fuel)
      (listUntil.items close item' fuel')) :
    Twins K .final n (listUntil.items close item (fuel + 1))
      (listUntil.items close item' (fuel' + 1)) :=
  h.bind hitem.inner fun _ => h.eat_final (by simp) hclose (h.done _)
    (h.taking rfl h.expectMark fun _ => h.ending hnext fun _ => h.done _)

theorem items (hclose : looksPast (.mark close) = false)
    (hitem : Twins K .final n item item') (hn : n ≤ fuel) (hle : fuel ≤ fuel') :
    Twins K .final n (listUntil.items close item fuel) (listUntil.items close item' fuel') := by
  induction fuel generalizing n fuel' with
  | zero =>
    rw [Nat.le_zero.mp hn]
    exact .stalled
  | succ fuel ih =>
    obtain ⟨fuel', rfl⟩ := exists_eq_succ hle
    exact h.items_succ hclose hitem (ih (hitem.below (Nat.sub_le n 1)) (Nat.sub_le_of_le_add hn)
      (Nat.le_of_succ_le_succ hle))

theorem listUntil (hclose : looksPast (.mark close) = false) (hitem : Twins K .final n item item') :
    Twins K .final n (Read.listUntil close item) (Read.listUntil close item') :=
  h.counting (fun k => listUntil.items close item (k + 1))
    (fun k => listUntil.items close item' (k + 1)) fun _ _ _ hj hn hle =>
    h.items hclose (hitem.below hn) hj (Nat.succ_le_succ hle)

theorem pointers_loop : Loop K .trailing Read.pointers where
  zero _ := rfl
  succ n fuel fuel' hnext t := by
    rw [Read.pointers, Read.pointers, atWord_and_peekAt, atWord_and_peekAt]
    refine h.looking_trailing (by simp +contextual [looksPast, pastWords]) rfl (h.take_pair (by simp) ?_)
      (h.eat_trailing (by simp) rfl (hnext (.ptr t)) (h.done t))
    exact h.ending h.skipGroup fun _ => (hnext t).below (Nat.sub_le _ _)

theorem pointersAfter {t : Ty} : Reads K .trailing n (Read.pointersAfter t) :=
  h.counted h.pointers_loop t

theorem arrayLength : Reads K .inner n Read.arrayLength := by
  refine h.bind (h.bind h.peek fun _ => h.bind h.advance fun _ => h.pure _) fun t => ?_
  cases t with
  | int n => exact .ite (h.pure _) h.unexpected
  | _ => exact h.unexpected

theorem literalAfter {fields : List Ty} {isPacked : Bool} :
    Reads K .trailing n (do Read.pointersAfter (← Read.literalStruct fields isPacked)) :=
  h.bind h.literal fun _ => h.pointersAfter

/-- The braces of a struct type, and the types in them, take two levels of nesting. -/
theorem types (hle : fuel ≤ fuel') :
    (∀ n, 2 * n ≤ fuel → Twins K .final n (typeWithin fuel) (typeWithin fuel')) ∧
    ∀ n, 2 * n ≤ fuel + 1 → Twins K .final n (fieldsWithin fuel) (fieldsWithin fuel') := by
  induction fuel generalizing fuel' with
  | zero =>
    constructor
    · intro n hn
      rw [show n = 0 by omega]
      exact .stalled
    · intro n hn
      rw [show n = 0 by omega]
      exact .stalled
  | succ fuel ih =>
    obtain ⟨fuel', rfl⟩ := exists_eq_succ hle
    obtain ⟨htype, hfields⟩ := ih (Nat.le_of_succ_le_succ hle)
    refine ⟨fun n hn => ?_, fun n hn => ?_⟩
    · rw [typeWithin, typeWithin]
      refine h.peeking rfl fun t _ => ?_
      split
      · split
        · exact h.take_final (by simp) rfl h.pointersAfter
        · exact h.take_final (by simp) rfl h.pointersAfter
        · exact h.take_final (by simp) rfl h.pointersAfter
        · exact h.take_final (by simp) rfl h.pointersAfter
        next w _ _ _ _ _ =>
          cases hbits : widthOf? w with
          | none => exact h.unexpected
          | some bits =>
            simp only
            split
            · exact h.take_final (by simp) (looksPast_of_widthOf? hbits) h.pointersAfter
            · exact h.fail (by simp)
      · exact h.take_final (by simp) rfl h.pointersAfter
      · exact h.taking rfl (h.advance_moving (by simp)) fun _ => h.bind h.arrayLength fun _ =>
          h.bind h.expectWord.inner fun _ => h.bind (htype _ (by omega)).inner fun _ =>
          h.ending (h.closing rfl) fun _ => h.pointersAfter
      · exact h.ending (hfields n (by omega)).atTok fun _ => h.literalAfter
      · refine (h.peekAt fun _ => .ite (h.take_pair (by simp) ?_) h.unexpected).final
        exact h.bind (hfields _ (by omega)).inner fun _ =>
          h.ending (h.closing rfl) fun _ => h.literalAfter
      · exact h.unexpected
    · exact h.taking rfl h.expectMark fun _ =>
        h.eat_final (by simp) rfl (h.done _) (h.listUntil rfl (htype _ (by omega)))

theorem type : Reads K .final n Read.type :=
  h.counting (fun k => typeWithin (2 * k + 2)) (fun k => typeWithin (2 * k + 2))
    fun _ _ _ hj _ hle => (h.types (by omega)).1 _ (by omega)

theorem fields : Reads K .final n Read.fields :=
  h.counting (fun k => fieldsWithin (2 * k + 2)) (fun k => fieldsWithin (2 * k + 2))
    fun _ _ _ hj _ hle => (h.types (by omega)).2 _ (by omega)

/-- With fuel for what it reads, each of the three readers of values can end an instruction. -/
theorem values (hle : fuel ≤ fuel') :
    (∀ n t, 3 * n ≤ fuel + 2 → Twins K .final n (valueWithin fuel t) (valueWithin fuel' t)) ∧
    (∀ n close, looksPast (.mark close) = false → 3 * n ≤ fuel + 1 →
      Twins K .final n (itemsWithin fuel close) (itemsWithin fuel' close)) ∧
    ∀ n, 3 * n ≤ fuel + 2 → Twins K .final n (typedWithin fuel) (typedWithin fuel') := by
  induction fuel generalizing fuel' with
  | zero =>
    refine ⟨fun n t hn => ?_, fun n close hclose hn => ?_, fun n hn => ?_⟩
    · rw [show n = 0 by omega]
      exact .stalled
    · rw [show n = 0 by omega]
      exact .stalled
    · rw [show n = 0 by omega]
      exact .stalled
  | succ fuel ih =>
    obtain ⟨fuel', rfl⟩ := exists_eq_succ hle
    obtain ⟨hvalue, hitems, htyped⟩ := ih (Nat.le_of_succ_le_succ hle)
    refine ⟨fun n ty hn => ?_, fun n close hclose hn => ?_, fun n hn => ?_⟩
    · rw [valueWithin, valueWithin]
      refine h.peeking rfl fun t _ => ?_
      cases hsimple : simpleValue? ty t with
      | some v =>
        refine h.take_final ?_ (looksPast_of_simpleValue? hsimple) (h.done _)
        rintro rfl
        cases hsimple
      | none =>
        simp only
        split
        · exact .ite (h.fail (by simp)) h.unexpected
        · exact h.taking rfl (h.advance_moving (by simp)) fun _ =>
            h.ending (hitems _ _ rfl (by omega)) fun _ => h.done _
        · exact h.taking rfl (h.advance_moving (by simp)) fun _ =>
            h.ending (hitems _ _ rfl (by omega)) fun _ => h.done _
        · refine (h.peekAt fun _ => .ite ?_ h.unexpected).final
          rw [advanceBy_two_bind, advanceBy_two_bind]
          refine h.take_pair (by simp) (h.bind h.advance fun _ => ?_)
          exact h.bind (hitems _ _ rfl (by omega)).inner fun _ =>
            h.ending (h.closing rfl) fun _ => h.done _
        · exact h.unexpected
    · exact h.eat_final (by simp) hclose (h.done _) (h.listUntil hclose (htyped n (by omega)))
    · exact h.taking rfl h.type.moving fun t => h.bind h.skipValueAttributes fun _ =>
        h.ending (hvalue _ t (by omega)) fun _ => h.done _

theorem value {t : Ty} : Reads K .final n (Read.value t) :=
  h.counting (fun k => valueWithin (3 * k + 3) t) (fun k => valueWithin (3 * k + 3) t)
    fun _ _ _ hj _ hle => (h.values (by omega)).1 _ t (by omega)

theorem typedValue : Reads K .final n Read.typedValue :=
  h.counting (fun k => typedWithin (3 * k + 3)) (fun k => typedWithin (3 * k + 3))
    fun _ _ _ hj _ hle => (h.values (by omega)).2.2 _ (by omega)

/-! ### Instructions -/

theorem labelRef : Reads K .final n Read.labelRef := h.taking rfl h.expectWord fun _ => h.localValue

theorem named {opcode : String} : Reads K .trailing n (Read.named dest opcode) := by
  cases dest with
  | some name => exact h.done _
  | none => exact h.fail (by simp)

theorem operandPair : Reads K .final n Read.operandPair :=
  h.bind h.typedValue.inner fun _ => h.taking rfl h.expectMark fun _ =>
    h.ending h.value fun _ => h.done _

theorem addressed {flaw : Ty → ReadFlaw} (hflaw : ∀ t, flaw t ≠ .stalled) :
    Reads K .final n (Read.addressed flaw) := by
  refine h.bind h.type.inner fun first => h.bind h.eat fun _ => .ite ?_ ?_
  · exact h.ending h.typedValue fun _ => h.done _
  · refine h.ending h.value fun _ => ?_
    cases first.typedPointee? with
    | some t => exact h.done _
    | none => exact h.fail (hflaw _)

theorem indices_loop : Loop K .trailing fun fuel (_ : Unit) => Read.indices fuel where
  zero _ := rfl
  succ n fuel fuel' hnext _ := by
    simp only [Read.indices]
    rw [atMark_and_peekAt, atMark_and_peekAt]
    refine h.looking_trailing (by simp +contextual [looksPast]) rfl (h.take_pair (by simp) ?_)
      (h.done _)
    exact h.ending h.typedValue fun _ =>
      h.bind ((hnext ()).below (Nat.sub_le _ _)) fun _ => h.done _

theorem elementPtr : Reads K .final n (Read.elementPtr dest) := by
  refine h.bind h.wordsIn fun _ => h.ending (h.addressed (by simp)) fun base => ?_
  obtain ⟨source, base⟩ := base
  simp only
  rw [get_bind_bind]
  refine h.bind (h.counted h.indices_loop ()) fun path => h.state fun r ts => ?_
  rw [Reader.module_withRest]
  cases indexedType r.module.structs source path with
  | none => exact h.fail (by simp)
  | some element => exact h.bind h.named fun _ => h.done _

theorem incoming_loop (t : Ty) : Loop K .final fun fuel (_ : Unit) => Read.incoming t fuel where
  zero _ := rfl
  succ n fuel fuel' hnext _ := by
    refine h.taking rfl h.expectMark fun _ => h.bind h.value.inner fun _ =>
      h.bind h.expectMark.inner fun _ => h.bind h.localValue.inner fun _ =>
      h.ending (h.closing rfl) fun _ => ?_
    rw [atMark_and_peekAt, atMark_and_peekAt]
    refine h.looking_trailing (by simp +contextual [looksPast]) rfl (h.take_pair (by simp) ?_)
      (h.done _)
    exact h.ending ((hnext ()).below (by omega)) fun _ => h.done _

theorem callArguments : Reads K .final n Read.callArguments := h.taking rfl h.expectMark fun _ =>
    h.eat_final (by simp) rfl (h.done _) (h.listUntil rfl h.typedValue)

theorem call : Reads K .final n (Read.call dest) := by
  refine h.bind h.skipFlags fun _ => h.bind h.wordsIn fun _ => h.bind h.skipValueAttributes fun _ =>
    h.bind h.type.inner fun _ => h.bind h.atMark fun _ => h.when h.skipGroup.inner ?_
  refine h.bind h.peek fun t => ?_
  cases t
  case value name => exact h.failing (h.fail (by simp)) not_gives_fail
  all_goals
    refine h.taking rfl h.globalName fun _ => .ite ?_ ?_
    · exact h.ending h.skipGroup fun _ => h.bind h.skipCallAttributes fun _ => h.done _
    · exact h.ending h.callArguments fun _ => h.bind h.skipCallAttributes fun _ =>
        .ite (h.failing (h.fail (by simp)) not_gives_fail) (h.done _)

theorem caseValue : Reads K .inner n Read.caseValue := by
  refine h.bind h.typedValue.inner fun v => ?_
  split
  · exact h.pure _
  · exact h.pure _
  · exact h.fail (by simp)

theorem switchCases_loop : Loop K .final fun fuel (_ : Unit) => Read.switchCases fuel where
  zero _ := rfl
  succ n fuel fuel' hnext _ := h.eat_final (by simp) rfl (h.done _) (h.bind h.caseValue fun _ =>
    h.taking rfl h.expectMark fun _ => h.bind h.labelRef.inner fun _ =>
    h.ending (hnext ()) fun _ => h.done _)

/-- A terminator, and what is done with it. -/
theorem terminator {k l : Option Terminator → Read α}
    (hsome : ∀ n t, Twins K .trailing n (k (some t)) (l (some t)))
    (hnone : Twins K .final n (k none) (l none)) :
    Twins K .final n (terminator? >>= k) (terminator? >>= l) := by
  simp only [terminator?, bind_assoc, pure_bind, ite_bind]
  refine h.eat_final (by simp) rfl ?ret ?_
  case ret =>
    exact h.eat_trailing (by simp) rfl (hsome _ _)
      (h.ending h.typedValue fun _ => hsome _ _).trailing
  refine h.eat_final (by simp) rfl ?br ?_
  case br =>
    refine Built.trailing (h.bind h.atWord fun _ => .ite ?_ ?_)
    · exact h.ending h.labelRef fun _ => hsome _ _
    · exact h.bind h.typedValue.inner fun _ => h.taking rfl h.expectMark fun _ =>
        h.bind h.labelRef.inner fun _ => h.taking rfl h.expectMark fun _ =>
        h.ending h.labelRef fun _ => hsome _ _
  refine h.eat_final (by simp) rfl ?switch ?_
  case switch =>
    refine Built.trailing (h.bind h.typedValue.inner fun _ => h.taking rfl h.expectMark fun _ =>
      h.bind h.labelRef.inner fun _ => h.taking rfl h.expectMark fun _ => ?_)
    rw [get_bind_bind, get_bind_bind]
    exact h.ending (h.counted h.switchCases_loop ()) fun _ => hsome _ _
  exact h.eat_final (by simp) rfl (hsome _ _) hnone

theorem operation {opcode : String} {start : Place} (hstart : Good start) (start' : Place) :
    Twins K .final n (Read.operation dest opcode start) (Read.operation dest opcode start') := by
  have hnamed {β : Type} {n : Nat} (opcode : String) (f : String → β) :
      Reads K .trailing n (return f (← Read.named dest opcode)) :=
    h.bind h.named fun _ => h.done _
  unfold Read.operation
  split
  · exact h.bind h.skipFlags fun _ => h.ending h.operandPair fun _ => hnamed _ _
  split
  · exact h.bind h.skipFlags fun _ => h.bind h.typedValue.inner fun _ =>
      h.taking rfl h.expectWord fun _ => h.ending h.type fun _ => hnamed _ _
  split
  case h_1 => exact h.bind h.skipFlags fun _ => h.ending h.typedValue fun _ => hnamed _ _
  case h_2 =>
    refine h.bind h.skipFlags fun _ => h.taking rfl h.word fun w => ?_
    split
    · exact h.fail (by simp)
    · exact h.ending h.operandPair fun _ => hnamed _ _
  case h_3 =>
    refine h.bind h.skipFlags fun _ => h.taking rfl h.word fun w => ?_
    split
    · exact h.fail (by simp)
    · exact h.ending h.operandPair fun _ => hnamed _ _
  case h_4 => exact h.ending h.type fun _ => hnamed _ _
  case h_5 =>
    exact h.bind h.eat fun _ => h.ending (h.addressed (by simp)) fun _ => hnamed _ _
  case h_6 =>
    exact h.bind h.eat fun _ => h.bind h.typedValue.inner fun _ =>
      h.taking rfl h.expectMark fun _ => h.ending h.typedValue fun _ => h.done _
  case h_7 => exact h.ending h.elementPtr fun _ => h.done _
  case h_8 => exact h.call
  case h_9 =>
    exact h.bind h.skipFlags fun _ => h.bind h.typedValue.inner fun _ =>
      h.taking rfl h.expectMark fun _ => h.bind h.typedValue.inner fun _ =>
      h.taking rfl h.expectMark fun _ => h.ending h.typedValue fun _ => hnamed _ _
  case h_10 =>
    refine h.bind h.skipFlags fun _ => h.bind h.type.inner fun t => ?_
    rw [get_bind_bind]
    exact h.ending (h.counted (h.incoming_loop t) ()) fun _ => hnamed _ _
  case h_11 => exact ⟨frames_failAt, fun _ _ _ => h.failAt hstart (by simp)⟩

theorem instruction : Reads K .final n Read.instruction := by
  have hdest : Reads K .inner n destination? := by
    refine h.bind h.peek fun t => ?_
    cases t with
    | value name => exact h.bind h.advance fun _ => h.bind h.expectMark.inner fun _ => h.pure _
    | _ => exact h.pure _
  refine h.bind hdest fun dest => h.bind h.eatWordIn fun _ => ?_
  refine h.place (f := fun start => do Read.operation dest (← Read.word) start) (fun q q' => ?_)
    fun q hq => h.taking rfl h.word fun _ => h.operation hq q
  exact (hereditary_true.taking (n := 0) rfl hereditary_true.word
    fun _ => hereditary_true.operation trivial q').frames

theorem blockItem {block : BasicBlock} : Reads K .final n (Read.blockItem block) := by
  refine .ite (h.failing (h.fail (by simp)) not_gives_fail) (h.terminator (fun _ _ => h.done _) ?_)
  refine h.ending h.instruction fun i => ?_
  cases i with
  | some i => exact h.done _
  | none => exact h.done _

theorem bodyFrom_loop : Loop K .inner Read.bodyFrom where
  zero _ := rfl
  succ n fuel fuel' hnext body := by
    rw [Read.bodyFrom, Read.bodyFrom]
    refine h.peeking rfl fun t _ => ?_
    split
    · exact h.take (by simp) (h.pure _)
    · exact h.unexpected
    · exact h.take (by simp) (hnext _)
    · exact h.taking rfl (h.skipLine (by simp)) fun _ => hnext _
    · exact h.taking rfl h.blockItem.moving.atTok fun _ => h.bind h.skipTrailers fun _ => hnext _

theorem body {implicitEntry : String} : Reads K .inner n (Read.body implicitEntry) := by
  refine h.taking rfl h.expectMark fun _ => ?_
  rw [get_bind_bind]
  refine h.bind (h.counted h.bodyFrom_loop _) fun _ => ?_
  exact .ite (h.failing (h.fail (by simp)) not_gives_fail) (.ite (h.pure _) (h.pure _))

/-! ### Entities -/

theorem targetProperty : Reads K .moving n Read.targetProperty := by
  refine h.moving h.expectWord fun _ => h.taking rfl h.word fun which =>
    h.taking rfl h.expectMark fun _ => h.taking rfl h.string fun text => ?_
  split
  · exact h.update (fun _ => rfl) fun _ => rfl
  · exact h.update (fun _ => rfl) fun _ => rfl
  · exact h.fail (by simp)

theorem skipAttributeGroup : Reads K .moving n Read.skipAttributeGroup :=
  h.moving h.skipThrough fun _ => h.skipThrough.inner

theorem structDefinition
    (hdefine : ∀ d, (d.isOpaque = true → d.fields = []) → ∀ ⦃r⦄, K _ r (defineStruct d)) :
    Reads K .moving n Read.structDefinition := by
  have hdefined {n : Nat} (d : StructDef) (hd : d.isOpaque = true → d.fields = []) :
      Reads K .inner n (defineStruct d) :=
    ⟨inner_defineStruct d, fun r _ _ => @hdefine d hd r⟩
  refine h.moving h.localValue.moving fun _ => h.taking rfl h.expectMark fun _ =>
    h.taking rfl h.expectWord fun _ => h.bind h.eat fun _ => .ite (hdefined _ fun _ => rfl) ?_
  exact h.bind h.eat fun _ => h.bind h.fields.inner fun _ =>
    h.when h.expectMark.inner (hdefined _ (by simp))

theorem linkageWords_loop : Loop K .inner fun fuel (words : Linkage × Bool) =>
    linkageWords fuel words.1 words.2 where
  zero _ := rfl
  succ n fuel fuel' hnext words := by
    simp only [linkageWords]
    refine h.eatWordIn_steps _ (hnext (_, true)) (h.eatWordIn_steps _ (hnext (.internal, _)) ?_)
    rw [atWordIn_and_peekAt, atWordIn_and_peekAt]
    refine h.looking (fun t ht => ?_)
      (h.take (by simp [isWordIn]) (h.bind h.skipGroup.inner fun _ => hnext words))
      (h.eatWordIn_steps _ (hnext words) (h.pure _))
    cases t with
    | word w =>
      have hw : w = "addrspace" ∨ w = "thread_local" := by simpa [isWordIn] using ht
      rcases hw with rfl | rfl
      · rfl
      · rfl
    | _ => cases ht

theorem linkage : Reads K .inner n Read.linkage := h.counted h.linkageWords_loop (.external, false)

theorem global : Reads K .moving n Read.global := by
  refine h.moving h.globalName fun _ => h.taking rfl h.expectMark fun _ => h.bind h.linkage fun _ =>
    h.bind h.eat fun _ => h.when h.expectWord.inner (h.bind h.type.inner fun t => ?_)
  have hadd {n : Nat} (g : Global) : Reads K .inner n
      (do Read.skipTrailers; updateModule fun m => { m with globals := m.globals ++ [g] }) :=
    h.bind h.skipTrailers fun _ => h.update (fun _ => rfl) fun _ => rfl
  refine .ite (h.bind (h.pure _) fun _ => hadd _) (h.bind ?_ fun _ => hadd _)
  rw [map_eq_pure_bind]
  exact h.bind h.value.inner fun _ => h.pure _

theorem paramsFrom_loop (isDefinition : Bool) : Loop K .inner (paramsFrom isDefinition) where
  zero _ := rfl
  succ n fuel fuel' hnext index := by
    have htype {n : Nat} : Reads K .inner n (paramType isDefinition) :=
      .ite (h.bind h.eat fun _ => .ite (h.pure _) h.type.inner) h.type.inner
    have hname {n : Nat} : Reads K .inner n (paramName isDefinition index) := by
      refine h.bind h.peek fun t => ?_
      split
      · exact h.bind h.advance fun _ => h.pure _
      · exact .ite h.unexpected (h.pure _)
    refine h.bind h.eat fun _ => .ite (h.bind h.expectMark.inner fun _ => h.pure _) ?_
    exact h.bind htype fun _ => h.bind h.skipValueAttributes fun _ => h.bind hname fun _ =>
      h.bind h.eat fun _ => .ite (h.pure _) (h.taking rfl h.expectMark fun _ =>
        h.bind (hnext _) fun _ => h.pure _)

theorem functionAttribute_steps : Steps K .inner Read.functionAttribute := by
  intro n β f f' htrue hfalse
  simp only [Read.functionAttribute, bind_assoc, ite_bind, pure_bind]
  refine h.bind h.atLineStart fun _ => .ite hfalse (h.peeking rfl fun t _ => ?_)
  split
  case h_9 => exact h.failing h.unexpected not_gives_unexpected
  all_goals simp only [bind_assoc, pure_bind, ite_bind]
  · exact hfalse.atTok
  · exact hfalse.atTok
  · exact h.take (by simp) (h.bind h.type.inner fun _ => h.bind h.advance fun _ => htrue)
  · exact h.take (by simp) (h.bind h.atMark fun _ => h.when h.skipGroup.inner htrue)
  · rw [advanceBy_two_bind, advanceBy_two_bind]
    exact h.take (by simp) (h.bind h.advance fun _ => htrue)
  · rw [advanceBy_two_bind, advanceBy_two_bind]
    exact h.take (by simp) (h.bind h.advance fun _ => htrue)
  · exact h.take (by simp) htrue
  · exact h.take (by simp) htrue

theorem signature {linkage : Linkage} : Reads K .inner n (Read.signature linkage isDefinition) :=
  h.bind h.skipValueAttributes fun _ => h.bind h.type.inner fun _ => h.taking rfl h.globalName
    fun _ => h.bind (h.taking rfl h.expectMark fun _ => h.bind h.eat fun _ =>
      .ite (h.pure _) (h.counted (h.paramsFrom_loop isDefinition) 0)) fun _ =>
    h.bind (h.repeatWhile h.functionAttribute_steps trivial) fun _ => h.pure _

section

variable (hdefine : ∀ name, H (.value name) → ∀ d, (d.isOpaque = true → d.fields = []) →
    ∀ ⦃r⦄, K _ r (defineStruct d))
  (hadd : H (.word "declare") ∨ H (.word "define") → ∀ f ⦃r⦄, K _ r (addFunction f))
include hdefine hadd

/-- An entity, where the next token may be known. -/
theorem entity_bind {β : Type} {f f' : Bool → Read β}
    (htrue : Twins K .inner n (f true) (f' true))
    (hfalse : Twins K .inner (n + 1) (f false) (f' false)) :
    Built K H .inner (n + 1) (Read.entity >>= f) (Read.entity >>= f') := by
  have hadded (hH : H (.word "declare") ∨ H (.word "define")) (d : Function) :
      Twins K .inner n (addFunction d >>= fun _ => f true) (addFunction d >>= fun _ => f' true) :=
    h.bind ⟨frames_updateModule trivial, fun r _ _ => @hadd hH d r⟩ fun _ => htrue
  simp only [Read.entity, bind_assoc]
  refine h.peeking rfl fun t ht => ?_
  split
  case h_11 => exact h.failing h.unexpected not_gives_unexpected
  all_goals simp only [Read.declaration, Read.definition, bind_assoc, pure_bind, ite_bind]
  · exact hfalse.atTok
  · exact h.taking rfl h.targetProperty.atTok fun _ => htrue
  · exact h.take (by simp) (h.bind h.expectMark.inner fun _ => h.bind h.string.inner fun _ => htrue)
  · exact h.taking rfl h.skipAttributeGroup.atTok fun _ => htrue
  · exact h.take (by simp) (h.bind h.linkage fun _ => h.bind h.signature fun _ =>
      .ite (hadded (.inl ht) _) htrue)
  · exact h.take (by simp) (h.bind h.linkage fun _ => h.bind h.signature fun _ =>
      h.bind h.body fun _ => hadded (.inr ht) _)
  · exact .ite (h.taking rfl (h.skipLine (by simp)) fun _ => htrue)
      (h.failing h.unexpected not_gives_unexpected)
  · exact h.taking rfl (h.skipLine (by simp)) fun _ => htrue
  · exact h.taking rfl (h.structDefinition (hdefine _ ht)).atTok fun _ => htrue
  · exact h.taking rfl h.global.atTok fun _ => htrue

theorem entity : Built K H .inner (n + 1) Read.entity Read.entity := by
  have hentity := h.entity_bind (n := n) (f := Pure.pure) hdefine hadd (h.pure true) (h.pure false)
  rwa [bind_pure] at hentity

end

theorem entity_steps
    (hdefine : ∀ d, (d.isOpaque = true → d.fields = []) → ∀ ⦃r⦄, K _ r (defineStruct d))
    (hadd : ∀ f ⦃r⦄, K _ r (addFunction f)) : Steps K .inner Read.entity :=
  fun _ _ _ _ => h.entity_bind (fun _ _ => hdefine) fun _ => hadd

end Hereditary

end Offload.Compiled
