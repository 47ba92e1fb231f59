import Offload.Proofs.Compiled.FrameStep

/-!
# Properties along a reading

Readers are built from few steps: looking at the state, taking tokens, failing at a place, adding an
anonymous struct type where it is used, and changes to the module that touch neither struct types
nor functions. A property of readers that these steps have, and that passes from the parts of a
reader to the whole, therefore holds of every reader of a type, a value, an instruction or a body.

Loops and nested readers count down from the number of tokens left. Every round of a loop that goes
on, and every level of nesting, has taken a token, so none of them gets to the end of its count.
How many tokens a reader takes is told by its frames, so these come with the property.
-/

namespace Offload.Compiled

open Read

/-- What may hold of a reader at a state. -/
abbrev ReadProp := (α : Type) → Reader → Read α → Prop

/-- A property `K` of readers at a state, which every reader has if its steps have it. A reader may
fail at any place that is `Good`, such as that of the next token, but not for lack of progress. -/
structure Hereditary (Good : Place → Prop) (K : ReadProp) : Prop where
  pureAt : ∀ {α : Type} (a : α) {r : Reader}, K α r (Pure.pure a)
  bindAt : ∀ {α β : Type} {p : Read α} {f : α → Read β} {r : Reader}, K α r p →
    (∀ a r', Gives p r a r' → K β r' (f a)) → K β r (p >>= f)
  getAt : ∀ {r : Reader}, K Reader r MonadState.get
  placeAt : ∀ {α : Type} {p : Read α} {r : Reader}, (Good r.place → K α r p) → K α r p
  failAt : ∀ {α : Type} {q : Place} {flaw : ReadFlaw} {r : Reader}, Good q → flaw ≠ .stalled →
    K α r (Read.failAt q flaw)
  takeAt : ∀ n {r : Reader}, K Unit r (Read.advanceBy n)
  literalAt : ∀ fields isPacked {r : Reader}, K Ty r (Read.literalStruct fields isPacked)
  updateAt : ∀ {f : Module → Module} {r : Reader}, (∀ m, (f m).structs = m.structs) →
    (∀ m, (f m).functions = m.functions) → K Unit r (Read.updateModule f)

/-- For where only the frames of readers matter. -/
theorem hereditary_true : Hereditary (fun _ => True) fun _ _ _ => True := by
  constructor <;> intros <;> trivial

/-! ### Grades -/

/-- Readers by what they take and what they can tell of the tokens behind. -/
inductive Grade where
  /-- With more to come behind it. -/
  | inner
  /-- The same, and at least a token is taken. -/
  | moving
  /-- For what may or may not follow at the end of an instruction. -/
  | trailing
  /-- Able to end an instruction. -/
  | final
  /-- The same, and at least two tokens are taken. -/
  | pair

namespace Grade

def Takes : Grade → List Token → Prop
  | inner => fun _ => True
  | moving => (· ≠ [])
  | trailing => Plain
  | final => Solid
  | pair => (2 ≤ ·.length)

def Sees : Grade → List Token → List Token → Prop
  | inner | moving => SameView
  | _ => EndView

/-- What a reader of the grade can stand behind. -/
def before : Grade → Grade
  | trailing => trailing
  | _ => inner

variable {g : Grade} {pre pre' ahead other : List Token}

theorem sees_append (hpre : g.Takes pre) (h : g.Sees ahead other) :
    g.before.Sees (pre ++ ahead) (pre ++ other) := by
  cases g with
  | inner | moving => exact SameView.append h pre
  | trailing => exact EndView.append h hpre
  | final => exact EndView.sameView h hpre
  | pair => exact EndView.sameView h (solid_of_two_le hpre)

theorem takes_append (hpre : g.before.Takes pre) (hpre' : g.Takes pre') :
    g.Takes (pre ++ pre') := by
  cases g with
  | inner => trivial
  | moving => exact List.append_ne_nil_of_right_ne_nil _ hpre'
  | trailing => exact Plain.append hpre hpre'
  | final => exact Solid.append_left hpre' pre
  | pair => exact le_trans hpre' (by simp)

theorem length_le_of_sees (h : g.Sees ahead other) : ahead.length ≤ other.length := by
  cases g with
  | inner | moving => exact h.2
  | _ => exact EndView.length_le h

end Grade

/-! ### Readers in step with each other -/

section

variable {K : ReadProp} {H : Tok → Prop} {g : Grade} {n m : Nat} {α ι : Type} {p q : Read α}
  {r r' : Reader} {a : α}

/-- The two readers are the same but for fuel, and take tokens as the grade says. At a token in `H`,
with fewer than `n` tokens left, the first has the property. -/
structure Built (K : ReadProp) (H : Tok → Prop) (g : Grade) (n : Nat) (p q : Read α) : Prop where
  frames : Frames H g.Takes g.Sees p q
  holds : ∀ ⦃r⦄, H r.peek → r.rest.length < n → K α r p

/-- At any token. -/
abbrev Twins (K : ReadProp) (g : Grade) (n : Nat) (p q : Read α) : Prop :=
  Built K (fun _ => True) g n p q

abbrev Reads (K : ReadProp) (g : Grade) (n : Nat) (p : Read α) : Prop := Twins K g n p p

/-- A loop in which each round that goes on has taken a token. -/
structure Loop (K : ReadProp) (g : Grade) (loop : Nat → ι → Read α) : Prop where
  zero : ∀ i, loop 0 i = fail .stalled
  succ : ∀ ⦃n fuel fuel'⦄, (∀ i, Twins K g n (loop fuel i) (loop fuel' i)) →
    ∀ i, Twins K g (n + 1) (loop (fuel + 1) i) (loop (fuel' + 1) i)

/-- A step that has taken a token if it is to be repeated. -/
def Steps (K : ReadProp) (g : Grade) (step : Read Bool) : Prop :=
  ∀ ⦃n⦄ {β : Type} {f f' : Bool → Read β}, Twins K g n (f true) (f' true) →
    Twins K g (n + 1) (f false) (f' false) → Twins K g (n + 1) (step >>= f) (step >>= f')

theorem Reader.length_advance_lt (h : r.peek ≠ .eof) : r.advance.rest.length < r.rest.length := by
  obtain ⟨t, rest, hrest, -⟩ := r.exists_cons_of_peek h
  rw [rest_advance, hrest]
  exact Nat.lt_succ_self _

theorem Frames.length_le {P : List Token → Prop} {Q : List Token → List Token → Prop}
    (h : Frames H P Q p q) (hr : H r.peek) (hgives : Gives p r a r') :
    r'.rest.length ≤ r.rest.length := by
  obtain ⟨pre, -, htaken⟩ := h hr hgives
  rw [htaken.rest_eq, List.length_append]
  exact Nat.le_add_left _ _

namespace Built

theorem length_lt (h : Built K H .moving n p q) (hr : H r.peek) (hgives : Gives p r a r') :
    r'.rest.length < r.rest.length := by
  obtain ⟨pre, hpre, htaken⟩ := h.frames hr hgives
  rw [htaken.rest_eq, List.length_append]
  exact Nat.lt_add_of_pos_left (List.length_pos_iff.mpr hpre)

/-- A reader that is seen to take a token whenever it succeeds. -/
theorem takes (h : Built K H .inner n p q)
    (hlt : ∀ {r a r'}, Gives p r a r' → r'.rest.length < r.rest.length) :
    Built K H .moving n p q := by
  refine ⟨fun r a r' hr hgives => ?_, h.holds⟩
  obtain ⟨pre, -, htaken⟩ := h.frames hr hgives
  refine ⟨pre, ?_, htaken⟩
  rintro rfl
  exact absurd (congrArg List.length htaken.rest_eq) (hlt hgives).ne'

theorem below (h : Built K H g n p q) (hle : m ≤ n) : Built K H g m p q :=
  ⟨h.frames, fun _ hr hlt => h.holds hr (hlt.trans_le hle)⟩

theorem atTok (h : Twins K g n p q) : Built K H g n p q :=
  ⟨h.frames.atTok, fun _ _ hlt => h.holds trivial hlt⟩

theorem inner (h : Built K H g n p q) : Built K H .inner n p q := by
  refine ⟨h.frames.mono (fun _ h => h) (fun _ _ => trivial) fun ahead other hsame => ?_, h.holds⟩
  cases g with
  | inner | moving => exact hsame
  | _ => exact .inl hsame

theorem trailing (h : Built K H .final n p q) : Built K H .trailing n p q :=
  ⟨h.frames.mono (fun _ h => h) (fun _ h => h.2) fun _ _ h => h, h.holds⟩

theorem moving (h : Built K H .final n p q) : Built K H .moving n p q :=
  ⟨h.frames.mono (fun _ h => h) (fun _ h => h.1) fun _ _ => .inl, h.holds⟩

theorem final (h : Built K H .pair n p q) : Built K H .final n p q :=
  ⟨h.frames.mono (fun _ h => h) (fun _ => solid_of_two_le) fun _ _ h => h, h.holds⟩

theorem stalled : Built K H g 0 (fail .stalled) q :=
  ⟨frames_fail, fun _ _ hlt => absurd hlt (Nat.not_lt_zero _)⟩

theorem ite {c : Prop} [Decidable c] {p' q' : Read α} (h : Built K H g n p q)
    (h' : Built K H g n p' q') : Built K H g n (if c then p else p') (if c then q else q') := by
  split_ifs
  · exact h
  · exact h'

end Built

/-- With as many rounds as tokens a loop does not get to the end of its count. -/
theorem Loop.reads {loop : Nat → ι → Read α} (h : Loop K g loop) {fuel fuel' : Nat}
    (hn : n ≤ fuel) (hle : fuel ≤ fuel') (i : ι) : Twins K g n (loop fuel i) (loop fuel' i) := by
  induction fuel generalizing n fuel' i with
  | zero =>
    rw [Nat.le_zero.mp hn, h.zero]
    exact .stalled
  | succ fuel ih =>
    obtain ⟨fuel', rfl⟩ := exists_eq_succ hle
    have hnext := h.succ (fun i => ih (Nat.pred_le_iff.mpr hn) (Nat.le_of_succ_le_succ hle) i) i
    exact hnext.below (Nat.le_succ_of_pred_le le_rfl)

end

namespace Hereditary

variable {Good : Place → Prop} {K : ReadProp} {H : Tok → Prop} {g : Grade} {n : Nat} {α β ι : Type}
  {p q : Read α} {f f' : α → Read β} {t : Tok} {k l : Read β} {v w : Tok → Bool}

variable (h : Hereditary Good K)

include h

/-! ### Composition -/

theorem bind (hp : Built K H g.before n p q) (hf : ∀ a, Twins K g n (f a) (f' a)) :
    Built K H g n (p >>= f) (q >>= f') where
  frames := hp.frames.bind (fun a => (hf a).frames) (fun _ _ _ => Grade.sees_append)
    fun _ _ => Grade.takes_append
  holds _ hr hn := h.bindAt (hp.holds hr hn) fun a _ hgives =>
    (hf a).holds trivial ((hp.frames.length_le hr hgives).trans_lt hn)

/-- Behind a part that takes a token, less is left. -/
theorem holds_taking (hp : Built K H .moving n p q) (hf : ∀ a, Twins K g (n - 1) (f a) (f' a))
    ⦃r : Reader⦄ (hr : H r.peek) (hn : r.rest.length < n) : K β r (p >>= f) :=
  h.bindAt (hp.holds hr hn) fun a _ hgives => (hf a).holds trivial (by
    have := hp.length_lt hr hgives
    omega)

theorem taking (hg : g.before = .inner) (hp : Built K H .moving n p q)
    (hf : ∀ a, Twins K g (n - 1) (f a) (f' a)) : Built K H g n (p >>= f) (q >>= f') where
  frames := (hg ▸ hp.inner).frames.bind (fun a => (hf a).frames) (fun _ _ _ => Grade.sees_append)
    fun _ _ => Grade.takes_append
  holds := h.holds_taking hp hf

theorem moving (hp : Built K H .moving n p q) (hf : ∀ a, Twins K .inner (n - 1) (f a) (f' a)) :
    Built K H .moving n (p >>= f) (q >>= f') where
  frames := hp.frames.bind (fun a => (hf a).frames) (fun pre _ _ _ h => SameView.append h pre)
    fun _ pre' hpre _ => List.append_ne_nil_of_left_ne_nil hpre pre'
  holds := h.holds_taking hp hf

/-- What may follow a part that can end an instruction. -/
theorem ending (hp : Built K H .final n p q) (hf : ∀ a, Twins K .trailing (n - 1) (f a) (f' a)) :
    Built K H .final n (p >>= f) (q >>= f') where
  frames := hp.frames.bind (fun a => (hf a).frames) (fun _ _ _ hpre h => EndView.append h hpre)
    fun _ _ => Solid.append_plain
  holds := h.holds_taking hp.moving hf

/-- A step that is sometimes left out. -/
theorem when {c : Prop} [Decidable c] {p q : Read Unit} {f f' : Unit → Read β}
    (hp : Twins K g.before n p q) (hf : Twins K g n (f ()) (f' ())) :
    Twins K g n (if c then p >>= f else f ()) (if c then q >>= f' else f' ()) :=
  .ite (h.bind hp fun _ => hf) hf

theorem still (hg : g.Takes []) (a : α) : Built K H g n (Pure.pure a) (Pure.pure a) :=
  ⟨frames_pure hg, fun _ _ _ => h.pureAt a⟩

theorem pure (a : α) : Built K H .inner n (Pure.pure a) (Pure.pure a) := h.still (g := .inner) trivial a

theorem done (a : α) : Built K H .trailing n (Pure.pure a) (Pure.pure a) := h.still (g := .trailing) plain_nil a

theorem failHere {flaw : ReadFlaw} {r : Reader} (hflaw : flaw ≠ .stalled) :
    K α r (Read.fail flaw) := by
  refine h.placeAt fun hq => h.bindAt h.getAt fun s m hgives => ?_
  obtain ⟨rfl, rfl⟩ := gives_get.mp hgives
  exact h.failAt hq hflaw

theorem fail {flaw : ReadFlaw} {q : Read α} (hflaw : flaw ≠ .stalled) :
    Built K H g n (Read.fail flaw) q := ⟨frames_fail, fun _ _ _ => h.failHere hflaw⟩

/-- Nothing comes behind a failure. -/
theorem failing {q : Read β} (hp : Built K H g n p p) (hnot : ∀ {r a r'}, ¬ Gives p r a r') :
    Built K H g n (p >>= f) q where
  frames := frames_of_not_gives fun r b r' hgives => by
    obtain ⟨a, m, hfirst, -⟩ := gives_bind.mp hgives
    exact hnot hfirst
  holds _ hr hn := h.bindAt (hp.holds hr hn) fun _ _ hgives => absurd hgives hnot

/-! ### Tokens -/

theorem peek : Reads K .inner n Read.peek :=
  ⟨inner_peek, fun _ _ _ => h.bindAt h.getAt fun _ _ _ => h.pureAt _⟩

theorem unexpectedHere {expected : Expected} {r : Reader} : K α r (Read.unexpected expected) :=
  h.bindAt (h.bindAt h.getAt fun _ _ _ => h.pureAt _) fun _ _ _ => h.failHere (by simp)

theorem unexpected {expected : Expected} {q : Read α} :
    Built K H g n (Read.unexpected expected) q :=
  ⟨frames_unexpected, fun _ _ _ => h.unexpectedHere⟩

/-- The next token, known in what follows. -/
theorem peeking {f f' : Tok → Read β} (hg : g.before = .inner)
    (hf : ∀ t, H t → Built K (· = t) g n (f t) (f' t)) :
    Built K H g n (Read.peek >>= f) (Read.peek >>= f') where
  frames := frames_peek_bind (fun t ht => (hf t ht).frames) fun _ _ _ hpre hsees => by
    have hsame := Grade.sees_append hpre hsees
    rw [hg] at hsame
    exact SameView.head?_eq hsame
  holds _ hr hn := h.bindAt (h.peek.holds trivial hn) fun _ _ hgives => by
    obtain ⟨rfl, rfl⟩ := gives_peek.mp hgives
    exact (hf _ hr).holds rfl hn

theorem advanceBy (m : Nat) : Reads K .inner n (Read.advanceBy m) :=
  ⟨inner_advanceBy m, fun _ _ _ => h.takeAt m⟩

theorem advance : Reads K .inner n Read.advance := h.advanceBy 1

theorem advance_moving (hH : ¬ H .eof) : Built K H .moving n Read.advance Read.advance where
  frames := (frames_advance fun _ ht heof => hH (heof ▸ ht)).mono (fun _ h => h)
    (by rintro _ ⟨u, rfl, -⟩; exact List.cons_ne_nil _ _) fun _ _ h => h
  holds _ _ _ := h.takeAt 1

theorem take (hH : ¬ H .eof) (hk : Twins K .inner (n - 1) k l) :
    Built K H .inner n (do Read.advance; k) (do Read.advance; l) :=
  h.taking rfl (h.advance_moving hH) fun _ => hk

/-- A token that is not looked past ends what it is taken for. -/
theorem take_final (ht : t ≠ .eof) (hpast : looksPast t = false)
    (hk : Twins K .trailing (n - 1) k l) :
    Built K (· = t) .final n (do Read.advance; k) (do Read.advance; l) where
  frames := final_take ht hpast hk.frames
  holds := h.holds_taking (h.advance_moving (H := (· = t)) ht.symm) fun _ => hk

/-- A token that is looked past has another one behind it. -/
theorem take_pair (hH : ¬ H .eof) (hk : Twins K .final (n - 1) k l) :
    Built K H .pair n (do Read.advance; k) (do Read.advance; l) where
  frames := frames_take (fun _ ht heof => hH (heof ▸ ht)) hk.frames
  holds := h.holds_taking (h.advance_moving hH) fun _ => hk

theorem atMark {c : Char} : Reads K .inner n (Read.atMark c) := h.bind h.peek fun _ => h.pure _

theorem atWord {w : String} : Reads K .inner n (Read.atWord w) := h.bind h.peek fun _ => h.pure _

theorem atLineStart : Reads K .inner n Read.atLineStart :=
  ⟨inner_atLineStart, fun _ _ _ => h.bindAt h.getAt fun _ _ _ => h.pureAt _⟩

/-! ### Tests -/

/-- A test that takes a token if it succeeds. -/
theorem holds_test {step : Read Bool} {f : Bool → Read β} {g' : Grade} {q q' : Read β}
    (hstep : Reads K .inner n step)
    (hlt : ∀ {r r'}, Gives step r true r' → r'.rest.length < r.rest.length)
    (htrue : Twins K g (n - 1) (f true) q) (hfalse : Twins K g' n (f false) q') ⦃r : Reader⦄
    (hn : r.rest.length < n) : K β r (step >>= f) := by
  refine h.bindAt (hstep.holds trivial hn) fun b m hgives => ?_
  cases b with
  | true =>
    have := hlt hgives
    exact htrue.holds trivial (by omega)
  | false => exact hfalse.holds trivial ((hstep.frames.length_le trivial hgives).trans_lt hn)

theorem eat : Reads K .inner n (Read.eat t) :=
  h.bind h.peek fun _ => .ite (h.bind h.advance fun _ => h.pure _) (h.pure _)

omit h in
theorem lt_eat (ht : t ≠ .eof) {r r' : Reader} (hgives : Gives (Read.eat t) r true r') :
    r'.rest.length < r.rest.length := by
  obtain ⟨rfl, rfl⟩ : r.peek = t ∧ r' = r.advance := by simpa using hgives
  exact Reader.length_advance_lt ht

/-- Where a token is taken, there may be nothing more; where it is not, there has to be. -/
theorem eat_final {f f' : Bool → Read β} (ht : t ≠ .eof) (hpast : looksPast t = false)
    (htrue : Twins K .trailing (n - 1) (f true) (f' true))
    (hfalse : Twins K .final n (f false) (f' false)) :
    Twins K .final n (Read.eat t >>= f) (Read.eat t >>= f') where
  frames := frames_eat (fun _ h => h) (fun _ h => h.2) hpast (final_take ht hpast htrue.frames)
    hfalse.frames
  holds _ _ hn := h.holds_test h.eat (lt_eat ht) htrue hfalse hn

theorem eat_trailing {f f' : Bool → Read β} (ht : t ≠ .eof) (hpast : looksPast t = false)
    (htrue : Twins K .trailing (n - 1) (f true) (f' true))
    (hfalse : Twins K .trailing n (f false) (f' false)) :
    Twins K .trailing n (Read.eat t >>= f) (Read.eat t >>= f') where
  frames := frames_eat (fun _ h => h.2) (fun _ h => h) hpast (final_take ht hpast htrue.frames)
    hfalse.frames
  holds _ _ hn := h.holds_test h.eat (lt_eat ht) htrue hfalse hn

theorem atWordIn {ws : List String} : Reads K .inner n (Read.atWordIn ws) := by
  refine h.bind h.peek fun t => ?_
  split
  · exact h.pure _
  · exact h.pure _

theorem eatWordIn {ws : List String} : Reads K .inner n (Read.eatWordIn ws) :=
  h.bind h.atWordIn fun _ => .ite (h.bind h.advance fun _ => h.pure _) (h.pure _)

theorem eatWordIn_steps (ws : List String) : Steps K .inner (Read.eatWordIn ws) := by
  intro n β f f' htrue hfalse
  refine ⟨(h.bind (g := .inner) (n := 0) h.eatWordIn fun b => ?_).frames, fun _ _ hn =>
    h.holds_test h.eatWordIn (fun {r _} hgives => ?_) htrue hfalse hn⟩
  · cases b with
    | true => exact htrue.below (Nat.zero_le _)
    | false => exact hfalse.below (Nat.zero_le _)
  · obtain ⟨hword, rfl⟩ : isWordIn ws r.peek = true ∧ _ := by simpa using hgives
    apply Reader.length_advance_lt
    rintro heof
    rw [heof] at hword
    cases hword

theorem looking_holds {q q' : Read α} (hp : Built K (v · = true) g n p q) {p' : Read α}
    {g' : Grade} (hp' : Twins K g' n p' q') ⦃r : Reader⦄ (hn : r.rest.length < n) :
    K α r (do if ← Read.looking v w then p else p') := by
  refine h.bindAt (h.bindAt h.getAt fun _ _ _ => h.bindAt h.getAt fun _ _ _ => h.pureAt _)
    fun b m hgives => ?_
  obtain ⟨rfl, rfl⟩ := gives_looking.mp hgives
  split_ifs with hlook
  · exact hp.holds (Bool.and_eq_true_iff.mp hlook).1 hn
  · exact hp'.holds trivial hn

/-- Two tokens ahead are tested. -/
theorem looking {p' q' : Read α} (hv : ∀ t, v t = true → looksPast t = true)
    (hp : Built K (v · = true) .inner n p q) (hp' : Twins K .inner n p' q') :
    Twins K .inner n (do if ← Read.looking v w then p else p')
      (do if ← Read.looking v w then q else q') where
  frames := frames_looking hv (fun _ h => h) (fun pre _ _ _ h => SameView.append h pre)
    (fun pre _ _ _ h => .inl (SameView.append h pre)) hp.frames hp'.frames
  holds _ _ hn := h.looking_holds hp hp' hn

/-- At the end of an instruction, both tokens are taken where they pass; the start of a note does not
pass. -/
theorem looking_trailing {p' q' : Read α} (hv : ∀ t, v t = true → looksPast t = true)
    (hnote : (v (.mark ',') && w (.mark '!')) = false)
    (hp : Built K (v · = true) .pair n p q) (hp' : Twins K .trailing n p' q') :
    Twins K .trailing n (do if ← Read.looking v w then p else p')
      (do if ← Read.looking v w then q else q') where
  frames := frames_looking hv (fun _ h => (solid_of_two_le h).2)
    (fun _ _ _ hpre h => EndView.sameView h (solid_of_two_le hpre))
    (fun _ _ _ hpre h => (EndView.append h hpre).imp_right fun h => ⟨h, hnote⟩) hp.frames hp'.frames
  holds _ _ hn := h.looking_holds hp hp' hn

/-- The token behind the next one, where both are taken. -/
theorem peekAt {f f' : Tok → Read β} (hf : ∀ u, Built K H .pair n (f u) (f' u)) :
    Built K H .pair n (do f (← Read.peekAt 1)) (do f' (← Read.peekAt 1)) where
  frames := frames_peekAt fun u => (hf u).frames
  holds _ hr hn := h.bindAt (h.bindAt h.getAt fun _ _ _ => h.pureAt _) fun _ _ hgives => by
    obtain ⟨rfl, rfl⟩ := gives_peekAt.mp hgives
    exact (hf _).holds hr hn

/-! ### The state -/

/-- What counts down from the number of tokens left. -/
theorem counting (f f' : Nat → Read β)
    (hf : ∀ ⦃j k m⦄, j ≤ k + 1 → j ≤ n → k ≤ m → Twins K g j (f k) (f' m)) :
    Twins K g n (do f (← MonadState.get).rest.length) (do f' (← MonadState.get).rest.length) where
  frames := frames_length (fun _ _ => Grade.length_le_of_sees) fun _ _ hle =>
    (hf (Nat.zero_le _) (Nat.zero_le _) hle).frames
  holds r _ hn := h.bindAt h.getAt fun _ _ hgives => by
    obtain ⟨rfl, rfl⟩ := gives_get.mp hgives
    exact (hf le_rfl hn le_rfl).holds trivial (Nat.lt_succ_self _)

theorem counted {loop : Nat → ι → Read β} (hloop : Loop K g loop) (i : ι) :
    Reads K g n (do loop ((← MonadState.get).rest.length + 1) i) :=
  h.counting (fun k => loop (k + 1) i) (fun k => loop (k + 1) i) fun _ _ _ hj _ hle =>
    hloop.reads hj (Nat.succ_le_succ hle) i

theorem state {f f' : Reader → Read β} (hf : ∀ r ts, Twins K g n (f r) (f' (r.withRest ts))) :
    Twins K g n (do f (← MonadState.get)) (do f' (← MonadState.get)) where
  frames := frames_state fun r ts => (hf r ts).frames
  holds r _ hn := h.bindAt h.getAt fun _ _ hgives => by
    obtain ⟨rfl, rfl⟩ := gives_get.mp hgives
    exact (hf _ []).holds trivial hn

theorem place {f : Place → Read β}
    (hframes : ∀ q q', Frames (fun _ => True) g.Takes g.Sees (f q) (f q'))
    (hf : ∀ q, Good q → Reads K g n (f q)) : Reads K g n (do f (← MonadState.get).place) where
  frames := frames_state fun r ts => hframes r.place (r.withRest ts).place
  holds _ _ hn := h.placeAt fun hq => h.bindAt h.getAt fun _ _ hgives => by
    obtain ⟨rfl, rfl⟩ := gives_get.mp hgives
    exact (hf _ hq).holds trivial hn

theorem literal {fields : List Ty} {isPacked : Bool} : Reads K .trailing n
    (Read.literalStruct fields isPacked) :=
  ⟨trailing_literalStruct, fun _ _ _ => h.literalAt fields isPacked⟩

theorem update {change : Module → Module} (hstructs : ∀ m, (change m).structs = m.structs)
    (hfunctions : ∀ m, (change m).functions = m.functions) :
    Reads K .inner n (Read.updateModule change) :=
  ⟨frames_updateModule trivial, fun _ _ _ => h.updateAt hstructs hfunctions⟩

/-! ### Loops -/

theorem rounds {step : Read Bool} (hstep : Steps K g step) (hg : g.Takes []) :
    Loop K g fun fuel (_ : Unit) => repeatWhile.rounds step fuel :=
  ⟨fun _ => rfl, fun _ _ _ hnext _ => hstep (hnext ()) (h.still hg _)⟩

theorem repeatWhile {step : Read Bool} (hstep : Steps K g step) (hg : g.Takes []) :
    Reads K g n (Read.repeatWhile step) :=
  h.counted (h.rounds hstep hg) ()

end Hereditary

end Offload.Compiled
