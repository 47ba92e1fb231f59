import Offload.Proofs.Compiled.Reader

/-!
# What a reader can tell of the tokens behind it

A reader that succeeds takes some tokens off the front, and what it does depends on those and on
little of what follows: the next token, and the one after that where the next is of a kind that is
looked past. So the same reader does the same before other tokens that agree that far. A reader that
ends an instruction cannot even tell what follows from a comma with an exclamation mark.

Loops of the reader run as many rounds as tokens are left, so before a longer text a reader has more
fuel. Frames therefore relate a reader to another one, which is the same with more fuel.
-/

namespace Offload.Compiled

open List

variable {c : Char} {ws : List String} {ts : List Token} {step : Read Bool} {flaw : ReadFlaw}
  {r : Reader} {w : Tok → Bool}

/-! ### The tokens ahead -/

def pastWords : List String :=
  "addrspace" :: "thread_local" :: "align" :: Read.groupAttributes

/-- A token behind which the reader looks at the next one. -/
def looksPast : Tok → Bool
  | .word w => pastWords.contains w
  | .mark c => c == ',' || c == '<'
  | _ => false

/-- None of the words that are looked past can have the property. -/
theorem not_looksPast_of {p : String → Bool} (hp : ∀ v ∈ pastWords, p v = false) {w : String}
    (hw : p w = true) : looksPast (.word w) = false := by
  rw [looksPast, Bool.eq_false_iff]
  intro hpast
  rw [hp w (by simpa using hpast)] at hw
  cases hw

/-- What the reader can see of the tokens ahead. -/
def view : List Token → Option Token × Option Tok
  | [] => (none, none)
  | t :: rest => (some t, if looksPast t.tok then rest.head?.map Token.tok else none)

/-- The reader cannot tell `other` from `ahead`, but for how much there is. -/
def SameView (ahead other : List Token) : Prop :=
  view other = view ahead ∧ ahead.length ≤ other.length

/-- In place of some tokens there is a comma with an exclamation mark behind it. -/
def NoteAhead (ahead other : List Token) : Prop :=
  ahead ≠ [] ∧ ahead.length ≤ other.length ∧
    ∃ c b rest, other = c :: b :: rest ∧ c.tok = .mark ',' ∧ b.tok = .mark '!'

/-- At the end of an instruction the reader cannot tell `other` from `ahead`. -/
def EndView (ahead other : List Token) : Prop := SameView ahead other ∨ NoteAhead ahead other

/-- The tokens are not a single one that is looked past. -/
def Plain (ts : List Token) : Prop := ∀ t, ts = [t] → looksPast t.tok = false

/-- There are tokens, and more than one if the first is looked past. -/
def Solid (ts : List Token) : Prop := ts ≠ [] ∧ Plain ts

section

variable {ahead other pre pre' : List Token}

theorem view_fst (ts : List Token) : (view ts).1 = ts.head? := by
  cases ts <;> rfl

theorem SameView.head?_eq (h : SameView ahead other) : other.head? = ahead.head? := by
  rw [← view_fst, ← view_fst, h.1]

theorem SameView.append (h : SameView ahead other) (pre : List Token) :
    SameView (pre ++ ahead) (pre ++ other) := by
  refine ⟨?_, by simpa using h.2⟩
  cases pre with
  | nil => exact h.1
  | cons t pre =>
    cases pre with
    | nil =>
      simp only [singleton_append, view, h.head?_eq]
    | cons u pre => simp [view]

theorem view_append (h : Solid pre) (ahead other : List Token) :
    view (pre ++ other) = view (pre ++ ahead) := by
  obtain ⟨hne, hplain⟩ := h
  cases pre with
  | nil => exact absurd rfl hne
  | cons t pre =>
    cases pre with
    | nil => simp [view, hplain t rfl]
    | cons u pre => simp [view]

theorem EndView.length_le (h : EndView ahead other) : ahead.length ≤ other.length := by
  rcases h with h | h
  · exact h.2
  · exact h.2.1

theorem EndView.eq_nil (h : EndView [] other) : other = [] := by
  rcases h with h | h
  · exact head?_eq_none_iff.mp h.head?_eq
  · exact absurd rfl h.1

theorem EndView.sameView (h : EndView ahead other) (hpre : Solid pre) :
    SameView (pre ++ ahead) (pre ++ other) :=
  ⟨view_append hpre ahead other, by simpa using h.length_le⟩

theorem EndView.append (h : EndView ahead other) (hpre : Plain pre) :
    EndView (pre ++ ahead) (pre ++ other) := by
  by_cases hne : pre = []
  · rw [hne]
    exact h
  · exact .inl (h.sameView ⟨hne, hpre⟩)

theorem plain_nil : Plain [] := by
  intro t h
  cases h

theorem Plain.append (h : Plain pre) (h' : Plain pre') : Plain (pre ++ pre') := by
  intro t heq
  rcases append_eq_singleton_iff.mp heq with ⟨-, heq⟩ | ⟨heq, -⟩
  · exact h' t heq
  · exact h t heq

theorem Solid.append_plain (h : Solid pre) (h' : Plain pre') : Solid (pre ++ pre') :=
  ⟨append_ne_nil_of_left_ne_nil h.1 _, h.2.append h'⟩

theorem solid_singleton {t : Token} (h : looksPast t.tok = false) : Solid [t] := by
  refine ⟨by simp, ?_⟩
  rintro u ⟨⟩
  exact h

theorem solid_of_two_le (h : 2 ≤ pre.length) : Solid pre := by
  constructor
  · rintro rfl
    simp at h
  · rintro t rfl
    simp at h

/-- Behind one token, a second part that is solid makes the whole so. -/
theorem Solid.append_left (h : Solid pre') (pre : List Token) : Solid (pre ++ pre') := by
  refine ⟨append_ne_nil_of_right_ne_nil _ h.1, ?_⟩
  intro t heq
  rcases append_eq_singleton_iff.mp heq with ⟨-, heq⟩ | ⟨-, heq⟩
  · exact h.2 t heq
  · exact absurd heq h.1

end

/-! ### Frames -/

/-- The reader with other tokens left. -/
def Reader.withRest (r : Reader) (ts : List Token) : Reader := { r with rest := ts }

/-- The line of the token taken last, after some more are taken. -/
def lineAfter (line : Nat) (ts : List Token) : Nat := ts.foldl (fun _ t => t.place.line) line

theorem lineAfter_append (line : Nat) (ts us : List Token) :
    lineAfter line (ts ++ us) = lineAfter (lineAfter line ts) us := foldl_append

namespace Reader

variable {r : Reader} {t : Token} {rest ts : List Token}

@[simp] theorem rest_withRest : (r.withRest ts).rest = ts := rfl

@[simp] theorem lastLine_withRest : (r.withRest ts).lastLine = r.lastLine := rfl

@[simp] theorem module_withRest : (r.withRest ts).module = r.module := rfl

theorem peek_eq (r : Reader) : r.peek = (r.rest.head?.map Token.tok).getD .eof := by
  rw [peek, peekAt, head?_eq_getElem?]

theorem place_eq (r : Reader) : r.place = (r.rest.head?.map Token.place).getD r.finish := rfl

theorem peekAt_one_eq (r : Reader) : r.peekAt 1 = (r.rest[1]?.map Token.tok).getD .eof := rfl

theorem exists_cons_of_peek (h : r.peek ≠ .eof) :
    ∃ t rest, r.rest = t :: rest ∧ t.tok = r.peek := by
  cases hrest : r.rest with
  | nil => exact absurd (peek_of_nil hrest) h
  | cons t rest => exact ⟨t, rest, rfl, (peek_of_cons hrest).symm⟩

theorem advance_withRest (h : r.rest = t :: rest) (ts : List Token) :
    (r.withRest (t :: ts)).advance = r.advance.withRest ts := by
  rw [advance_of_cons h]
  rfl

end Reader

section

variable {α β : Type} {H : Tok → Prop} {P : List Token → Prop}
  {Q : List Token → List Token → Prop} {p q : Read α} {f g : α → Read β} {r r' : Reader} {a : α}

/-- From one state to another the tokens `pre` are taken, and `q` does the same before other tokens
that `Q` relates to those left. -/
structure Taken (Q : List Token → List Token → Prop) (q : Read α) (r : Reader) (a : α)
    (r' : Reader) (pre : List Token) : Prop where
  rest_eq : r.rest = pre ++ r'.rest
  lastLine_eq : r'.lastLine = lineAfter r.lastLine pre
  again : ∀ other, Q r'.rest other →
    Gives q (r.withRest (pre ++ other)) a (r'.withRest other)

/-- Whenever `p` succeeds at a token in `H`, it takes tokens in `P`, and `q` does the same before
other tokens that `Q` relates to those left. -/
def Frames (H : Tok → Prop) (P : List Token → Prop) (Q : List Token → List Token → Prop)
    (p q : Read α) : Prop :=
  ∀ ⦃r a r'⦄, H r.peek → Gives p r a r' → ∃ pre, P pre ∧ Taken Q q r a r' pre

/-- A reader with more to come behind it. -/
abbrev Inner (p q : Read α) : Prop := Frames (fun _ => True) (fun _ => True) SameView p q

/-- A reader that can end an instruction. -/
abbrev Final (p q : Read α) : Prop := Frames (fun _ => True) Solid EndView p q

/-- A reader for what may or may not follow at the end of an instruction. -/
abbrev Trailing (p q : Read α) : Prop := Frames (fun _ => True) Plain EndView p q

theorem Frames.mono {H' : Tok → Prop} {P' : List Token → Prop}
    {Q' : List Token → List Token → Prop} (h : Frames H P Q p q) (hH : ∀ t, H' t → H t)
    (hP : ∀ ts, P ts → P' ts) (hQ : ∀ ahead other, Q' ahead other → Q ahead other) :
    Frames H' P' Q' p q := by
  intro r a r' hpeek hgives
  obtain ⟨pre, hpre, htaken⟩ := h (hH _ hpeek) hgives
  exact ⟨pre, hP pre hpre, htaken.rest_eq, htaken.lastLine_eq,
    fun other hother => htaken.again other (hQ _ _ hother)⟩

theorem Frames.atTok (h : Frames (fun _ => True) P Q p q) : Frames H P Q p q :=
  h.mono (fun _ _ => trivial) (fun _ h => h) fun _ _ h => h

theorem frames_of_not_gives (h : ∀ r a r', ¬ Gives p r a r') : Frames H P Q p q := by
  intro r a r' _ hgives
  exact absurd hgives (h r a r')

theorem frames_fail : Frames H P Q (Read.fail flaw : Read α) q :=
  frames_of_not_gives fun _ _ _ => Read.not_gives_fail

theorem frames_failAt {place : Place} : Frames H P Q (Read.failAt place flaw : Read α) q :=
  frames_of_not_gives fun _ _ _ => Read.not_gives_failAt

theorem frames_unexpected {expected : Expected} :
    Frames H P Q (Read.unexpected expected : Read α) q :=
  frames_of_not_gives fun _ _ _ => Read.not_gives_unexpected

/-- A step that takes nothing and does not look at the tokens. -/
theorem frames_still (hP : P []) (h : ∀ r a r', Gives p r a r' → r'.rest = r.rest ∧
      r'.lastLine = r.lastLine ∧ ∀ other, Gives q (r.withRest other) a (r'.withRest other)) :
    Frames H P Q p q := by
  intro r a r' _ hgives
  obtain ⟨hrest, hline, hagain⟩ := h r a r' hgives
  exact ⟨[], hP, hrest.symm, hline, fun other _ => hagain other⟩

theorem frames_pure (hP : P []) : Frames H P Q (pure a : Read α) (pure a) := by
  apply frames_still hP
  intro r b r' h
  obtain ⟨rfl, rfl⟩ := gives_pure.mp h
  exact ⟨rfl, rfl, fun other => gives_pure.mpr ⟨rfl, rfl⟩⟩

/-- What a second reader takes has to be such that the first cannot tell. -/
theorem Frames.bind {P₁ P₂ : List Token → Prop} {Q₁ : List Token → List Token → Prop}
    (hp : Frames H P₁ Q₁ p q) (hf : ∀ a, Frames (fun _ => True) P₂ Q (f a) (g a))
    (hQ : ∀ pre ahead other, P₂ pre → Q ahead other → Q₁ (pre ++ ahead) (pre ++ other))
    (hP : ∀ pre pre', P₁ pre → P₂ pre' → P (pre ++ pre')) : Frames H P Q (p >>= f) (q >>= g) := by
  intro r b r' hpeek hgives
  obtain ⟨a, m, hfirst, hsecond⟩ := gives_bind.mp hgives
  obtain ⟨pre, hpre, htaken⟩ := hp hpeek hfirst
  obtain ⟨pre', hpre', htaken'⟩ := hf a trivial hsecond
  refine ⟨pre ++ pre', hP pre pre' hpre hpre', ?_, ?_, fun other hother => ?_⟩
  · rw [htaken.rest_eq, htaken'.rest_eq, append_assoc]
  · rw [htaken'.lastLine_eq, htaken.lastLine_eq, lineAfter_append]
  · rw [append_assoc, gives_bind]
    have hfirst' := htaken.again (pre' ++ other) (by
      rw [htaken'.rest_eq]
      exact hQ pre' _ other hpre' hother)
    exact ⟨a, _, hfirst', htaken'.again other hother⟩

end

/-! ### Looking and taking -/

namespace Read

variable {α β : Type} {H : Tok → Prop} {P : List Token → Prop}
  {Q : List Token → List Token → Prop} {p q p' q' k l : Read α} {f g : Tok → Read α} {t : Tok}

theorem peek_eq_of_head? (h : ts.head? = r.rest.head?) : (r.withRest ts).peek = r.peek := by
  rw [Reader.peek_eq, Reader.peek_eq, Reader.rest_withRest, h]

theorem gives_peek_bind {r' : Reader} {a : α} :
    Gives (peek >>= f) r a r' ↔ Gives (f r.peek) r a r' := by
  simp

/-- A look at the next token. -/
theorem inner_of_peek {x : Read β} {v : Tok → β}
    (h : ∀ r b r', Gives x r b r' ↔ b = v r.peek ∧ r' = r) : Inner x x := by
  intro r b r' _ hgives
  obtain ⟨rfl, rfl⟩ := (h r b r').mp hgives
  refine ⟨[], trivial, rfl, rfl, fun other hother => (h _ _ _).mpr ⟨?_, rfl⟩⟩
  rw [nil_append, peek_eq_of_head? hother.head?_eq]

theorem inner_peek : Inner peek peek := inner_of_peek (v := fun t => t) fun _ _ _ => gives_peek

theorem taken_advance {u : Token} {rest : List Token} (h : r.rest = u :: rest) :
    Taken Q advance r () r.advance [u] := by
  refine ⟨?_, ?_, fun other _ => gives_advance.mpr ?_⟩
  · rw [Reader.advance_of_cons h, h]
    rfl
  · rw [Reader.advance_of_cons h]
    rfl
  · exact (Reader.advance_withRest h other).symm

theorem inner_advance : Inner advance advance := by
  intro r u r' _ hgives
  obtain rfl := gives_advance.mp hgives
  cases hrest : r.rest with
  | nil =>
    rw [Reader.advance_of_nil hrest]
    refine ⟨[], trivial, rfl, rfl, fun other hother => gives_advance.mpr ?_⟩
    have hhead := hother.head?_eq
    rw [hrest, head?_nil, head?_eq_none_iff] at hhead
    rw [hhead, append_nil, Reader.advance_of_nil rfl]
  | cons t rest => exact ⟨[t], trivial, taken_advance hrest⟩

/-- The next token is there and is taken, whatever follows. -/
theorem frames_advance (hH : ∀ t, H t → t ≠ .eof) :
    Frames H (fun ts => ∃ u, ts = [u] ∧ H u.tok) Q advance advance := by
  intro r u r' hpeek hgives
  obtain rfl := gives_advance.mp hgives
  obtain ⟨u, rest, hrest, hu⟩ := Reader.exists_cons_of_peek (hH _ hpeek)
  exact ⟨[u], ⟨u, rfl, by rwa [hu]⟩, taken_advance hrest⟩

/-- A token that is not looked past ends what it is taken for. -/
theorem final_take (ht : t ≠ .eof) (hplain : looksPast t = false) (hk : Trailing k l) :
    Frames (· = t) Solid EndView (do advance; k) (do advance; l) := by
  have hadvance : Frames (· = t) Solid EndView advance advance :=
    (frames_advance (H := (· = t)) fun _ h => h ▸ ht).mono (fun _ h => h) (by
      rintro _ ⟨u, rfl, hu⟩
      exact solid_singleton (by rwa [hu])) fun _ _ h => h
  exact hadvance.bind (fun _ => hk) (fun _ _ _ hpre h => h.append hpre) fun _ _ =>
    Solid.append_plain

/-- A token that is looked past has another one behind it. -/
theorem frames_take (hH : ∀ t, H t → t ≠ .eof) (hk : Final k l) :
    Frames H (2 ≤ ·.length) EndView (do advance; k) (do advance; l) := by
  apply Frames.bind (frames_advance hH (Q := SameView)) (fun _ => hk)
  · intro _ _ _ hpre h
    exact h.sameView hpre
  · rintro _ pre ⟨u, rfl, -⟩ hpre
    have := length_pos_iff.mpr hpre.1
    rw [length_append, length_singleton]
    omega

/-- What is taken starts with the token looked at. -/
theorem frames_peek_bind (h : ∀ t, H t → Frames (· = t) P Q (f t) (g t))
    (hQ : ∀ pre ahead other, P pre → Q ahead other → (pre ++ other).head? = (pre ++ ahead).head?) :
    Frames H P Q (do f (← peek)) (do g (← peek)) := by
  intro r a r' hpeek hgives
  obtain ⟨pre, hpre, htaken⟩ := h _ hpeek rfl (gives_peek_bind.mp hgives)
  refine ⟨pre, hpre, htaken.rest_eq, htaken.lastLine_eq, fun other hother => ?_⟩
  have hhead := hQ pre _ other hpre hother
  rw [← htaken.rest_eq] at hhead
  rw [gives_peek_bind, peek_eq_of_head? hhead]
  exact htaken.again other hother

section

variable {r r' : Reader} {a : α} {f g : Bool → Read α}

theorem gives_eat_bind (h : r.peek = t) :
    Gives (eat t >>= f) r a r' ↔ Gives (do advance; f true) r a r' := by
  simp [h]

theorem gives_eat_bind_of_ne (h : r.peek ≠ t) :
    Gives (eat t >>= f) r a r' ↔ Gives (f false) r a r' := by
  simp [h]

theorem peek_of_endView (h : EndView r.rest ts) :
    (r.withRest ts).peek = r.peek ∨ (r.withRest ts).peek = .mark ',' := by
  rcases h with h | ⟨-, -, c, b, rest, rfl, hc, -⟩
  · exact .inl (peek_eq_of_head? h.head?_eq)
  · exact .inr (by rw [Reader.peek_of_cons rfl, hc])

/-- A token that is not looked past may be taken at the end of an instruction: it is no comma. -/
theorem frames_eat (hsolid : ∀ ts, Solid ts → P ts) (hplain : ∀ ts, P ts → Plain ts)
    (hpast : looksPast t = false)
    (htrue : Frames (· = t) Solid EndView (do advance; f true) (do advance; g true))
    (hfalse : Frames (fun _ => True) P EndView (f false) (g false)) :
    Frames (fun _ => True) P EndView (eat t >>= f) (eat t >>= g) := by
  intro r a r' _ hgives
  by_cases hpeek : r.peek = t
  · obtain ⟨pre, hpre, htaken⟩ := htrue hpeek ((gives_eat_bind hpeek).mp hgives)
    refine ⟨pre, hsolid pre hpre, htaken.rest_eq, htaken.lastLine_eq, fun other hother => ?_⟩
    have hhead := (hother.sameView hpre).head?_eq
    rw [← htaken.rest_eq] at hhead
    rw [gives_eat_bind (by rwa [peek_eq_of_head? hhead])]
    exact htaken.again other hother
  · obtain ⟨pre, hpre, htaken⟩ := hfalse trivial ((gives_eat_bind_of_ne hpeek).mp hgives)
    refine ⟨pre, hpre, htaken.rest_eq, htaken.lastLine_eq, fun other hother => ?_⟩
    have hend := hother.append (hplain pre hpre)
    rw [← htaken.rest_eq] at hend
    have hne : (r.withRest (pre ++ other)).peek ≠ t := by
      rcases peek_of_endView hend with heq | heq
      · rwa [heq]
      · rw [heq]
        rintro rfl
        simp [looksPast] at hpast
    rw [gives_eat_bind_of_ne hne]
    exact htaken.again other hother

end

/-! ### Two tokens ahead -/

/-- The next token passes one test, and the one behind it another. -/
def looking (v w : Tok → Bool) : Read Bool := return v (← get).peek && w ((← get).peekAt 1)

@[simp] theorem gives_looking {v : Tok → Bool} {b : Bool} {r' : Reader} :
    Gives (looking v w) r b r' ↔ b = (v r.peek && w (r.peekAt 1)) ∧ r' = r := by
  simp [looking, and_comm]

theorem atMark_and_peekAt :
    (do if (← atMark c) && w (← peekAt 1) then p else p') =
      (do if ← looking (· == .mark c) w then p else p') := rfl

theorem atWord_and_peekAt {x : String} :
    (do if (← atWord x) && w (← peekAt 1) then p else p') =
      (do if ← looking (· == .word x) w then p else p') := rfl

theorem atWordIn_and_peekAt :
    (do if (← atWordIn ws) && w (← peekAt 1) then p else p') =
      (do if ← looking (isWordIn ws) w then p else p') := by
  have heq : atWordIn ws = (return isWordIn ws (← peek)) := by
    unfold atWordIn
    congr
    funext t
    cases t <;> rfl
  rw [heq]
  rfl

section

variable {v w : Tok → Bool} {r r' : Reader} {a : α} {f g : Bool → Read α}

theorem gives_looking_bind :
    Gives (looking v w >>= f) r a r' ↔ Gives (f (v r.peek && w (r.peekAt 1))) r a r' := by
  simp

/-- The token behind one that is looked past is in view. -/
theorem peekAt_of_sameView (hpast : looksPast r.peek = true) (h : SameView r.rest ts) :
    (r.withRest ts).peekAt 1 = r.peekAt 1 := by
  have hview := h.1
  rw [Reader.peekAt_one_eq, Reader.peekAt_one_eq, Reader.rest_withRest]
  cases hrest : r.rest with
  | nil =>
    rw [Reader.peek_of_nil hrest] at hpast
    cases hpast
  | cons t rest =>
    rw [hrest] at hview
    rw [Reader.peek_of_cons hrest] at hpast
    cases ts with
    | nil => simp [view] at hview
    | cons u ts =>
      simp only [view, Prod.mk.injEq, Option.some.injEq] at hview
      obtain ⟨rfl, hsecond⟩ := hview
      rw [if_pos hpast, if_pos hpast, head?_eq_getElem?, head?_eq_getElem?] at hsecond
      simp only [getElem?_cons_succ, hsecond]

/-- What two tests tell is in view if the first holds only of tokens that are looked past. -/
theorem looking_of_sameView (hv : ∀ t, v t = true → looksPast t = true) (h : SameView r.rest ts) :
    (v (r.withRest ts).peek && w ((r.withRest ts).peekAt 1)) = (v r.peek && w (r.peekAt 1)) := by
  rw [peek_eq_of_head? h.head?_eq]
  by_cases hpeek : v r.peek = true
  · rw [peekAt_of_sameView (hv _ hpeek) h]
  · simp [Bool.eq_false_iff.mpr hpeek]

/-- Two tokens ahead are tested. Where they pass, what is taken makes up what is in view; where they
do not, what is in view is the same, or the start of a note, which does not pass either. -/
theorem frames_looking {P' : List Token → Prop} (hv : ∀ t, v t = true → looksPast t = true)
    (hP : ∀ pre, P' pre → P pre)
    (hsame : ∀ pre ahead other, P' pre → Q ahead other → SameView (pre ++ ahead) (pre ++ other))
    (hend : ∀ pre ahead other, P pre → Q ahead other → SameView (pre ++ ahead) (pre ++ other) ∨
      NoteAhead (pre ++ ahead) (pre ++ other) ∧ (v (.mark ',') && w (.mark '!')) = false)
    (htrue : Frames (v · = true) P' Q p q) (hfalse : Frames (fun _ => True) P Q p' q') :
    Frames (fun _ => True) P Q (do if ← looking v w then p else p')
      (do if ← looking v w then q else q') := by
  intro r a r' _ hgives
  rw [gives_looking_bind] at hgives
  cases hlook : v r.peek && w (r.peekAt 1) with
  | true =>
    rw [hlook] at hgives
    rw [Bool.and_eq_true] at hlook
    obtain ⟨pre, hpre, htaken⟩ := htrue hlook.1 hgives
    refine ⟨pre, hP pre hpre, htaken.rest_eq, htaken.lastLine_eq, fun other hother => ?_⟩
    have hview := hsame pre _ other hpre hother
    rw [← htaken.rest_eq] at hview
    rw [gives_looking_bind, looking_of_sameView hv hview, hlook.1, hlook.2]
    exact htaken.again other hother
  | false =>
    rw [hlook] at hgives
    obtain ⟨pre, hpre, htaken⟩ := hfalse trivial hgives
    refine ⟨pre, hpre, htaken.rest_eq, htaken.lastLine_eq, fun other hother => ?_⟩
    have hview := hend pre _ other hpre hother
    rw [← htaken.rest_eq] at hview
    rw [gives_looking_bind]
    have hstill : (v (r.withRest (pre ++ other)).peek &&
        w ((r.withRest (pre ++ other)).peekAt 1)) = false := by
      rcases hview with hview | ⟨⟨-, -, c, b, rest, hrest, hc, hb⟩, hnote⟩
      · rw [looking_of_sameView hv hview, hlook]
      · rw [Reader.peekAt_one_eq, Reader.peek_eq, Reader.rest_withRest, hrest]
        simpa [hc, hb] using hnote
    rw [hstill]
    exact htaken.again other hother

end

/-- The token behind one that is looked past. -/
theorem frames_peekAt (h : ∀ u, Frames H (2 ≤ ·.length) EndView (f u) (g u)) :
    Frames H (2 ≤ ·.length) EndView (do f (← peekAt 1)) (do g (← peekAt 1)) := by
  intro r a r' hpeek hgives
  simp only [gives_bind, gives_peekAt] at hgives
  obtain ⟨_, m, ⟨rfl, rfl⟩, hgives⟩ := hgives
  obtain ⟨pre, hpre, htaken⟩ := h _ hpeek hgives
  refine ⟨pre, hpre, htaken.rest_eq, htaken.lastLine_eq, fun other hother => ?_⟩
  simp only [gives_bind, gives_peekAt]
  refine ⟨_, _, ⟨rfl, rfl⟩, ?_⟩
  have hsecond : (m.withRest (pre ++ other)).peekAt 1 = m.peekAt 1 := by
    rw [Reader.peekAt_one_eq, Reader.peekAt_one_eq, Reader.rest_withRest, htaken.rest_eq,
      getElem?_append_left (by omega), getElem?_append_left (by omega)]
  rw [hsecond]
  exact htaken.again other hother

/-! ### The state -/

/-- A reader that depends on the state, where with other tokens left the state differs only so that
the reader does the same. -/
theorem frames_get {τ : Type} {φ : Reader → τ} {R : τ → τ → Prop} {f g : τ → Read α}
    (hrefl : ∀ a, R a a) (hR : ∀ r pre ahead other, r.rest = pre ++ ahead → Q ahead other →
      R (φ r) (φ (r.withRest (pre ++ other)))) (h : ∀ a b, R a b → Frames H P Q (f a) (g b)) :
    Frames H P Q (do f (φ (← get))) (do g (φ (← get))) := by
  intro r a r' hpeek hgives
  simp only [gives_bind, gives_get] at hgives
  obtain ⟨_, m, ⟨rfl, rfl⟩, hgives⟩ := hgives
  obtain ⟨pre, hpre, htaken⟩ := h _ _ (hrefl _) hpeek hgives
  refine ⟨pre, hpre, htaken.rest_eq, htaken.lastLine_eq, fun other hother => ?_⟩
  -- The reader on the other side depends on the tokens there, but takes the same.
  obtain ⟨pre', -, htaken'⟩ := h _ _ (hR _ pre _ other htaken.rest_eq hother) hpeek hgives
  obtain rfl : pre = pre' := append_cancel_right (htaken.rest_eq.symm.trans htaken'.rest_eq)
  simp only [gives_bind, gives_get]
  exact ⟨_, _, ⟨rfl, rfl⟩, htaken'.again other hother⟩

/-- The number of rounds is a bound by the number of tokens left, which can only have grown. -/
theorem frames_length {f g : Nat → Read α}
    (hQ : ∀ ahead other, Q ahead other → ahead.length ≤ other.length)
    (h : ∀ n m, n ≤ m → Frames H P Q (f n) (g m)) :
    Frames H P Q (do f (← get).rest.length) (do g (← get).rest.length) := by
  refine frames_get (φ := fun r => r.rest.length) Nat.le_refl ?_ h
  intro r pre ahead other hrest hQ'
  rw [hrest, Reader.rest_withRest, length_append, length_append]
  exact Nat.add_le_add_left (hQ _ _ hQ') _

/-- Anything but the tokens left is the same. -/
theorem frames_state {f g : Reader → Read α} (h : ∀ r ts, Frames H P Q (f r) (g (r.withRest ts))) :
    Frames H P Q (do f (← get)) (do g (← get)) := by
  refine frames_get (φ := fun r => r) (R := fun r s => ∃ ts, s = r.withRest ts) ?_ ?_ ?_
  · intro r
    exact ⟨r.rest, rfl⟩
  · intro r pre ahead other _ _
    exact ⟨pre ++ other, rfl⟩
  · rintro r _ ⟨ts, rfl⟩
    exact h r ts

theorem frames_updateModule (hP : P []) {change : Module → Module} :
    Frames H P Q (updateModule change) (updateModule change) := by
  apply frames_still hP
  intro r a r' h
  obtain rfl := gives_modify.mp h
  exact ⟨rfl, rfl, fun other => gives_modify.mpr rfl⟩

end Read

end Offload.Compiled
