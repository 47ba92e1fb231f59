import Offload.Proofs.Compiled.Trailer

/-!
# Reading a module with notes in it

The states behind the instructions and terminators of a module, and what becomes of the run that
reads it when notes are put behind some of them: the same run, with more tokens left in each state.
-/

namespace Offload.Compiled

open List

variable {next : Body} {Q : List Token → List Token → Prop} {e : Reader} {H : Tok → Prop}

/-! ### Where an item can start -/

namespace Read

/-- Words that stand elsewhere and start no instruction. -/
def strayWords : List String := "addrspace" :: "thread_local" :: (groupAttributes ++ trailerWords)

theorem operation_of_mem_strayWords {w : String} (h : w ∈ strayWords) (dest : Option String)
    (start : Place) : operation dest w start = failAt start (.unsupportedInstruction w) := by
  revert w
  simp only [strayWords, groupAttributes, trailerWords, cons_append, nil_append,
    forall_mem_cons, not_mem_nil, false_imp_iff, implies_true, and_true]
  exact ⟨rfl, rfl, rfl, rfl, rfl, rfl, rfl, rfl, rfl, rfl, rfl, rfl, rfl, rfl, rfl, rfl, rfl, rfl,
    rfl, rfl, rfl⟩

/-- A token at which an instruction or a terminator can start. -/
def startsItem : Tok → Bool
  | .word w => !strayWords.contains w
  | .value _ => true
  | _ => false

variable {r r' : Reader}

theorem gives_terminator_of_ne {o : Option Terminator}
    (h : ∀ w ∈ ["ret", "br", "switch", "unreachable"], r.peek ≠ .word w) :
    Gives terminator? r o r' ↔ o = none ∧ r' = r := by
  simp only [forall_mem_cons] at h
  simp [terminator?, h]

theorem peek_of_word {w : String} (h : Gives word r w r') : r.peek = .word w := by
  rw [word, gives_peek_bind] at h
  split at h
  · rename_i v hpeek
    obtain ⟨_, _, -, hw⟩ := gives_bind.mp h
    rw [hpeek, (gives_pure.mp hw).1]
  · exact absurd h not_gives_unexpected

theorem exists_value_or_eq_of_destination? {dest : Option String}
    (h : Gives destination? r dest r') : (∃ name, r.peek = .value name) ∨ r' = r := by
  rw [destination?, gives_peek_bind] at h
  split at h
  · rename_i name hpeek
    exact .inl ⟨name, hpeek⟩
  · exact .inr (gives_pure.mp h).2

theorem startsItem_of_isWordIn {t : Tok} (h : isWordIn ["tail", "musttail", "notail"] t = true) :
    startsItem t = true := by
  cases t with
  | word w =>
    have htail : ∀ v ∈ ["tail", "musttail", "notail"], startsItem (.word v) = true := by decide
    exact htail w (by simpa [isWordIn] using h)
  | _ => cases h

theorem startsItem_of_instruction {i : Option Instruction} (h : Gives instruction r i r') :
    startsItem r.peek = true := by
  obtain ⟨dest, m, hdest, h⟩ := gives_bind.mp h
  obtain ⟨_, m', htail, h⟩ := gives_bind.mp h
  obtain ⟨s, _, hget, h⟩ := gives_bind.mp h
  obtain ⟨w, _, hword, hoperation⟩ := gives_bind.mp h
  obtain ⟨-, rfl⟩ := gives_get.mp hget
  rcases exists_value_or_eq_of_destination? hdest with ⟨name, hpeek⟩ | rfl
  · rw [hpeek]
    rfl
  rcases gives_eatWordIn.mp htail with ⟨hin, -, -⟩ | ⟨-, -, rfl⟩
  · exact startsItem_of_isWordIn hin
  · rw [peek_of_word hword]
    by_contra hstray
    have hmem : w ∈ strayWords := by simpa [startsItem] using hstray
    rw [operation_of_mem_strayWords hmem] at hoperation
    exact not_gives_failAt hoperation

theorem startsItem_of_blockItem {block block' : BasicBlock}
    (h : Gives (blockItem block) r block' r') : startsItem r.peek = true := by
  by_cases hword : ∀ w ∈ ["ret", "br", "switch", "unreachable"], r.peek ≠ .word w
  · unfold blockItem at h
    dsimp only at h
    split_ifs at h
    · simp at h
    · obtain ⟨o, m, hterminator, hrest⟩ := gives_bind.mp h
      obtain ⟨rfl, rfl⟩ := (gives_terminator_of_ne hword).mp hterminator
      obtain ⟨i, m', hinstruction, -⟩ := gives_bind.mp hrest
      exact startsItem_of_instruction hinstruction
  · simp only [not_forall, not_not] at hword
    obtain ⟨w, hw, hpeek⟩ := hword
    have hall : ∀ v ∈ ["ret", "br", "switch", "unreachable"], startsItem (.word v) = true := by
      decide
    rw [hpeek]
    exact hall w hw

theorem not_looksPast_of_startsItem {t : Tok} (h : startsItem t = true) :
    looksPast t = false ∧ startsTrailer t = false ∧ t ≠ .eof := by
  cases t with
  | word w =>
    have hmem : w ∉ strayWords := by simpa [startsItem] using h
    simp only [strayWords, mem_cons, mem_append, not_or] at hmem
    obtain ⟨haddress, hthread, hgroup, htrailer⟩ := hmem
    have halign : w ≠ "align" := by
      rintro rfl
      exact htrailer (by decide)
    exact ⟨by simp [looksPast, pastWords, haddress, hthread, halign, hgroup],
      by simpa [startsTrailer] using htrailer, by simp⟩
  | value name => exact ⟨rfl, rfl, by simp⟩
  | _ => cases h

end Read

/-! ### States of one run -/

/-- Between two states of a run some tokens are taken. -/
structure Reader.Passes (r e : Reader) (pre : List Token) : Prop where
  rest_eq : r.rest = pre ++ e.rest
  lastLine_eq : e.lastLine = lineAfter r.lastLine pre

/-- The second state is behind the first. -/
def Reader.Before (r e : Reader) : Prop := ∃ pre, pre ≠ [] ∧ r.Passes e pre

section

variable {r m e : Reader} {pre pre' : List Token}

theorem Reader.Passes.trans (h : r.Passes m pre) (h' : m.Passes e pre') :
    r.Passes e (pre ++ pre') := by
  constructor
  · rw [h.rest_eq, h'.rest_eq, append_assoc]
  · rw [h'.lastLine_eq, h.lastLine_eq, lineAfter_append]

theorem Reader.Passes.trans_before (h : r.Passes m pre) (h' : m.Before e) : r.Before e := by
  obtain ⟨pre', hne, h'⟩ := h'
  exact ⟨pre ++ pre', append_ne_nil_of_right_ne_nil _ hne, h.trans h'⟩

theorem Reader.Before.trans_passes (h : r.Before m) (h' : m.Passes e pre') : r.Before e := by
  obtain ⟨pre, hne, h⟩ := h
  exact ⟨pre ++ pre', append_ne_nil_of_left_ne_nil hne _, h.trans h'⟩

theorem Reader.Before.trans (h : r.Before m) (h' : m.Before e) : r.Before e := by
  obtain ⟨pre, -, h⟩ := h
  exact h.trans_before h'

theorem Reader.Before.length_lt (h : r.Before e) : e.rest.length < r.rest.length := by
  obtain ⟨pre, hne, h⟩ := h
  have hpos := length_pos_iff.mpr hne
  rw [h.rest_eq, length_append]
  omega

theorem Taken.passes {α : Type} {q : Read α} {a : α} (h : Taken Q q r a e pre) :
    r.Passes e pre := ⟨h.rest_eq, h.lastLine_eq⟩

theorem Frames.passes {α : Type} {P : List Token → Prop} {p q : Read α} {a : α}
    (h : Frames H P Q p q) (hpeek : H r.peek) (hgives : Gives p r a e) :
    ∃ pre, P pre ∧ r.Passes e pre := by
  obtain ⟨pre, hpre, htaken⟩ := h hpeek hgives
  exact ⟨pre, hpre, htaken.passes⟩

theorem Reader.before_advance (h : r.peek ≠ .eof) : r.Before r.advance := by
  obtain ⟨t, rest, hrest, -⟩ := r.exists_cons_of_peek h
  exact ⟨[t], by simp, (Read.taken_advance (Q := SameView) hrest).passes⟩

end

/-! ### The body of a function -/

namespace Read

/-- The body with a new block. -/
def Body.start (body : Body) (label : String) : Body :=
  { body with blocks := ⟨label, [], none⟩ :: body.blocks }

/-- The body with its last block replaced. -/
def Body.update (body : Body) (block : BasicBlock) : Body :=
  ⟨block :: body.current.2.1, body.current.2.2⟩

/-- An instruction or a terminator with its trailers. -/
def item (body : Body) : Read Body := do
  let block ← blockItem body.current.1
  skipTrailers
  return body.update block

/-- The states behind the instructions and terminators of a body. -/
def bodyEnds : Nat → Body → Reader → List Reader
  | 0, _, _ => []
  | fuel + 1, body, r =>
    match r.peek with
    | .mark '\x7d' | .eof => []
    | .label label => bodyEnds fuel (body.start label) r.advance
    | .mark '#' => bodyEnds fuel body (r.advanceBy (Reader.lineLength r.rest))
    | _ =>
      match (item body).run r with
      | .error _ => []
      | .ok (body, e) => e :: bodyEnds fuel body e

/-- A body is read from one state to another, with the states behind its items. -/
inductive BodyRun : Body → Reader → List Reader → Body → Reader → Prop
  | close {body : Body} {r : Reader} (hpeek : r.peek = .mark '\x7d') :
    BodyRun body r [] body r.advance
  | label {body body' : Body} {r r' : Reader} {ends : List Reader} {label : String}
    (hpeek : r.peek = .label label) (hrest : BodyRun (body.start label) r.advance ends body' r') :
    BodyRun body r ends body' r'
  | record {body body' : Body} {r m r' : Reader} {ends : List Reader} (hpeek : r.peek = .mark '#')
    (hskip : Gives skipLine r () m) (hrest : BodyRun body m ends body' r') :
    BodyRun body r ends body' r'
  | item {body next body' : Body} {r e r' : Reader} {ends : List Reader}
    (hitem : Gives (item body) r next e) (hrest : BodyRun next e ends body' r') :
    BodyRun body r (e :: ends) body' r'

/-- A token that a body reads itself. -/
def isBodyToken : Tok → Bool
  | .mark '\x7d' | .eof | .label _ | .mark '#' => true
  | _ => false

section

variable {n : Nat} {body body' : Body} {r r' : Reader} {ends : List Reader}

theorem gives_item : Gives (item body) r next e ↔ ∃ block m,
    Gives (blockItem body.current.1) r block m ∧ Gives skipTrailers m () e ∧
      next = body.update block := by
  simp only [item, gives_bind, gives_pure]
  constructor
  · rintro ⟨block, m, hitem, _, _, htrailers, rfl, rfl⟩
    exact ⟨block, m, hitem, htrailers, rfl⟩
  · rintro ⟨block, m, hitem, htrailers, rfl⟩
    exact ⟨block, m, hitem, (), e, htrailers, rfl, rfl⟩

theorem startsItem_of_item (h : Gives (item body) r next e) : startsItem r.peek = true := by
  obtain ⟨block, m, hitem, -⟩ := gives_item.mp h
  exact startsItem_of_blockItem hitem

theorem not_isBodyToken_of_startsItem {t : Tok} (h : startsItem t = true) :
    isBodyToken t = false := by
  cases t with
  | word w => rfl
  | value name => rfl
  | _ => cases h

theorem gives_bodyFrom_of_other (h : isBodyToken r.peek = false) :
    Gives (bodyFrom (n + 1) body) r body' r' ↔
      ∃ next e, Gives (item body) r next e ∧ Gives (bodyFrom n next) e body' r' := by
  have hpeek : Gives (bodyFrom (n + 1) body) r body' r' ↔
      Gives (item body >>= bodyFrom n) r body' r' := by
    rw [bodyFrom, gives_peek_bind]
    split
    · simp_all [isBodyToken]
    · simp_all [isBodyToken]
    · simp_all [isBodyToken]
    · simp_all [isBodyToken]
    · simp only [item, bind_assoc, pure_bind]
      rfl
  rw [hpeek, gives_bind]

theorem bodyEnds_of_other (h : isBodyToken r.peek = false) (hitem : Gives (item body) r next e) :
    bodyEnds (n + 1) body r = e :: bodyEnds n next e := by
  have hrun : (item body).run r = .ok (next, e) := hitem
  rw [bodyEnds]
  split
  · simp_all [isBodyToken]
  · simp_all [isBodyToken]
  · simp_all [isBodyToken]
  · simp_all [isBodyToken]
  · rw [hrun]

theorem bodyRun_of_gives (h : Gives (bodyFrom n body) r body' r') :
    BodyRun body r (bodyEnds n body r) body' r' := by
  induction n generalizing body r with
  | zero => exact absurd h not_gives_fail
  | succ n ih =>
    by_cases hother : isBodyToken r.peek = false
    · obtain ⟨next, e, hitem, hrest⟩ := (gives_bodyFrom_of_other hother).mp h
      rw [bodyEnds_of_other hother hitem]
      exact .item hitem (ih hrest)
    · rw [bodyFrom, gives_peek_bind] at h
      rw [bodyEnds]
      split at h
      · rename_i hpeek
        obtain ⟨rfl, rfl⟩ : body' = body ∧ r' = r.advance := by simpa [and_comm] using h
        simpa [hpeek] using BodyRun.close hpeek
      · exact absurd h not_gives_unexpected
      · rename_i hpeek
        obtain ⟨_, m, hadvance, hrest⟩ := gives_bind.mp h
        obtain rfl := gives_advance.mp hadvance
        simpa [hpeek] using BodyRun.label hpeek (ih hrest)
      · rename_i hpeek
        obtain ⟨_, m, hskip, hrest⟩ := gives_bind.mp h
        have hrun := BodyRun.record hpeek hskip (ih hrest)
        obtain rfl := gives_modify.mp hskip
        simpa [hpeek] using hrun
      · rename_i hclose heof hlabel hrecord
        exact absurd (by cases hpeek : r.peek <;> simp_all [isBodyToken]) hother

theorem before_of_skipLine {m : Reader} (hpeek : r.peek ≠ .eof) (h : Gives skipLine r () m) :
    r.Before m :=
  (hereditary_true.skipLine (H := (· ≠ .eof)) (n := 0) (by simp)).frames.passes hpeek h

theorem before_of_item (h : Gives (item body) r next e) : r.Before e :=
  (hereditary_true.moving (n := 0) hereditary_true.blockItem.moving fun _ =>
    hereditary_true.bind hereditary_true.skipTrailers fun _ => hereditary_true.pure _).frames.passes
    trivial h

/-- A body starts with a token that is not mistaken for the end of what stands before it. -/
theorem BodyRun.start (h : BodyRun body r ends body' r') :
    looksPast r.peek = false ∧ startsTrailer r.peek = false ∧ r.peek ≠ .eof := by
  cases h with
  | close hpeek => rw [hpeek]; exact ⟨rfl, rfl, by simp⟩
  | label hpeek hrest => rw [hpeek]; exact ⟨rfl, rfl, by simp⟩
  | record hpeek hskip hrest => rw [hpeek]; exact ⟨rfl, rfl, by simp⟩
  | item hitem hrest => exact not_looksPast_of_startsItem (startsItem_of_item hitem)

theorem BodyRun.before (h : BodyRun body r ends body' r') : r.Before r' := by
  induction h with
  | close hpeek => exact Reader.before_advance (by rw [hpeek]; simp)
  | label hpeek hrest ih => exact (Reader.before_advance (by rw [hpeek]; simp)).trans ih
  | record hpeek hskip hrest ih => exact (before_of_skipLine (by rw [hpeek]; simp) hskip).trans ih
  | item hitem hrest ih => exact (before_of_item hitem).trans ih

/-- The states behind the items stand between the first and the last. -/
theorem BodyRun.ends_between (h : BodyRun body r ends body' r') (he : e ∈ ends) :
    r.Before e ∧ e.Before r' := by
  induction h with
  | close hpeek => simp at he
  | label hpeek hrest ih =>
    exact ⟨(Reader.before_advance (by rw [hpeek]; simp)).trans (ih he).1, (ih he).2⟩
  | record hpeek hskip hrest ih =>
    exact ⟨(before_of_skipLine (by rw [hpeek]; simp) hskip).trans (ih he).1, (ih he).2⟩
  | item hitem hrest ih =>
    rcases mem_cons.mp he with rfl | he
    · exact ⟨before_of_item hitem, hrest.before⟩
    · exact ⟨(before_of_item hitem).trans (ih he).1, (ih he).2⟩

/-- Any fuel that exceeds the number of tokens is enough. -/
theorem BodyRun.gives (h : BodyRun body r ends body' r') (hn : r.rest.length < n) :
    Gives (bodyFrom n body) r body' r' := by
  induction h generalizing n with
    obtain ⟨n, rfl⟩ := exists_eq_succ hn
  | close hpeek => simp [bodyFrom, hpeek]
  | label hpeek hrest ih =>
    have hless := (Reader.before_advance (by rw [hpeek]; simp)).length_lt
    rw [bodyFrom, gives_peek_bind, hpeek]
    exact gives_bind.mpr ⟨(), _, gives_advance.mpr rfl, ih (by omega)⟩
  | record hpeek hskip hrest ih =>
    have hless := (before_of_skipLine (by rw [hpeek]; simp) hskip).length_lt
    rw [bodyFrom, gives_peek_bind, hpeek]
    exact gives_bind.mpr ⟨(), _, hskip, ih (by omega)⟩
  | item hitem hrest ih =>
    have hless := (before_of_item hitem).length_lt
    have hother := not_isBodyToken_of_startsItem (startsItem_of_item hitem)
    exact (gives_bodyFrom_of_other hother).mpr ⟨_, _, hitem, ih (by omega)⟩

end

end Read

/-! ### Notes between the tokens -/

/-- Put tokens behind those already there; `f` tells which, by the number of tokens that follow. -/
def insertNotes (f : Nat → List Token) : List Token → List Token
  | [] => []
  | t :: rest => t :: (f rest.length ++ insertNotes f rest)

def Reader.noted (f : Nat → List Token) (r : Reader) : Reader := r.withRest (insertNotes f r.rest)

section

variable {f : Nat → List Token} {pre ahead ts : List Token}

@[simp] theorem head?_insertNotes : (insertNotes f ts).head? = ts.head? := by
  cases ts <;> rfl

theorem length_le_insertNotes : ts.length ≤ (insertNotes f ts).length := by
  induction ts with
  | nil => rfl
  | cons t ts ih =>
    simp only [insertNotes, length_cons, length_append]
    omega

theorem insertNotes_append (hne : pre ≠ [])
    (hf : ∀ n, ahead.length < n → n < (pre ++ ahead).length → f n = []) :
    insertNotes f (pre ++ ahead) = pre ++ (f ahead.length ++ insertNotes f ahead) := by
  induction pre with
  | nil => exact absurd rfl hne
  | cons t pre ih =>
    cases pre with
    | nil => rfl
    | cons u pre =>
      simp only [cons_append, length_cons, length_append] at hf
      have hinside : f (u :: pre ++ ahead).length = [] := by
        apply hf
        · simp only [cons_append, length_cons, length_append]
          omega
        · simp
      rw [cons_append, insertNotes, hinside, nil_append, ih (by simp)]
      · rfl
      · intro n hlow hhigh
        apply hf n hlow
        simp only [cons_append, length_cons, length_append] at hhigh
        omega

end

section

variable {α : Type} {f : Nat → List Token} {p q : Read α} {r m r' : Reader} {a : α}
  {ends : List Reader}

theorem peek_noted (f : Nat → List Token) (r : Reader) : (r.noted f).peek = r.peek := by
  rw [Reader.peek_eq, Reader.peek_eq, Reader.noted, Reader.rest_withRest, head?_insertNotes]

theorem sameView_noted (h : looksPast r.peek = false) : SameView r.rest (r.noted f).rest := by
  refine ⟨?_, length_le_insertNotes⟩
  rw [Reader.noted, Reader.rest_withRest]
  cases hrest : r.rest with
  | nil => rfl
  | cons t rest =>
    rw [Reader.peek_of_cons hrest] at h
    simp [insertNotes, view, h]

/-- There are no notes between two states. -/
def NoNotes (f : Nat → List Token) (r r' : Reader) : Prop :=
  ∀ n, r'.rest.length ≤ n → n < r.rest.length → f n = []

/-- Between two states there are notes only behind items, each on the last line of its item, which
has nothing else behind the item. -/
def NotesAt (f : Nat → List Token) (ends : List Reader) (r r' : Reader) : Prop :=
  ∀ n, r'.rest.length ≤ n → n < r.rest.length → f n ≠ [] →
    ∃ e ∈ ends, e.rest.length = n ∧ e.atLineStart = true ∧ IsNote e.lastLine (f n)

/-- Within narrower bounds only the items between them matter. -/
theorem NotesAt.narrow {m' : Reader} {ends' : List Reader} (h : NotesAt f ends r r')
    (hm : m.rest.length ≤ r.rest.length) (hm' : r'.rest.length ≤ m'.rest.length)
    (hends : ∀ e ∈ ends, m'.rest.length ≤ e.rest.length → e.rest.length < m.rest.length →
      e ∈ ends') : NotesAt f ends' m m' := by
  intro n hlow hhigh hnote
  obtain ⟨e, he, rfl, hstart⟩ := h n (hm'.trans hlow) (hhigh.trans_le hm) hnote
  exact ⟨e, hends e he hlow hhigh, rfl, hstart⟩

theorem NotesAt.noNotes (h : NotesAt f [] r r') : NoNotes f r r' := by
  intro n hlow hhigh
  by_contra hnote
  obtain ⟨e, he, -⟩ := h n hlow hhigh hnote
  simp at he

/-- Where all items stand behind some state, there are no notes up to it. -/
theorem NotesAt.split (h : NotesAt f ends r r') (hm : m.rest.length ≤ r.rest.length)
    (hr' : r'.rest.length ≤ m.rest.length) (hends : ∀ e ∈ ends, e.rest.length < m.rest.length) :
    NoNotes f r m ∧ NotesAt f ends m r' := by
  constructor
  · apply NotesAt.noNotes
    exact h.narrow le_rfl hr' fun e he hlow _ => absurd (hends e he) (Nat.not_lt.mpr hlow)
  · exact h.narrow hm le_rfl fun e he _ _ => he

/-- Where there are no notes, a reader takes the same tokens. -/
theorem Frames.noted (hp : Frames H (fun _ => True) SameView p q) (hpeek : H r.peek)
    (h : Gives p r a r') (hpast : looksPast r'.peek = false) (hf : NoNotes f r r') :
    Gives q (r.noted f) a (r'.noted f) := by
  obtain ⟨pre, -, htaken⟩ := hp hpeek h
  have hagain := htaken.again (insertNotes f r'.rest) (sameView_noted hpast)
  suffices hrest : insertNotes f r.rest = pre ++ insertNotes f r'.rest by
    rw [Reader.noted, hrest]
    exact hagain
  by_cases hne : pre = []
  · rw [htaken.rest_eq, hne]
    rfl
  · have hless : r'.rest.length < r.rest.length := by
      have := length_pos_iff.mpr hne
      rw [htaken.rest_eq, length_append]
      omega
    have hend : f r'.rest.length = [] := hf _ le_rfl hless
    rw [htaken.rest_eq, insertNotes_append hne, hend, nil_append]
    intro n hlow hhigh
    rw [← htaken.rest_eq] at hhigh
    exact hf n hlow.le hhigh

end

namespace Read

section

variable {f : Nat → List Token} {body body' : Body} {r r' : Reader} {ends : List Reader}

theorem advance_noted (hpast : looksPast r.advance.peek = false) (hf : NoNotes f r r.advance) :
    r.advance.noted f = (r.noted f).advance :=
  gives_advance.mp (inner_advance.noted (a := ()) trivial (gives_advance.mpr rfl) hpast hf)

theorem item_noted (h : Gives (item body) r next e) (hrest : BodyRun next e ends body' r')
    (hf : NotesAt f (e :: ends) r r') : Gives (item body) (r.noted f) next (e.noted f) := by
  have hbehind (d : Reader) (hd : d ∈ ends) := (hrest.ends_between hd).1.length_lt
  obtain ⟨hpast, hpeek, heof⟩ := hrest.start
  have hlast := hrest.before.length_lt.le
  have hbefore := (before_of_item h).length_lt
  have hinside : ∀ n, e.rest.length < n → n < r.rest.length → f n = [] := by
    intro n hlow hhigh
    by_contra hnote
    obtain ⟨d, hd, rfl, -⟩ := hf n (by omega) hhigh hnote
    rcases mem_cons.mp hd with rfl | hd
    · omega
    · exact absurd (hbehind d hd) (by omega)
  have hnote : f e.rest.length = [] ∨
      e.atLineStart = true ∧ IsNote e.lastLine (f e.rest.length) := by
    by_cases hnil : f e.rest.length = []
    · exact .inl hnil
    · obtain ⟨d, hd, hlength, hstart⟩ := hf _ hlast hbefore hnil
      rcases mem_cons.mp hd with rfl | hd
      · exact .inr hstart
      · exact absurd (hbehind d hd) (by omega)
  have hne : e.rest ≠ [] := fun hnil => heof (Reader.peek_of_nil hnil)
  obtain ⟨block, m, hitem, htrailers, rfl⟩ := gives_item.mp h
  obtain ⟨pre, hpre, hsplit, -, m', hitem', htrailers'⟩ :=
    gives_item_noted hitem htrailers hpeek hne hnote (sameView_noted hpast)
  rw [hsplit] at hinside
  refine gives_item.mpr ⟨block, m', ?_, htrailers', rfl⟩
  rw [Reader.noted, hsplit, insertNotes_append hpre hinside]
  exact hitem'

/-- A body is read the same with notes behind its items. -/
theorem BodyRun.noted (h : BodyRun body r ends body' r') (hpast : looksPast r'.peek = false)
    (hf : NotesAt f ends r r') : ∃ ends', BodyRun body (r.noted f) ends' body' (r'.noted f) := by
  induction h with
  | @close body r hpeek =>
    rw [advance_noted hpast hf.noNotes]
    exact ⟨[], .close (by rw [peek_noted, hpeek])⟩
  | @label body body' r r' ends l hpeek hrest ih =>
    have hbefore := Reader.before_advance (r := r) (by rw [hpeek]; simp)
    obtain ⟨hnone, hnotes⟩ := hf.split hbefore.length_lt.le hrest.before.length_lt.le
      fun e he => (hrest.ends_between he).1.length_lt
    obtain ⟨ends', hrun⟩ := ih hpast hnotes
    rw [advance_noted hrest.start.1 hnone] at hrun
    exact ⟨ends', .label (by rw [peek_noted, hpeek]) hrun⟩
  | @record body body' r m r' ends hpeek hskip hrest ih =>
    have hbefore := before_of_skipLine (by rw [hpeek]; simp) hskip
    obtain ⟨hnone, hnotes⟩ := hf.split hbefore.length_lt.le hrest.before.length_lt.le
      fun e he => (hrest.ends_between he).1.length_lt
    have hskip' := (hereditary_true.skipLine (H := (· = .mark '#')) (n := 0)
      (by simp)).inner.frames.noted hpeek hskip hrest.start.1 hnone
    obtain ⟨ends', hrun⟩ := ih hpast hnotes
    exact ⟨ends', .record (by rw [peek_noted, hpeek]) hskip' hrun⟩
  | @item body next body' r e r' ends hitem hrest ih =>
    have hnotes : NotesAt f ends e r' := by
      apply hf.narrow (before_of_item hitem).length_lt.le le_rfl
      intro d hd _ hless
      rcases mem_cons.mp hd with rfl | hd
      · exact absurd hless (lt_irrefl _)
      · exact hd
    obtain ⟨ends', hrun⟩ := ih hpast hnotes
    exact ⟨e.noted f :: ends', .item (item_noted hitem hrest hf) hrun⟩

end

/-! ### A module -/

/-- A definition up to its body. -/
def header : Read Function := do
  advance
  let kind ← linkage
  let f ← signature kind.1 true
  expectMark '\x7b'
  return f

/-- What is left to do of a definition when its body is read. -/
def conclude (f : Function) (body : Body) : Read Unit := do
  let blocks := body.blocks.reverse
  if blocks.isEmpty then fail .noBlocks
  if body.isEntryImplicit && !blocks.any (·.label == implicitEntry f.params) then
    addFunction { f with
      blocks := blocks.map (·.renameLabel (implicitEntry f.params) entryLabel) }
  else
    addFunction { f with blocks := blocks }

theorem definition_eq : (do advance; definition) = (do
    let f ← header
    let body ← bodyFrom ((← get).rest.length + 1) ⟨[], false⟩
    conclude f body) := by
  simp only [definition, header, body, conclude, bind_assoc, pure_bind, ite_bind]

theorem inner_header : Inner header header :=
  (hereditary_true.bind (g := .inner) (n := 0) hereditary_true.advance fun _ =>
    hereditary_true.bind hereditary_true.linkage fun _ =>
    hereditary_true.bind hereditary_true.signature fun _ =>
    hereditary_true.taking rfl hereditary_true.expectMark fun _ => hereditary_true.pure _).frames

/-- No token is taken any more. -/
theorem frames_conclude (f : Function) (body : Body) :
    Frames H (· = []) Q (conclude f body) (conclude f body) := by
  unfold conclude
  dsimp only
  split
  · exact frames_of_not_gives fun _ _ _ => by simp
  · split_ifs
    · exact frames_updateModule (P := (· = [])) rfl
    · exact frames_updateModule (P := (· = [])) rfl

/-- The states behind the instructions and terminators of the entity that is next. -/
def entityEnds (r : Reader) : List Reader :=
  if r.peek = .word "define" then
    match header.run r with
    | .error _ => []
    | .ok (_, m) => bodyEnds (m.rest.length + 1) ⟨[], false⟩ m
  else []

/-- The states behind the instructions and terminators of the rest of a module. -/
def moduleEnds : Nat → Reader → List Reader
  | 0, _ => []
  | fuel + 1, r =>
    match entity.run r with
    | .ok (true, m) => entityEnds r ++ moduleEnds fuel m
    | _ => []

section

variable {f : Nat → List Token} {r m r' e : Reader} {b : Bool} {u : Unit} {n k : Nat}

theorem gives_entity_of_define (h : r.peek = .word "define") : Gives entity r b r' ↔ b = true ∧
    ∃ f m body m', Gives header r f m ∧
      Gives (bodyFrom (m.rest.length + 1) ⟨[], false⟩) m body m' ∧
        Gives (conclude f body) m' () r' := by
  have hsplit : (do advance; definition; return true : Read Bool) =
      (do advance; definition) >>= fun _ => return true := by
    rw [bind_assoc]
  rw [entity, gives_peek_bind, h]
  change Gives (do advance; definition; return true) r b r' ↔ _
  rw [hsplit, definition_eq]
  simp only [gives_bind, gives_get, gives_pure]
  constructor
  · rintro ⟨_, _, ⟨f, m, hheader, _, _, ⟨rfl, rfl⟩, body, m', hbody, hconclude⟩, rfl, rfl⟩
    exact ⟨rfl, f, _, body, m', hheader, hbody, hconclude⟩
  · rintro ⟨rfl, f, m, body, m', hheader, hbody, hconclude⟩
    exact ⟨(), r', ⟨f, m, hheader, m, m, ⟨rfl, rfl⟩, body, m', hbody, hconclude⟩, rfl, rfl⟩

theorem inner_entity : Inner entity entity :=
  (hereditary_true.entity (n := 0) (fun _ _ _ _ _ => trivial) fun _ _ _ => trivial).frames

theorem not_looksPast_of_entity (h : Gives entity r b r') : looksPast r.peek = false := by
  rw [entity, gives_peek_bind] at h
  split at h
  case h_7 w _ _ _ _ _ hpeek =>
    rw [hpeek]
    split_ifs at h with hw
    · exact not_looksPast_of (p := fun w => w.startsWith "$" || w == "module")
        (by decide +kernel) hw
    · exact absurd h not_gives_unexpected
  case h_11 => exact absurd h not_gives_unexpected
  all_goals
    rename_i hpeek
    rw [hpeek]
    rfl

theorem entityEnds_of_define (hpeek : r.peek = .word "define") {g : Function}
    (h : Gives header r g m) : entityEnds r = bodyEnds (m.rest.length + 1) ⟨[], false⟩ m := by
  have hrun : header.run r = .ok (g, m) := h
  rw [entityEnds, if_pos hpeek, hrun]

/-- A definition is read from its header through the run of its body. -/
theorem exists_run_of_define (hpeek : r.peek = .word "define") (h : Gives entity r b r') :
    ∃ g m body m', Gives header r g m ∧ BodyRun ⟨[], false⟩ m (entityEnds r) body m' ∧
      Gives (conclude g body) m' () r' ∧ m'.Passes r' [] := by
  obtain ⟨-, g, m, body, m', hheader, hbody, hconclude⟩ := (gives_entity_of_define hpeek).mp h
  refine ⟨g, m, body, m', hheader, ?_, hconclude, ?_⟩
  · rw [entityEnds_of_define hpeek hheader]
    exact bodyRun_of_gives hbody
  · obtain ⟨_, rfl, hpasses⟩ :=
      (frames_conclude (H := fun _ => True) (Q := SameView) g body).passes trivial hconclude
    exact hpasses

theorem length_le_of_entity (h : Gives entity r b r') : r'.rest.length ≤ r.rest.length :=
  inner_entity.length_le trivial h

theorem entityEnds_between (h : Gives entity r b r') (he : e ∈ entityEnds r) :
    r.Before e ∧ e.Before r' := by
  by_cases hpeek : r.peek = .word "define"
  · obtain ⟨g, m, body, m', hheader, hbody, -, hthird⟩ := exists_run_of_define hpeek h
    obtain ⟨pre, -, hfirst⟩ := inner_header.passes trivial hheader
    obtain ⟨hbefore, hafter⟩ := hbody.ends_between he
    exact ⟨hfirst.trans_before hbefore, hafter.trans_passes hthird⟩
  · rw [entityEnds, if_neg hpeek] at he
    simp at he

theorem definition_noted (hpeek : r.peek = .word "define") (h : Gives entity r b r')
    (hpast : looksPast r'.peek = false) (hf : NotesAt f (entityEnds r) r r') :
    Gives entity (r.noted f) b (r'.noted f) := by
  obtain ⟨rfl, -⟩ := (gives_entity_of_define hpeek).mp h
  obtain ⟨g, m, body, m', hheader, hbody, hconclude, hpasses⟩ := exists_run_of_define hpeek h
  have hrest : m'.rest = r'.rest := hpasses.rest_eq
  obtain ⟨pre, -, hfirst⟩ := inner_header.passes trivial hheader
  have hm : m.rest.length ≤ r.rest.length := by
    rw [hfirst.rest_eq, length_append]
    omega
  have hm' := hbody.before.length_lt
  rw [hrest] at hm'
  obtain ⟨hnone, hnotes⟩ := hf.split hm hm'.le fun e he => (hbody.ends_between he).1.length_lt
  rw [NotesAt, ← hrest] at hnotes
  have hheader' := inner_header.noted trivial hheader hbody.start.1 hnone
  have hpast' : looksPast m'.peek = false := by
    rwa [Reader.peek_eq, hrest, ← Reader.peek_eq]
  obtain ⟨ends', hrun⟩ := hbody.noted hpast' hnotes
  have hconclude' : Gives (conclude g body) (m'.noted f) () (r'.noted f) := by
    obtain ⟨_, rfl, htaken⟩ :=
      frames_conclude (H := fun _ => True) (Q := fun _ _ => True) g body trivial hconclude
    rw [Reader.noted, hrest]
    exact htaken.again _ trivial
  exact (gives_entity_of_define (by rw [peek_noted, hpeek])).mpr
    ⟨rfl, g, m.noted f, body, m'.noted f, hheader', hrun.gives (Nat.lt_succ_self _), hconclude'⟩

theorem entity_noted (h : Gives entity r b r') (hpast : looksPast r'.peek = false)
    (hf : NotesAt f (entityEnds r) r r') : Gives entity (r.noted f) b (r'.noted f) := by
  by_cases hpeek : r.peek = .word "define"
  · exact definition_noted hpeek h hpast hf
  · rw [entityEnds, if_neg hpeek] at hf
    exact inner_entity.noted trivial h hpast hf.noNotes

theorem gives_rounds {step : Read Bool} : Gives (repeatWhile.rounds step (n + 1)) r u r' ↔
    Gives step r false r' ∨
      ∃ m, Gives step r true m ∧ Gives (repeatWhile.rounds step n) m u r' := by
  rw [repeatWhile.rounds, gives_bind]
  constructor
  · rintro ⟨b, m, hstep, hrest⟩
    cases b with
    | true => exact .inr ⟨m, hstep, hrest⟩
    | false =>
      obtain ⟨-, rfl⟩ := gives_pure.mp hrest
      exact .inl hstep
  · rintro (hstep | ⟨m, hstep, hrest⟩)
    · exact ⟨false, r', hstep, gives_pure.mpr ⟨rfl, rfl⟩⟩
    · exact ⟨true, m, hstep, hrest⟩

theorem eq_of_entity_false (h : Gives entity r false r') : r' = r := by
  rw [entity, gives_peek_bind] at h
  split at h
  case h_1 => exact (gives_pure.mp h).2
  case h_7 => split_ifs at h <;> simp at h
  all_goals simp at h

theorem moduleEnds_of_true (h : Gives entity r true m) :
    moduleEnds (n + 1) r = entityEnds r ++ moduleEnds n m := by
  have hrun : entity.run r = .ok (true, m) := h
  rw [moduleEnds, hrun]

theorem moduleEnds_of_false (h : Gives entity r false m) : moduleEnds (n + 1) r = [] := by
  have hrun : entity.run r = .ok (false, m) := h
  rw [moduleEnds, hrun]

theorem moduleEnds_between (h : Gives (repeatWhile.rounds entity n) r u r')
    (he : e ∈ moduleEnds n r) : r.Before e ∧ e.rest ≠ [] := by
  induction n generalizing r with
  | zero => exact absurd h not_gives_fail
  | succ n ih =>
    rcases gives_rounds.mp h with hstep | ⟨m, hstep, hrest⟩
    · rw [moduleEnds_of_false hstep] at he
      simp at he
    · rw [moduleEnds_of_true hstep, mem_append] at he
      rcases he with he | he
      · obtain ⟨hbefore, hafter⟩ := entityEnds_between hstep he
        exact ⟨hbefore, ne_nil_of_length_pos (by have := hafter.length_lt; omega)⟩
      · obtain ⟨pre, -, hpasses⟩ := inner_entity.passes trivial hstep
        obtain ⟨hbefore, hne⟩ := ih hrest he
        exact ⟨hpasses.trans_before hbefore, hne⟩

theorem not_looksPast_of_rounds (h : Gives (repeatWhile.rounds entity n) r u r') :
    looksPast r.peek = false := by
  cases n with
  | zero => exact absurd h not_gives_fail
  | succ n =>
    rcases gives_rounds.mp h with hstep | ⟨m, hstep, -⟩
    · exact not_looksPast_of_entity hstep
    · exact not_looksPast_of_entity hstep

theorem length_le_of_rounds (h : Gives (repeatWhile.rounds entity n) r u r') :
    r'.rest.length ≤ r.rest.length := by
  induction n generalizing r with
  | zero => exact absurd h not_gives_fail
  | succ n ih =>
    rcases gives_rounds.mp h with hstep | ⟨m, hstep, hrest⟩
    · exact length_le_of_entity hstep
    · exact (ih hrest).trans (length_le_of_entity hstep)

/-- A module is read the same with notes behind its items. -/
theorem rounds_entity_noted (h : Gives (repeatWhile.rounds entity n) r u r') (hle : n ≤ k)
    (hf : NotesAt f (moduleEnds n r) r r') :
    Gives (repeatWhile.rounds entity k) (r.noted f) u (r'.noted f) := by
  induction n generalizing r k with
  | zero => exact absurd h not_gives_fail
  | succ n ih =>
    obtain ⟨k, rfl⟩ := exists_eq_succ hle
    rw [gives_rounds]
    rcases gives_rounds.mp h with hstep | ⟨m, hstep, hrest⟩
    · obtain rfl := eq_of_entity_false hstep
      refine .inl (entity_noted hstep (not_looksPast_of_entity hstep) ?_)
      intro n hlow hhigh
      omega
    · rw [moduleEnds_of_true hstep] at hf
      have hpast : looksPast m.peek = false := not_looksPast_of_rounds hrest
      have hm := length_le_of_entity hstep
      refine .inr ⟨m.noted f, entity_noted hstep hpast ?_, ih hrest (Nat.le_of_succ_le_succ hle) ?_⟩
      · apply hf.narrow le_rfl (length_le_of_rounds hrest)
        intro e he hlow _
        rcases mem_append.mp he with he | he
        · exact he
        · exact absurd (moduleEnds_between hrest he).1.length_lt (Nat.not_lt.mpr hlow)
      · apply hf.narrow hm le_rfl
        intro e he _ hhigh
        rcases mem_append.mp he with he | he
        · exact absurd (entityEnds_between hstep he).2.length_lt (Nat.not_lt.mpr hhigh.le)
        · exact he

end

end Read

end Offload.Compiled
