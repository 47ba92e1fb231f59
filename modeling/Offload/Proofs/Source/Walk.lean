import Offload.Proofs.Source.Fault

/-!
# Walks through a token stream

A part of the parser, started with the cursor at a given place, either succeeds, with something
known of its result and of where the cursor ends up, or meets a fault that is excused. What it does
to the rest of the state is left open. Walks compose along `do` blocks, so that one statement about
each part of the parser covers both where it leads and how it can fail.
-/

namespace Offload.Source

open TokenStream Parse

/-- From a cursor at `c` the run ends with `post`, or with a fault that is excused. -/
structure Walks (ts : TokenStream) {α : Type} (x : Parse α) (c : Nat) (post : α → Nat → Prop) :
    Prop where
  ok : ∀ {s a s'}, s.cursor = c → Gives x s a s' → post a s'.cursor
  error : ∀ {s f}, s.cursor = c → x.run s = .error f → ts.Excused f

/-- Such a part never fails and leaves the cursor alone. -/
def Still {α : Type} (x : Parse α) : Prop :=
  ∀ s, ∃ a s', Gives x s a s' ∧ s'.cursor = s.cursor

section

variable {ts : TokenStream} {α β : Type} {x : Parse α} {f : α → Parse β} {c i : Nat}
  {post mid : α → Nat → Prop} {post' : β → Nat → Prop}

/-! ### Composition -/

theorem walks_pure {a : α} (h : post a c) : Walks ts (pure a) c post where
  ok hc hgives := by
    obtain ⟨rfl, rfl⟩ := gives_pure.mp hgives
    rwa [hc]
  error _ hrun := by cases hrun

theorem walks_fault {fault : Fault} (h : ¬ ts.Closed) :
    Walks ts (Parse.fault fault : Parse α) c post where
  ok _ hgives := absurd hgives not_gives_fault
  error _ _ := fun hclosed => absurd hclosed h

theorem walks_read {y : Except Fault α} {p : α → Prop} (h : Reads ts y p)
    (hp : ∀ a, p a → post a c) : Walks ts (liftM y) c post where
  ok hc hgives := by
    obtain ⟨hy, rfl⟩ := gives_liftM.mp hgives
    rw [hc]
    exact hp _ (h.ok _ hy)
  error _ hrun := by
    cases y with
    | error e =>
      cases hrun
      exact h.error _ rfl
    | ok a => cases hrun

theorem Still.walks (h : Still x) (hpost : ∀ a, post a c) : Walks ts x c post where
  ok {s a s'} hc hgives := by
    obtain ⟨b, m, hm, hcursor⟩ := h s
    obtain ⟨-, rfl⟩ := Prod.mk.inj (Except.ok.inj (hgives.symm.trans hm))
    rw [hcursor, hc]
    exact hpost a
  error {s e} _ hrun := by
    obtain ⟨b, m, hm, -⟩ := h s
    cases hm.symm.trans hrun

namespace Walks

theorem mono (h : Walks ts x c mid) (hpost : ∀ a c', mid a c' → post a c') : Walks ts x c post where
  ok hc hgives := hpost _ _ (h.ok hc hgives)
  error := h.error

theorem bind (h : Walks ts x c mid) (hf : ∀ a c', mid a c' → Walks ts (f a) c' post') :
    Walks ts (x >>= f) c post' where
  ok hc hgives := by
    obtain ⟨a, m, hx, hrest⟩ := gives_bind.mp hgives
    exact (hf a m.cursor (h.ok hc hx)).ok rfl hrest
  error hc hrun := by
    rcases run_bind_error hrun with hx | ⟨a, m, hx, hrest⟩
    · exact h.error hc hx
    · exact (hf a m.cursor (h.ok hc hx)).error rfl hrest

theorem read (h : Reads ts y p) (hf : ∀ a, p a → Walks ts (f a) c post') :
    Walks ts (liftM y >>= f) c post' := by
  have hread : Walks ts (liftM y : Parse α) c fun a c' => p a ∧ c' = c :=
    walks_read h fun a ha => ⟨ha, rfl⟩
  refine hread.bind ?_
  rintro a _ ⟨ha, rfl⟩
  exact hf a ha

theorem still (h : Still x) (hf : ∀ a, Walks ts (f a) c post') : Walks ts (x >>= f) c post' := by
  have hstill : Walks ts x c fun _ c' => c' = c := h.walks fun _ => rfl
  refine hstill.bind ?_
  rintro a _ rfl
  exact hf a

/-- Each item of a list in its turn, from wherever the cursor is. -/
theorem mapM {g : α → Parse β} {xs : List α} {p : α → β → Prop}
    (h : ∀ a ∈ xs, ∀ c, Walks ts (g a) c fun b _ => p a b) :
    Walks ts (xs.mapM g) c fun bs _ => List.Forall₂ p xs bs := by
  induction xs generalizing c with
  | nil => exact walks_pure .nil
  | cons a xs ih =>
    rw [List.mapM_cons]
    refine (h a List.mem_cons_self c).bind fun b m hb => ?_
    refine (ih fun a' ha' => h a' (List.mem_cons_of_mem _ ha')).bind fun bs n hbs => ?_
    exact walks_pure (.cons hb hbs)

end Walks

/-! ### Looking at the cursor -/

namespace Walks

theorem cursor {f : Nat → Parse β} (h : Walks ts (f c) c post') :
    Walks ts (Parse.cursor >>= f) c post' where
  ok hc hgives := by
    obtain ⟨_, _, hcursor, hrest⟩ := gives_bind.mp hgives
    obtain ⟨rfl, rfl⟩ := gives_cursor.mp hcursor
    exact h.ok hc (hc ▸ hrest)
  error hc hrun := by
    rcases run_bind_error hrun with hx | ⟨_, _, hcursor, hrest⟩
    · cases hx
    · obtain ⟨rfl, rfl⟩ := gives_cursor.mp hcursor
      exact h.error hc (hc ▸ hrest)

theorem moveTo {f : Unit → Parse β} (h : Walks ts (f ()) i post') :
    Walks ts (Parse.moveTo i >>= f) c post' where
  ok hc hgives := by
    obtain ⟨_, _, hmove, hrest⟩ := gives_bind.mp hgives
    obtain rfl := gives_moveTo.mp hmove
    exact h.ok rfl hrest
  error hc hrun := by
    rcases run_bind_error hrun with hx | ⟨_, _, hmove, hrest⟩
    · cases hx
    · obtain rfl := gives_moveTo.mp hmove
      exact h.error rfl hrest

theorem peek {f : Lexeme → Parse β} (hc : ts.Closed → c < ts.size)
    (h : c < ts.size → Walks ts (f (ts.lexeme c)) c post') :
    Walks ts (Parse.peek ts >>= f) c post' := by
  unfold Parse.peek
  rw [bind_assoc]
  refine cursor ?_
  rw [bind_assoc]
  refine read (reads_token hc) fun t ht => ?_
  obtain ⟨hlt, hlexeme⟩ := lexeme_of_token ht
  rw [pure_bind, ← hlexeme]
  exact h hlt

theorem peekAt {offset : Nat} {f : Lexeme → Parse β}
    (h : Walks ts (f (ts.lexeme (c + offset))) c post') :
    Walks ts (Parse.peekAt ts offset >>= f) c post' := by
  unfold Parse.peekAt
  rw [bind_assoc]
  exact cursor h

theorem at_ {l : Lexeme} {f : Bool → Parse β} (hc : ts.Closed → c < ts.size)
    (h : c < ts.size → Walks ts (f (ts.lexeme c == l)) c post') :
    Walks ts (Parse.at_ ts l >>= f) c post' := by
  unfold Parse.at_
  rw [bind_assoc]
  exact peek hc h

theorem atSymbol {y : Symbol} {f : Bool → Parse β} (hc : ts.Closed → c < ts.size)
    (h : c < ts.size → Walks ts (f (ts.lexeme c == .symbol y)) c post') :
    Walks ts (Parse.atSymbol ts y >>= f) c post' :=
  at_ hc h

theorem atWord {w : String} {f : Bool → Parse β} (hc : ts.Closed → c < ts.size)
    (h : c < ts.size → Walks ts (f (ts.lexeme c == .ident w)) c post') :
    Walks ts (Parse.atWord ts w >>= f) c post' :=
  at_ hc h

theorem atAnyWord {ws : List String} {f : Bool → Parse β} (hc : ts.Closed → c < ts.size)
    (h : ∀ b, (b = true → (ts.lexeme c).isIdent = true) → Walks ts (f b) c post') :
    Walks ts (Parse.atAnyWord ts ws >>= f) c post' := by
  unfold Parse.atAnyWord
  rw [bind_assoc]
  refine peek hc fun _ => ?_
  split
  · rename_i w hw
    exact h _ fun _ => by rw [hw]; rfl
  · exact h _ (by simp)

/-! ### Single steps -/

theorem advance {f : Token → Parse β} (hc : ts.Closed → c < ts.size)
    (h : ∀ t, ts.token c = .ok t → Walks ts (f t) (if c + 1 < ts.size then c + 1 else c) post') :
    Walks ts (Parse.advance ts >>= f) c post' := by
  unfold Parse.advance
  rw [bind_assoc]
  refine cursor ?_
  rw [bind_assoc]
  refine read (reads_token hc) fun t ht => ?_
  have hrest := h t ht
  split_ifs with hlt
  · rw [if_pos hlt] at hrest
    rw [bind_assoc]
    refine moveTo ?_
    rwa [pure_bind]
  · rw [if_neg hlt] at hrest
    exact hrest

/-- A token other than `eof` is left behind. -/
theorem step {f : Token → Parse β} (hend : ts.Ended) (hne : ts.lexeme c ≠ .eof)
    (h : ∀ t, ts.token c = .ok t → c + 1 < ts.size → Walks ts (f t) (c + 1) post') :
    Walks ts (Parse.advance ts >>= f) c post' := by
  have hlt := hend.lt_of_lexeme_ne hne
  refine advance (fun _ => by omega) fun t ht => ?_
  rw [if_pos hlt]
  exact h t ht hlt

theorem eat {y : Symbol} {f : Bool → Parse β} (hend : ts.Ended) (hc : ts.Closed → c < ts.size)
    (hyes : ts.lexeme c = .symbol y → c + 1 < ts.size → Walks ts (f true) (c + 1) post')
    (hno : ts.lexeme c ≠ .symbol y → c < ts.size → Walks ts (f false) c post') :
    Walks ts (Parse.eat ts y >>= f) c post' := by
  unfold Parse.eat
  rw [bind_assoc]
  refine atSymbol hc fun hlt => ?_
  split_ifs with hy
  · have hlexeme : ts.lexeme c = .symbol y := by simpa using hy
    rw [bind_assoc]
    exact step hend (by simp [hlexeme]) fun t _ hnext => hyes hlexeme hnext
  · exact hno (by simpa using hy) hlt

/-- A symbol is passed if it stands there. -/
theorem pass {y : Symbol} {x : Parse β} (hend : ts.Ended) (hc : ts.Closed → c < ts.size)
    (hy : y ≠ .openParen) (h : ∀ c', Passes ts c c' → c' < ts.size → Walks ts x c' post') :
    Walks ts (do let _ ← Parse.eat ts y; x) c post' :=
  eat hend hc (fun hlexeme => h (c + 1) (.step (by simp [hlexeme, hy]))) fun _ => h c (.refl ts c)

end Walks

/-! ### What leaves the cursor alone -/

theorem still_report {problem : Problem} {span : Span} : Still (report problem span) :=
  fun _ => ⟨_, _, rfl, rfl⟩

theorem still_pushScope {vars : List (String × String)} : Still (pushScope vars) :=
  fun _ => ⟨_, _, rfl, rfl⟩

theorem still_popScope : Still popScope := fun _ => ⟨_, _, rfl, rfl⟩

theorem still_exitNesting : Still exitNesting := fun _ => ⟨_, _, rfl, rfl⟩

theorem still_get : Still (get : Parse ParseState) := fun _ => ⟨_, _, rfl, rfl⟩

theorem still_declare {name type : String} : Still (declare name type) := by
  intro s
  refine ⟨(), _, rfl, ?_⟩
  simp only
  split <;> rfl

theorem still_forM {xs : List α} {g : α → Parse PUnit} (h : ∀ a, Still (g a)) :
    Still (xs.forM g) := by
  induction xs with
  | nil => exact fun s => ⟨_, s, rfl, rfl⟩
  | cons a xs ih =>
    intro s
    obtain ⟨_, m, hm, hcursor⟩ := h a s
    obtain ⟨u, n, hn, hcursor'⟩ := ih m
    exact ⟨u, n, gives_bind.mpr ⟨_, m, hm, hn⟩, hcursor'.trans hcursor⟩

namespace Walks

theorem reportHere {problem : Problem} {f : Unit → Parse β} (hc : ts.Closed → c < ts.size)
    (h : Walks ts (f ()) c post') : Walks ts (Parse.reportHere ts problem >>= f) c post' := by
  unfold Parse.reportHere
  rw [bind_assoc]
  refine cursor ?_
  rw [bind_assoc]
  exact read (reads_token hc) fun _ _ => still still_report fun _ => h

theorem enterNesting {f : Bool → Parse β} (hc : ts.Closed → c < ts.size)
    (h : ∀ b, Walks ts (f b) c post') : Walks ts (Parse.enterNesting ts >>= f) c post' := by
  unfold Parse.enterNesting
  rw [bind_assoc]
  have hdeeper : Still (modify fun s => { s with depth := s.depth + 1 } : Parse Unit) :=
    fun _ => ⟨_, _, rfl, rfl⟩
  refine still hdeeper fun _ => ?_
  rw [bind_assoc]
  refine still still_get fun s => ?_
  split_ifs
  · rw [bind_assoc]
    exact reportHere hc (h false)
  · exact h true

end Walks

/-! ### Longer moves -/

theorem walks_path (hend : ts.Ended) {fuel : Nat} (hc : ts.Closed → c < ts.size) :
    Walks ts (path ts fuel) c fun _ c' => Passes ts c c' ∧ (ts.Closed → c' < ts.size) := by
  induction fuel generalizing c with
  | zero => exact walks_pure ⟨.refl ts c, hc⟩
  | succ fuel ih =>
    rw [path]
    refine .peek hc fun _ => ?_
    split
    · rename_i part hpart
      have hfirst : Passes ts c (c + 1) := .step (by simp [hpart])
      refine .step hend (by simp [hpart]) fun _ _ hlt => ?_
      refine .eat hend (fun _ => hlt) (fun hsep hlt' => ?_) fun _ _ => ?_
      · refine (ih fun _ => hlt').bind fun rest c' hrest => ?_
        exact walks_pure ⟨(hfirst.trans (.step (by simp [hsep]))).trans hrest.1, hrest.2⟩
      · exact walks_pure ⟨hfirst, fun _ => hlt⟩
    · exact walks_pure ⟨.refl ts c, hc⟩

theorem walks_findSemicolon (hend : ts.Ended) {fuel : Nat} (hc : ts.Closed → c < ts.size) :
    Walks ts (findSemicolon ts fuel) c fun _ c' =>
      c ≤ c' ∧ (ts.Closed → c' < ts.size) ∧ (ts.Bracketed → Passes ts c c') := by
  induction fuel generalizing c with
  | zero => exact walks_pure ⟨le_rfl, hc, fun _ => .refl ts c⟩
  | succ fuel ih =>
    rw [findSemicolon]
    refine .peek hc fun hlt => ?_
    split_ifs with hstop ho
    · exact walks_pure ⟨le_rfl, hc, fun _ => .refl ts c⟩
    · have hmatching := lt_matching hend ho
      refine .cursor (.moveTo ?_)
      refine .advance (fun hclosed => Nat.lt_of_succ_lt (hclosed c ho)) fun t ht => ?_
      have hsize := (lexeme_of_token ht).1
      refine (ih fun _ => ?_).mono fun _ c' ⟨hle, hsize', hpass⟩ => ⟨?_, hsize', fun hb => ?_⟩
      · split_ifs <;> omega
      · split_ifs at hle <;> omega
      · rw [if_pos (hb.partner c ho).1] at hpass
        exact (Passes.jump hend ho).trans (hpass hb)
    · have hne : ts.lexeme c ≠ .eof := by
        intro heof
        simp [heof] at hstop
      refine .step hend hne fun _ _ hlt' => ?_
      refine (ih fun _ => hlt').mono fun _ c' ⟨hle, hsize, hpass⟩ =>
        ⟨by omega, hsize, fun hb => (Passes.step fun heq => ?_).trans (hpass hb)⟩
      rw [heq] at ho
      exact ho rfl

theorem walks_skipToSemicolon (hend : ts.Ended) (hc : ts.Closed → c < ts.size) :
    Walks ts (skipToSemicolon ts) c fun last c' =>
      c ≤ c' ∧ c' < ts.size ∧ c ≤ last ∧ last < ts.size ∧ (ts.Bracketed → Passes ts c c') := by
  unfold skipToSemicolon
  refine .cursor ?_
  refine (walks_findSemicolon hend hc).bind fun _ m ⟨hle, hsize, hpass⟩ => ?_
  refine .cursor ?_
  refine .pass hend hsize (by simp) fun c' hc' hlt => ?_
  have hle' := hc'.le
  exact walks_pure ⟨by omega, hlt, by omega, by omega, fun hb => (hpass hb).trans hc'⟩

end

end Offload.Source
