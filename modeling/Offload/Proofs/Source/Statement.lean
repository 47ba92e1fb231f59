import Offload.Proofs.Source.Cursor
import Offload.Source.Statement

/-!
# Blocks and the calls in them

The parser's cursor passes whole parentheses through blocks and statements, also where a label or a
lambda leads it past their ends. Every call that is found stands before a parenthesis of the stream,
its arguments are the groups between that parenthesis and its partner, and a lambda is found at a
bracket with its body behind it.
-/

namespace Offload.Source

namespace TokenStream

variable {ts : TokenStream} {i j k stop fuel : Nat}

/-! ### Scans -/

theorem passGroup_cases (ts : TokenStream) (i : Nat) :
    (ts.lexeme i).opens ∧ ts.passGroup i = ts.matching i ∨
      ts.lexeme i ≠ .symbol .openParen ∧ ts.passGroup i = i := by
  unfold passGroup
  split_ifs with h
  · rcases Bool.or_eq_true_iff.mp h with h | h
    · exact .inl ⟨opens_of_eq (beq_iff_eq.mp h) rfl, rfl⟩
    · exact .inl ⟨opens_of_eq (beq_iff_eq.mp h) rfl, rfl⟩
  · exact .inr ⟨fun heq => h (by simp [heq]), rfl⟩

theorem passes_passGroup (hend : ts.Ended) (i : Nat) : Passes ts i (ts.passGroup i + 1) := by
  rcases passGroup_cases ts i with ⟨ho, heq⟩ | ⟨hne, heq⟩ <;> rw [heq]
  · exact .jump hend ho
  · exact .step hne

theorem crosses_passGroup (hend : ts.Ended) (hi : ¬ ts.atEnd i = true) :
    Crosses ts i (ts.passGroup i + 1) := by
  rcases passGroup_cases ts i with ⟨ho, heq⟩ | ⟨hne, heq⟩ <;> rw [heq]
  · exact .jump hend ho
  · exact .step hne hi

theorem le_passGroup (hend : ts.Ended) (i : Nat) : i ≤ ts.passGroup i := by
  rcases passGroup_cases ts i with ⟨ho, heq⟩ | ⟨-, heq⟩ <;> rw [heq]
  exact (lt_matching hend ho).le

theorem crosses_statementEndFrom (hend : ts.Ended) : Crosses ts i (ts.statementEndFrom fuel i) := by
  induction fuel generalizing i with
  | zero => exact .refl ts i
  | succ fuel ih =>
    rw [statementEndFrom]
    simp only
    split_ifs with hlast
    · exact .refl ts i
    · exact .refl ts i
    · exact (Crosses.jump hend ‹_›).trans ih
    · refine (Crosses.step (fun heq => ?_) hlast).trans ih
      simp_all [Lexeme.opens, Symbol.opens]

theorem crosses_statementEnd (hend : ts.Ended) : Crosses ts i (ts.statementEnd i) :=
  crosses_statementEndFrom hend

theorem lt_statementEnd (hend : ts.Ended) (h : ts.lexeme i = .symbol .openParen) :
    i < ts.statementEnd i := by
  have ho : (ts.lexeme i).opens := opens_of_eq h rfl
  have hlast : ts.atEnd i = false := by
    have := hend.lt_of_opens ho
    simp [atEnd, this]
  have hpass : Passes ts (ts.matching i + 1) (ts.statementEnd i) := by
    rw [statementEnd, statementEndFrom, hlast, h]
    exact (crosses_statementEndFrom hend).passes
  have := hpass.le
  have := lt_matching hend ho
  omega

theorem crosses_labelEndFrom (hend : ts.Ended) : Crosses ts i (ts.labelEndFrom fuel i) := by
  induction fuel generalizing i with
  | zero => exact .refl ts i
  | succ fuel ih =>
    rw [labelEndFrom]
    split_ifs with hstop
    · exact .refl ts i
    · exact (crosses_passGroup hend fun hlast => hstop (by simp [hlast])).trans ih

theorem crosses_labelEnd (hend : ts.Ended) : Crosses ts i (ts.labelEnd i) := crosses_labelEndFrom hend

/-- A label ends at a colon, or the stream does. -/
theorem labelEndFrom_stops (hend : ts.Ended) (h : ts.size ≤ i + fuel) :
    ts.size ≤ ts.labelEndFrom fuel i + 1 ∨ ts.lexeme (ts.labelEndFrom fuel i) = .symbol .colon := by
  induction fuel generalizing i with
  | zero => exact .inl (by rw [labelEndFrom]; omega)
  | succ fuel ih =>
    rw [labelEndFrom]
    split_ifs with hstop
    · rcases Bool.or_eq_true_iff.mp hstop with hlast | hcolon
      · exact .inl (by simpa [atEnd] using hlast)
      · exact .inr (by simpa using hcolon)
    · have := le_passGroup hend i
      exact ih (by omega)

theorem lexeme_labelEnd (hend : ts.Ended) : ts.lexeme (ts.labelEnd i) ≠ .symbol .openParen := by
  have hstops : ts.size ≤ ts.labelEnd i + 1 ∨ ts.lexeme (ts.labelEnd i) = .symbol .colon :=
    labelEndFrom_stops hend (by omega)
  rcases hstops with hlast | hcolon
  · rw [lexeme_of_size_le hlast, hend]
    simp
  · rw [hcolon]
    simp

theorem headerEndFrom_spec (hend : ts.Ended) {terminated : Bool}
    (h : ts.headerEndFrom fuel i = (j, terminated)) :
    Crosses ts i j ∧ (terminated = true → ts.lexeme j = .symbol .semicolon) := by
  induction fuel generalizing i with
  | zero =>
    obtain ⟨rfl, rfl⟩ := Prod.mk.inj h
    exact ⟨.refl ts i, by simp⟩
  | succ fuel ih =>
    rw [headerEndFrom] at h
    split_ifs at h with hlast
    · obtain ⟨rfl, rfl⟩ := Prod.mk.inj h
      exact ⟨.refl ts i, by simp⟩
    · split at h
      · obtain ⟨rfl, rfl⟩ := Prod.mk.inj h
        exact ⟨.refl ts i, by simp⟩
      · obtain ⟨rfl, rfl⟩ := Prod.mk.inj h
        exact ⟨.refl ts i, by simp⟩
      · rename_i hsemicolon
        obtain ⟨rfl, rfl⟩ := Prod.mk.inj h
        exact ⟨.refl ts i, fun _ => hsemicolon⟩
      · obtain ⟨hcross, hsemicolon⟩ := ih h
        exact ⟨(crosses_passGroup hend hlast).trans hcross, hsemicolon⟩

/-! ### The head of a lambda -/

theorem passes_resultTypeEnd (hend : ts.Ended) :
    Passes ts i (lambdaSpecifiersFrom.resultTypeEnd ts stop fuel i) := by
  induction fuel generalizing i with
  | zero => exact .refl ts i
  | succ fuel ih =>
    rw [lambdaSpecifiersFrom.resultTypeEnd]
    split_ifs
    · exact (passes_passGroup hend i).trans ih
    · exact .refl ts i

theorem passes_lambdaSpecifiersFrom (hend : ts.Ended) :
    Passes ts i (ts.lambdaSpecifiersFrom stop fuel i) := by
  induction fuel generalizing i with
  | zero => exact .refl ts i
  | succ fuel ih =>
    rw [lambdaSpecifiersFrom]
    by_cases hlt : i < stop
    · rw [if_pos hlt]
      split
      · rename_i w hw
        have hstep : Passes ts i (i + 1) := .step (by simp [hw])
        split_ifs with hplain hcall hparen
        · exact hstep.trans ih
        · exact (hstep.trans (.jump hend (opens_of_eq (beq_iff_eq.mp hparen) rfl))).trans ih
        · exact hstep.trans ih
        · exact .refl ts i
      · rename_i harrow
        have hstep : Passes ts i (i + 1) := .step (by simp [harrow])
        exact (hstep.trans (passes_resultTypeEnd hend)).trans ih
      · exact .refl ts i
    · rw [if_neg hlt]
      exact .refl ts i

/-- The tokens between a lambda's bracket and the brace of its body, which stands before `stop`. -/
structure HeadTo (ts : TokenStream) (stop i brace : Nat) : Prop where
  bracket : ts.lexeme i = .symbol .openBracket
  passes : Passes ts i brace
  lt : i < brace
  lt_stop : brace < stop
  opens : ts.lexeme brace = .symbol .openBrace

theorem lambdaParams?_passes (hend : ts.Ended) {params : List Param} {span : Option Span}
    (h : ts.lambdaParams? j stop = .ok (some (params, span, k))) : Passes ts j k := by
  unfold lambdaParams? at h
  split_ifs at h with hparen
  · simp only at h
    split_ifs at h with hclose
    · cases h
    · simp only [except_bind_ok] at h
      obtain ⟨ps, -, sp, -, h⟩ := h
      cases h
      exact .jump hend (opens_of_eq (beq_iff_eq.mp hparen) rfl)
  · cases h
    exact .refl ts j

theorem lambdaShape?_head (hend : ts.Ended) {shape : LambdaShape}
    (hi : ts.lexeme i = .symbol .openBracket)
    (h : ts.lambdaShape? i stop = .ok (some shape)) : HeadTo ts stop i shape.brace := by
  have ho : (ts.lexeme i).opens := opens_of_eq hi rfl
  have hlt := lt_matching hend ho
  unfold lambdaShape? at h
  simp only at h
  by_cases hclose : stop ≤ ts.matching i
  · rw [if_pos hclose] at h
    cases h
  rw [if_neg hclose, except_bind_ok] at h
  obtain ⟨list, -, h⟩ := h
  split at h
  · cases h
  · rename_i j hj
    have htemplate : Passes ts (ts.matching i + 1) j := by
      split_ifs at hj with hless
      · obtain ⟨close, hangle, rfl⟩ := Option.map_eq_some_iff.mp hj
        exact (crosses_of_matchingAngle hend hangle).passes
      · obtain rfl := Option.some.inj hj
        exact .refl ts _
    obtain ⟨r, hparams, h⟩ := except_bind_ok.mp h
    split at h
    · cases h
    · rename_i params paramsSpan k
      split_ifs at h with hbrace
      · cases h
      obtain rfl := Option.some.inj (Except.ok.inj h)
      have hspecifiers : Passes ts k (ts.lambdaSpecifiersFrom stop (stop - k + 1) k) :=
        passes_lambdaSpecifiersFrom hend
      have hrest := (htemplate.trans (lambdaParams?_passes hend hparams)).trans hspecifiers
      simp only [Bool.or_eq_true, decide_eq_true_eq, bne_iff_ne, ne_eq, not_or, not_le,
        not_not] at hbrace
      exact ⟨hi, (Passes.jump hend ho).trans hrest, hlt.trans hrest.le, hbrace.1, hbrace.2⟩

end TokenStream

/-! ### Calls of a tree -/

theorem mem_callsOfExprs {es : List Expr} {c : Call} :
    c ∈ callsOfExprs es ↔ ∃ e ∈ es, c ∈ e.calls := by
  induction es with
  | nil => simp [callsOfExprs]
  | cons e es ih => simp [callsOfExprs, ih]

theorem callsOfStmts_append (xs ys : List Stmt) :
    callsOfStmts (xs ++ ys) = callsOfStmts xs ++ callsOfStmts ys := by
  induction xs with
  | nil => rfl
  | cons x xs ih => simp [callsOfStmts, ih]

theorem mem_callsOfArgs {args : List Arg} {c : Call} :
    c ∈ callsOfArgs args ↔ ∃ arg ∈ args, c ∈ callsOfExprs arg.exprs := by
  induction args with
  | nil => simp [callsOfArgs]
  | cons arg args ih =>
    obtain ⟨span, exprs⟩ := arg
    simp [callsOfArgs, Arg.calls, Arg.exprs, ih]

namespace TokenStream

/-! ### Where blocks, lambdas and calls stand -/

/-- A block that starts at `brace`, with the cursor at `next` after it. -/
structure BlockAt (ts : TokenStream) (brace next : Nat) (range : SourceRange) : Prop where
  passes : Passes ts brace next
  lt : brace < next
  lt_size : next < ts.size
  between : ∃ close, ts.rangeBetween brace close = .ok range ∧
    (next = close + 1 ∨ next = close ∧ ts.lexeme close = .eof)

/-- A lambda whose body starts before `stop`. -/
structure LambdaAt (ts : TokenStream) (stop : Nat) (head : LambdaHead) (body : Block) : Prop where
  found : ∃ i shape next, ts.lexeme i = .symbol .openBracket ∧
    ts.lambdaShape? i stop = .ok (some shape) ∧ ts.spanBetween i (next - 1) = .ok head.span ∧
      BlockAt ts shape.brace next body.range

def ExprAt (ts : TokenStream) (stop : Nat) : Expr → Prop
  | .lambda head body => LambdaAt ts stop head body
  | .call _ _ => True

/-- The argument that a group of tokens makes up. -/
structure ArgAt (ts : TokenStream) (g : Nat × Nat) (arg : Arg) : Prop where
  span : ts.spanBetween g.1 (g.2 - 1) = .ok arg.span
  exprs : ∀ e ∈ arg.exprs, ExprAt ts g.2 e

/-- A call whose arguments stand between a parenthesis and its partner. -/
def CallAt (ts : TokenStream) (call : Call) : Prop :=
  ∃ p, ts.lexeme p = .symbol .openParen ∧
    ∀ arg ∈ call.args, ∃ g ∈ ts.groups (p + 1) (ts.matching p), ArgAt ts g arg

/-- The expressions found before `stop`, and all calls in them. -/
structure ExprsAt (ts : TokenStream) (stop : Nat) (es : List Expr) : Prop where
  exprs : ∀ e ∈ es, ExprAt ts stop e
  calls : ∀ c ∈ callsOfExprs es, CallAt ts c

namespace ExprsAt

variable {ts : TokenStream} {stop : Nat} {e : Expr} {es es' : List Expr}

theorem nil : ExprsAt ts stop [] := ⟨by simp, by simp [callsOfExprs]⟩

theorem single (he : ExprAt ts stop e) (hcalls : ∀ c ∈ e.calls, CallAt ts c) :
    ExprsAt ts stop [e] := ⟨by simpa using he, by simpa [callsOfExprs] using hcalls⟩

theorem append (h : ExprsAt ts stop es) (h' : ExprsAt ts stop es') :
    ExprsAt ts stop (es ++ es') where
  exprs := List.forall_mem_append.mpr ⟨h.exprs, h'.exprs⟩
  calls c hc := by
    obtain ⟨e, he, hc⟩ := mem_callsOfExprs.mp hc
    rcases List.mem_append.mp he with he | he
    · exact h.calls c (mem_callsOfExprs.mpr ⟨e, he, hc⟩)
    · exact h'.calls c (mem_callsOfExprs.mpr ⟨e, he, hc⟩)

end ExprsAt

/-- Statements that stand between `c` and `c'`. -/
structure StmtsAt (ts : TokenStream) (c c' : Nat) (xs : List Stmt) : Prop where
  passes : Passes ts c c'
  calls : ∀ call ∈ callsOfStmts xs, CallAt ts call

namespace StmtsAt

variable {ts : TokenStream} {c c' m : Nat} {xs ys : List Stmt}

theorem nil (h : Passes ts c c') : StmtsAt ts c c' [] := ⟨h, by simp [callsOfStmts]⟩

theorem after (h : StmtsAt ts c m xs) (hpass : Passes ts m c') : StmtsAt ts c c' xs :=
  ⟨h.passes.trans hpass, h.calls⟩

theorem append (h : StmtsAt ts c m xs) (h' : StmtsAt ts m c' ys) : StmtsAt ts c c' (xs ++ ys) where
  passes := h.passes.trans h'.passes
  calls call hcall := by
    rw [callsOfStmts_append] at hcall
    rcases List.mem_append.mp hcall with hcall | hcall
    · exact h.calls call hcall
    · exact h'.calls call hcall

theorem single {x : Stmt} (h : Passes ts c c') (hcalls : ∀ call ∈ x.calls, CallAt ts call) :
    StmtsAt ts c c' [x] := ⟨h, by simpa [callsOfStmts] using hcalls⟩

end StmtsAt

theorem callShape?_paren {ts : TokenStream} {i stop paren close : Nat} {callee : List String}
    (h : ts.callShape? i stop = some (callee, paren, close)) :
    ts.lexeme paren = .symbol .openParen ∧ close = ts.matching paren := by
  unfold callShape? at h
  split at h
  · cases h
  · simp only at h
    split_ifs at h with hname hparen hclose
    cases h
    simp only [Bool.or_eq_true, decide_eq_true_eq, bne_iff_ne, ne_eq, not_or, not_not] at hparen
    exact ⟨hparen.2, rfl⟩

end TokenStream

end Offload.Source
