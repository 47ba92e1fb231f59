import Offload.Proofs.Source.Walk

/-!
# Walks through blocks, statements and expressions

Where the mutual parsers of blocks and expressions lead. For any tokens a block ends behind its
brace and inside the stream, a statement does not go back, and expressions may leave the cursor
anywhere. Where brackets have partners, the cursor passes whole parentheses, every call that is
found stands before a parenthesis of the stream with its arguments behind it, and every lambda
stands at a bracket with its body behind it.

Of any four levels of recursion in a row one goes on to a later token, so four levels for each token
that is left suffice. With that many no fault is met when every bracket closes, reversed spans
apart.
-/

namespace Offload.Source

open TokenStream Parse

/-- A block that starts at `brace` is parsed, which leads to `next`. -/
structure BlockEnds (ts : TokenStream) (brace : Nat) (b : Block) (next : Nat) : Prop where
  lt : brace < next
  lt_size : next < ts.size
  stands : ts.Bracketed → BlockAt ts brace next b.range ∧ ∀ call ∈ b.calls, CallAt ts call

/-- The statements up to a brace or the end are parsed, which leads from `c` to `next`. -/
structure StmtsEnd (ts : TokenStream) (c : Nat) (xs : List Stmt) (next : Nat) : Prop where
  le : c ≤ next
  lt_size : next < ts.size
  closes : ts.lexeme next = .symbol .closeBrace ∨ ts.lexeme next = .eof
  stand : ts.Bracketed → StmtsAt ts c next xs

/-- A statement is parsed, which leads from `c` to `next`. -/
structure StmtEnds (ts : TokenStream) (c : Nat) (x : Option Stmt) (next : Nat) : Prop where
  le : c ≤ next
  lt_size : ts.Closed → next < ts.size
  moves : ts.lexeme c = .symbol .openParen → c < next
  stands : ts.Bracketed → StmtsAt ts c next x.toList

/-- If an expression is found at `i` before `stop`, there is one, and parsing goes on behind it. -/
def Found (ts : TokenStream) (i stop : Nat) (r : Option (Expr × Nat)) : Prop :=
  ∀ e next, r = some (e, next) → i < next ∧ (ts.Bracketed → ExprsAt ts stop [e])

/-- The mutual parsers of blocks and expressions, run with `fuel` levels. -/
structure BlockWalks (ts : TokenStream) (fuel : Nat) : Prop where
  block : ∀ {c}, ts.lexeme c = .symbol .openBrace → (ts.Closed → 4 * (ts.size - c) ≤ fuel) →
    Walks ts (parseBlock ts fuel) c (BlockEnds ts c)
  stmts : ∀ {c}, (ts.Closed → c < ts.size ∧ 4 * (ts.size - c) + 3 ≤ fuel) →
    Walks ts (parseStmts ts fuel) c (StmtsEnd ts c)
  stmt : ∀ {c}, c < ts.size → (ts.Closed → 4 * (ts.size - c) + 2 ≤ fuel) →
    Walks ts (parseStmt ts fuel) c (StmtEnds ts c)
  vars : ∀ {c start stop v}, Passes ts start stop → start + 2 ≤ v.after → v.after ≤ stop →
    (ts.Closed → stop < ts.size ∧ 4 * (ts.size - start) + 1 ≤ fuel) →
    Walks ts (parseVars ts fuel start stop v) c
      fun r _ => ts.Bracketed → ∀ call ∈ callsOfExprs r.2, CallAt ts call
  exprs : ∀ {c start stop i}, (ts.Closed → 4 * (ts.size - i) + 1 ≤ fuel) →
    Walks ts (scanExprs ts fuel start stop i) c fun es _ => ts.Bracketed → ExprsAt ts stop es
  call : ∀ {c i stop}, i < ts.size → (ts.Closed → 4 * (ts.size - i) ≤ fuel) →
    Walks ts (parseCall ts fuel i stop) c fun r _ => Found ts i stop r
  lambda : ∀ {c i stop}, ts.lexeme i = .symbol .openBracket →
    (ts.Closed → 4 * (ts.size - i) ≤ fuel) →
    Walks ts (parseLambda ts fuel i stop) c fun r _ => Found ts i stop r

section Levels

variable {ts : TokenStream} {fuel c i start stop : Nat}

/-! ### Blocks -/

/-- The end of a block, after its statements. -/
theorem walks_closeBlock (hend : ts.Ended) {brace : Nat} {stmts : List Stmt}
    (hbrace : ts.lexeme brace = .symbol .openBrace) (hlt : brace < c)
    (hc : ts.Closed → c < ts.size)
    (hcloses : ts.Bracketed → ts.lexeme c = .symbol .closeBrace ∨ ts.lexeme c = .eof)
    (hstmts : ts.Bracketed → StmtsAt ts (brace + 1) c stmts) :
    Walks ts (do
      exitNesting
      popScope
      let close ← cursor
      if !(← eat ts .closeBrace) then
        report .unterminatedBlock (← ts.token brace).span
      return .mk (← ts.rangeBetween brace close) stmts : Parse Block) c (BlockEnds ts brace) := by
  have hopen : Passes ts brace (brace + 1) := .step (by simp [hbrace])
  refine .still still_exitNesting fun _ => ?_
  refine .still still_popScope fun _ => ?_
  refine .cursor ?_
  refine .eat hend hc (fun hclose hnext => ?_) fun hne hlast => ?_
  · rw [if_neg (by simp)]
    refine .read (reads_rangeBetween fun _ => by omega) fun range hrange => ?_
    have hlt' : brace < c + 1 := by omega
    refine walks_pure ⟨hlt', hnext, fun hb => ⟨⟨?_, hlt', hnext, c, hrange, .inl rfl⟩,
      (hstmts hb).calls⟩⟩
    exact (hopen.trans (hstmts hb).passes).trans (.step (by simp [hclose]))
  · rw [if_pos (by simp)]
    refine .read (reads_token fun _ => by omega) fun _ _ => ?_
    refine .still still_report fun _ => ?_
    refine .read (reads_rangeBetween fun _ => by omega) fun range hrange => ?_
    refine walks_pure ⟨hlt, hlast, fun hb => ⟨⟨?_, hlt, hlast, c, hrange, .inr ⟨rfl, ?_⟩⟩,
      (hstmts hb).calls⟩⟩
    · exact hopen.trans (hstmts hb).passes
    · exact (hcloses hb).resolve_left hne

theorem walks_block (hend : ts.Ended) (ih : BlockWalks ts fuel)
    (hbrace : ts.lexeme c = .symbol .openBrace) (hfuel : ts.Closed → 4 * (ts.size - c) ≤ fuel + 1) :
    Walks ts (parseBlock ts (fuel + 1)) c (BlockEnds ts c) := by
  have ho : (ts.lexeme c).opens := opens_of_eq hbrace rfl
  rw [parseBlock]
  refine .cursor ?_
  refine .step hend (by simp [hbrace]) fun _ _ hlt => ?_
  refine .still still_pushScope fun _ => ?_
  refine .enterNesting (fun _ => hlt) fun entered => ?_
  split_ifs
  · refine (ih.stmts fun hclosed => ?_).bind fun stmts c' hc' => ?_
    · have := hfuel hclosed
      omega
    · exact walks_closeBlock hend hbrace hc'.le (fun _ => hc'.lt_size) (fun _ => hc'.closes)
        hc'.stand
  · refine .moveTo ?_
    refine walks_closeBlock hend hbrace (lt_matching hend ho)
      (fun hclosed => Nat.lt_of_succ_lt (hclosed c ho)) (fun hb => .inl ?_)
      fun hb => .nil (.inside hend ho (hb.partner c ho).1)
    rw [(hb.partner c ho).2, hbrace]
    rfl

/-! ### Statements -/

theorem walks_stmts (hend : ts.Ended) (ih : BlockWalks ts fuel)
    (h : ts.Closed → c < ts.size ∧ 4 * (ts.size - c) + 3 ≤ fuel + 1) :
    Walks ts (parseStmts ts (fuel + 1)) c (StmtsEnd ts c) := by
  rw [parseStmts]
  refine .peek (fun hclosed => (h hclosed).1) fun hlt => ?_
  split_ifs with hstop
  · exact walks_pure ⟨le_rfl, hlt, by simpa using hstop, fun _ => .nil (.refl ts c)⟩
  have hne : ts.lexeme c ≠ .eof := by
    intro heof
    simp [heof] at hstop
  -- The statements after the first one start at least a token later.
  have hrest : ∀ {m} {x : Option Stmt}, c < m → (ts.Closed → m < ts.size) →
      (ts.Bracketed → StmtsAt ts c m x.toList) → Walks ts (do
        let rest ← parseStmts ts fuel
        return x.toList ++ rest : Parse (List Stmt)) m (StmtsEnd ts c) := by
    intro m x hm hsize hx
    refine (ih.stmts fun hclosed => ?_).bind fun rest c' hc' => ?_
    · have := h hclosed
      have := hsize hclosed
      omega
    · exact walks_pure ⟨hm.le.trans hc'.le, hc'.lt_size, hc'.closes, fun hb =>
        (hx hb).append (hc'.stand hb)⟩
  refine .cursor ?_
  refine (ih.stmt hlt fun hclosed => ?_).bind fun x m hm => ?_
  · have := h hclosed
    omega
  · have hle := hm.le
    refine .cursor ?_
    split_ifs with hstuck
    · -- A statement that does not move does not start at a parenthesis.
      obtain rfl : m = c := by simpa using hstuck
      refine .step hend hne fun _ _ hnext => ?_
      exact hrest (Nat.lt_succ_self m) (fun _ => hnext) fun hb =>
        (hm.stands hb).after (.step fun hparen => (hm.moves hparen).false)
    · have hmoved : m ≠ c := by simpa using hstuck
      exact hrest (by omega) hm.lt_size hm.stands

/-- A compound statement is read as far as its header goes. -/
theorem walks_compoundStmt (hend : ts.Ended) (ih : BlockWalks ts fuel) (hstart : start < ts.size)
    (hword : ts.lexeme start ≠ .symbol .openParen)
    (hfuel : ts.Closed → 4 * (ts.size - start) + 1 ≤ fuel) :
    Walks ts (do
      let (stop, terminated) := ts.headerEnd start
      let last := if terminated then stop else max (stop - 1) start
      let exprs ← scanExprs ts fuel start stop start
      moveTo (if terminated then stop + 1 else stop)
      return some (.other (← ts.spanBetween start last) exprs) : Parse (Option Stmt)) c
        (StmtEnds ts start) := by
  rcases hheader : ts.headerEnd start with ⟨stop, terminated⟩
  obtain ⟨⟨hpass, hinside⟩, hsemicolon⟩ := headerEndFrom_spec hend hheader
  have hsize : ts.Closed → stop < ts.size := fun hclosed => hinside hclosed hstart
  have hle := hpass.le
  have hafter : Passes ts start (if terminated then stop + 1 else stop) := by
    split_ifs with hterminated
    · exact hpass.trans (.step (by simp [hsemicolon hterminated]))
    · exact hpass
  refine (ih.exprs hfuel).bind fun exprs m hexprs => ?_
  refine .moveTo ?_
  refine .read (reads_spanBetween fun hclosed => ?_) fun span _ => ?_
  · have := hsize hclosed
    split_ifs <;> omega
  refine walks_pure ⟨hafter.le, fun hclosed => ?_, fun hparen => absurd hparen hword,
    fun hb => .single hafter (hexprs hb).calls⟩
  split_ifs with hterminated
  · exact hend.lt_of_lexeme_ne (by simp [hsemicolon hterminated])
  · exact hsize hclosed

theorem walks_labelledStmt (hend : ts.Ended) (hstart : start < ts.size)
    (hword : ts.lexeme start ≠ .symbol .openParen) :
    Walks ts (do
      moveTo (ts.labelEnd start)
      let _ ← advance ts
      return some (.other (← ts.spanBetween start (ts.labelEnd start)) []) :
        Parse (Option Stmt)) c (StmtEnds ts start) := by
  obtain ⟨hpass, hinside⟩ := crosses_labelEnd (i := start) hend
  have hsize : ts.Closed → ts.labelEnd start < ts.size := fun hclosed => hinside hclosed hstart
  refine .moveTo (.advance hsize fun t _ => ?_)
  refine .read (reads_spanBetween fun hclosed => ⟨hpass.le, hsize hclosed⟩) fun span _ => ?_
  have hafter : Passes ts start
      (if ts.labelEnd start + 1 < ts.size then ts.labelEnd start + 1 else ts.labelEnd start) := by
    split_ifs
    · exact hpass.trans (.step (lexeme_labelEnd hend))
    · exact hpass
  refine walks_pure ⟨hafter.le, fun hclosed => ?_, fun hparen => absurd hparen hword,
    fun _ => .single hafter (by simp [Stmt.calls, callsOfExprs])⟩
  have := hsize hclosed
  split_ifs <;> omega

/-- A statement that is neither a block nor compound nor labelled. -/
theorem walks_plainStmt (hend : ts.Ended) (ih : BlockWalks ts fuel) (hstart : start < ts.size)
    (hfuel : ts.Closed → 4 * (ts.size - start) + 1 ≤ fuel) {span : Span}
    {first : Option FirstVar}
    (hfirst : ∀ v, first = some v → start + 2 ≤ v.after ∧ v.after ≤ ts.statementEnd start) :
    Walks ts (do
      let stmt ← match first with
        | some v => do
          let (names, exprs) ← parseVars ts fuel start (ts.statementEnd start) v
          names.forM fun n => declare n.value v.type
          pure (Stmt.vars names v.type span exprs)
        | none => do
          pure (Stmt.other span (← scanExprs ts fuel start (ts.statementEnd start) start))
      moveTo (ts.statementEnd start)
      let _ ← eat ts .semicolon
      return some stmt : Parse (Option Stmt)) c (StmtEnds ts start) := by
  obtain ⟨hpass, hinside⟩ := crosses_statementEnd (i := start) hend
  have hsize : ts.Closed → ts.statementEnd start < ts.size := fun hclosed => hinside hclosed hstart
  have hfinish : ∀ {m} {stmt : Stmt},
      (ts.Bracketed → ∀ call ∈ stmt.calls, CallAt ts call) → Walks ts (do
        moveTo (ts.statementEnd start)
        let _ ← eat ts .semicolon
        return some stmt : Parse (Option Stmt)) m (StmtEnds ts start) := by
    intro m stmt hcalls
    refine .moveTo (.pass hend hsize (by simp) fun c' hc' hlt => ?_)
    have hafter := hpass.trans hc'
    exact walks_pure ⟨hafter.le, fun _ => hlt, fun hparen =>
      (lt_statementEnd hend hparen).trans_le hc'.le, fun hb => .single hafter (hcalls hb)⟩
  cases first with
  | some v =>
    obtain ⟨hafter, hstop⟩ := hfirst v rfl
    refine (ih.vars hpass hafter hstop fun hclosed => ⟨hsize hclosed, hfuel hclosed⟩).bind
      fun r m hcalls => ?_
    refine .still (still_forM fun n => still_declare) fun _ => ?_
    exact hfinish hcalls
  | none => exact (ih.exprs hfuel).bind fun exprs m hexprs => hfinish fun hb => (hexprs hb).calls

theorem walks_stmt (hend : ts.Ended) (ih : BlockWalks ts fuel) (hc : c < ts.size)
    (hfuel : ts.Closed → 4 * (ts.size - c) + 2 ≤ fuel + 1) :
    Walks ts (parseStmt ts (fuel + 1)) c (StmtEnds ts c) := by
  have hfuel' : ts.Closed → 4 * (ts.size - c) + 1 ≤ fuel := fun hclosed => by
    have := hfuel hclosed
    omega
  rw [parseStmt]
  refine .atSymbol (fun _ => hc) fun _ => ?_
  split_ifs with hbrace
  · refine (ih.block (by simpa using hbrace) fun hclosed => ?_).bind fun b c' hc' => ?_
    · have := hfuel hclosed
      omega
    · exact walks_pure ⟨hc'.lt.le, fun _ => hc'.lt_size, fun _ => hc'.lt, fun hb =>
        .single (hc'.stands hb).1.passes (hc'.stands hb).2⟩
  refine .eat hend (fun _ => hc) (fun hsemicolon hlt => ?_) fun _ _ => ?_
  · rw [if_pos (by simp)]
    exact walks_pure ⟨Nat.le_succ c, fun _ => hlt, fun _ => Nat.lt_succ_self c, fun _ =>
      .nil (.step (by simp [hsemicolon]))⟩
  rw [if_neg (by simp)]
  refine .cursor (.peek (fun _ => hc) fun _ => ?_)
  extract_lets word
  -- Compound statements and labels start with a word.
  have hword : word.isSome = true → ts.lexeme c ≠ .symbol .openParen := by
    intro hsome hparen
    simp [word, hparen, Lexeme.ident?] at hsome
  split
  · rename_i hcompound
    exact walks_compoundStmt hend ih hc (hword (Option.isSome_of_any hcompound)) hfuel'
  refine .peekAt ?_
  split
  · rename_i hlabel
    refine walks_labelledStmt hend hc (hword ?_)
    simp only [Bool.or_eq_true, Bool.and_eq_true, beq_iff_eq] at hlabel
    rcases hlabel with (heq | heq) | ⟨hsome, -⟩
    · simp [heq]
    · simp [heq]
    · exact hsome
  refine .read (reads_spanBetween fun hclosed => ?_) fun span _ => ?_
  · have := (crosses_statementEnd hend).lt_size hclosed hc
    omega
  split_ifs
  · have hnone : ∀ v : FirstVar, none = some v →
        c + 2 ≤ v.after ∧ v.after ≤ ts.statementEnd c := by simp
    rw [pure_bind]
    exact walks_plainStmt hend ih hc hfuel' hnone
  · refine .read (reads_firstVar? fun hclosed => ?_) fun first hfirst => ?_
    · exact ((crosses_statementEnd hend).lt_size hclosed hc).le
    · exact walks_plainStmt hend ih hc hfuel' hfirst

/-- The names of a declaration after the first one, each with its initializer. -/
theorem walks_otherVars (ih : BlockWalks ts fuel) {groups : List (Nat × Nat)}
    (h : ts.Closed → ∀ g ∈ groups, start ≤ g.1 ∧ g.2 ≤ ts.size)
    (hfuel : ts.Closed → start < ts.size ∧ 4 * (ts.size - start) ≤ fuel) :
    Walks ts (groups.mapM fun g => do
      match ts.find? g.1 g.2 Lexeme.isIdent with
      | none => pure ([], [])
      | some x =>
        let name : Located String := ⟨(ts.lexeme x).spelling, (← ts.token x).span⟩
        pure ([name], ← scanExprs ts fuel (x + 1) g.2 (x + 1)) :
          Parse (List (List (Located String) × List Expr))) c
        fun others _ => ts.Bracketed → ∀ e ∈ others.flatMap (·.2), ∀ call ∈ e.calls,
          CallAt ts call := by
  refine (Walks.mapM (p := fun g other => ts.Bracketed → ExprsAt ts g.2 other.2)
    fun g hg m => ?_).mono ?_
  · cases hx : ts.find? g.1 g.2 Lexeme.isIdent with
    | none => exact walks_pure fun _ => .nil
    | some x =>
      obtain ⟨hle, hlt⟩ := find?_bounds hx
      refine .read (reads_token fun hclosed => ?_) fun t _ => ?_
      · have := h hclosed g hg
        omega
      · refine (ih.exprs fun hclosed => ?_).bind fun exprs n hexprs => walks_pure hexprs
        have := h hclosed g hg
        have := hfuel hclosed
        omega
  · intro others _ hothers hb e he call hcall
    obtain ⟨other, hother, he⟩ := List.mem_flatMap.mp he
    obtain ⟨g, -, hexprs⟩ := mem_of_forall₂_right hothers hother
    exact (hexprs hb).calls call (mem_callsOfExprs.mpr ⟨e, he, hcall⟩)

theorem walks_vars (hend : ts.Ended) (ih : BlockWalks ts fuel) {v : FirstVar}
    (hpass : Passes ts start stop) (hafter : start + 2 ≤ v.after) (hstop : v.after ≤ stop)
    (h : ts.Closed → stop < ts.size ∧ 4 * (ts.size - start) + 1 ≤ fuel + 1) :
    Walks ts (parseVars ts (fuel + 1) start stop v) c
      fun r _ => ts.Bracketed → ∀ call ∈ callsOfExprs r.2, CallAt ts call := by
  have hgroups : ts.Closed → ∀ g ∈ (ts.splitTopLevel start stop).drop 1,
      start ≤ g.1 ∧ g.2 ≤ ts.size := by
    intro hclosed g hg
    obtain ⟨hin, hle⟩ :=
      (splitTopLevel_groups hend hpass (by omega)).1 g (List.mem_of_mem_drop hg)
    exact ⟨hle, hin.le.trans (h hclosed).1.le⟩
  have hfuel : ts.Closed → start < ts.size ∧ 4 * (ts.size - start) ≤ fuel := by
    intro hclosed
    have := h hclosed
    omega
  rw [parseVars]
  refine .read (reads_token fun hclosed => ?_) fun t _ => ?_
  · have := h hclosed
    omega
  simp only
  have hnone : Walks ts (pure []) c fun es _ => ts.Bracketed → ExprsAt ts stop es :=
    walks_pure fun _ => .nil
  have hfirst : ts.Closed → 4 * (ts.size - v.after) + 1 ≤ fuel := by
    intro hclosed
    have := h hclosed
    omega
  split_ifs
  on_goal 1 => refine (ih.exprs hfirst).bind fun exprs m hexprs => ?_
  on_goal 2 => refine hnone.bind fun exprs m hexprs => ?_
  all_goals
    refine (walks_otherVars ih hgroups hfuel).bind fun others n hothers => walks_pure ?_
    intro hb call hcall
    obtain ⟨e, he, hcall⟩ := mem_callsOfExprs.mp hcall
    rcases List.mem_append.mp he with he | he
    · exact (hexprs hb).calls call (mem_callsOfExprs.mpr ⟨e, he, hcall⟩)
    · exact hothers hb e he call hcall

/-! ### Expressions -/

/-- Expressions further on take less. -/
theorem BlockWalks.exprs_of_lt {j : Nat} (ih : BlockWalks ts fuel) (hi : i < ts.size)
    (hfuel : ts.Closed → 4 * (ts.size - i) ≤ fuel) (hj : i < j) :
    Walks ts (scanExprs ts fuel start stop j) c fun es _ => ts.Bracketed → ExprsAt ts stop es := by
  refine ih.exprs fun hclosed => ?_
  have := hfuel hclosed
  omega

/-- An expression and those behind it. -/
theorem BlockWalks.found {e : Expr} {next : Nat} (ih : BlockWalks ts fuel) (hi : i < ts.size)
    (hfuel : ts.Closed → 4 * (ts.size - i) ≤ fuel)
    (he : i < next ∧ (ts.Bracketed → ExprsAt ts stop [e])) :
    Walks ts (do return e :: (← scanExprs ts fuel start stop next) : Parse (List Expr)) c
      fun es _ => ts.Bracketed → ExprsAt ts stop es :=
  (ih.exprs_of_lt hi hfuel he.1).bind fun _ _ hes => walks_pure fun hb => (he.2 hb).append (hes hb)

theorem walks_exprs (ih : BlockWalks ts fuel)
    (hfuel : ts.Closed → 4 * (ts.size - i) + 1 ≤ fuel + 1) :
    Walks ts (scanExprs ts (fuel + 1) start stop i) c
      fun es _ => ts.Bracketed → ExprsAt ts stop es := by
  rw [scanExprs]
  split
  · exact walks_pure fun _ => .nil
  rename_i hinside
  obtain ⟨-, hnext⟩ : i < stop ∧ i + 1 < ts.size := by simpa [atEnd] using hinside
  have hi : i < ts.size := Nat.lt_of_succ_lt hnext
  have hfuel' : ts.Closed → 4 * (ts.size - i) ≤ fuel := fun hclosed =>
    Nat.le_of_succ_le_succ (hfuel hclosed)
  split
  case h_1 hbracket =>
    split_ifs
    · refine (ih.lambda hbracket hfuel').bind fun r m hr => ?_
      rcases r with _ | ⟨e, next⟩
      · exact ih.exprs_of_lt hi hfuel' (Nat.lt_succ_self i)
      · exact ih.found hi hfuel' (hr e next rfl)
    · exact ih.exprs_of_lt hi hfuel' (Nat.lt_succ_self i)
  case h_2 | h_3 =>
    refine (ih.call hi hfuel').bind fun r m hr => ?_
    rcases r with _ | ⟨e, next⟩
    · simp only
      split <;> exact ih.exprs_of_lt hi hfuel' (by omega)
    · exact ih.found hi hfuel' (hr e next rfl)
  case h_4 => exact ih.exprs_of_lt hi hfuel' (Nat.lt_succ_self i)

theorem walks_call (hend : ts.Ended) (ih : BlockWalks ts fuel) (hi : i < ts.size)
    (hfuel : ts.Closed → 4 * (ts.size - i) ≤ fuel + 1) :
    Walks ts (parseCall ts (fuel + 1) i stop) c fun r _ => Found ts i stop r := by
  rw [parseCall]
  split
  · exact walks_pure (by simp [Found])
  · rename_i callee paren close hcall
    obtain ⟨hparen, rfl⟩ := callShape?_paren hcall
    have ho := opens_of_eq hparen rfl
    have hle := callShape?_le hend hcall
    have hlt := lt_matching hend ho
    refine (Walks.mapM (p := fun g arg => ts.spanBetween g.1 (g.2 - 1) = .ok arg.span ∧
      (ts.Bracketed → ExprsAt ts g.2 arg.exprs)) fun g hg m => ?_).bind fun args m hargs => ?_
    · refine .read (reads_spanBetween fun hclosed => ?_) fun span hspan => ?_
      · have := hclosed.group hend ho hg
        omega
      · refine (ih.exprs fun hclosed => ?_).bind fun es n hes => walks_pure ⟨hspan, hes⟩
        have := hclosed.group hend ho hg
        have := hfuel hclosed
        omega
    · refine .read (reads_spanBetween fun hclosed => ?_) fun span _ => ?_
      · have := hclosed paren ho
        omega
      · refine walks_pure fun e next heq => ?_
        cases heq
        refine ⟨by omega, fun hb => .single trivial (List.forall_mem_cons.mpr
          ⟨⟨paren, hparen, fun arg harg => ?_⟩, fun call hcall => ?_⟩)⟩
        · obtain ⟨g, hg, hspan, hexprs⟩ := mem_of_forall₂_right hargs harg
          exact ⟨g, hg, hspan, (hexprs hb).exprs⟩
        · obtain ⟨arg, harg, hcall⟩ := mem_callsOfArgs.mp hcall
          obtain ⟨g, -, -, hexprs⟩ := mem_of_forall₂_right hargs harg
          exact (hexprs hb).calls call hcall

theorem walks_lambda (hend : ts.Ended) (ih : BlockWalks ts fuel)
    (hbracket : ts.lexeme i = .symbol .openBracket)
    (hfuel : ts.Closed → 4 * (ts.size - i) ≤ fuel + 1) :
    Walks ts (parseLambda ts (fuel + 1) i stop) c fun r _ => Found ts i stop r := by
  have ho := opens_of_eq hbracket rfl
  have hclose := lt_matching hend ho
  rw [parseLambda]
  refine .read (reads_lambdaShape? hend hbracket).and_eq fun shape? hread => ?_
  obtain ⟨hbrackets, hread⟩ := hread
  split
  · exact walks_pure (by simp [Found])
  · rename_i shape
    have hhead := lambdaShape?_head hend hbracket hread
    have hlt := hhead.lt
    refine .still still_pushScope fun _ => .moveTo ?_
    refine (ih.block hhead.opens fun hclosed => ?_).bind fun body next hbody => ?_
    · have := hfuel hclosed
      have := hend.lt_of_opens ho
      omega
    have hnext := hbody.lt
    have hsize := hbody.lt_size
    refine .cursor (.still still_popScope fun _ => .still still_get fun _ => ?_)
    refine .read (reads_captures fun _ k hk => ?_) fun captures _ => ?_
    · have := List.mem_range'_1.mp hk
      omega
    refine .read (reads_spanBetween fun _ => by omega) fun span hspan => ?_
    refine .read (reads_spanBetween fun hclosed => ?_) fun introducer _ => ?_
    · rw [hbrackets shape rfl]
      exact ⟨hclose.le, Nat.lt_of_succ_lt (hclosed i ho)⟩
    · rw [Nat.max_eq_left (by omega)] at hspan
      refine walks_pure fun e next' heq => ?_
      cases heq
      refine ⟨by omega, fun hb => ?_⟩
      obtain ⟨hblock, hcalls⟩ := hbody.stands hb
      exact .single ⟨i, shape, next, hbracket, hread, hspan, hblock⟩ hcalls

end Levels

/-- Every level of the recursion walks well. -/
theorem blockWalks {ts : TokenStream} (hend : ts.Ended) (fuel : Nat) : BlockWalks ts fuel := by
  induction fuel with
  | zero =>
    -- No level is left only where some bracket does not close.
    constructor
    all_goals
      intros
      simp only [parseBlock, parseStmts, parseStmt, parseVars, scanExprs, parseCall, parseLambda]
      refine walks_fault fun hclosed => ?_
      have := ‹ts.Closed → _› hclosed
      first
        | omega
        | have := hend.lt_of_opens (opens_of_eq ‹ts.lexeme _ = _› rfl)
          omega
  | succ fuel ih =>
    exact {
      block := walks_block hend ih
      stmts := walks_stmts hend ih
      stmt := walks_stmt hend ih
      vars := walks_vars hend ih
      exprs := walks_exprs ih
      call := walks_call hend ih
      lambda := walks_lambda hend ih }

end Offload.Source
