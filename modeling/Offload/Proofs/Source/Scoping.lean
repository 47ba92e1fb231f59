import Offload.Proofs.Source.Cursor
import Offload.Source.Statement

/-!
# Scopes of variables

A block opens a scope and closes it again, and so does a lambda for its parameters. Between them
only a statement that declares variables changes what is in scope, and only in the innermost scope.
So whatever is parsed inside of a block or a lambda, the same variables are found behind it as
before it.
-/

namespace Offload.Source

open TokenStream Parse

/-- What a parser knows of the scopes: how deep it is, and the variables of each scope. -/
def ParseState.scopes (s : ParseState) : Nat × Locals := (s.depth, s.locals)

/-- Each run that succeeds leaves the nesting depth and all scopes as they were. -/
def KeepsScope {α : Type} (x : Parse α) : Prop := ∀ ⦃s a s'⦄, Gives x s a s' → s'.scopes = s.scopes

/-- The scopes with more variables in the innermost one, if there is a scope. -/
def Locals.declaring (vars : List (String × String)) : Locals → Locals
  | [] => []
  | scope :: outer => (vars ++ scope) :: outer

/-- The variables that a statement adds to the scope it stands in, newest first. -/
def Stmt.declared : Stmt → List (String × String)
  | .vars names type _ _ => (names.map fun n => (n.value, type)).reverse
  | .block _ | .other _ _ => []

def declaredBy : List Stmt → List (String × String)
  | [] => []
  | x :: rest => declaredBy rest ++ x.declared

/-- Each run that succeeds leaves the nesting depth as it was and adds the variables of its result
to the innermost scope. -/
def Declares {α : Type} (vars : α → List (String × String)) (x : Parse α) : Prop :=
  ∀ ⦃s a s'⦄, Gives x s a s' → s'.scopes = (s.depth, s.locals.declaring (vars a))

section

variable {ts : TokenStream} {α β : Type} {x : Parse α} {f : α → Parse β} {fuel : Nat}
  {vars : β → List (String × String)} {s s' : ParseState}

/-! ### Composition -/

theorem keepsScope_pure (a : α) : KeepsScope (pure a) := fun _ _ _ h => by cases h; rfl

theorem keepsScope_read (y : Except Fault α) : KeepsScope (liftM y) := fun _ _ _ h =>
  (gives_liftM.mp h).2 ▸ rfl

theorem KeepsScope.bind (hx : KeepsScope x) (hf : ∀ a, KeepsScope (f a)) :
    KeepsScope (x >>= f) := by
  intro s b s' h
  obtain ⟨a, m, hfirst, hrest⟩ := gives_bind.mp h
  exact (hf a hrest).trans (hx hfirst)

theorem KeepsScope.mapM {xs : List α} (h : ∀ a, KeepsScope (f a)) : KeepsScope (xs.mapM f) := by
  induction xs with
  | nil => exact keepsScope_pure _
  | cons a xs ih =>
    rw [List.mapM_cons]
    exact (h a).bind fun _ => ih.bind fun _ => keepsScope_pure _

theorem KeepsScope.declares (hx : KeepsScope x) (hf : ∀ a, Declares vars (f a)) :
    Declares vars (x >>= f) := by
  intro s b s' h
  obtain ⟨a, m, hfirst, hrest⟩ := gives_bind.mp h
  obtain ⟨hdepth, hlocals⟩ := Prod.mk.inj (hx hfirst)
  rw [hf a hrest, hdepth, hlocals]

theorem Locals.declaring_nil (locals : Locals) : locals.declaring [] = locals := by
  cases locals <;> rfl

theorem Locals.declaring_declaring (u v : List (String × String)) (locals : Locals) :
    (locals.declaring u).declaring v = locals.declaring (v ++ u) := by
  cases locals with
  | nil => rfl
  | cons scope outer => simp [Locals.declaring]

theorem declares_pure {b : β} (h : vars b = []) : Declares vars (pure b) := by
  intro s b' s' hgives
  obtain ⟨rfl, rfl⟩ := gives_pure.mp hgives
  rw [h, Locals.declaring_nil]
  rfl

/-! ### Single steps -/

theorem keepsScope_get : KeepsScope (get : Parse ParseState) := fun _ _ _ h => by cases h; rfl

theorem keepsScope_cursor : KeepsScope cursor := fun _ _ _ h => by cases h; rfl

theorem keepsScope_moveTo (i : Nat) : KeepsScope (moveTo i) := fun _ _ _ h => by cases h; rfl

theorem keepsScope_report (problem : Problem) (span : Span) : KeepsScope (report problem span) :=
  fun _ _ _ h => by cases h; rfl

theorem keepsScope_peek : KeepsScope (peek ts) :=
  keepsScope_cursor.bind fun _ => (keepsScope_read _).bind fun _ => keepsScope_pure _

theorem keepsScope_atSymbol {y : Symbol} : KeepsScope (atSymbol ts y) :=
  keepsScope_peek.bind fun _ => keepsScope_pure _

theorem keepsScope_advance : KeepsScope (advance ts) := by
  refine keepsScope_cursor.bind fun i => (keepsScope_read _).bind fun t => ?_
  split_ifs
  · exact (keepsScope_moveTo _).bind fun _ => keepsScope_pure _
  · exact keepsScope_pure _

theorem keepsScope_eat {y : Symbol} : KeepsScope (eat ts y) := by
  refine keepsScope_atSymbol.bind fun b => ?_
  split_ifs
  · exact keepsScope_advance.bind fun _ => keepsScope_pure _
  · exact keepsScope_pure _

theorem gives_enterNesting {b : Bool} (h : Gives (enterNesting ts) s b s') :
    s'.scopes = (s.depth + 1, s.locals) := by
  obtain ⟨_, m, hdeeper, h⟩ := gives_bind.mp h
  obtain rfl := gives_modify.mp hdeeper
  obtain ⟨_, _, hget, h⟩ := gives_bind.mp h
  obtain ⟨rfl, rfl⟩ := gives_get.mp hget
  have hreport : KeepsScope (reportHere ts .nestingTooDeep) :=
    keepsScope_cursor.bind fun _ => (keepsScope_read _).bind fun _ => keepsScope_report _ _
  split_ifs at h
  · exact (hreport.bind fun _ => keepsScope_pure _) h
  · exact keepsScope_pure _ h

theorem declares_forM (names : List (Located String)) (type : String) :
    Declares (fun _ => (names.map fun n => (n.value, type)).reverse)
      (names.forM fun n => declare n.value type) := by
  induction names with
  | nil => exact declares_pure rfl
  | cons n names ih =>
    intro s u s' h
    obtain ⟨_, m, hfirst, hrest⟩ := gives_bind.mp h
    obtain rfl := gives_modify.mp hfirst
    rw [ih hrest, List.map_cons, List.reverse_cons, ← Locals.declaring_declaring]
    cases hlocals : s.locals with
    | nil => simp [hlocals, Locals.declaring]
    | cons scope outer => rfl

/-! ### Blocks, statements and expressions -/

/-- The mutual parsers, run with `fuel` levels. -/
structure ScopesKept (ts : TokenStream) (fuel : Nat) : Prop where
  block : KeepsScope (parseBlock ts fuel)
  stmts : Declares declaredBy (parseStmts ts fuel)
  stmt : Declares (fun x => declaredBy x.toList) (parseStmt ts fuel)
  vars : ∀ start stop v, KeepsScope (parseVars ts fuel start stop v)
  exprs : ∀ start stop i, KeepsScope (scanExprs ts fuel start stop i)
  call : ∀ i stop, KeepsScope (parseCall ts fuel i stop)
  lambda : ∀ i stop, KeepsScope (parseLambda ts fuel i stop)

/-- The end of a block closes its scope. -/
theorem gives_closeBlock {brace : Nat} {stmts : List Stmt} {b : Block} (h : Gives (do
      exitNesting
      popScope
      let close ← cursor
      if !(← eat ts .closeBrace) then
        report .unterminatedBlock (← ts.token brace).span
      return .mk (← ts.rangeBetween brace close) stmts : Parse Block) s b s') :
    s'.scopes = (s.depth - 1, s.locals.drop 1) := by
  obtain ⟨_, _, hexit, h⟩ := gives_bind.mp h
  obtain rfl := gives_modify.mp hexit
  obtain ⟨_, _, hpop, h⟩ := gives_bind.mp h
  obtain rfl := gives_modify.mp hpop
  refine KeepsScope.bind keepsScope_cursor (fun close => keepsScope_eat.bind fun closed => ?_) h
  have hrange : KeepsScope (do return .mk (← ts.rangeBetween brace close) stmts : Parse Block) :=
    (keepsScope_read _).bind fun _ => keepsScope_pure _
  split_ifs
  · exact (keepsScope_read _).bind fun _ => (keepsScope_report _ _).bind fun _ => hrange
  · exact hrange

theorem keepsScope_block (ih : ScopesKept ts fuel) : KeepsScope (parseBlock ts (fuel + 1)) := by
  intro s b s' h
  rw [parseBlock] at h
  obtain ⟨brace, _, hcursor, h⟩ := gives_bind.mp h
  obtain ⟨rfl, rfl⟩ := gives_cursor.mp hcursor
  obtain ⟨_, m, hadvance, h⟩ := gives_bind.mp h
  obtain ⟨_, _, hpush, h⟩ := gives_bind.mp h
  obtain rfl := gives_modify.mp hpush
  obtain ⟨entered, n, henter, h⟩ := gives_bind.mp h
  obtain ⟨hdepth, hlocals⟩ := Prod.mk.inj (gives_enterNesting henter)
  -- Nothing but the innermost scope, which is the new one, changes up to the end of the block.
  have hbody : ∀ {x : Parse (List Stmt)} {f : List Stmt → Parse Block}, Declares declaredBy x →
      (∀ {stmts p}, Gives (f stmts) p b s' → s'.scopes = (p.depth - 1, p.locals.drop 1)) →
      Gives (x >>= f) n b s' → s'.scopes = s.scopes := by
    intro x f hx hf h
    obtain ⟨stmts, p, hstmts, hclose⟩ := gives_bind.mp h
    obtain ⟨hp, hscopes⟩ := Prod.mk.inj (hx hstmts)
    rw [hf hclose, hp, hscopes, hdepth, hlocals]
    exact keepsScope_advance hadvance
  simp only at h
  split_ifs at h
  · exact hbody ih.stmts gives_closeBlock h
  · rw [← bind_assoc] at h
    exact hbody ((keepsScope_moveTo _).declares fun _ => declares_pure rfl) gives_closeBlock h

theorem declaredBy_append (xs ys : List Stmt) :
    declaredBy (xs ++ ys) = declaredBy ys ++ declaredBy xs := by
  induction xs with
  | nil => simp [declaredBy]
  | cons x xs ih => simp [declaredBy, ih]

theorem declares_stmts (ih : ScopesKept ts fuel) :
    Declares declaredBy (parseStmts ts (fuel + 1)) := by
  rw [parseStmts]
  refine keepsScope_peek.declares fun l => ?_
  split_ifs
  · exact declares_pure rfl
  refine keepsScope_cursor.declares fun before => ?_
  intro s xs s' h
  obtain ⟨x, m, hstmt, h⟩ := gives_bind.mp h
  obtain ⟨hdepth, hlocals⟩ := Prod.mk.inj (ih.stmt hstmt)
  -- The statements behind the first one add their variables in front of those of the first.
  have hrest : ∀ {p : ParseState}, p.scopes = m.scopes → Gives (do
      let rest ← parseStmts ts fuel
      return x.toList ++ rest) p xs s' →
        s'.scopes = (s.depth, s.locals.declaring (declaredBy xs)) := by
    intro p hp h
    obtain ⟨hd, hl⟩ := Prod.mk.inj hp
    obtain ⟨rest, q, hstmts, h⟩ := gives_bind.mp h
    obtain ⟨rfl, rfl⟩ := gives_pure.mp h
    rw [ih.stmts hstmts, hd, hl, hdepth, hlocals, Locals.declaring_declaring, declaredBy_append]
  obtain ⟨after, _, hcursor, h⟩ := gives_bind.mp h
  obtain ⟨rfl, rfl⟩ := gives_cursor.mp hcursor
  simp only at h
  split_ifs at h
  · obtain ⟨_, q, hadvance, h⟩ := gives_bind.mp h
    exact hrest (keepsScope_advance hadvance) h
  · exact hrest rfl h

/-- A statement that is neither a block nor compound nor labelled. -/
theorem declares_plainStmt (ih : ScopesKept ts fuel) (start stop : Nat) (span : Span)
    (first : Option FirstVar) :
    Declares (fun x => declaredBy x.toList) (do
      let stmt ← match first with
        | some v => do
          let (names, exprs) ← parseVars ts fuel start stop v
          names.forM fun n => declare n.value v.type
          pure (Stmt.vars names v.type span exprs)
        | none => do pure (Stmt.other span (← scanExprs ts fuel start stop start))
      moveTo stop
      let _ ← eat ts .semicolon
      return some stmt : Parse (Option Stmt)) := by
  cases first with
  | some v =>
    refine (ih.vars start stop v).declares fun r => ?_
    intro s x s' h
    obtain ⟨_, m, hnames, h⟩ := gives_bind.mp h
    rw [pure_bind] at h
    obtain ⟨_, n, hmove, h⟩ := gives_bind.mp h
    obtain ⟨_, p, heat, h⟩ := gives_bind.mp h
    obtain ⟨rfl, rfl⟩ := gives_pure.mp h
    exact ((keepsScope_eat heat).trans (keepsScope_moveTo _ hmove)).trans (declares_forM _ _ hnames)
  | none =>
    exact (ih.exprs _ _ _).declares fun _ => (keepsScope_moveTo _).declares fun _ =>
      keepsScope_eat.declares fun _ => declares_pure rfl

theorem declares_stmt (ih : ScopesKept ts fuel) :
    Declares (fun x => declaredBy x.toList) (parseStmt ts (fuel + 1)) := by
  rw [parseStmt]
  refine keepsScope_atSymbol.declares fun _ => ?_
  split_ifs
  · exact ih.block.declares fun _ => declares_pure rfl
  refine keepsScope_eat.declares fun _ => ?_
  split_ifs
  · exact declares_pure rfl
  refine keepsScope_cursor.declares fun start => keepsScope_peek.declares fun l => ?_
  extract_lets word
  split
  · exact (ih.exprs _ _ _).declares fun _ => (keepsScope_moveTo _).declares fun _ =>
      (keepsScope_read _).declares fun _ => declares_pure rfl
  refine KeepsScope.declares (keepsScope_cursor.bind fun _ => keepsScope_pure _) fun _ => ?_
  split
  · exact (keepsScope_moveTo _).declares fun _ => keepsScope_advance.declares fun _ =>
      (keepsScope_read _).declares fun _ => declares_pure rfl
  refine (keepsScope_read _).declares fun span => ?_
  split_ifs
  · rw [pure_bind]
    exact declares_plainStmt ih _ _ _ none
  · exact (keepsScope_read _).declares fun first => declares_plainStmt ih _ _ _ first

theorem keepsScope_vars (ih : ScopesKept ts fuel) (start stop : Nat) (v : FirstVar) :
    KeepsScope (parseVars ts (fuel + 1) start stop v) := by
  rw [parseVars]
  refine (keepsScope_read _).bind fun t => ?_
  simp only
  split_ifs
  on_goal 1 => refine (ih.exprs _ _ _).bind fun _ => ?_
  on_goal 2 => refine (keepsScope_pure _).bind fun _ => ?_
  -- The names behind the first one.
  all_goals
    refine (KeepsScope.mapM fun g => ?_).bind fun _ => keepsScope_pure _
    split
    · exact keepsScope_pure _
    · exact (keepsScope_read _).bind fun _ => (ih.exprs _ _ _).bind fun _ => keepsScope_pure _

theorem keepsScope_exprs (ih : ScopesKept ts fuel) (start stop i : Nat) :
    KeepsScope (scanExprs ts (fuel + 1) start stop i) := by
  have hmore : ∀ (e : Expr) next, KeepsScope (do
      return e :: (← scanExprs ts fuel start stop next) : Parse (List Expr)) := fun e next =>
    (ih.exprs _ _ _).bind fun _ => keepsScope_pure _
  rw [scanExprs]
  split
  · exact keepsScope_pure _
  split
  case h_1 =>
    split_ifs
    · refine (ih.lambda _ _).bind fun r => ?_
      split
      · exact hmore _ _
      · exact ih.exprs _ _ _
    · exact ih.exprs _ _ _
  case h_2 | h_3 =>
    refine (ih.call _ _).bind fun r => ?_
    split
    · exact hmore _ _
    · split <;> exact ih.exprs _ _ _
  case h_4 => exact ih.exprs _ _ _

theorem keepsScope_call (ih : ScopesKept ts fuel) (i stop : Nat) :
    KeepsScope (parseCall ts (fuel + 1) i stop) := by
  rw [parseCall]
  split
  · exact keepsScope_pure _
  · refine KeepsScope.bind (.mapM fun g => ?_) fun _ =>
      (keepsScope_read _).bind fun _ => keepsScope_pure _
    exact (keepsScope_read _).bind fun _ => (ih.exprs _ _ _).bind fun _ => keepsScope_pure _

theorem keepsScope_lambda (ih : ScopesKept ts fuel) (i stop : Nat) :
    KeepsScope (parseLambda ts (fuel + 1) i stop) := by
  rw [parseLambda]
  refine (keepsScope_read _).bind fun shape => ?_
  split
  · exact keepsScope_pure _
  · rename_i shape
    intro s r s' h
    obtain ⟨_, _, hpush, h⟩ := gives_bind.mp h
    obtain rfl := gives_modify.mp hpush
    obtain ⟨_, m, hmove, h⟩ := gives_bind.mp h
    obtain ⟨body, n, hblock, h⟩ := gives_bind.mp h
    obtain ⟨hdepth, hlocals⟩ :=
      Prod.mk.inj ((ih.block hblock).trans (keepsScope_moveTo _ hmove))
    obtain ⟨next, _, hcursor, h⟩ := gives_bind.mp h
    obtain ⟨rfl, rfl⟩ := gives_cursor.mp hcursor
    obtain ⟨_, _, hpop, h⟩ := gives_bind.mp h
    obtain rfl := gives_modify.mp hpop
    have hrest := (keepsScope_get.bind fun _ => (keepsScope_read _).bind fun _ =>
      (keepsScope_read _).bind fun _ => (keepsScope_read _).bind fun _ => keepsScope_pure _) h
    rw [hrest, ParseState.scopes, hdepth, hlocals]
    rfl

end

theorem scopesKept (ts : TokenStream) (fuel : Nat) : ScopesKept ts fuel := by
  induction fuel with
  | zero =>
    constructor <;> simp [KeepsScope, Declares, parseBlock, parseStmts, parseStmt, parseVars,
      scanExprs, parseCall, parseLambda]
  | succ fuel ih =>
    exact {
      block := keepsScope_block ih
      stmts := declares_stmts ih
      stmt := declares_stmt ih
      vars := keepsScope_vars ih
      exprs := keepsScope_exprs ih
      call := keepsScope_call ih
      lambda := keepsScope_lambda ih }

/-- Parsing a block, a call, a lambda, the variables of a declaration or the expressions of a
statement leaves the nesting depth and all scopes as they were, and a statement adds the variables
it declares to the innermost scope and does nothing else to them. So no variable of a block or of a
lambda is found behind it. -/
theorem scopes_close_where_they_open (ts : TokenStream) (fuel : Nat) :
    KeepsScope (parseBlock ts fuel) ∧
    (∀ start stop i, KeepsScope (scanExprs ts fuel start stop i)) ∧
    (∀ i stop, KeepsScope (parseCall ts fuel i stop)) ∧
    (∀ i stop, KeepsScope (parseLambda ts fuel i stop)) ∧
    (∀ start stop v, KeepsScope (parseVars ts fuel start stop v)) ∧
    Declares (fun x => declaredBy x.toList) (parseStmt ts fuel) ∧
    (∀ s b s', Gives (parseBlock ts fuel) s b s' →
      ∀ name, s'.locals.type? name = s.locals.type? name) ∧
    ∀ i stop s r s', Gives (parseLambda ts fuel i stop) s r s' →
      ∀ name, s'.locals.type? name = s.locals.type? name := by
  have h := scopesKept ts fuel
  refine ⟨h.block, h.exprs, h.call, h.lambda, h.vars, h.stmt, fun s b s' hblock name => ?_,
    fun i stop s r s' hlambda name => ?_⟩
  · rw [(Prod.mk.inj (h.block hblock)).2]
  · rw [(Prod.mk.inj (h.lambda i stop hlambda)).2]

/-- The tokens of `\x7b T x; \x7d`. -/
def innerStream : TokenStream where
  tokens := ⟨([.symbol .openBrace, .ident "T", .ident "x", .symbol .semicolon, .symbol .closeBrace,
    .eof] : List Lexeme).map fun l => ⟨l, ⟨0, 0⟩, false, .file, none⟩⟩

/-- A variable of the block is known in it and not behind it. -/
theorem scopes_close_where_they_open_inner : ∃ b s',
    Gives (parseBlock innerStream 9) ⟨0, 0, [[("y", "U")]], []⟩ b s' ∧ b.localNames = ["x"] ∧
      s'.locals.type? "x" = none := by
  have hrun : ((parseBlock innerStream 9).run ⟨0, 0, [[("y", "U")]], []⟩).toOption.any
      (fun r => r.1.localNames == ["x"]) = true := by
    decide +kernel
  obtain ⟨⟨b, s'⟩, hgives, hnames⟩ := exists_ok_of_any hrun
  refine ⟨b, s', hgives, beq_iff_eq.mp hnames, ?_⟩
  rw [(scopes_close_where_they_open innerStream 9).2.2.2.2.2.2.1 _ b s' hgives]
  decide

end Offload.Source
