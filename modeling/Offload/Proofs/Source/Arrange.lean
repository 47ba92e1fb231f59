import Offload.Proofs.Source.Block

/-!
# Declarations one after another

What is known of the declarations of any stream, bracketed or not: each function takes a stretch of
tokens that does not start with a semicolon, and the stretches follow one another, at any nesting.
Where brackets have partners, the declarations are laid out in order outside of all parentheses. The
walks of the declaration parsers say both, and that three levels of recursion for each token that is
left suffice.
-/

namespace Offload.Source

open TokenStream Parse

variable {start : Nat} {template : Option Nat} {scope : Scope}

/-- The function, with its template heads, takes the tokens from `first` to `last`. -/
structure StandsAt (ts : TokenStream) (f : FunctionDecl) (first last : Nat) : Prop where
  le : first ≤ last
  lt_size : last + 1 < ts.size
  starts : ts.lexeme first ≠ .symbol .semicolon
  range : ts.rangeBetween first last = .ok (f.templateRange.getD f.range)

/-- Declarations that stand one after another from `c` to `c'`. -/
inductive Arranged (ts : TokenStream) : Nat → Nat → List Decl → Prop
  | nil {c c' : Nat} (h : c ≤ c') : Arranged ts c c' []
  | function {c c' first last : Nat} {f : FunctionDecl} {rest : List Decl}
    (h : c ≤ first) (hf : StandsAt ts f first last) (hrest : Arranged ts (last + 1) c' rest) :
    Arranged ts c c' (.function f :: rest)
  | nest {c c' m first last : Nat} {d : Decl} {inner rest : List Decl}
    (h : c ≤ first) (hspan : ts.spanBetween first last = .ok d.span)
    (hfunctions : d.functions = functionsOf inner) (hinner : Arranged ts first m inner)
    (hrest : Arranged ts m c' rest) : Arranged ts c c' (d :: rest)

namespace Arranged

variable {ts : TokenStream} {c c' m : Nat} {ds ds' : List Decl}

theorem le (h : Arranged ts c c' ds) : c ≤ c' := by
  induction h with
  | nil h => exact h
  | function h hf _ ih =>
    have := hf.le
    omega
  | nest h _ _ _ _ ihinner ih => omega

theorem before (h : Arranged ts c c' ds) (hm : m ≤ c) : Arranged ts m c' ds := by
  cases h with
  | nil h => exact .nil (hm.trans h)
  | function h hf hrest => exact .function (hm.trans h) hf hrest
  | nest h hspan hfunctions hinner hrest =>
    exact .nest (hm.trans h) hspan hfunctions hinner hrest

theorem append (h : Arranged ts c m ds) (h' : Arranged ts m c' ds') :
    Arranged ts c c' (ds ++ ds') := by
  induction h with
  | nil h => exact h'.before h
  | function h hf _ ih => exact .function h hf (ih h')
  | nest h hspan hfunctions hinner _ _ ih => exact .nest h hspan hfunctions hinner (ih h')

theorem after (h : Arranged ts c m ds) (hc' : m ≤ c') : Arranged ts c c' ds := by
  have hnil : Arranged ts m c' [] := .nil hc'
  have := h.append hnil
  rwa [List.append_nil] at this

/-- The functions take stretches of tokens one after another. -/
theorem functions (h : Arranged ts c c' ds) :
    ∃ ps : List (Nat × Nat), List.Forall₂ (fun f p => StandsAt ts f p.1 p.2) (functionsOf ds) ps ∧
      ps.Pairwise (fun p q => p.2 < q.1) ∧ ∀ p ∈ ps, c ≤ p.1 ∧ p.2 < c' := by
  induction h with
  | nil h => exact ⟨[], .nil, .nil, by simp⟩
  | @function c c' first last f rest h hf hrest ih =>
    obtain ⟨ps, hps, hpairs, hinside⟩ := ih
    have hle := hf.le
    refine ⟨(first, last) :: ps, .cons hf hps, List.pairwise_cons.mpr ⟨?_, hpairs⟩, ?_⟩
    · intro p hp
      exact (hinside p hp).1
    · intro p hp
      rcases List.mem_cons.mp hp with rfl | hp
      · exact ⟨h, hrest.le⟩
      · have := hinside p hp
        omega
  | @nest c c' m first last d inner rest h hspan hfunctions hinner hrest ihinner ih =>
    obtain ⟨ps, hps, hpairs, hinside⟩ := ihinner
    obtain ⟨qs, hqs, hpairs', hinside'⟩ := ih
    have hle := hinner.le
    have hle' := hrest.le
    refine ⟨ps ++ qs, ?_, List.pairwise_append.mpr ⟨hpairs, hpairs', ?_⟩, ?_⟩
    · rw [functionsOf, hfunctions]
      exact List.rel_append hps hqs
    · intro p hp q hq
      exact (hinside p hp).2.trans_le (hinside' q hq).1
    · intro p hp
      rcases List.mem_append.mp hp with hp | hp
      · have := hinside p hp
        omega
      · have := hinside' p hp
        omega

end Arranged

/-- Declarations up to a brace or the end are parsed, which leads from `c` to `c'`. -/
structure DeclsEnd (ts : TokenStream) (c : Nat) (ds : List Decl) (c' : Nat) : Prop where
  arranged : Arranged ts c c' ds
  lt_size : c' < ts.size
  laid : ts.Bracketed → Laid ts c c' ds

/-- The declarations stand one after another up to `c'`, and that is inside of the stream if every
bracket closes. -/
structure Leads (ts : TokenStream) (start : Nat) (ds : List Decl) (c' : Nat) : Prop where
  arranged : Arranged ts start c' ds
  lt_size : ts.Closed → c' < ts.size
  moves : ts.lexeme start = .symbol .openParen → start < c'
  laid : ts.Bracketed → Laid ts start c' ds

section Levels

variable {ts : TokenStream} {fuel c : Nat}

theorem ne_eof_of_isIdent {l : Lexeme} (h : l.isIdent) : l ≠ .eof := by
  rintro rfl
  cases h

theorem ne_openParen_of_isIdent {l : Lexeme} (h : l.isIdent) : l ≠ .symbol .openParen := by
  rintro rfl
  cases h

/-- What is found later, with whole parentheses in between. -/
theorem Leads.before {c' : Nat} {ds : List Decl} (h : Leads ts c ds c')
    (hstart : Passes ts start c) : Leads ts start ds c' where
  arranged := h.arranged.before hstart.le
  lt_size := h.lt_size
  moves hparen := by
    have hle := h.arranged.le
    rcases Nat.eq_or_lt_of_le hstart.le with rfl | hlt
    · exact h.moves hparen
    · omega
  laid hb := (h.laid hb).before hstart

/-! ### Heads -/

/-- Template heads are passed; the first of them stands where the cursor was. -/
theorem walks_templateHeads (hend : ts.Ended) {first : Option Nat} (hc : ts.Closed → c < ts.size) :
    Walks ts (templateHeads ts fuel first) c fun r c' =>
      (ts.Closed → c' < ts.size) ∧ HeadsAt ts c c' first r := by
  have hnone : HeadsAt ts c c first (some first) :=
    ⟨.refl ts c, by simp, fun template heq => .inl (Option.some.inj heq).symm⟩
  induction fuel generalizing c first with
  | zero => exact walks_pure ⟨hc, hnone⟩
  | succ fuel ih =>
    rw [templateHeads]
    refine .atWord hc fun hlt => ?_
    split_ifs with hword
    · exact walks_pure ⟨hc, hnone⟩
    · have hword' : ts.lexeme c = .ident "template" := by simpa using hword
      have hfirst : Passes ts c (c + 1) := .step (by simp [hword'])
      -- After one head the first one is known.
      have hmore : ∀ {m}, Passes ts (c + 1) m → (ts.Closed → m < ts.size) →
          Walks ts (templateHeads ts fuel (some (first.getD c))) m fun r c' =>
            (ts.Closed → c' < ts.size) ∧ HeadsAt ts c c' first r := by
        intro m hpass hm
        refine (ih hm ⟨.refl ts m, by simp, fun _ heq => .inl (Option.some.inj heq).symm⟩).mono
          fun r c' ⟨hsize, hheads⟩ => ⟨hsize, ?_⟩
        have hall := hpass.trans hheads.passes
        refine ⟨hfirst.trans hall, fun _ => hall.le, fun template heq => ?_⟩
        rcases hheads.known template heq with rfl | ⟨hnone, -⟩
        · cases first with
          | none => exact .inr ⟨rfl, rfl, hword'⟩
          | some t => exact .inl rfl
        · cases hnone
      refine .cursor (.step hend (by simp [hword']) fun _ _ hnext => ?_)
      refine .atSymbol (fun _ => hnext) fun _ => ?_
      split_ifs
      · refine .cursor ?_
        split
        · rename_i close hclose
          have hcross := crosses_of_matchingAngle hend hclose
          exact .moveTo (hmore hcross.passes fun hclosed => hcross.lt_size hclosed hnext)
        · exact .reportHere (fun _ => hnext) (walks_pure ⟨fun _ => hnext, hfirst, fun _ =>
            Nat.lt_succ_self c, by simp⟩)
      · exact hmore (.refl ts _) fun _ => hnext

/-- The name of a record is read up to its brace at most. -/
theorem walks_recordName (hend : ts.Ended) {name : Option String} (hc : ts.Closed → c < ts.size) :
    Walks ts (recordName ts fuel name) c fun _ c' => c ≤ c' ∧ (ts.Closed → c' < ts.size) ∧
      ∀ brace, BraceAhead ts c brace → c' ≤ brace := by
  induction fuel generalizing c name with
  | zero => exact walks_pure ⟨le_rfl, hc, fun _ hahead => hahead.le⟩
  | succ fuel ih =>
    have hrest : ∀ {m name}, c ≤ m → (ts.Closed → m < ts.size) →
        (∀ brace, BraceAhead ts c brace → BraceAhead ts m brace) →
        Walks ts (recordName ts fuel name) m fun _ c' => c ≤ c' ∧ (ts.Closed → c' < ts.size) ∧
          ∀ brace, BraceAhead ts c brace → c' ≤ brace :=
      fun hle hm hahead => (ih hm).mono fun _ c' ⟨hle', hsize, hbrace⟩ =>
        ⟨hle.trans hle', hsize, fun brace h => hbrace brace (hahead brace h)⟩
    rw [recordName]
    refine .peek hc fun hlt => ?_
    split
    · exact walks_pure ⟨le_rfl, hc, fun _ hahead => hahead.le⟩
    · exact walks_pure ⟨le_rfl, hc, fun _ hahead => hahead.le⟩
    · refine .cursor (.moveTo (walks_pure ?_))
      have hbrace : ∀ brace, BraceAhead ts c brace → (ts.find? c ts.size
          (fun l => l == .symbol .openBrace || l == .eof)).getD (ts.size - 1) ≤ brace := by
        intro brace hahead
        obtain ⟨x, hx, -, hle⟩ : ∃ x, ts.find? c ts.size
            (fun l => l == .symbol .openBrace || l == .eof) = some x ∧ c ≤ x ∧ x ≤ brace :=
          find?_le hahead.le hahead.lt_size (by simp [hahead.opens])
        rw [hx]
        exact hle
      cases hfind : ts.find? c ts.size fun l => l == .symbol .openBrace || l == .eof with
      | none =>
        rw [hfind] at hbrace
        exact ⟨by simp; omega, fun _ => by simp; omega, hbrace⟩
      | some k =>
        rw [hfind] at hbrace
        obtain ⟨hle, hsize, -⟩ := find?_bounds hfind
        exact ⟨hle, fun _ => hsize, hbrace⟩
    · rename_i word hword
      have hbrace : ts.lexeme c ≠ .symbol .openBrace := by simp [hword]
      refine .step hend (by simp [hword]) fun _ _ hnext => ?_
      split_ifs
      · refine .atSymbol (fun _ => hnext) fun _ => ?_
        split_ifs with hparen
        · have hparen : ts.lexeme (c + 1) = .symbol .openParen := by simpa using hparen
          have ho := opens_of_eq hparen rfl
          have hmatching := lt_matching hend ho
          refine .cursor (.moveTo ?_)
          refine .advance (fun hclosed => Nat.lt_of_succ_lt (hclosed _ ho)) fun t ht => ?_
          have hsize := (lexeme_of_token ht).1
          refine hrest ?_ (fun _ => ?_) fun brace hahead =>
            absurd hparen (hahead.succ hbrace).lexeme_ne
          · split_ifs <;> omega
          · split_ifs <;> omega
        · exact hrest (Nat.le_succ c) (fun _ => hnext) fun _ hahead => hahead.succ hbrace
      · exact hrest (Nat.le_succ c) (fun _ => hnext) fun _ hahead => hahead.succ hbrace
      · exact hrest (Nat.le_succ c) (fun _ => hnext) fun _ hahead => hahead.succ hbrace
    · rename_i hbrace heof _ _
      refine .step hend heof fun _ _ hnext => ?_
      exact hrest (Nat.le_succ c) (fun _ => hnext) fun _ hahead => hahead.succ hbrace

/-! ### Single declarations -/

/-- The end of a function, when its body and its last token are known. -/
theorem walks_finishFunction {first last name : Nat} {body : Option Block}
    {make : Token → SourceRange → Option SourceRange → FunctionDecl}
    (hmake : ∀ t range templateRange, (make t range templateRange).range = range ∧
      (make t range templateRange).templateRange = templateRange ∧
      (make t range templateRange).body = body)
    (hstart : Passes ts start first)
    (htemplate : ∀ t, template = some t → t = start ∧ ts.lexeme t ≠ .symbol .semicolon)
    (hfirst : ts.lexeme first ≠ .symbol .semicolon) (hname : name < ts.size) (hle : first ≤ last)
    (hlast : last < c) (hc : c < ts.size) (hbody : ts.Bracketed → BodyAt ts first body last c) :
    Walks ts (do
      let t ← ts.token name
      let range ← ts.rangeBetween first last
      let templateRange ← template.mapM fun t => (ts.rangeBetween t last : Parse SourceRange)
      return .function (make t range templateRange) : Parse Decl) c
        fun d c' => Leads ts start [d] c' := by
  have hle' := hstart.le
  have hmoves : ts.lexeme start = .symbol .openParen → start < c := fun _ => by omega
  refine .read (reads_token fun _ => hname) fun t _ => ?_
  refine .read (reads_rangeBetween fun _ => ⟨hle, by omega⟩) fun range hrange => ?_
  cases template with
  | none =>
    rw [Option.mapM_none, pure_bind]
    obtain ⟨hrange', htemplate', hbody'⟩ := hmake t range none
    rw [← hrange'] at hrange
    refine walks_pure ⟨.function hle' ⟨hle, by omega, hfirst, ?_⟩ (.nil hlast), fun _ => hc, hmoves,
      fun hb =>
        BodyAt.laid (hbody' ▸ hbody hb) hstart htemplate hfirst hrange (by simp [htemplate'])⟩
    rw [htemplate']
    exact hrange
  | some head =>
    obtain ⟨rfl, hhead⟩ := htemplate head rfl
    rw [Option.mapM_some, map_eq_pure_bind, bind_assoc]
    refine .read (reads_rangeBetween fun _ => ⟨hle'.trans hle, by omega⟩) fun whole hwhole => ?_
    rw [pure_bind]
    obtain ⟨hrange', htemplate', hbody'⟩ := hmake t range (some whole)
    rw [← hrange'] at hrange
    refine walks_pure ⟨.function le_rfl ⟨hle'.trans hle, by omega, hhead, ?_⟩ (.nil hlast),
      fun _ => hc, hmoves, fun hb =>
        BodyAt.laid (hbody' ▸ hbody hb) hstart htemplate hfirst hrange fun r hr => ⟨head, rfl, ?_⟩⟩
    · rw [htemplate']
      exact hwhole
    · rw [htemplate'] at hr
      exact Option.some.inj hr ▸ hwhole

theorem walks_generic (hend : ts.Ended) (hc : c < ts.size) (hstart : Passes ts start c)
    (htemplate : ∀ t, template = some t → t = start ∧ ts.lexeme t ≠ .symbol .semicolon) :
    Walks ts (parseGeneric ts scope template) c fun d c' => Leads ts start [d] c' := by
  have hat := extent_at hend (fun _ => hc) scope
  have hle := hat.le
  have hstop := hat.lt_size
  unfold parseGeneric
  refine .cursor ?_
  simp only
  split
  · have hfirst : start ≤ template.getD c ∧ template.getD c ≤ c := by
      cases template with
      | none => exact ⟨hstart.le, le_rfl⟩
      | some t =>
        obtain ⟨rfl, -⟩ := htemplate t rfl
        exact ⟨le_rfl, hstart.le⟩
    have hmoves : ts.lexeme start = .symbol .openParen → start < (ts.extent c scope).stop := by
      intro hparen
      rcases Nat.eq_or_lt_of_le hstart.le with rfl | hlt
      · exact lt_stop_extent hend hparen
      · omega
    refine .moveTo (.pass hend hstop (by simp) fun m hm hsize => ?_)
    have hle' := hm.le
    refine .read (reads_spanBetween fun hclosed => ?_) fun span hspan => ?_
    · have := hstop hclosed
      omega
    · exact walks_pure ⟨.nest hfirst.1 hspan rfl (.nil (by omega)) (.nil le_rfl), fun _ => hsize,
        fun hparen => (hmoves hparen).trans_le hle', fun _ =>
          .other (.nil ((hstart.trans hat.passes).trans hm))⟩
  · rename_i d hd
    obtain ⟨hdeclarator, hclose, hlt⟩ := hat.declarator d hd
    have hname := hdeclarator.name
    have hsemicolon := lexeme_of_extent hd
    rw [hdeclarator.close]
    refine .read (reads_params hend hdeclarator.paren) fun params _ => ?_
    refine .read (reads_attributes hend) fun attributes _ => ?_
    rw [← hdeclarator.close]
    -- The last token closes the body, or stands right before the stop of the scan.
    cases hbody : (ts.extent c scope).body with
    | some brace =>
      obtain ⟨rfl, hopen⟩ := hat.body brace hbody
      refine .moveTo (.still still_pushScope fun _ => ?_)
      refine ((blockWalks hend _).block hopen fun _ => ?_).bind fun block m hm => ?_
      · unfold statementFuel
        omega
      · have hnext := hm.lt
        have hsize := hm.lt_size
        have hlast : m - 1 + 1 = m := by omega
        refine .still still_popScope fun _ => .cursor ?_
        rw [pure_bind]
        refine walks_finishFunction (fun _ _ _ => ⟨rfl, rfl, rfl⟩) hstart htemplate hsemicolon
          (by omega) (by omega) (by omega) hm.lt_size fun hb => ?_
        obtain ⟨hblock, hcalls⟩ := hm.stands hb
        refine ⟨?_, by omega, ?_, by simpa using hcalls, ?_⟩
        · rw [hlast]
          exact hat.passes.trans hblock.passes
        · rw [hlast]
          exact hm.lt_size
        · rw [hlast]
          exact .refl ts m
    | none =>
      have hlast : max ((ts.extent c scope).stop - 1) d.closeParen + 1 =
          (ts.extent c scope).stop := by omega
      refine .moveTo (.pass hend hstop (by simp) fun m hm hsize => ?_)
      have hle' := hm.le
      rw [pure_bind]
      refine walks_finishFunction (fun _ _ _ => ⟨rfl, rfl, rfl⟩) hstart htemplate hsemicolon
        (by omega) (by omega) (by omega) hsize fun _ => ⟨?_, by omega, by omega, by simp, ?_⟩
      · rw [hlast]
        exact hat.passes
      · rw [hlast]
        exact hm

theorem walks_using (hend : ts.Ended) (hfirst : ts.lexeme c = .ident "using")
    (hsecond : ts.lexeme (c + 1) = .ident "namespace") :
    Walks ts (parseUsing ts) c fun d c' => Leads ts c [d] c' := by
  have hwords : Passes ts c (c + 2) :=
    (Passes.step (by simp [hfirst])).trans (.step (by simp [hsecond]))
  unfold parseUsing
  refine .cursor (.step hend (by simp [hfirst]) fun _ _ _ => ?_)
  refine .step hend (by simp [hsecond]) fun _ _ hlt => ?_
  refine .pass hend (fun _ => hlt) (by simp) fun m hm hsize => ?_
  refine (walks_path hend fun _ => hsize).bind fun path n hn => ?_
  refine (walks_skipToSemicolon hend hn.2).bind fun last c' hc' => ?_
  have hpath := (hwords.trans hm).trans hn.1
  have hle := hpath.le
  refine .read (reads_spanBetween fun _ => by omega) fun span hspan => ?_
  exact walks_pure ⟨.nest le_rfl hspan rfl (.nil (by omega)) (.nil le_rfl), fun _ => hc'.2.1,
    by simp [hfirst], fun hb => .usingNamespace (.nil (hpath.trans (hc'.2.2.2.2 hb)))⟩

/-! ### The recursion -/

/-- The mutual parsers of declarations, run with `fuel` levels. -/
structure DeclWalks (ts : TokenStream) (fuel : Nat) : Prop where
  decls : ∀ {c scope}, (ts.Closed → c < ts.size ∧ 3 * (ts.size - c) + 2 ≤ fuel) →
    Walks ts (parseDecls ts fuel scope) c (DeclsEnd ts c)
  decl : ∀ {c scope}, c < ts.size → (ts.Closed → 3 * (ts.size - c) + 1 ≤ fuel) →
    Walks ts (parseDecl ts fuel scope) c fun d c' => Leads ts c d.toList c'
  namespaceBody : ∀ {c}, (ts.lexeme c).isIdent →
    (ts.lexeme c = .ident "inline" → (ts.lexeme (c + 1)).isIdent) →
    (ts.Closed → 3 * (ts.size - c) ≤ fuel) →
    Walks ts (parseNamespace ts fuel) c fun d c' => Leads ts c [d] c'
  linkage : ∀ {c scope}, ts.lexeme c = .ident "extern" →
    (∃ language, ts.lexeme (c + 1) = .str language) → (ts.Closed → 3 * (ts.size - c) ≤ fuel) →
    Walks ts (parseLinkage ts fuel scope) c fun d c' => Leads ts c [d] c'
  record : ∀ {c}, (ts.lexeme c).isIdent → ts.recordBodyAhead c = true →
    (ts.Closed → 3 * (ts.size - c) ≤ fuel) →
    Walks ts (parseRecord ts fuel) c fun d c' => Leads ts c [d] c'

theorem walks_decls (hend : ts.Ended) (ih : DeclWalks ts fuel)
    (h : ts.Closed → c < ts.size ∧ 3 * (ts.size - c) + 2 ≤ fuel + 1) :
    Walks ts (parseDecls ts (fuel + 1) scope) c (DeclsEnd ts c) := by
  rw [parseDecls]
  refine .peek (fun hclosed => (h hclosed).1) fun hlt => ?_
  split_ifs with hstop
  · exact walks_pure ⟨.nil le_rfl, hlt, fun _ => .nil (.refl ts c)⟩
  have hne : ts.lexeme c ≠ .eof := by
    intro heof
    simp [heof] at hstop
  -- The declarations after the first one start at least a token later.
  have hrest : ∀ {m} {d : Option Decl}, Arranged ts c m d.toList → c < m →
      (ts.Closed → m < ts.size) → (ts.Bracketed → Laid ts c m d.toList) → Walks ts (do
        let rest ← parseDecls ts fuel scope
        return d.toList ++ rest : Parse (List Decl)) m (DeclsEnd ts c) := by
    intro m d hd hm hsize hlaid
    refine (ih.decls fun hclosed => ?_).bind fun rest c' hc' => ?_
    · have := h hclosed
      have := hsize hclosed
      omega
    · exact walks_pure ⟨hd.append hc'.arranged, hc'.lt_size, fun hb =>
        (hlaid hb).append (hc'.laid hb)⟩
  refine .cursor ?_
  refine (ih.decl hlt fun hclosed => ?_).bind fun d m hm => ?_
  · have := h hclosed
    omega
  · have hle := hm.arranged.le
    refine .cursor ?_
    split_ifs with hstuck
    · -- A declaration that does not move does not start at a parenthesis.
      obtain rfl : m = c := by simpa using hstuck
      refine .step hend hne fun _ _ hnext => ?_
      exact hrest (hm.arranged.after (Nat.le_succ m)) (Nat.lt_succ_self m) (fun _ => hnext)
        fun hb => (hm.laid hb).after (.step fun hparen => (hm.moves hparen).false)
    · have hmoved : m ≠ c := by simpa using hstuck
      exact hrest hm.arranged (by omega) hm.lt_size hm.laid

/-- Declarations one level deeper, or none when that is too deep. -/
theorem walks_nested (ih : DeclWalks ts fuel) {α : Type} {next : List Decl → Parse α}
    {post : α → Nat → Prop} (hc : c < ts.size) (hfuel : ts.Closed → 3 * (ts.size - c) + 2 ≤ fuel)
    (hnext : ∀ decls c', DeclsEnd ts c decls c' → Walks ts (next decls) c' post) :
    Walks ts (do
      if ← enterNesting ts then
        let decls ← parseDecls ts fuel scope
        next decls
      else
        let decls ← pure []
        next decls : Parse α) c post := by
  refine .enterNesting (fun _ => hc) fun entered => ?_
  split_ifs
  · exact (ih.decls fun hclosed => ⟨hc, hfuel hclosed⟩).bind hnext
  · rw [pure_bind]
    exact hnext [] c ⟨.nil le_rfl, hc, fun _ => .nil (.refl ts c)⟩

/-- A namespace from its path on. -/
theorem walks_namespacePath (hend : ts.Ended) (ih : DeclWalks ts fuel)
    (hword : (ts.lexeme start).isIdent) (hstart : Passes ts start c) (hlt : start < c)
    (hc : c < ts.size) (hfuel : ts.Closed → 3 * (ts.size - c) + 2 ≤ fuel) :
    Walks ts (do
      let path ← Parse.path ts (ts.size + 1)
      let name := if path.isEmpty then none else some ("::".intercalate path)
      if !(← atSymbol ts .openBrace) then
        let last ← skipToSemicolon ts
        return .other (← ts.spanBetween start last)
      let _ ← advance ts
      let decls ← if ← enterNesting ts then parseDecls ts fuel .namespaceBody else pure []
      exitNesting
      let close ← cursor
      let _ ← eat ts .closeBrace
      return .scope name (← ts.spanBetween start close) decls : Parse Decl) c
        fun d c' => Leads ts start [d] c' := by
  have hmoves {n : Nat} : ts.lexeme start = .symbol .openParen → start < n := fun hparen =>
    absurd hparen (ne_openParen_of_isIdent hword)
  refine (walks_path hend fun _ => hc).bind fun path m hm => ?_
  have hpath := hstart.trans hm.1
  have hle := hm.1.le
  refine .atSymbol hm.2 fun hsize => ?_
  by_cases hbrace : ts.lexeme m = .symbol .openBrace
  · rw [if_neg (by simp [hbrace])]
    refine .step hend (by simp [hbrace]) fun _ _ hnext => ?_
    refine walks_nested ih hnext (fun hclosed => ?_) fun decls close hdecls => ?_
    · have := hfuel hclosed
      omega
    have hclose := hdecls.lt_size
    have hle' := hdecls.arranged.le
    have hhead : Passes ts start (m + 1) := hpath.trans (.step (by simp [hbrace]))
    refine .still still_exitNesting fun _ => .cursor ?_
    refine .pass hend (fun _ => hclose) (by simp) fun n hn hsize => ?_
    refine .read (reads_spanBetween fun _ => by omega) fun span hspan => ?_
    exact walks_pure ⟨.nest le_rfl hspan rfl (hdecls.arranged.before hhead.le) (.nil hn.le),
      fun _ => hsize, hmoves, fun hb => .scope ((hdecls.laid hb).before hhead) (.nil hn)⟩
  · rw [if_pos (by simpa using hbrace)]
    refine (walks_skipToSemicolon hend hm.2).bind fun last c' hc' => ?_
    refine .read (reads_spanBetween fun _ => by omega) fun span hspan => ?_
    exact walks_pure ⟨.nest le_rfl hspan rfl (.nil (by omega)) (.nil le_rfl), fun _ => hc'.2.1,
      hmoves, fun hb => .other (.nil (hpath.trans (hc'.2.2.2.2 hb)))⟩

theorem walks_namespace (hend : ts.Ended) (ih : DeclWalks ts fuel) (hword : (ts.lexeme c).isIdent)
    (hinline : ts.lexeme c = .ident "inline" → (ts.lexeme (c + 1)).isIdent)
    (hfuel : ts.Closed → 3 * (ts.size - c) ≤ fuel + 1) :
    Walks ts (parseNamespace ts (fuel + 1)) c fun d c' => Leads ts c [d] c' := by
  have hfirst : Passes ts c (c + 1) := .step (ne_openParen_of_isIdent hword)
  rw [parseNamespace]
  refine .cursor (.atWord (fun _ => ?_) fun hc => ?_)
  · have := hend.lt_of_lexeme_ne (ne_eof_of_isIdent hword)
    omega
  split_ifs with hfound
  · have hword' := hinline (by simpa using hfound)
    refine .step hend (ne_eof_of_isIdent hword) fun _ _ _ => ?_
    refine .step hend (ne_eof_of_isIdent hword') fun _ _ hnext => ?_
    refine walks_namespacePath hend ih hword
      (hfirst.trans (.step (ne_openParen_of_isIdent hword'))) (by omega) hnext fun hclosed => ?_
    have := hfuel hclosed
    omega
  · refine .step hend (ne_eof_of_isIdent hword) fun _ _ hnext => ?_
    refine walks_namespacePath hend ih hword hfirst (by omega) hnext fun hclosed => ?_
    have := hfuel hclosed
    omega

theorem walks_linkage (hend : ts.Ended) (ih : DeclWalks ts fuel)
    (hspecifier : ts.lexeme c = .ident "extern")
    (hlanguage : ∃ language, ts.lexeme (c + 1) = .str language)
    (hfuel : ts.Closed → 3 * (ts.size - c) ≤ fuel + 1) :
    Walks ts (parseLinkage ts (fuel + 1) scope) c fun d c' => Leads ts c [d] c' := by
  obtain ⟨language, hlanguage⟩ := hlanguage
  rw [parseLinkage]
  refine .cursor (.step hend (by simp [hspecifier]) fun _ _ _ => ?_)
  refine .step hend (by simp [hlanguage]) fun t ht hlt => ?_
  obtain ⟨-, htext⟩ := lexeme_of_token ht
  rw [hlanguage] at htext
  simp only [← htext]
  have hfinish : ∀ {decls m n last}, Arranged ts (c + 2) m decls →
      (ts.Bracketed → Laid ts (c + 2) m decls) → Passes ts m n → (ts.Closed → n < ts.size) →
      c ≤ last → (ts.Closed → last < ts.size) → Walks ts (do
        return .linkage language (← ts.spanBetween c last) decls : Parse Decl) n
        fun d c' => Leads ts c [d] c' := by
    intro decls m n last hdecls hlaid hn hsize hlast hsize'
    refine .read (reads_spanBetween fun hclosed => ⟨hlast, hsize' hclosed⟩) fun span hspan => ?_
    exact walks_pure ⟨.nest le_rfl hspan rfl (hdecls.before (by omega)) (.nil hn.le), hsize,
      by simp [hspecifier], fun hb =>
        .linkage (.refl ts c) hspecifier hlanguage hspan (hlaid hb) (.nil hn)⟩
  refine .eat hend (fun _ => hlt) (fun hopen hnext => ?_) fun _ _ => ?_
  · rw [if_pos (by simp)]
    refine (ih.decls fun hclosed => ⟨hnext, ?_⟩).bind fun decls close hdecls => ?_
    · have := hfuel hclosed
      omega
    have hsize := hdecls.lt_size
    have hle := hdecls.arranged.le
    have hinner := hdecls.arranged.before (Nat.le_succ (c + 2))
    have hlaid : ts.Bracketed → Laid ts (c + 2) close decls := fun hb =>
      (hdecls.laid hb).before (.step (by simp [hopen]))
    refine .cursor (.pass hend (fun _ => hsize) (by simp) fun n hn hnext => ?_)
    exact hfinish hinner hlaid hn (fun _ => hnext) (by omega) fun _ => hsize
  · rw [if_neg (by simp)]
    refine .cursor ((ih.decl hlt fun hclosed => ?_).bind fun d m hm => ?_)
    · have := hfuel hclosed
      omega
    have hle := hm.arranged.le
    refine .cursor (hfinish hm.arranged hm.laid (.refl ts m) hm.lt_size (by omega)
      fun hclosed => ?_)
    have := hm.lt_size hclosed
    omega

theorem walks_record (hend : ts.Ended) (ih : DeclWalks ts fuel) (hword : (ts.lexeme c).isIdent)
    (hbody : ts.recordBodyAhead c = true) (hfuel : ts.Closed → 3 * (ts.size - c) ≤ fuel + 1) :
    Walks ts (parseRecord ts (fuel + 1)) c fun d c' => Leads ts c [d] c' := by
  obtain ⟨brace, hahead⟩ := exists_braceAhead hbody
  rw [parseRecord]
  refine .cursor (.step hend (ne_eof_of_isIdent hword) fun t _ hlt => ?_)
  refine (walks_recordName hend fun _ => hlt).bind fun name m ⟨hle, hsize, hbrace⟩ => ?_
  have hahead' := hahead.mono hle (hbrace brace hahead)
  refine .advance hsize fun t' ht' => ?_
  have hopen : Passes ts m (if m + 1 < ts.size then m + 1 else m) := by
    split_ifs
    · exact .step hahead'.lexeme_ne
    · exact .refl ts m
  have hn : (if m + 1 < ts.size then m + 1 else m) < ts.size := by
    have := (lexeme_of_token ht').1
    split_ifs <;> omega
  generalize (if m + 1 < ts.size then m + 1 else m) = n at hopen hn ⊢
  have hhead : Passes ts c n := ((Passes.step (ne_openParen_of_isIdent hword)).trans
    (hahead.passes hle hahead'.le)).trans hopen
  have hlt' := hle.trans hopen.le
  refine walks_nested ih hn (fun hclosed => ?_) fun members close hmembers => ?_
  · have := hfuel hclosed
    omega
  have hclose := hmembers.lt_size
  have hle' := hmembers.arranged.le
  have hfinish : ∀ {k}, close ≤ k → (ts.Closed → k < ts.size) →
      (ts.Bracketed → Passes ts close k) → Walks ts (do
        return .record t.lexeme.spelling name (← ts.spanBetween c close) members : Parse Decl) k
        fun d c' => Leads ts c [d] c' := by
    intro k hk hsize hpass
    refine .read (reads_spanBetween fun _ => by omega) fun span hspan => ?_
    exact walks_pure ⟨.nest le_rfl hspan rfl (hmembers.arranged.before hhead.le) (.nil hk), hsize,
      fun hparen => absurd hparen (ne_openParen_of_isIdent hword), fun hb =>
        .record ((hmembers.laid hb).before hhead) (.nil (hpass hb))⟩
  refine .still still_exitNesting fun _ => .cursor ?_
  refine .pass hend (fun _ => hclose) (by simp) fun k hk hsize => ?_
  -- What stands between the closing brace and the semicolon is skipped.
  refine .peek (fun _ => hsize) fun _ => ?_
  split_ifs
  · refine (walks_skipToSemicolon hend fun _ => hsize).bind fun last c' hc' => ?_
    exact hfinish (hk.le.trans hc'.1) (fun _ => hc'.2.1) fun hb => hk.trans (hc'.2.2.2.2 hb)
  · refine .pass hend (fun _ => hsize) (by simp) fun c' hc' hnext => ?_
    exact hfinish (hk.trans hc').le (fun _ => hnext) fun _ => hk.trans hc'

/-- A declaration after its template heads, the first of which, if any, is at `start`. -/
theorem walks_wordedDecl (hend : ts.Ended) (ih : DeclWalks ts fuel) (hc : ts.Closed → c < ts.size)
    (hstart : Passes ts start c)
    (htemplate : ∀ t, template = some t → t = start ∧ ts.lexeme t ≠ .symbol .semicolon)
    (hfuel : ts.Closed → 3 * (ts.size - c) ≤ fuel) :
    Walks ts (do
      let next ← peekAt ts 1
      if (← atWord ts "namespace") || ((← atWord ts "inline") && next == .ident "namespace") then
        return some (← parseNamespace ts fuel)
      if (← atWord ts "extern") && (match next with | .str _ => true | _ => false) then
        return some (← parseLinkage ts fuel scope)
      if (← atWord ts "using") && next == .ident "namespace" then
        return some (← parseUsing ts)
      if (← atAnyWord ts ["struct", "class", "union"]) && ts.recordBodyAhead (← cursor) then
        return some (← parseRecord ts fuel)
      return some (← parseGeneric ts scope template) : Parse (Option Decl)) c
        fun d c' => Leads ts start d.toList c' := by
  -- Any of the parsers with a word of its own starts where the cursor is.
  have hworded : ∀ {x : Parse Decl},
      Walks ts x c (fun d c' => Leads ts c [d] c') →
      Walks ts (do return some (← x) : Parse (Option Decl)) c
        fun d c' => Leads ts start d.toList c' := fun hx =>
    hx.bind fun d c' hd => walks_pure (hd.before hstart)
  refine .peekAt (.atWord hc fun hlt => .atWord hc fun _ => ?_)
  split_ifs with hspace
  · simp only [Bool.or_eq_true, Bool.and_eq_true, beq_iff_eq] at hspace
    refine hworded (ih.namespaceBody ?_ (fun hinline => ?_) hfuel)
    · rcases hspace with heq | ⟨heq, -⟩ <;> rw [heq] <;> rfl
    · rw [hinline] at hspace
      have hnext : ts.lexeme (c + 1) = .ident "namespace" := by simpa using hspace
      rw [hnext]
      rfl
  refine .atWord hc fun _ => ?_
  split_ifs with hlinkage
  · simp only [Bool.and_eq_true, beq_iff_eq] at hlinkage
    obtain ⟨hword, hnext⟩ := hlinkage
    refine hworded (ih.linkage hword ?_ hfuel)
    split at hnext
    · exact ⟨_, ‹_›⟩
    · cases hnext
  refine .atWord hc fun _ => ?_
  split_ifs with hdirective
  · simp only [Bool.and_eq_true, beq_iff_eq] at hdirective
    exact hworded (walks_using hend hdirective.1 hdirective.2)
  refine .atAnyWord hc fun isRecord hkeyword => .cursor ?_
  split_ifs with hbody
  · rw [Bool.and_eq_true] at hbody
    exact hworded (ih.record (hkeyword hbody.1) hbody.2 hfuel)
  · refine (walks_generic hend hlt hstart htemplate).bind fun d c' hd => ?_
    exact walks_pure hd

/-- A declaration from its template heads on, when it is known what can follow them. -/
theorem walks_headedDecl (hend : ts.Ended) {rest : Option Nat → Parse (Option Decl)}
    (hc : c < ts.size)
    (hrest : ∀ {template m}, (ts.Closed → m < ts.size) → Passes ts c m →
      (∀ t, template = some t → t = c ∧ ts.lexeme t ≠ .symbol .semicolon) →
      Walks ts (rest template) m fun d c' => Leads ts c d.toList c') :
    Walks ts (do
      match ← templateHeads ts (ts.size + 1) none with
      | none => return none
      | some template => rest template : Parse (Option Decl)) c
        fun d c' => Leads ts c d.toList c' := by
  refine (walks_templateHeads hend fun _ => hc).bind
    fun heads m ⟨hsize, hpass, hmoves, hknown⟩ => ?_
  cases heads with
  | none => exact walks_pure ⟨.nil hpass.le, hsize, fun _ => hmoves rfl, fun _ => .nil hpass⟩
  | some template =>
    refine hrest hsize hpass fun t heq => ?_
    rcases hknown template rfl with hnone | ⟨-, hsome, hword⟩
    · rw [heq] at hnone
      cases hnone
    · obtain rfl := Option.some.inj (heq.symm.trans hsome)
      exact ⟨rfl, by simp [hword]⟩

theorem walks_decl (hend : ts.Ended) (ih : DeclWalks ts fuel) (hc : c < ts.size)
    (hfuel : ts.Closed → 3 * (ts.size - c) + 1 ≤ fuel + 1) :
    Walks ts (parseDecl ts (fuel + 1) scope) c fun d c' => Leads ts c d.toList c' := by
  have hfuel' : ∀ {m}, Passes ts c m → ts.Closed → 3 * (ts.size - m) ≤ fuel := by
    intro m hm hclosed
    have := hm.le
    have := hfuel hclosed
    omega
  rw [parseDecl]
  refine .eat hend (fun _ => hc) (fun hsemicolon hnext => ?_) fun _ _ => ?_
  · rw [if_pos (by simp)]
    exact walks_pure ⟨.nil (Nat.le_succ c), fun _ => hnext, fun _ => Nat.lt_succ_self c, fun _ =>
      .nil (.step (by simp [hsemicolon]))⟩
  rw [if_neg (by simp)]
  cases scope with
  | record name =>
    refine .atAnyWord (fun _ => hc) fun isAccess hword => .peekAt ?_
    split_ifs with hlabel
    · simp only [Bool.and_eq_true, beq_iff_eq] at hlabel
      refine .step hend (ne_eof_of_isIdent (hword hlabel.1)) fun _ _ _ => ?_
      refine .step hend (by simp [hlabel.2]) fun _ _ hnext => ?_
      have hwords := (Passes.step (ne_openParen_of_isIdent (hword hlabel.1))).trans
        (.step (by simp [hlabel.2]))
      exact walks_pure ⟨.nil hwords.le, fun _ => hnext, fun _ => by omega, fun _ => .nil hwords⟩
    · exact walks_headedDecl hend hc fun hm hle htemplate =>
        walks_wordedDecl hend ih hm hle htemplate (hfuel' hle)
  | file | linkage | namespaceBody =>
    exact walks_headedDecl hend hc fun hm hle htemplate =>
      walks_wordedDecl hend ih hm hle htemplate (hfuel' hle)

theorem declWalks (hend : ts.Ended) (fuel : Nat) : DeclWalks ts fuel := by
  induction fuel with
  | zero =>
    -- No level is left only where some bracket does not close.
    constructor
    all_goals
      intros
      simp only [parseDecls, parseDecl, parseNamespace, parseLinkage, parseRecord]
      refine walks_fault fun hclosed => ?_
      have := ‹ts.Closed → _› hclosed
      first
        | omega
        | have := hend.lt_of_lexeme_ne (ne_eof_of_isIdent ‹(ts.lexeme _).isIdent›)
          omega
        | have := hend.lt_of_lexeme_ne (ne_of_eq_of_ne ‹ts.lexeme _ = .ident _› (by simp))
          omega
  | succ fuel ih =>
    exact {
      decls := walks_decls hend ih
      decl := walks_decl hend ih
      namespaceBody := walks_namespace hend ih
      linkage := walks_linkage hend ih
      record := walks_record hend ih }

theorem walks_parseUnit (hend : ts.Ended) (hsize : 0 < ts.size) :
    Walks ts (parseUnit ts) 0 (DeclsEnd ts 0) := by
  unfold parseUnit
  refine ((declWalks hend _).decls fun _ => ⟨hsize, by omega⟩).bind fun ds c' hds => ?_
  refine .peek (fun _ => hds.lt_size) fun _ => ?_
  split_ifs
  · exact .reportHere (fun _ => hds.lt_size) (walks_pure hds)
  · exact walks_pure hds

/-- The declarations of a stream follow one another, and no fault is met but those excused. -/
theorem walks_unit (hend : ts.Ended) (hsize : 0 < ts.size) :
    Walks ts (parseUnit ts) 0 fun ds c' => Arranged ts 0 c' ds :=
  (walks_parseUnit hend hsize).mono fun _ _ hds => hds.arranged

/-- The declarations of a stream whose brackets have partners stand in order from its start on. -/
theorem parseUnit_laid (hb : ts.Bracketed) (hsize : 0 < ts.size) {ds : List Decl} {s' : ParseState}
    (h : Gives (parseUnit ts) .initial ds s') : ∃ c, Laid ts 0 c ds :=
  ⟨_, ((walks_parseUnit hb.ended hsize).ok rfl h).laid hb⟩

end Levels

end Offload.Source
