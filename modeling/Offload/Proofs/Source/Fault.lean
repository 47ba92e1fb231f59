import Offload.Proofs.Source.Declaration

/-!
# Faults of reading a token stream

When every bracket closes before the last token, by a bracket of whatever kind, all indices that the
parser computes stay inside the stream. A span can still come out reversed, but in a stream whose
tokens stand in order that takes a parameter with nothing before the `=` of its default. This holds
for everything that is read off a stream without moving through it.
-/

namespace Offload.Source.TokenStream

variable {ts : TokenStream} {i j k paren start stop fuel : Nat} {g : Nat × Nat}

/-- No token ends before the start of one ahead of it. -/
def Forward (ts : TokenStream) : Prop :=
  ∀ {i j : Nat} {t u : Token}, i ≤ j → ts.token i = .ok t → ts.token j = .ok u →
    t.span.start ≤ u.span.stop

theorem forward_of_pairwise
    (hpairs : ts.tokens.toList.Pairwise fun t u => t.span.start ≤ u.span.stop)
    (hself : ∀ t ∈ ts.tokens.toList, t.span.start ≤ t.span.stop) : ts.Forward := by
  have hget {i : Nat} {t : Token} (ht : ts.token i = .ok t) : ts.tokens.toList[i]? = some t := by
    unfold token at ht
    split at ht
    · rename_i u hu
      obtain rfl := Except.ok.inj ht
      simpa using hu
    · cases ht
  intro i j t u hij ht hu
  obtain ⟨hi, rfl⟩ := List.getElem?_eq_some_iff.mp (hget ht)
  obtain ⟨hj, rfl⟩ := List.getElem?_eq_some_iff.mp (hget hu)
  rcases Nat.eq_or_lt_of_le hij with rfl | hlt
  · exact hself _ (List.getElem_mem hi)
  · exact List.pairwise_iff_getElem.mp hpairs i j hi hj hlt

/-- A parameter that begins with the `=` of its default: its span would reach from there back to the
token before. -/
structure BareDefault (ts : TokenStream) (start stop : Nat) : Prop where
  param : ∃ paren g, ts.lexeme paren = .symbol .openParen ∧
    g ∈ ts.groups (paren + 1) (ts.matching paren) ∧ ts.lexeme g.1 = .symbol .equal ∧
      ∃ t u, ts.token g.1 = .ok t ∧ ts.token (g.1 - 1) = .ok u ∧ t.span.start = start ∧
        u.span.stop = stop
  reversed : stop < start

/-- The faults that are left when every bracket closes. -/
def Excused (ts : TokenStream) (f : Fault) : Prop :=
  ts.Closed → ∃ start stop, f = .reversed start stop ∧ (ts.Forward → ts.BareDefault start stop)

/-! ### Readings -/

/-- What is read has a property, or the fault is one that is left. -/
structure Reads (ts : TokenStream) {α : Type} (x : Except Fault α) (post : α → Prop) : Prop where
  ok : ∀ a, x = .ok a → post a
  error : ∀ f, x = .error f → ts.Excused f

section Readings

variable {α β : Type} {x : Except Fault α} {f : α → Except Fault β} {p q : α → Prop} {r : β → Prop}
  {scope : Scope} {nameIndex : Nat} {d : Declarator}

theorem reads_ok {a : α} (h : p a) : Reads ts (.ok a) p :=
  ⟨fun b hb => by rwa [← Except.ok.inj hb], by simp⟩

theorem Reads.and_eq (h : Reads ts x p) : Reads ts x fun a => p a ∧ x = .ok a :=
  ⟨fun a ha => ⟨h.ok a ha, ha⟩, h.error⟩

theorem Reads.bind (h : Reads ts x p) (hf : ∀ a, p a → Reads ts (f a) r) :
    Reads ts (x >>= f) r := by
  cases x with
  | error e =>
    refine ⟨by simp [bind, Except.bind], fun e' he' => h.error e' ?_⟩
    simpa [bind, Except.bind] using he'
  | ok a => exact hf a (h.ok a rfl)

theorem reads_mapM {g : α → Except Fault β} {xs : List α}
    (h : ∀ a ∈ xs, Reads ts (g a) fun _ => True) : Reads ts (xs.mapM g) fun _ => True := by
  induction xs with
  | nil => exact reads_ok trivial
  | cons a xs ih =>
    rw [List.mapM_cons]
    refine (h a List.mem_cons_self).bind fun b _ => ?_
    refine (ih fun a' ha' => h a' (List.mem_cons_of_mem _ ha')).bind fun bs _ => ?_
    exact reads_ok trivial

end Readings

theorem reads_token (h : ts.Closed → i < ts.size) :
    Reads ts (ts.token i) fun t => ts.token i = .ok t := by
  refine ⟨fun _ ha => ha, fun f hf hc => ?_⟩
  obtain ⟨t, ht⟩ := exists_token (h hc)
  rw [ht] at hf
  cases hf

theorem reads_spanBetween (h : ts.Closed → i ≤ j ∧ j < ts.size) :
    Reads ts (ts.spanBetween i j) fun span => ts.spanBetween i j = .ok span := by
  refine ⟨fun _ ha => ha, fun f hf hc => ?_⟩
  obtain ⟨hij, hj⟩ := h hc
  obtain ⟨t, ht⟩ := exists_token (hij.trans_lt hj)
  obtain ⟨u, hu⟩ := exists_token hj
  simp only [spanBetween, ht, hu, bind, Except.bind, Span.between] at hf
  split_ifs at hf with hle
  obtain rfl := Except.error.inj hf
  exact ⟨_, _, rfl, fun hforward => absurd (hforward hij ht hu) hle⟩

theorem reads_rangeBetween (h : ts.Closed → i ≤ j ∧ j < ts.size) :
    Reads ts (ts.rangeBetween i j) fun range => ts.rangeBetween i j = .ok range := by
  refine ⟨fun _ ha => ha, ?_⟩
  unfold rangeBetween
  have hreads : Reads ts (do
      let span ← ts.spanBetween i j
      let b ← ts.token j
      return (⟨span, b.position⟩ : SourceRange)) fun _ => True :=
    (reads_spanBetween h).bind fun _ _ => (reads_token fun hc => (h hc).2).bind fun _ _ =>
      reads_ok trivial
  exact hreads.error

theorem reads_slice (h : ts.Closed → i ≤ j ∧ j ≤ ts.size) :
    Reads ts (ts.slice i j) fun _ => True := by
  refine ⟨fun _ _ => trivial, fun f hf hc => ?_⟩
  unfold slice at hf
  rw [if_pos (h hc)] at hf
  cases hf

theorem reads_renderSlice (h : ts.Closed → i ≤ j ∧ j ≤ ts.size) :
    Reads ts (ts.renderSlice i j) fun _ => True := by
  unfold renderSlice
  exact (reads_slice h).bind fun _ _ => reads_ok trivial

/-! ### Groups between two brackets -/

theorem Closed.group (hc : ts.Closed) (hend : ts.Ended) (ho : (ts.lexeme i).opens)
    (hg : g ∈ ts.groups (i + 1) (ts.matching i)) :
    i < g.1 ∧ g.1 < g.2 ∧ g.2 < ts.size := by
  have hm := hc i ho
  obtain ⟨hgroup, hlt⟩ := (groups_spec hend (.inside hend ho hm)).1 g hg
  have hfirst := hgroup.first.le
  have hlast := hgroup.le
  omega

theorem find?_bounds {p : Lexeme → Bool} (h : ts.find? start stop p = some k) :
    start ≤ k ∧ k < stop ∧ p (ts.lexeme k) = true := by
  have hk := List.mem_range'_1.mp (List.mem_of_find?_eq_some h)
  have hp := List.find?_some h
  exact ⟨hk.1, by omega, hp⟩

/-- The span of a parameter, which ends before the `=` of its default. -/
theorem reads_paramSpan (hend : ts.Ended) (hparen : ts.lexeme paren = .symbol .openParen)
    (hg : g ∈ ts.groups (paren + 1) (ts.matching paren))
    (hk : ts.find? g.1 g.2 (· == .symbol .equal) = some k ∨ k = g.2) :
    Reads ts (ts.spanBetween g.1 (k - 1)) fun _ => True := by
  refine ⟨fun _ _ => trivial, fun f hf hc => ?_⟩
  obtain ⟨hlt, hpos, hsize⟩ := hc.group hend (opens_of_eq hparen rfl) hg
  rcases hk with hk | rfl
  · obtain ⟨hle, hstop, hequal⟩ := find?_bounds hk
    rcases Nat.eq_or_lt_of_le hle with rfl | hlt'
    · -- Nothing stands before the `=`.
      obtain ⟨t, ht⟩ := exists_token (hpos.trans hsize)
      obtain ⟨u, hu⟩ : ∃ u, ts.token (g.1 - 1) = .ok u := exists_token (by omega)
      simp only [spanBetween, ht, hu, bind, Except.bind, Span.between] at hf
      split_ifs at hf with hreversed
      obtain rfl := Except.error.inj hf
      refine ⟨_, _, rfl, fun _ => ⟨⟨paren, g, hparen, hg, ?_, t, u, ht, hu, rfl, rfl⟩, ?_⟩⟩
      · simpa using hequal
      · omega
    · exact (reads_spanBetween fun _ => ⟨by omega, by omega⟩).error f hf hc
  · exact (reads_spanBetween fun _ => ⟨by omega, by omega⟩).error f hf hc

/-- The name and the type of a parameter whose tokens are those of `[a, b)`. -/
theorem reads_paramName {a b nameEnd : Nat} {suffix : String} {span : Span}
    (h : ts.Closed → a ≤ b ∧ b ≤ ts.size ∧ nameEnd ≤ b) :
    Reads ts (match ts.lexeme (nameEnd - 1) with
      | .ident name =>
        if a + 2 ≤ nameEnd && !typeKeywords.contains name && name != "const" &&
            name != "volatile" && ts.lexeme (nameEnd - 2) != .symbol .colonColon then do
          return (⟨some name, (← ts.renderSlice a (nameEnd - 1)) ++ suffix, span⟩ : Param)
        else do
          return ⟨none, ← ts.renderSlice a b, span⟩
      | _ => do return ⟨none, ← ts.renderSlice a b, span⟩) fun _ => True := by
  have hwhole : Reads ts (do return (⟨none, ← ts.renderSlice a b, span⟩ : Param)) fun _ => True :=
    (reads_renderSlice fun hc => ⟨(h hc).1, (h hc).2.1⟩).bind fun _ _ => reads_ok trivial
  split
  · split_ifs with hnamed
    · simp only [Bool.and_eq_true, decide_eq_true_eq] at hnamed
      refine (reads_renderSlice fun hc => ?_).bind fun _ _ => reads_ok trivial
      have := h hc
      omega
    · exact hwhole
  · exact hwhole

theorem reads_param (hend : ts.Ended) (hparen : ts.lexeme paren = .symbol .openParen)
    (hg : g ∈ ts.groups (paren + 1) (ts.matching paren)) :
    Reads ts (ts.param g.1 g.2) fun _ => True := by
  unfold param
  simp only
  have hk : ts.find? g.1 g.2 (· == .symbol .equal) = some
      ((ts.find? g.1 g.2 (· == .symbol .equal)).getD g.2) ∨
      (ts.find? g.1 g.2 (· == .symbol .equal)).getD g.2 = g.2 := by
    cases ts.find? g.1 g.2 (· == .symbol .equal) with
    | none => exact .inr rfl
    | some k => exact .inl rfl
  generalize (ts.find? g.1 g.2 (· == .symbol .equal)).getD g.2 = k at hk ⊢
  have hbounds : ts.Closed → g.1 ≤ k ∧ k < ts.size := by
    intro hc
    obtain ⟨-, hpos, hsize⟩ := hc.group hend (opens_of_eq hparen rfl) hg
    rcases hk with hk | rfl
    · have := find?_bounds hk
      omega
    · omega
  refine (reads_paramSpan hend hparen hg hk).bind fun span _ => ?_
  split_ifs
  · -- Array brackets are cut off first.
    have hbracket : ts.Closed → (ts.find? g.1 k (· == .symbol .openBracket)).getD (k - 1) ≤ k := by
      intro hc
      cases hfind : ts.find? g.1 k (· == .symbol .openBracket) with
      | none => exact Nat.sub_le k 1
      | some bracket => exact (find?_bounds hfind).2.1.le
    refine (reads_renderSlice fun hc => ⟨hbracket hc, (hbounds hc).2.le⟩).bind fun _ _ => ?_
    exact reads_paramName fun hc => ⟨(hbounds hc).1, (hbounds hc).2.le, hbracket hc⟩
  · exact reads_paramName fun hc => ⟨(hbounds hc).1, (hbounds hc).2.le, le_rfl⟩

theorem reads_params (hend : ts.Ended) (hparen : ts.lexeme paren = .symbol .openParen) :
    Reads ts (ts.params (paren + 1) (ts.matching paren)) fun _ => True := by
  unfold params
  split_ifs
  · exact reads_ok trivial
  · exact reads_mapM fun g hg => reads_param hend hparen hg

/-! ### Attributes -/

theorem reads_attributeArg (h : ts.Closed → i < j ∧ j < ts.size) :
    Reads ts (ts.attributeArg i j) fun _ => True := by
  have hother : ∀ span, Reads ts (do return AttributeArg.other ⟨← ts.renderSlice i j, span⟩)
      fun _ => True := fun span =>
    (reads_renderSlice fun hc => ⟨(h hc).1.le, (h hc).2.le⟩).bind fun _ _ => reads_ok trivial
  unfold attributeArg
  refine (reads_spanBetween fun hc => ?_).bind fun span _ => ?_
  · have := h hc
    omega
  · split
    · split_ifs
      · exact reads_ok trivial
      · exact hother span
    · exact hother span

theorem reads_attributeEntry? (hend : ts.Ended) (h : ts.Closed → i < ts.size) :
    Reads ts (ts.attributeEntry? nameIndex i j) fun _ => True := by
  unfold attributeEntry?
  split
  · split_ifs with hargs
    · simp only [Bool.and_eq_true, beq_iff_eq] at hargs
      refine (reads_mapM fun g hg => reads_attributeArg fun hc => ?_).bind fun _ _ => ?_
      · exact (hc.group hend (opens_of_eq hargs.2 rfl) hg).2
      · exact (reads_token h).bind fun _ _ => reads_ok trivial
    · exact (reads_token h).bind fun _ _ => reads_ok trivial
  · exact reads_ok trivial

theorem reads_attributesFrom (hend : ts.Ended) :
    Reads ts (ts.attributesFrom stop nameIndex fuel i) fun _ => True := by
  induction fuel generalizing i with
  | zero => exact reads_ok trivial
  | succ fuel ih =>
    rw [attributesFrom]
    split_ifs with hlt hattribute
    · simp only [Bool.and_eq_true, beq_iff_eq] at hattribute
      refine (reads_mapM fun g hg => reads_attributeEntry? hend fun hc => ?_).bind fun _ _ => ?_
      · have := hc.group hend (opens_of_eq hattribute.2 rfl) hg
        omega
      · exact ih.bind fun _ _ => reads_ok trivial
    · exact ih
    · exact reads_ok trivial

theorem reads_attributes (hend : ts.Ended) :
    Reads ts (ts.attributes start stop nameIndex) fun _ => True :=
  reads_attributesFrom hend

/-! ### Lambdas and variables -/

theorem reads_captureList (hend : ts.Ended) (hbracket : ts.lexeme i = .symbol .openBracket) :
    Reads ts (ts.captureList (i + 1) (ts.matching i)) fun _ => True := by
  unfold captureList
  refine (reads_mapM fun g hg => ?_).bind fun _ _ => reads_ok trivial
  refine (reads_spanBetween fun hc => ?_).bind fun _ _ => reads_ok trivial
  have := hc.group hend (opens_of_eq hbracket rfl) hg
  omega

theorem reads_implicitCaptures {kind : CaptureKind} {locals : Locals} {inside seen : List String}
    {used : List Nat} (h : ts.Closed → ∀ k ∈ used, k < ts.size) :
    Reads ts (ts.implicitCaptures kind locals inside seen used) fun _ => True := by
  induction used generalizing seen with
  | nil => exact reads_ok trivial
  | cons k rest ih =>
    have hrest : ∀ {seen}, Reads ts (ts.implicitCaptures kind locals inside seen rest)
        fun _ => True :=
      ih fun hc k' hk' => h hc k' (List.mem_cons_of_mem _ hk')
    have hhere : ts.Closed → k < ts.size := fun hc => h hc k List.mem_cons_self
    rw [implicitCaptures]
    split
    · split_ifs
      · exact hrest
      · exact (reads_token hhere).bind fun _ _ => hrest.bind fun _ _ => reads_ok trivial
      · exact hrest
      · split
        · exact hrest
        · exact (reads_token hhere).bind fun _ _ => hrest.bind fun _ _ => reads_ok trivial
    · exact hrest

theorem reads_captures {list : CaptureList} {locals : Locals} {inside : List String}
    {used : List Nat} (h : ts.Closed → ∀ k ∈ used, k < ts.size) :
    Reads ts (ts.captures list locals inside used) fun _ => True := by
  unfold captures
  simp only
  split
  · exact reads_ok trivial
  · exact (reads_implicitCaptures h).bind fun _ _ => reads_ok trivial

theorem reads_lambdaParams? (hend : ts.Ended) :
    Reads ts (ts.lambdaParams? j stop) fun _ => True := by
  unfold lambdaParams?
  split_ifs with hparen
  · have hparen' : ts.lexeme j = .symbol .openParen := by simpa using hparen
    have ho := opens_of_eq hparen' rfl
    simp only
    split_ifs
    · exact reads_ok trivial
    · refine (reads_params hend hparen').bind fun _ _ => ?_
      refine (reads_spanBetween fun hc => ?_).bind fun _ _ => reads_ok trivial
      have := lt_matching hend ho
      have := hc j ho
      omega
  · exact reads_ok trivial

theorem reads_lambdaShape? (hend : ts.Ended) (hbracket : ts.lexeme i = .symbol .openBracket) :
    Reads ts (ts.lambdaShape? i stop) fun shape? =>
      ∀ shape, shape? = some shape → shape.closeBracket = ts.matching i := by
  unfold lambdaShape?
  simp only
  by_cases hclose : stop ≤ ts.matching i
  · rw [if_pos hclose]
    exact reads_ok (by simp)
  rw [if_neg hclose]
  refine (reads_captureList hend hbracket).bind fun list _ => ?_
  split
  · exact reads_ok (by simp)
  · refine (reads_lambdaParams? hend).bind fun _ _ => ?_
    split
    · exact reads_ok (by simp)
    · split_ifs
      · exact reads_ok (by simp)
      · refine reads_ok fun shape heq => ?_
        rw [← Option.some.inj heq]

theorem afterNameFrom?_le (h : ts.afterNameFrom? start stop fuel i = some k) : k ≤ stop := by
  fun_induction afterNameFrom? ts start stop fuel i <;> grind

theorem reads_firstVar? (h : ts.Closed → stop ≤ ts.size) :
    Reads ts (ts.firstVar? start stop) fun first =>
      ∀ v, first = some v → start + 2 ≤ v.after ∧ v.after ≤ stop := by
  unfold firstVar?
  split
  · split_ifs
    · exact reads_ok (by simp)
    · split
      · exact reads_ok (by simp)
      · rename_i k hk
        have hle := afterNameFrom?_le hk
        split_ifs with hshort
        · exact reads_ok (by simp)
        · split
          · split_ifs
            · exact reads_ok (by simp)
            · refine (reads_slice fun hc => ?_).bind fun tokens _ => ?_
              · have := h hc
                omega
              · refine reads_ok fun v hv => ?_
                split_ifs at hv
                obtain rfl := Option.some.inj hv
                exact ⟨not_lt.mp hshort, hle⟩
          · exact reads_ok (by simp)
  · exact reads_ok (by simp)

/-! ### Paths and calls -/

theorem le_pathFrom (hend : ts.Ended) : i ≤ (ts.pathFrom stop fuel i).2 := by
  have hangle : ∀ k close, ts.matchingAngle k stop = some close → k ≤ close + 1 :=
    fun k close h => (crosses_of_matchingAngle hend h).passes.le
  fun_induction pathFrom ts stop fuel i <;> grind

theorem le_path? (hend : ts.Ended) {parts : List String} {after : Nat}
    (h : ts.path? i stop = some (parts, after)) : i ≤ after := by
  unfold path? at h
  simp only at h
  split_ifs at h
  · obtain ⟨rfl, rfl⟩ := Prod.mk.inj (Option.some.inj h)
    exact (Nat.le_succ i).trans (le_pathFrom hend)
  · obtain ⟨rfl, rfl⟩ := Prod.mk.inj (Option.some.inj h)
    exact le_pathFrom hend

theorem callShape?_le (hend : ts.Ended) {callee : List String} {close : Nat}
    (h : ts.callShape? i stop = some (callee, paren, close)) : i ≤ paren := by
  unfold callShape? at h
  split at h
  · cases h
  · rename_i parts after hpath
    simp only at h
    split_ifs at h
    cases h
    exact le_path? hend hpath

/-! ### Declarators -/

/-- The parentheses of a declarator are a pair, with the name ahead of where it closes. -/
structure DeclaratorAt (ts : TokenStream) (d : Declarator) : Prop where
  paren : ts.lexeme d.openParen = .symbol .openParen
  close : d.closeParen = ts.matching d.openParen
  name : d.name ≤ d.closeParen

theorem passes_operatorName {text : String} (h : ts.operatorName fuel i = some (text, stop)) :
    Passes ts i stop := by
  induction fuel generalizing i text with
  | zero => cases h
  | succ fuel ih =>
    rw [operatorName] at h
    split_ifs at h with hstop hnone
    · obtain ⟨rfl, rfl⟩ := Prod.mk.inj (Option.some.inj h)
      exact .refl ts _
    · split at h
      · cases h
      · rename_i text' stop' hrest
        obtain ⟨rfl, rfl⟩ := Prod.mk.inj (Option.some.inj h)
        refine (Passes.step fun heq => hstop ?_).trans (ih hrest)
        simp [heq]

theorem operatorDeclarator?_passes (hend : ts.Ended)
    (h : ts.operatorDeclarator? i = some d) : Passes ts (i + 1) (d.closeParen + 1) := by
  unfold operatorDeclarator? at h
  simp only at h
  split at h
  · cases h
  · rename_i text paren hname
    split_ifs at h with hparen
    obtain rfl := Option.some.inj h
    have hjump : Passes ts paren (ts.matching paren + 1) :=
      .jump hend (opens_of_eq (beq_iff_eq.mp hparen) rfl)
    have hbefore : Passes ts (i + 1) paren := by
      split_ifs at hname with hcall
      · -- The name is a pair of parentheses with nothing between them.
        obtain ⟨rfl, rfl⟩ := Prod.mk.inj (Option.some.inj hname)
        simp only [Bool.and_eq_true, beq_iff_eq] at hcall
        have ho : (ts.lexeme (i + 1)).opens := opens_of_eq hcall.1 rfl
        have hc : (ts.lexeme (i + 2)).closes := hcall.2 ▸ rfl
        have hlast : i + 2 + 1 < ts.size := hend.lt_of_lexeme_ne (by simp [hcall.2])
        have hmatching : ts.matching (i + 1) = i + 2 :=
          (Closes.found hlast hc le_rfl).unique (closes_matching hend ho)
        have := Passes.jump hend ho
        rwa [hmatching] at this
      · exact passes_operatorName hname
    exact hbefore.trans hjump

theorem declaratorName?_le {name : Nat}
    (h : ts.declaratorName? start scope paren = some name) : name ≤ paren := by
  unfold declaratorName? at h
  grind

theorem operatorDeclarator?_at (hend : ts.Ended)
    (h : ts.operatorDeclarator? i = some d) : DeclaratorAt ts d := by
  have hpast := (operatorDeclarator?_passes hend h).le
  unfold operatorDeclarator? at h
  simp only at h
  split at h
  · cases h
  · split_ifs at h with hparen
    obtain rfl := Option.some.inj h
    exact ⟨by simpa using hparen, rfl, Nat.le_of_succ_le_succ hpast⟩

/-- A round of the scan stops, or goes on past a token or a group, behind the declarator if it finds
one there. -/
theorem extentFrom_succ (hend : ts.Ended) (start fuel i : Nat) (scope : Scope) (shape : Shape) :
    (∃ body, ts.extentFrom start scope (fuel + 1) shape i = ⟨shape.declarator, body, i⟩ ∧
      ∀ brace, body = some brace → brace = i ∧ ts.lexeme brace = .symbol .openBrace) ∨
    ∃ shape' next, ts.extentFrom start scope (fuel + 1) shape i =
        ts.extentFrom start scope fuel shape' next ∧ Crosses ts i next ∧
      ∀ d, shape'.declarator = some d → shape.declarator = some d ∨
        DeclaratorAt ts d ∧ d.closeParen + 1 = next ∧ i < next := by
  rw [extentFrom]
  by_cases hlast : ts.atEnd i = true
  · rw [if_pos hlast]
    exact .inl ⟨none, rfl, by simp⟩
  rw [if_neg hlast]
  split
  · exact .inl ⟨none, rfl, by simp⟩
  · exact .inl ⟨none, rfl, by simp⟩
  · rename_i hbrace
    simp only
    split_ifs
    · refine .inl ⟨some i, rfl, fun brace heq => ?_⟩
      obtain rfl := Option.some.inj heq
      exact ⟨rfl, hbrace⟩
    · exact .inr ⟨_, _, rfl, .jump hend (opens_of_eq hbrace rfl), fun d hd => .inl hd⟩
  · rename_i hoperator
    have hstep : Crosses ts i (i + 1) := .step (by simp [hoperator]) hlast
    split
    · rename_i d hd
      split_ifs at hd
      have hpast := operatorDeclarator?_passes hend hd
      have hat := operatorDeclarator?_at hend hd
      refine .inr ⟨_, _, rfl, ⟨hstep.passes.trans hpast, fun hc _ => ?_⟩, fun d' hd' => ?_⟩
      · rw [hat.close]
        exact hc _ (opens_of_eq hat.paren rfl)
      · obtain rfl := Option.some.inj hd'
        exact .inr ⟨hat, rfl, hpast.le⟩
    · exact .inr ⟨_, _, rfl, hstep, fun d hd => .inl hd⟩
  · rename_i hparen
    have hjump : Crosses ts i (ts.matching i + 1) := .jump hend (opens_of_eq hparen rfl)
    have hlt : i < ts.matching i := lt_matching hend (opens_of_eq hparen rfl)
    simp only
    split
    · rename_i name hname
      split_ifs at hname
      refine .inr ⟨_, _, rfl, hjump, fun d hd => ?_⟩
      obtain rfl := Option.some.inj hd
      exact .inr ⟨⟨hparen, rfl, (declaratorName?_le hname).trans hlt.le⟩, rfl, by omega⟩
    · exact .inr ⟨_, _, rfl, hjump, fun d hd => .inl hd⟩
  · rename_i hbracket
    exact .inr ⟨_, _, rfl, .jump hend (opens_of_eq hbracket rfl), fun d hd => .inl hd⟩
  · rename_i hless
    have hstep : Crosses ts i (i + 1) := .step (by simp [hless]) hlast
    split_ifs
    · refine .inr ⟨_, _, rfl, ?_, fun d hd => .inl hd⟩
      cases hangle : ts.matchingAngle i ts.size with
      | none => exact hstep
      | some close => exact crosses_of_matchingAngle hend hangle
    · exact .inr ⟨_, _, rfl, hstep, fun d hd => .inl hd⟩
  · rename_i hequal
    exact .inr ⟨_, _, rfl, .step (by simp [hequal]) hlast, fun d hd => .inl hd⟩
  · rename_i hcolon
    exact .inr ⟨_, _, rfl, .step (by simp [hcolon]) hlast, fun d hd => .inl hd⟩
  · rename_i hne _ _ _ _
    exact .inr ⟨_, _, rfl, .step hne hlast, fun d hd => .inl hd⟩

/-- What a scan of the declaration from `start` that has come to `i` makes of the rest. -/
structure ExtentAt (ts : TokenStream) (start i : Nat) (e : Extent) : Prop where
  passes : Passes ts start e.stop
  le : i ≤ e.stop
  lt_size : ts.Closed → e.stop < ts.size
  declarator : ∀ d, e.declarator = some d →
    DeclaratorAt ts d ∧ d.closeParen < e.stop ∧ start < e.stop
  body : ∀ brace, e.body = some brace → brace = e.stop ∧ ts.lexeme brace = .symbol .openBrace

theorem extentFrom_at (hend : ts.Ended) {shape : Shape}
    (hpass : Passes ts start i) (hi : ts.Closed → i < ts.size)
    (hshape : ∀ d, shape.declarator = some d → DeclaratorAt ts d ∧ d.closeParen < i ∧ start < i) :
    ExtentAt ts start i (ts.extentFrom start scope fuel shape i) := by
  induction fuel generalizing shape i with
  | zero => exact ⟨hpass, le_rfl, hi, hshape, by simp [extentFrom]⟩
  | succ fuel ih =>
    rcases extentFrom_succ hend start fuel i scope shape with
      ⟨body, heq, hbody⟩ | ⟨shape', next, heq, hstep, hkept⟩
    · rw [heq]
      exact ⟨hpass, le_rfl, hi, hshape, hbody⟩
    · rw [heq]
      have hle := hpass.le
      have hle' := hstep.passes.le
      -- A declarator that is known stays known; a new one ends where the scan goes on.
      have hrest := ih (hpass.trans hstep.passes) (fun hc => hstep.lt_size hc (hi hc)) fun d hd => by
        rcases hkept d hd with hold | ⟨hat, hclose, hlt⟩
        · obtain ⟨hat, hclose, hlt⟩ := hshape d hold
          exact ⟨hat, by omega, by omega⟩
        · exact ⟨hat, by omega, by omega⟩
      exact { hrest with le := hle'.trans hrest.le }

theorem extent_at (hend : ts.Ended) (hstart : ts.Closed → start < ts.size) (scope : Scope) :
    ExtentAt ts start start (ts.extent start scope) :=
  extentFrom_at hend (.refl ts start) hstart (by simp)

theorem lt_stop_extent (hend : ts.Ended)
    (h : ts.lexeme start = .symbol .openParen) : start < (ts.extent start scope).stop := by
  have ho := opens_of_eq h rfl
  have hlast : ts.atEnd start = false := by
    have := hend.lt_of_opens ho
    simp [atEnd, this]
  -- The name before a parenthesis is looked for after `start`, and the scan is past it either way.
  have hname : ts.declaratorName? start scope start = none := by simp [declaratorName?]
  have hrest : ts.extent start scope =
      ts.extentFrom start scope ts.size ⟨none, false, false⟩ (ts.matching start + 1) := by
    rw [extent, extentFrom]
    simp [hlast, h, hname]
  have hat : ExtentAt ts start (ts.matching start + 1) (ts.extent start scope) := by
    rw [hrest]
    exact extentFrom_at hend (.jump hend ho) (fun hc => hc start ho) (by simp)
  exact (lt_matching hend ho).trans hat.le

theorem lexeme_of_extent
    (h : (ts.extent start scope).declarator = some d) : ts.lexeme start ≠ .symbol .semicolon := by
  intro hsemicolon
  simp [extent, extentFrom, hsemicolon] at h

end Offload.Source.TokenStream
