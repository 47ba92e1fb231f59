import Offload.Proofs.Source.Arrange
import Offload.Proofs.Source.Directive

/-!
# Places of functions, closures and linkage specifications

What is edited in a document are stretches of tokens: functions with or without their template
head, and the bodies of closures that make up an argument of a call. A parenthesis that opens before
the start of a function, or before its end, closes there too. As a closure lies inside the
parentheses of its call, stretches lie one in the other or have no token in common. The two tokens
that start a linkage specification are in none of them.
-/

namespace Offload.Source

open TokenStream List

variable {doc : Document} {i j : Nat} {ts : TokenStream}

/-! ### Functions and linkage specifications -/

/-- A linkage specification with what it holds. -/
structure Linkage where
  language : String
  span : Span
  decls : List Decl

mutual

/-- Linkage specifications at any depth, in source order. -/
def linkagesOf : List Decl → List Linkage
  | [] => []
  | d :: rest => d.linkages ++ linkagesOf rest

def Decl.linkages : Decl → List Linkage
  | .linkage language span decls => ⟨language, span, decls⟩ :: linkagesOf decls
  | .record _ _ _ members => linkagesOf members
  | .scope _ _ decls => linkagesOf decls
  | .directive _ | .function _ | .usingNamespace _ _ | .other _ => []

end

/-- The specification starts with its two tokens at `k`. -/
structure LinkageAt (ts : TokenStream) (l : Linkage) (k : Nat) : Prop where
  word : ts.lexeme k = .ident "extern"
  language : ts.lexeme (k + 1) = .str l.language
  span : ∃ last, ts.spanBetween k last = .ok l.span

/-- The specification starts at `k`, outside of all functions and ahead of those it holds. -/
structure LinkageAmong (ts : TokenStream) (c c' : Nat) (ps : List Place) (l : Linkage) (k : Nat) :
    Prop extends LinkageAt ts l k where
  passes : Passes ts c k
  lt : k + 1 < c'
  apart : ∀ p ∈ ps, p.last < k ∨ k + 1 < p.head
  holds : ∀ f ∈ functionsOf l.decls, ∃ p ∈ ps, FunctionAt ts f p ∧ k + 1 < p.head

/-- Places for functions and linkage specifications between `c` and `c'`. -/
structure Places (ts : TokenStream) (c c' : Nat) (fs : List FunctionDecl) (ls : List Linkage)
    (ps : List Place) : Prop where
  passes : Passes ts c c'
  functions : List.Forall₂ (FunctionAt ts) fs ps
  ordered : ps.Pairwise fun p q => p.last < q.head
  within : ∀ p ∈ ps, Passes ts c p.head ∧ p.last < c'
  linkages : ∀ l ∈ ls, ∃ k, LinkageAmong ts c c' ps l k

namespace LinkageAmong

variable {ts : TokenStream} {c m c' k : Nat} {ps ps' : List Place} {l : Linkage}

/-- More functions before, all of them ended by `m`. -/
theorem after (h : LinkageAmong ts m c' ps' l k) (hpass : Passes ts c m)
    (hps : ∀ p ∈ ps, p.last < m) : LinkageAmong ts c c' (ps ++ ps') l k where
  toLinkageAt := h.toLinkageAt
  passes := hpass.trans h.passes
  lt := h.lt
  apart p hp := by
    rcases mem_append.mp hp with hp | hp
    · exact .inl ((hps p hp).trans_le h.passes.le)
    · exact h.apart p hp
  holds f hf := by
    obtain ⟨p, hp, hat⟩ := h.holds f hf
    exact ⟨p, mem_append_right _ hp, hat⟩

/-- More functions behind, all of them from `m` on. -/
theorem before (h : LinkageAmong ts c m ps l k) (hle : m ≤ c') (hps : ∀ p ∈ ps', m ≤ p.head) :
    LinkageAmong ts c c' (ps ++ ps') l k where
  toLinkageAt := h.toLinkageAt
  passes := h.passes
  lt := h.lt.trans_le hle
  apart p hp := by
    rcases mem_append.mp hp with hp | hp
    · exact h.apart p hp
    · exact .inr (h.lt.trans_le (hps p hp))
  holds f hf := by
    obtain ⟨p, hp, hat⟩ := h.holds f hf
    exact ⟨p, mem_append_left _ hp, hat⟩

end LinkageAmong

namespace Places

variable {ts : TokenStream} {c m c' k : Nat} {fs fs' : List FunctionDecl} {ls ls' : List Linkage}
  {ps ps' : List Place}

theorem nil (h : Passes ts c c') : Places ts c c' [] [] [] := ⟨h, .nil, .nil, by simp, by simp⟩

theorem append (h : Places ts c m fs ls ps) (h' : Places ts m c' fs' ls' ps') :
    Places ts c c' (fs ++ fs') (ls ++ ls') (ps ++ ps') where
  passes := h.passes.trans h'.passes
  functions := rel_append h.functions h'.functions
  ordered := by
    refine pairwise_append.mpr ⟨h.ordered, h'.ordered, fun p hp q hq => ?_⟩
    exact (h.within p hp).2.trans_le (h'.within q hq).1.le
  within p hp := by
    rcases mem_append.mp hp with hp | hp
    · exact ⟨(h.within p hp).1, (h.within p hp).2.trans_le h'.passes.le⟩
    · exact ⟨h.passes.trans (h'.within p hp).1, (h'.within p hp).2⟩
  linkages l hl := by
    rcases mem_append.mp hl with hl | hl
    · obtain ⟨k, hk⟩ := h.linkages l hl
      exact ⟨k, hk.before h'.passes.le fun p hp => (h'.within p hp).1.le⟩
    · obtain ⟨k, hk⟩ := h'.linkages l hl
      exact ⟨k, hk.after h.passes fun p hp => (h.within p hp).2⟩

theorem function {f : FunctionDecl} {p : Place} (h : Passes ts c p.head) (hf : FunctionAt ts f p) :
    Places ts c (p.last + 1) [f] [] [p] where
  passes := (h.trans hf.opening).trans hf.inner
  functions := .cons hf .nil
  ordered := pairwise_singleton _ _
  within q hq := by
    obtain rfl := mem_singleton.mp hq
    exact ⟨h, Nat.lt_succ_self _⟩
  linkages := by simp

/-- Two tokens ahead of what a specification holds. -/
theorem linkage {l : Linkage} (h : Passes ts c k) (hl : LinkageAt ts l k)
    (hinner : Places ts (k + 2) c' (functionsOf l.decls) ls ps) :
    Places ts c c' (functionsOf l.decls) (l :: ls) ps := by
  have hfirst : Passes ts k (k + 1) := .step (by simp [hl.word])
  have hsecond : Passes ts (k + 1) (k + 2) := .step (by simp [hl.language])
  have hahead : Passes ts c (k + 2) := (h.trans hfirst).trans hsecond
  have hbehind : ∀ p ∈ ps, k + 1 < p.head := fun p hp => (hinner.within p hp).1.le
  refine ⟨hahead.trans hinner.passes, hinner.functions, hinner.ordered, fun p hp => ?_,
    fun l' hl' => ?_⟩
  · exact ⟨hahead.trans (hinner.within p hp).1, (hinner.within p hp).2⟩
  · rcases mem_cons.mp hl' with rfl | hl'
    · refine ⟨k, hl, h, hinner.passes.le, fun p hp => .inr (hbehind p hp), fun f hf => ?_⟩
      obtain ⟨p, hp, hat⟩ := mem_of_forall₂ hinner.functions hf
      exact ⟨p, hp, hat, hbehind p hp⟩
    · obtain ⟨k', hk'⟩ := hinner.linkages l' hl'
      exact ⟨k', { hk' with passes := hahead.trans hk'.passes }⟩

end Places

/-- Declarations in order have their places in order. -/
theorem Laid.places {c c' : Nat} {ds : List Decl} (h : Laid ts c c' ds) :
    ∃ ps, Places ts c c' (functionsOf ds) (linkagesOf ds) ps := by
  induction h with
  | nil h => exact ⟨[], .nil h⟩
  | function h hf _ ih =>
    obtain ⟨ps, hps⟩ := ih
    exact ⟨_, (Places.function h hf).append hps⟩
  | @linkage _ _ _ k last language span decls _ h hspecifier hlanguage hspan _ _ ihdecls ih =>
    obtain ⟨ps, hps⟩ := ihdecls
    obtain ⟨ps', hps'⟩ := ih
    have hl : LinkageAt ts ⟨language, span, decls⟩ k := ⟨hspecifier, hlanguage, last, hspan⟩
    exact ⟨_, (Places.linkage h hl hps).append hps'⟩
  | record _ _ ihmembers ih =>
    obtain ⟨ps, hps⟩ := ihmembers
    obtain ⟨ps', hps'⟩ := ih
    exact ⟨_, hps.append hps'⟩
  | scope _ _ ihdecls ih =>
    obtain ⟨ps, hps⟩ := ihdecls
    obtain ⟨ps', hps'⟩ := ih
    exact ⟨_, hps.append hps'⟩
  | usingNamespace _ ih => exact ih
  | other _ ih => exact ih

/-! ### Closures -/

/-- Tokens take up space, one after the other. -/
structure TokenStream.Ordered (ts : TokenStream) : Prop where
  before : ∀ {i j t u}, i < j → ts.token i = .ok t → ts.token j = .ok u →
    t.span.stop ≤ u.span.start
  pos : ∀ {i t}, i + 1 < ts.size → ts.token i = .ok t → t.span.start < t.span.stop

/-- A stretch of tokens is told from its span. -/
theorem TokenStream.Ordered.eq_of_spanBetween (h : ts.Ordered) {i' j' : Nat} {span : Span}
    (hij : ts.spanBetween i j = .ok span) (hij' : ts.spanBetween i' j' = .ok span)
    (hi : i + 1 < ts.size) (hi' : i' + 1 < ts.size) (hj : j + 1 < ts.size)
    (hj' : j' + 1 < ts.size) : i = i' ∧ j = j' := by
  obtain ⟨a, b, ha, hb, rfl⟩ := spanBetween_ok hij
  obtain ⟨a', b', ha', hb', heq⟩ := spanBetween_ok hij'
  obtain ⟨hstart, hstop⟩ := Span.mk.inj heq
  have hpa := h.pos hi ha
  have hpa' := h.pos hi' ha'
  have hpb := h.pos hj hb
  have hpb' := h.pos hj' hb'
  constructor
  · rcases Nat.lt_trichotomy i i' with hlt | heq | hgt
    · have := h.before hlt ha ha'
      omega
    · exact heq
    · have := h.before hgt ha' ha
      omega
  · rcases Nat.lt_trichotomy j j' with hlt | heq | hgt
    · have := h.before hlt hb hb'
      omega
    · exact heq
    · have := h.before hgt hb' hb
      omega

/-- The body of a lambda that makes up a whole argument, of the call whose parenthesis is at `p`. -/
structure ClosureAt (ts : TokenStream) (range : SourceRange) (p : Nat) (g : Nat × Nat)
    (brace : Nat) : Prop where
  paren : ts.lexeme p = .symbol .openParen
  group : g ∈ ts.groups (p + 1) (ts.matching p)
  bracket : ts.lexeme g.1 = .symbol .openBracket
  shape : ∃ shape, ts.lambdaShape? g.1 g.2 = .ok (some shape) ∧ shape.brace = brace
  range : ts.rangeBetween brace (g.2 - 1) = .ok range

/-- The groups of a call lie between its parentheses. -/
theorem TokenStream.Bracketed.group (hb : ts.Bracketed) {p : Nat} {g : Nat × Nat}
    (hp : ts.lexeme p = .symbol .openParen) (hg : g ∈ ts.groups (p + 1) (ts.matching p)) :
    GroupIn ts (p + 1) (ts.matching p) g ∧ g.1 < g.2 ∧ ts.lexeme g.2 ≠ .eof := by
  have ho : (ts.lexeme p).opens := opens_of_eq hp rfl
  obtain ⟨hlt, hclose⟩ := hb.partner p ho
  obtain ⟨hin, hpos⟩ := (groups_spec hb.ended (.inside hb.ended ho hlt)).1 g hg
  refine ⟨hin, hpos, ?_⟩
  rcases hin.delimited with heq | hcomma
  · rw [heq, hclose, hp]
    simp [Lexeme.partner]
  · simp [hcomma]

theorem closureAt_of_lambda? (hb : ts.Bracketed) (ho : ts.Ordered) {call : Call} {arg : Arg}
    {lambda : Lambda} (hcall : CallAt ts call) (harg : arg ∈ call.args)
    (h : arg.lambda? = some lambda) : ∃ p g brace, ClosureAt ts lambda.body.range p g brace := by
  obtain ⟨p, hp, hargs⟩ := hcall
  obtain ⟨g, hg, hspan, hexprs⟩ := hargs arg harg
  obtain ⟨hin, hpos, heof⟩ := hb.group hp hg
  have hg2 : g.2 + 1 < ts.size := hb.ended.lt_of_lexeme_ne heof
  unfold Arg.lambda? at h
  split at h
  · rename_i span head body
    split_ifs at h with hwhole
    obtain rfl := Option.some.inj h
    obtain ⟨i, shape, next, hbracket, hshape, hspan', hblock⟩ :=
      (hexprs _ (mem_singleton_self _) : ExprAt ts g.2 (.lambda head body)).found
    have hhead := lambdaShape?_head hb.ended hbracket hshape
    have hlt := hhead.lt
    have hstop := hhead.lt_stop
    have hnext := hblock.lt
    have hsize := hblock.lt_size
    rw [hwhole] at hspan'
    -- The lambda has the span of the argument, so it starts and ends with the argument's group.
    obtain ⟨rfl, hlast⟩ : i = g.1 ∧ next - 1 = g.2 - 1 :=
      ho.eq_of_spanBetween hspan' hspan (by omega) (by omega) (by omega) (by omega)
    obtain rfl : next = g.2 := by omega
    obtain ⟨close, hrange, hclose⟩ := hblock.between
    rcases hclose with hclose | ⟨rfl, heof'⟩
    · refine ⟨p, g, shape.brace, hp, hg, hbracket, ⟨shape, hshape, rfl⟩, ?_⟩
      rw [hclose]
      exact hrange
    · exact absurd heof' heof
  · cases h

/-! ### Stretches of tokens -/

/-- Outside of the parentheses that open from `base` on, both at its start and at its end. -/
structure Stretch (ts : TokenStream) (base i j : Nat) : Prop where
  le : i ≤ j
  lt_size : j + 1 < ts.size
  starts : ts.lexeme i ≠ .symbol .semicolon
  opening : Passes ts base i
  closing : Passes ts base (j + 1)

theorem FunctionAt.stretch {f : FunctionDecl} {p : Place} {c : Nat} (h : FunctionAt ts f p)
    (hc : Passes ts c p.head) (hi : i = p.first ∨ i = p.head) : Stretch ts c i p.last := by
  have hopening := hc.trans h.opening
  rcases hi with rfl | rfl
  · exact ⟨h.le, h.lt_size, h.starts.2, hopening, hopening.trans h.inner⟩
  · exact ⟨h.opening.le.trans h.le, h.lt_size, h.starts.1, hc, hopening.trans h.inner⟩

namespace ClosureAt

variable {ts : TokenStream} {range range' : SourceRange} {p p' brace brace' : Nat}
  {g g' : Nat × Nat}

/-- The body lies between the parentheses of the call. -/
theorem stretch (hb : ts.Bracketed) (h : ClosureAt ts range p g brace) :
    Stretch ts (p + 1) brace (g.2 - 1) ∧ p < brace ∧ g.2 - 1 < ts.matching p := by
  obtain ⟨hin, hpos, heof⟩ := hb.group h.paren h.group
  obtain ⟨shape, hshape, rfl⟩ := h.shape
  have hhead := lambdaShape?_head hb.ended h.bracket hshape
  have hlt := hhead.lt
  have hstop := hhead.lt_stop
  have hfirst := hin.first.le
  have hle := hin.le
  have hg2 : g.2 - 1 + 1 = g.2 := by omega
  refine ⟨⟨by omega, ?_, by simp [hhead.opens], hin.first.trans hhead.passes, ?_⟩, by omega,
    by omega⟩
  · rw [hg2]
    exact Nat.lt_of_succ_lt (hb.ended.lt_of_lexeme_ne heof)
  · rw [hg2]
    exact hin.last

theorem le (hb : ts.Bracketed) (h : ClosureAt ts range p g brace) : g.1 ≤ brace := by
  obtain ⟨shape, hshape, rfl⟩ := h.shape
  exact (lambdaShape?_head hb.ended h.bracket hshape).lt.le

end ClosureAt

/-- The stretches have no token in common, or one lies in the other. -/
def Disposed (i j i' j' : Nat) : Prop := j < i' ∨ j' < i ∨ i ≤ i' ∧ j' ≤ j ∨ i' ≤ i ∧ j ≤ j'

theorem Disposed.symm {i' j' : Nat} (h : Disposed i j i' j') : Disposed i' j' i j := by
  unfold Disposed at *
  omega

/-- What stands between parentheses that open from `base` on is before, inside or after. -/
theorem Stretch.disposed {base i' j' p : Nat} (h : Stretch ts base i j)
    (hp : ts.lexeme p = .symbol .openParen) (hbase : base ≤ p) (hi : p < i')
    (hj : j' < ts.matching p) : Disposed i j i' j' := by
  unfold Disposed
  by_cases hbefore : p < i
  · have := h.opening.closed p hbase hbefore hp
    omega
  · by_cases hinside : p < j + 1
    · have := h.closing.closed p hbase hinside hp
      omega
    · omega

theorem Places.disposed {c c' : Nat} {fs : List FunctionDecl} {ls : List Linkage} {ps : List Place}
    (h : Places ts c c' fs ls ps) {p q : Place} (hp : p ∈ ps) (hq : q ∈ ps)
    (hi : i = p.first ∨ i = p.head) (hj : j = q.first ∨ j = q.head) :
    Disposed i p.last j q.last := by
  -- A function starts at or after its head.
  have hhead : ∀ p ∈ ps, p.head ≤ p.first := by
    intro p hp
    obtain ⟨f, -, hf⟩ := mem_of_forall₂_right h.functions hp
    exact hf.opening.le
  have hp' := hhead p hp
  have hq' := hhead q hq
  unfold Disposed
  rcases eq_or_rel_of_pairwise h.ordered hp hq with rfl | hlt | hlt <;> omega

theorem ClosureAt.disposed (hb : ts.Bracketed) {range range' : SourceRange}
    {p p' brace brace' : Nat} {g g' : Nat × Nat} (h : ClosureAt ts range p g brace)
    (h' : ClosureAt ts range' p' g' brace') : Disposed brace (g.2 - 1) brace' (g'.2 - 1) := by
  obtain ⟨hstretch, hlt, hclose⟩ := h.stretch hb
  obtain ⟨hstretch', hlt', hclose'⟩ := h'.stretch hb
  rcases Nat.lt_trichotomy p p' with hpp | rfl | hpp
  · exact hstretch.disposed h'.paren hpp hlt' hclose'
  · -- Arguments of one call: the same lambda, or groups one after the other.
    have hinside : Passes ts (p + 1) (ts.matching p) := by
      have ho : (ts.lexeme p).opens := opens_of_eq h.paren rfl
      exact .inside hb.ended ho (hb.partner p ho).1
    have hpairs := (groups_spec hb.ended hinside).2
    have hfirst := h.le hb
    have hfirst' := h'.le hb
    have hle := hstretch.le
    have hle' := hstretch'.le
    unfold Disposed
    rcases eq_or_rel_of_pairwise hpairs h.group h'.group with rfl | hgg | hgg
    · obtain ⟨shape, hshape, rfl⟩ := h.shape
      obtain ⟨shape', hshape', rfl⟩ := h'.shape
      rw [hshape] at hshape'
      obtain rfl := Option.some.inj (Except.ok.inj hshape')
      omega
    · omega
    · omega
  · exact (hstretch'.disposed h.paren hpp hlt hclose).symm

/-! ### Documents without macros and with whole brackets -/

/-- The tokens of a document after preprocessing. -/
def Preprocessed.stream (pp : Preprocessed) : TokenStream := ⟨pp.tokens.toArray⟩

/-- A document in which the lexer finds nothing to report, no macro leaves tokens behind and all
brackets pair up. -/
structure Plain (doc : Document) (raw : List Token) (pp : Preprocessed) : Prop where
  tokenized : tokenize doc = .ok (raw, [])
  preprocessed : preprocess doc raw = .ok pp
  unexpanded : ∀ t ∈ pp.tokens, t.isExpanded = false
  paired : Dyck (pp.tokens.map Token.lexeme)

/-- The test that a document is plain. -/
def Plain.check (doc : Document) : Bool :=
  match tokenize doc with
  | .ok (raw, []) =>
    match preprocess doc raw with
    | .ok pp => pp.tokens.all (!·.isExpanded) && decide (Dyck (pp.tokens.map Token.lexeme))
    | .error _ => false
  | _ => false

theorem Plain.exists_iff : (∃ raw pp, Plain doc raw pp) ↔ check doc = true := by
  constructor
  · rintro ⟨raw, pp, h⟩
    simpa [check, h.tokenized, h.preprocessed, h.paired] using h.unexpanded
  · intro h
    unfold check at h
    split at h
    · rename_i raw hraw
      split at h
      · rename_i pp hpp
        simp only [Bool.and_eq_true, all_eq_true, Bool.not_eq_true', decide_eq_true_eq] at h
        exact ⟨raw, pp, hraw, hpp, h.1, h.2⟩
      · cases h
    · cases h

instance (doc : Document) : Decidable (∃ raw pp, Plain doc raw pp) :=
  decidable_of_iff _ Plain.exists_iff.symm

theorem gives_of_parseDocument {raw : List Token} {found : List Diagnostic} {pp : Preprocessed}
    {parsed : Parsed} (hraw : tokenize doc = .ok (raw, found)) (hpp : preprocess doc raw = .ok pp)
    (hparse : parseDocument doc = .ok parsed) :
    ∃ decls state, Gives (parseUnit pp.stream) .initial decls state ∧
      parsed.decls = mergeDirectives decls pp.directives := by
  simp only [parseDocument, except_bind_ok, hraw] at hparse
  obtain ⟨_, hraw', after, hafter, ⟨decls, state⟩, hrun, hparsed⟩ := hparse
  obtain rfl := Except.ok.inj hraw'
  obtain rfl : pp = after := Except.ok.inj (hpp.symm.trans hafter)
  obtain rfl := Except.ok.inj hparsed
  exact ⟨decls, state, hrun, rfl⟩

theorem Tokenized.ended_stream {raw : List Token} {pp : Preprocessed} (h : Tokenized doc raw)
    (hlayout : Layout raw pp.tokens pp.directives) : pp.stream.Ended ∧ 0 < pp.stream.size := by
  obtain ⟨last, hlast, heof⟩ := h.ended
  have hkept := hlayout.ended last hlast heof
  constructor
  · rw [getLast?_eq_getElem?] at hkept
    simp [Ended, TokenStream.lexeme, TokenStream.size, Preprocessed.stream, hkept, heof]
  · have hne : pp.tokens ≠ [] := by
      rintro hnil
      simp [hnil] at hkept
    simpa [TokenStream.size, Preprocessed.stream] using length_pos_of_ne_nil hne

namespace Plain

variable {doc : Document} {raw : List Token} {pp : Preprocessed} {i j : Nat} {t u : Token}

theorem lexed (h : Plain doc raw pp) : Lexed doc raw := lexed_of_tokenize h.tokenized

theorem layout (h : Plain doc raw pp) : Layout raw pp.tokens pp.directives :=
  h.lexed.tokenized.layout h.preprocessed h.unexpanded

theorem getElem?_of_token (ht : pp.stream.token i = .ok t) : pp.tokens[i]? = some t := by
  unfold TokenStream.token at ht
  split at ht
  · rename_i v hv
    obtain rfl := Except.ok.inj ht
    simpa [Preprocessed.stream] using hv
  · cases ht

/-- A token of the stream is one of the text. -/
theorem mem_raw (h : Plain doc raw pp) (ht : pp.stream.token i = .ok t) :
    t ∈ pp.tokens ∧ t ∈ raw ∧ t.position = .file := by
  have hmem := mem_of_getElem? (getElem?_of_token ht)
  refine ⟨hmem, h.layout.sublist.subset hmem, ?_⟩
  simpa [Token.isExpanded] using h.unexpanded t hmem

theorem before (h : Plain doc raw pp) (hij : i < j) (ht : pp.stream.token i = .ok t)
    (hu : pp.stream.token j = .ok u) : t.Before u := by
  obtain ⟨hi, rfl⟩ := List.getElem?_eq_some_iff.mp (getElem?_of_token ht)
  obtain ⟨hj, rfl⟩ := List.getElem?_eq_some_iff.mp (getElem?_of_token hu)
  have hpairs := h.lexed.tokenized.pairwise.sublist h.layout.sublist
  exact List.pairwise_iff_getElem.mp hpairs i j hi hj hij

theorem notEof (h : Plain doc raw pp) (hi : i + 1 < pp.stream.size)
    (ht : pp.stream.token i = .ok t) : t.lexeme ≠ .eof := by
  obtain ⟨u, hu⟩ := exists_token hi
  exact (h.before (Nat.lt_succ_self i) ht hu).notEof

theorem ordered (h : Plain doc raw pp) : pp.stream.Ordered where
  before hij ht hu := (h.before hij ht hu).le
  pos hi ht := (h.lexed.takes _ (h.mem_raw ht).2.1).pos (h.notEof hi ht)

theorem bracketed (h : Plain doc raw pp) : pp.stream.Bracketed := by
  refine bracketed_of_dyck ?_ (by simpa [lexemes, Preprocessed.stream] using h.paired)
  exact (h.lexed.tokenized.ended_stream h.layout).1

/-- What a plain document declares stands in order. -/
theorem laid (h : Plain doc raw pp) {parsed : Parsed} (hparse : parseDocument doc = .ok parsed) :
    ∃ decls c, Laid pp.stream 0 c decls ∧ parsed.decls = mergeDirectives decls pp.directives := by
  obtain ⟨decls, state, hrun, hdecls⟩ := gives_of_parseDocument h.tokenized h.preprocessed hparse
  have hsize := (h.lexed.tokenized.ended_stream h.layout).2
  obtain ⟨c, hlaid⟩ := parseUnit_laid h.bracketed hsize hrun
  exact ⟨decls, c, hlaid, hdecls⟩

end Plain

end Offload.Source
