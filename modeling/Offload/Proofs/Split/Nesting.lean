import Offload.Proofs.Edit.Terminator
import Offload.Proofs.Source.Placement
import Offload.Proofs.Split.Host

/-!
# Edits of a walk do not conflict

In a plain document all that a walk edits are functions, includes and bodies of closures, each with
its terminator. On each side these spans lie one in the other or apart, and all of them lie in the
document. So no edit is refused, and a walk that fails does so for another reason.
-/

namespace Offload.Source

open TokenStream

variable {angled : Bool} {d : Directive} {range : SourceRange} {header : Span} {file : String}

/-- The span edited for a stretch of a stream. -/
structure StretchSpan (doc : Document) (ts : TokenStream) (base i j : Nat) (span : Span) : Prop
    extends Stretch ts base i j where
  terminated : ∃ range, ts.rangeBetween i j = .ok range ∧ withTerminator doc range = .ok span

namespace Plain

variable {doc : Document} {raw : List Token} {pp : Preprocessed} {base base' i j i' j' : Nat}
  {span span' : Span}

/-! ### Spans of stretches -/

/-- Tokens of the stream start in their order. -/
theorem start_le (h : Plain doc raw pp) {x x' : Token} (hij : i ≤ i')
    (hx : pp.stream.token i = .ok x) (hx' : pp.stream.token i' = .ok x') :
    x.span.start ≤ x'.span.start := by
  rcases Nat.eq_or_lt_of_le hij with rfl | hlt
  · rw [Except.ok.inj (hx.symm.trans hx')]
  · have hle := (h.before hlt hx hx').le
    have := (h.lexed.takes x (h.mem_raw hx).2.1).ordered
    omega

theorem edited (h : Plain doc raw pp) (hs : StretchSpan doc pp.stream base i j span) :
    ∃ x y, pp.stream.token i = .ok x ∧ pp.stream.token j = .ok y ∧ Edited doc raw x y span := by
  obtain ⟨range, hr, hw⟩ := hs.terminated
  obtain ⟨x, y, hx, hy, rfl⟩ := rangeBetween_ok hr
  have hfile := (h.mem_raw hy).2.2
  rw [hfile] at hw
  have hstarts := hs.starts
  rw [(lexeme_of_token hx).2] at hstarts
  exact ⟨x, y, hx, hy, h.lexed, (h.mem_raw hx).2.1, (h.mem_raw hy).2.1, h.start_le hs.le hx hy,
    h.notEof hs.lt_size hy, hstarts, hw⟩

theorem nested_of_within (h : Plain doc raw pp) (hs : StretchSpan doc pp.stream base i j span)
    (hs' : StretchSpan doc pp.stream base' i' j' span') (hi : i ≤ i') (hj : j' ≤ j) :
    span.Nested span' := by
  obtain ⟨x, y, hx, hy, he⟩ := h.edited hs
  obtain ⟨x', y', hx', hy', he'⟩ := h.edited hs'
  refine he.nested_of_inside he' (h.start_le hi hx hx') ?_
  rcases Nat.eq_or_lt_of_le hj with rfl | hlt
  · exact .inl (Except.ok.inj (hy'.symm.trans hy))
  · exact .inr (h.before hlt hy' hy).le

theorem nested_of_disposed (h : Plain doc raw pp) (hs : StretchSpan doc pp.stream base i j span)
    (hs' : StretchSpan doc pp.stream base' i' j' span') (hd : Disposed i j i' j') :
    span.Nested span' := by
  obtain ⟨x, y, hx, hy, he⟩ := h.edited hs
  obtain ⟨x', y', hx', hy', he'⟩ := h.edited hs'
  rcases hd with hlt | hlt | ⟨hi, hj⟩ | ⟨hi, hj⟩
  · exact he.nested_of_before he' (h.before hlt hy hx').le
  · exact (he'.nested_of_before he (h.before hlt hy' hx).le).symm
  · exact h.nested_of_within hs hs' hi hj
  · exact (h.nested_of_within hs' hs hi hj).symm

/-- The span of an include lies with its directive, its terminator apart. -/
theorem edited_header (h : Plain doc raw pp) (hd : d ∈ pp.directives)
    (hkind : d.kind = .include_ file angled header)
    (hw : withTerminator doc (.file header) = .ok span) :
    ∃ x y, Edited doc raw x y span ∧ x.span.start = d.span.start ∧ y.span.stop ≤ d.span.stop := by
  have hamong := h.layout.among d hd
  obtain ⟨x, hx, hhash, hstart⟩ := hamong.hash
  obtain ⟨hheader, hle, y, hy, hne, hfirst, hstop⟩ := hamong.header file angled header hkind
  obtain rfl : header = ⟨x.span.start, y.span.stop⟩ := by
    rw [hstart, hstop, ← hheader]
  exact ⟨x, y, ⟨h.lexed, hx, hy, hstart ▸ hfirst, hne, by simp [hhash], hw⟩, hstart, hle⟩

end Plain

/-! ### What is edited in a plain document -/

/-- What a walk may edit on a side: functions on both, with or without their template head, includes
on the device and the bodies of closures on the host. -/
inductive Spot (pp : Preprocessed) (ps : List Place) : Side → SourceRange → Prop
  | function {side : Side} {range : SourceRange} {p : Place} {i : Nat} (hp : p ∈ ps)
    (hi : i = p.first ∨ i = p.head) (hrange : pp.stream.rangeBetween i p.last = .ok range) :
    Spot pp ps side range
  | header {d : Directive} {file : String} {angled : Bool} {span : Span} (hd : d ∈ pp.directives)
    (hkind : d.kind = .include_ file angled span) : Spot pp ps .device (.file span)
  | closure {range : SourceRange} {p : Nat} {g : Nat × Nat} {brace : Nat}
    (h : ClosureAt pp.stream range p g brace) : Spot pp ps .host range

section Spots

variable {doc : Document} {raw : List Token} {pp : Preprocessed} {ps : List Place} {c' : Nat}
  {fs : List FunctionDecl} {ls : List Linkage} {span span' : Span}

/-- The spans of a function and of an include. -/
theorem Plain.nested_header (h : Plain doc raw pp) {base i j : Nat}
    (hs : StretchSpan doc pp.stream base i j span) (hd : d ∈ pp.directives)
    (hkind : d.kind = .include_ file angled header)
    (hw : withTerminator doc (.file header) = .ok span') : span.Nested span' := by
  obtain ⟨x, y, hx, hy, he⟩ := h.edited hs
  obtain ⟨x', y', he', hstart, hstop⟩ := h.edited_header hd hkind hw
  have hordered := (h.lexed.takes x he.first).ordered
  -- No token of the function reaches into the line of the directive.
  rcases h.layout.apart d hd x (h.mem_raw hx).1 with hbefore | hafter
  · rcases h.layout.apart d hd y (h.mem_raw hy).1 with hbefore' | hafter'
    · exact he.nested_of_before he' (by omega)
    · exact he.nested_of_inside he' (by omega) (.inr (by omega))
  · exact (he'.nested_of_before he (by omega)).symm

theorem Plain.nested_headers (h : Plain doc raw pp) {d' : Directive} (hd : d ∈ pp.directives)
    (hd' : d' ∈ pp.directives) {file' : String} {angled' : Bool} {header' : Span}
    (hkind : d.kind = .include_ file angled header)
    (hkind' : d'.kind = .include_ file' angled' header')
    (hw : withTerminator doc (.file header) = .ok span)
    (hw' : withTerminator doc (.file header') = .ok span') : span.Nested span' := by
  obtain ⟨x, y, he, hstart, hstop⟩ := h.edited_header hd hkind hw
  obtain ⟨x', y', he', hstart', hstop'⟩ := h.edited_header hd' hkind' hw'
  rcases eq_or_rel_of_pairwise h.layout.ordered hd hd' with rfl | hle | hle
  · rw [hkind] at hkind'
    cases hkind'
    obtain rfl := Except.ok.inj (hw.symm.trans hw')
    exact .refl _
  · exact he.nested_of_before he' (by omega)
  · exact (he'.nested_of_before he (by omega)).symm

theorem Places.stretchSpan {ts : TokenStream} {c i : Nat} {p : Place} (h : Places ts c c' fs ls ps)
    (hp : p ∈ ps) (hi : i = p.first ∨ i = p.head) (hr : ts.rangeBetween i p.last = .ok range)
    (hw : withTerminator doc range = .ok span) : StretchSpan doc ts c i p.last span := by
  obtain ⟨f, -, hf⟩ := mem_of_forall₂_right h.functions hp
  exact ⟨hf.stretch (h.within p hp).1 hi, range, hr, hw⟩

theorem ClosureAt.stretchSpan {ts : TokenStream} (hb : ts.Bracketed) {p brace : Nat} {g : Nat × Nat}
    (h : ClosureAt ts range p g brace) (hw : withTerminator doc range = .ok span) :
    StretchSpan doc ts (p + 1) brace (g.2 - 1) span :=
  ⟨(h.stretch hb).1, range, h.range, hw⟩

/-- A closure lies between parentheses, and a function is outside of all that open before it. -/
theorem Plain.nested_closure (h : Plain doc raw pp) {i j p brace : Nat} {g : Nat × Nat}
    (hs : StretchSpan doc pp.stream 0 i j span) (hclosure : ClosureAt pp.stream range p g brace)
    (hw : withTerminator doc range = .ok span') : span.Nested span' := by
  obtain ⟨-, hlt, hclose⟩ := hclosure.stretch h.bracketed
  exact h.nested_of_disposed hs (hclosure.stretchSpan h.bracketed hw)
    (hs.disposed hclosure.paren (Nat.zero_le _) hlt hclose)

theorem Plain.harmonious (h : Plain doc raw pp) (hps : Places pp.stream 0 c' fs ls ps) :
    Harmonious doc (Spot pp ps) where
  in_bounds := by
    rintro side span ⟨range, hspot, hw⟩
    cases hspot with
    | function hp hi hrange =>
      obtain ⟨x, y, -, -, he⟩ := h.edited (hps.stretchSpan hp hi hrange hw)
      exact he.in_bounds
    | header hd hkind =>
      obtain ⟨x, y, he, -⟩ := h.edited_header hd hkind hw
      exact he.in_bounds
    | closure hclosure =>
      obtain ⟨x, y, -, -, he⟩ := h.edited (hclosure.stretchSpan h.bracketed hw)
      exact he.in_bounds
  nested := by
    rintro side span span' ⟨range, hspot, hw⟩ ⟨range', hspot', hw'⟩
    cases hspot with
    | function hp hi hrange =>
      have hs := hps.stretchSpan hp hi hrange hw
      cases hspot' with
      | function hp' hi' hrange' =>
        exact h.nested_of_disposed hs (hps.stretchSpan hp' hi' hrange' hw')
          (hps.disposed hp hp' hi hi')
      | header hd' hkind' => exact h.nested_header hs hd' hkind' hw'
      | closure hclosure' => exact h.nested_closure hs hclosure' hw'
    | header hd hkind =>
      cases hspot' with
      | function hp' hi' hrange' =>
        exact (h.nested_header (hps.stretchSpan hp' hi' hrange' hw') hd hkind hw).symm
      | header hd' hkind' => exact h.nested_headers hd hd' hkind hkind' hw hw'
    | closure hclosure =>
      have hs := hclosure.stretchSpan h.bracketed hw
      cases hspot' with
      | function hp' hi' hrange' =>
        exact (h.nested_closure (hps.stretchSpan hp' hi' hrange' hw') hclosure hw).symm
      | closure hclosure' =>
        exact h.nested_of_disposed hs (hclosure'.stretchSpan h.bracketed hw')
          (hclosure.disposed h.bracketed hclosure')

end Spots

end Offload.Source

namespace Offload.Split

open Offload.Source List

variable {doc : Document} {c : DualBuffer.Call} {f : FunctionDecl}

section Visits

variable {settings : Settings} {spots : Side → SourceRange → Prop}

/-! ### Edits asked for -/

/-- All that a visit may edit is among the given ranges. -/
def Leaf.Within (settings : Settings) (spots : Side → SourceRange → Prop) : Leaf → Prop
  | .directive d => ∀ range ∈ headerRanges settings d, spots .device range
  | .function f => (∀ side, ∀ range ∈ functionRanges f, spots side range) ∧
      ∀ closure ∈ closuresOf f, spots .host closure.body
  | .usingNamespace _ => True

theorem lostOnDevice_subset (f : FunctionDecl) : lostOnDevice settings f ⊆ functionRanges f := by
  unfold lostOnDevice
  split_ifs
  · exact cons_subset_cons _ (nil_subset _)
  · exact List.Subset.refl _
  · exact nil_subset _

theorem Leaf.Within.allowed {l : Leaf} (h : l.Within settings spots) {usings : List (List String)}
    {count : Nat} (hc : c ∈ l.calls settings doc usings count) : c.Allowed spots := by
  cases hside : c.side with
  | device =>
    rcases Leaf.mem_calls_device hside hc with ⟨range, hrange, rfl⟩ | ⟨text, rfl⟩
    · cases l with
      | directive d => exact h range hrange
      | function f =>
        refine h.1 .device range ?_
        rcases mem_append.mp hrange with hrange | hrange
        · exact lostOnDevice_subset f hrange
        · split_ifs at hrange
          · cases hrange
          · exact hrange
      | usingNamespace path => cases hrange
    · trivial
  | host =>
    obtain ⟨f, rfl, ⟨range, hrange, rfl⟩ | ⟨closure, hclosure, stub, rfl⟩⟩ :=
      Leaf.mem_calls_host hside hc
    · exact h.1 .host range (lostOnHost_subset f hrange)
    · exact h.2 closure hclosure

theorem allowed_of_mem_callsFrom {leaves : List Leaf} (h : ∀ l ∈ leaves, l.Within settings spots)
    {usings : List (List String)} {count : Nat}
    (hc : c ∈ callsFrom settings doc usings count leaves) : c.Allowed spots := by
  induction leaves generalizing usings count with
  | nil => cases hc
  | cons l rest ih =>
    rcases mem_append.mp hc with hc | hc
    · exact (h l mem_cons_self).allowed hc
    · exact ih (fun l hl => h l (mem_cons_of_mem _ hl)) hc

end Visits

/-! ### Leaves of a plain document -/

section Leaves

variable {doc : Document} {raw : List Token} {pp : Preprocessed} {c c' : Nat} {decls : List Decl}
  {directives : List Directive} {fileScope : Bool} {l : Leaf}

theorem mem_leavesOf {decls : List Decl} :
    l ∈ leavesOf fileScope decls ↔ ∃ d ∈ decls, l ∈ leavesOfDecl fileScope d := by
  induction decls with
  | nil => simp [leavesOf]
  | cons d rest ih => simp [leavesOf, ih]

/-- The parser itself finds no directives. -/
theorem directive_not_mem_leavesOf {ts : TokenStream} (h : Laid ts c c' decls)
    (fileScope : Bool) (d : Directive) : .directive d ∉ leavesOf fileScope decls := by
  induction h generalizing fileScope with
  | nil _ => simp [leavesOf]
  | function _ _ _ ih => simp [leavesOf, leavesOfDecl, ih]
  | linkage _ _ _ _ _ _ ihdecls ih => simp [leavesOf, leavesOfDecl, ihdecls, ih]
  | record _ _ ihmembers ih => simp [leavesOf, leavesOfDecl, ihmembers, ih]
  | scope _ _ ihdecls ih => simp [leavesOf, leavesOfDecl, ihdecls, ih]
  | usingNamespace _ ih => cases fileScope <;> simp [leavesOf, leavesOfDecl, ih]
  | other _ ih => simp [leavesOf, leavesOfDecl, ih]

theorem mem_leavesOf_mergeDirectives :
    l ∈ leavesOf fileScope (mergeDirectives decls directives) ↔
      l ∈ leavesOf fileScope decls ∨ ∃ d ∈ directives, l = .directive d := by
  simp only [mem_leavesOf, mergeDirectives, mem_mergeSort, mem_append, mem_map]
  constructor
  · rintro ⟨x, hx | ⟨d, hd, rfl⟩, hl⟩
    · exact .inl ⟨x, hx, hl⟩
    · exact .inr ⟨d, hd, mem_singleton.mp hl⟩
  · rintro (⟨x, hx, hl⟩ | ⟨d, hd, rfl⟩)
    · exact ⟨x, .inl hx, hl⟩
    · exact ⟨_, .inr ⟨d, hd, rfl⟩, mem_singleton_self _⟩

theorem closure?_eq_some {call : Call} {closure : Closure} (h : closure? call = some closure) :
    ∃ arg ∈ call.args, ∃ lambda, arg.lambda? = some lambda ∧ closure.body = lambda.body.range := by
  obtain ⟨arg, harg, h⟩ := Option.bind_eq_some_iff.mp h
  obtain ⟨lambda, hlambda, h⟩ := Option.bind_eq_some_iff.mp h
  refine ⟨arg, mem_of_getLast? harg, lambda, hlambda, ?_⟩
  simp only [Closure.ofLambda] at h
  split at h
  · cases h
  · obtain rfl := Option.some.inj h
    rfl

theorem within_of_plain (settings : Settings) (h : Plain doc raw pp)
    (hlaid : Laid pp.stream c c' decls) {ls : List Linkage} {ps : List Place}
    (hps : Places pp.stream c c' (functionsOf decls) ls ps) :
    ∀ l ∈ leavesOf true (mergeDirectives decls pp.directives), l.Within settings (Spot pp ps) := by
  intro l hl
  rcases mem_leavesOf_mergeDirectives.mp hl with hl | ⟨d, hd, rfl⟩
  · cases l with
    | directive d => exact absurd hl (directive_not_mem_leavesOf hlaid true d)
    | usingNamespace path => trivial
    | function f =>
      have hf : f ∈ functionsOf decls := by
        rw [← filterMap_leavesOf true]
        exact mem_filterMap.mpr ⟨_, hl, rfl⟩
      obtain ⟨p, hp, hat⟩ := mem_of_forall₂ hps.functions hf
      refine ⟨fun side range hrange => ?_, fun closure hclosure => ?_⟩
      · rcases mem_cons.mp hrange with rfl | hrange
        · exact .function hp (.inl rfl) hat.range
        · exact .function hp (.inr rfl) (hat.template range (Option.mem_toList.mp hrange))
      · obtain ⟨call, hcall, hclosure⟩ := mem_filterMap.mp hclosure
        obtain ⟨arg, harg, lambda, hlambda, hbody⟩ := closure?_eq_some hclosure
        have hat' : TokenStream.CallAt pp.stream call := by
          cases hb : f.body with
          | none => simp [hb] at hcall
          | some body =>
            rw [hb] at hcall
            exact hat.calls body hb call hcall
        obtain ⟨q, g, brace, hclosureAt⟩ :=
          closureAt_of_lambda? h.bracketed h.ordered hat' harg hlambda
        rw [hbody]
        exact .closure hclosureAt
  · intro range hrange
    unfold headerRanges at hrange
    split at hrange
    · rename_i file angled span hkind
      split_ifs at hrange
      · obtain rfl := mem_singleton.mp hrange
        exact .header hd hkind
      · cases hrange
    · cases hrange

end Leaves

/-! ### No edit is refused -/

/-- A call on one side edits a span of the side, or inserts at the end. -/
theorem spanOf_of_mem_callsOn {spots : Side → SourceRange → Prop} {calls : List DualBuffer.Call}
    (h : ∀ c ∈ calls, c.Allowed spots) {side : Side} {x : EditBuffer.Call}
    (hx : x ∈ DualBuffer.callsOn doc side calls) :
    SpanOf doc spots side x.edit.span ∨ ∃ text, x = .insertAfter doc.length text := by
  obtain ⟨c, hc, rfl, hbuffer⟩ := DualBuffer.mem_callsOn.mp hx
  exact (h c hc).spanOf hbuffer

/-- What the calls of a walk come to on one side. -/
theorem nested_of_callsOn {spots : Side → SourceRange → Prop} (hs : Harmonious doc spots)
    {calls : List DualBuffer.Call} (h : ∀ c ∈ calls, c.Allowed spots) (side : Side) :
    (∀ x ∈ DualBuffer.callsOn doc side calls,
        x.edit.span.start ≤ x.edit.span.stop ∧ x.edit.span.stop ≤ doc.length) ∧
      ∀ x ∈ DualBuffer.callsOn doc side calls, ∀ y ∈ DualBuffer.callsOn doc side calls,
        x.edit.span.Nested y.edit.span := by
  have hbounds : ∀ x ∈ DualBuffer.callsOn doc side calls,
      x.edit.span.start ≤ x.edit.span.stop ∧ x.edit.span.stop ≤ doc.length := by
    intro x hx
    rcases spanOf_of_mem_callsOn h hx with hx | ⟨text, rfl⟩
    · exact ⟨(hs.in_bounds hx).1.le, (hs.in_bounds hx).2⟩
    · exact ⟨le_rfl, le_rfl⟩
  refine ⟨hbounds, fun x hx y hy => ?_⟩
  have hxle := hbounds x hx
  have hyle := hbounds y hy
  rcases spanOf_of_mem_callsOn h hx with hx | ⟨text, rfl⟩
  · rcases spanOf_of_mem_callsOn h hy with hy | ⟨text, rfl⟩
    · exact hs.nested hx hy
    · exact .of_le hxle.2
  · exact (Span.Nested.of_le hyle.2).symm

theorem splitDecls_ne_edit {settings : Settings} {spots : Side → SourceRange → Prop}
    (hs : Harmonious doc spots) {decls : List Decl}
    (h : ∀ c ∈ callsFrom settings doc [] 0 (leavesOf true decls), c.Allowed spots) (e : EditError) :
    splitDecls settings doc decls ≠ .error (.edit e) := by
  intro hsplit
  unfold splitDecls at hsplit
  split at hsplit
  · rename_i e' s hrun
    obtain rfl := Except.error.inj hsplit
    obtain ⟨side, hside⟩ :=
      DualBuffer.requestAll_refused ((does_visitDecls settings doc decls).refused hrun)
    obtain ⟨hbounds, hnested⟩ := nested_of_callsOn hs h side
    cases side <;>
      exact EditBuffer.requestAll_ne_error (fun x hx => (hbounds x hx).2) hnested e hside
  · split at hsplit <;> cases hsplit

/-- In a plain document no edit is refused, whatever the settings: all edits that its declarations
ask of one side lie in the document, and any two of them lie one in the other or apart. -/
theorem edits_of_plain_never_refused (settings : Settings) {doc : Document} {raw : List Token}
    {pp : Preprocessed} (h : Plain doc raw pp) :
    (∀ e, splitDocument settings doc ≠ .error (.edit e)) ∧
      ∀ parsed, parseDocument doc = .ok parsed → ∀ side,
        let edits := (DualBuffer.callsOn doc side
          (callsFrom settings doc [] 0 (leavesOf true parsed.decls))).map EditBuffer.Call.edit
        (∀ e ∈ edits, e.span.start ≤ e.span.stop ∧ e.span.stop ≤ doc.length) ∧
          edits.Pairwise fun e e' => e.span.Nested e'.span := by
  -- The ranges that may be edited go together, and the walk keeps to them.
  have hparsed : ∀ parsed, parseDocument doc = .ok parsed → ∃ spots, Harmonious doc spots ∧
      ∀ l ∈ leavesOf true parsed.decls, l.Within settings spots := by
    intro parsed hparse
    obtain ⟨decls, c, hlaid, hdecls⟩ := h.laid hparse
    obtain ⟨ps, hps⟩ := hlaid.places
    refine ⟨Spot pp ps, h.harmonious hps, ?_⟩
    rw [hdecls]
    exact within_of_plain settings h hlaid hps
  constructor
  · intro e hsplit
    unfold splitDocument at hsplit
    split at hsplit
    · cases hsplit
    · rename_i parsed hparse
      obtain ⟨spots, hs, hwithin⟩ := hparsed parsed hparse
      split at hsplit
      · rename_i e' he'
        obtain rfl := Except.error.inj hsplit
        exact splitDecls_ne_edit hs (fun x hx => allowed_of_mem_callsFrom hwithin hx) e he'
      · cases hsplit
  · intro parsed hparse side
    obtain ⟨spots, hs, hwithin⟩ := hparsed parsed hparse
    have hallowed : ∀ x ∈ callsFrom settings doc [] 0 (leavesOf true parsed.decls),
        x.Allowed spots := fun x hx => allowed_of_mem_callsFrom hwithin hx
    obtain ⟨hbounds, hnested⟩ := nested_of_callsOn hs hallowed side
    refine ⟨forall_mem_map.mpr hbounds, ?_⟩
    rw [pairwise_map]
    exact pairwise_of_forall_mem_list hnested

/-! ### A document with an include, a template and nested closures -/

/-- Declarations and then directives, as they are found. -/
def parseUnsorted (doc : Document) : Except Fault Parsed := do
  let (raw, lexical) ← tokenize doc
  let pp ← preprocess doc raw
  let (decls, state) ← (parseUnit pp.stream).run .initial
  return ⟨decls ++ pp.directives.map .directive,
    lexical ++ pp.diagnostics ++ state.diagnostics⟩

def unsorted (doc : Document) : Parsed := (parseUnsorted doc).toOption.getD ⟨[], []⟩

/-- Nothing is left to sort when the directives come last. -/
theorem parseDocument_of_sorted (hok : (parseUnsorted doc).isOk = true)
    (hsorted : (unsorted doc).decls.Pairwise fun a b => a.span.start ≤ b.span.start) :
    parseDocument doc = .ok (unsorted doc) := by
  cases hparse : parseUnsorted doc with
  | error f => simp [hparse, Except.isOk, Except.toBool] at hok
  | ok parsed =>
    have heq : unsorted doc = parsed := by simp [unsorted, hparse, Except.toOption]
    rw [heq] at hsorted ⊢
    simp only [parseUnsorted, except_bind_ok] at hparse
    obtain ⟨raw, hraw, pp, hpp, unit, hrun, hparsed⟩ := hparse
    obtain rfl := Except.ok.inj hparsed
    simp only [parseDocument, except_bind_ok]
    refine ⟨raw, hraw, pp, hpp, unit, hrun, ?_⟩
    rw [mergeDirectives, mergeSort_of_pairwise (by simpa using hsorted)]
    rfl

def mixedSettings : Settings :=
  { marker := "a", dispatchFunction := "p", dispatchHeader := "P.h", dispatchArity := 1 }

def mixedText : String :=
  "template<class T>T f()\x7bp([](T x)\x7bp([](T y)\x7b\x7d);\x7d);\x7d" ++
    "T g()__attribute__((a(\"gpu\")));\n#include \"P.h\"\n;"

def mixedEdits (side : Side) : List Edit :=
  (DualBuffer.callsOn (.ofText "w" mixedText) side (callsFrom mixedSettings (.ofText "w" mixedText)
    [] 0 (leavesOf true (unsorted (.ofText "w" mixedText)).decls))).map EditBuffer.Call.edit

/-- The host loses a function and two closures, one in the other. The device loses a template twice,
once for each of its calls, and an include with a semicolon behind it, and gets two kernels. -/
theorem edits_of_plain_never_refused_mixed :
    (∃ raw pp, Plain (.ofText "w" mixedText) raw pp) ∧
      parseDocument (.ofText "w" mixedText) = .ok (unsorted (.ofText "w" mixedText)) ∧
      (mixedEdits .host).length = 3 ∧ (mixedEdits .device).length = 8 ∧
      ∀ side, (mixedEdits side).Pairwise fun e e' => e.span.Nested e'.span := by
  obtain ⟨⟨raw, pp, h⟩, hok, hsorted, hhost, hdevice⟩ :
      (∃ raw pp, Plain (.ofText "w" mixedText) raw pp) ∧
        (parseUnsorted (.ofText "w" mixedText)).isOk = true ∧
        ((unsorted (.ofText "w" mixedText)).decls.Pairwise fun a b => a.span.start ≤ b.span.start) ∧
        (mixedEdits .host).length = 3 ∧ (mixedEdits .device).length = 8 := by
    decide +kernel
  have hparse := parseDocument_of_sorted hok hsorted
  refine ⟨⟨raw, pp, h⟩, hparse, hhost, hdevice, fun side => ?_⟩
  exact ((edits_of_plain_never_refused mixedSettings h).2 _ hparse side).2

end Offload.Split
