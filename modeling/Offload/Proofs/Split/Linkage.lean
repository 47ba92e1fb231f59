import Offload.Proofs.Split.Nesting

/-!
# Linkage specifications

A walk goes through a linkage specification to the declarations in it and edits only these. The two
tokens that start the specification, `extern` and the language, stay in both outputs, also when the
one function they were written for is removed. What follows the function then takes its place.
-/

namespace Offload

open List

namespace Edit

variable {doc : Document} {offset : Nat} {l : Linkage}

/-- An offset at which no edit starts and which no range takes away keeps its byte alone. -/
theorem textAt_of_untouched {edits : List Edit}
    (h : ∀ e ∈ edits, e.span.start ≠ offset ∧ (e.isRange = true → e.span.contains offset = false)) :
    textAt doc edits offset = doc.bytes[offset]?.toList := by
  have hinserted : insertedAt edits offset = [] := by
    rw [insertedAt, filter_eq_nil_iff.mpr, flatMap_nil]
    intro e he
    simp [(h e he).1]
  have hreplaced : replacementAt edits offset = [] := by
    rw [replacementAt, find?_eq_none.mpr]
    intro e he
    simp [startsAt, (h e he).1]
  have hkept : takesAway edits offset = false := by
    rw [← Bool.not_eq_true, takesAway_iff]
    rintro ⟨e, he, hrange, hcontains⟩
    rw [(h e he).2 hrange] at hcontains
    cases hcontains
  rw [textAt, hinserted, hreplaced, hkept]
  simp

end Edit

namespace Source

open TokenStream

theorem mem_linkagesOf {ds : List Decl} : l ∈ linkagesOf ds ↔ ∃ d ∈ ds, l ∈ d.linkages := by
  induction ds with
  | nil => simp [linkagesOf]
  | cons d rest ih => simp [linkagesOf, ih]

theorem mem_linkagesOf_mergeDirectives {ds : List Decl} {directives : List Directive}
    (h : l ∈ linkagesOf (mergeDirectives ds directives)) : l ∈ linkagesOf ds := by
  obtain ⟨d, hd, hl⟩ := mem_linkagesOf.mp h
  rw [mergeDirectives, mem_mergeSort, mem_append, mem_map] at hd
  rcases hd with hd | ⟨x, -, rfl⟩
  · exact mem_linkagesOf.mpr ⟨d, hd, hl⟩
  · cases hl

/-! ### Specifiers and edited spans -/

/-- The span and the token have no byte in common. -/
def Apart (span : Span) (z : Token) : Prop :=
  span.stop ≤ z.span.start ∨ z.span.stop ≤ span.start

section

variable {doc : Document} {raw : List Token} {pp : Preprocessed} {base i j n : Nat} {span : Span}
  {z : Token} {side : Side}

theorem Plain.apart_of_stretch (h : Plain doc raw pp)
    (hs : StretchSpan doc pp.stream base i j span) (hz : pp.stream.token n = .ok z)
    (hne : z.lexeme ≠ .symbol .semicolon) (hn : j < n ∨ n < i) : Apart span z := by
  obtain ⟨x, y, hx, hy, he⟩ := h.edited hs
  rcases hn with hlt | hlt
  · exact .inl ((he.stop_le (h.mem_raw hz).2.1 (h.before hlt hy hz).le).2 hne)
  · refine .inr ?_
    rw [he.start]
    exact (h.before hlt hz hx).le

theorem Plain.apart_of_header (h : Plain doc raw pp) {d : Directive} (hd : d ∈ pp.directives)
    {file : String} {angled : Bool} {header : Span} (hkind : d.kind = .include_ file angled header)
    (hw : withTerminator doc (.file header) = .ok span) (hz : pp.stream.token n = .ok z)
    (hne : z.lexeme ≠ .symbol .semicolon) : Apart span z := by
  obtain ⟨x, y, he, hstart, hstop⟩ := h.edited_header hd hkind hw
  obtain ⟨hkept, hraw, -⟩ := h.mem_raw hz
  rcases h.layout.apart d hd z hkept with hbefore | hafter
  · refine .inr ?_
    rw [he.start, hstart]
    exact hbefore
  · exact .inl ((he.stop_le hraw (hstop.trans hafter)).2 hne)

/-- No edit of a walk has a byte in common with the two tokens of a specifier. -/
theorem Plain.apart_of_spot (h : Plain doc raw pp) {c' k : Nat} {fs : List FunctionDecl}
  {ls : List Linkage} {ps : List Place} (hps : Places pp.stream 0 c' fs ls ps)
    (hl : LinkageAmong pp.stream 0 c' ps l k)
    (hspan : SpanOf doc (Spot pp ps) side span) (hn : n = k ∨ n = k + 1)
    (hz : pp.stream.token n = .ok z) : Apart span z := by
  have hlexeme : z.lexeme = .ident "extern" ∨ z.lexeme = .str l.language := by
    rw [← (lexeme_of_token hz).2]
    rcases hn with rfl | rfl
    · exact .inl hl.word
    · exact .inr hl.language
  have hne : z.lexeme ≠ .symbol .semicolon := by
    rcases hlexeme with heq | heq <;> simp [heq]
  obtain ⟨range, hspot, hw⟩ := hspan
  cases hspot with
  | @function _ _ p i hp hi hrange =>
    have hs := hps.stretchSpan hp hi hrange hw
    obtain ⟨f, -, hf⟩ := mem_of_forall₂_right hps.functions hp
    have hopening := hf.opening.le
    refine h.apart_of_stretch hs hz hne ?_
    have := hl.apart p hp
    omega
  | header hd hkind => exact h.apart_of_header hd hkind hw hz hne
  | @closure _ q g brace hclosure =>
    obtain ⟨-, hlt, hclose⟩ := hclosure.stretch h.bracketed
    refine h.apart_of_stretch (hclosure.stretchSpan h.bracketed hw) hz hne ?_
    -- The parenthesis of the call is neither of the two tokens.
    have hfirst : q ≠ k := by
      rintro rfl
      have := hclosure.paren.symm.trans hl.word
      cases this
    have hsecond : q ≠ k + 1 := by
      rintro rfl
      have := hclosure.paren.symm.trans hl.language
      cases this
    by_cases hbefore : q < k
    · have := hl.passes.closed q (Nat.zero_le _) hbefore hclosure.paren
      omega
    · omega

end

end Source

namespace Split

open Source

/-- The output of a side. -/
def Output.on (o : Output) : Side → String
  | .host => o.host
  | .device => o.device

theorem splitDocument_ok {settings : Settings} {output : Output}
    {parsed : Parsed} (hparse : parseDocument doc = .ok parsed)
    (h : splitDocument settings doc = .ok output) :
    ∃ buffers, (DualBuffer.ofDocument doc).requestAll
        (callsFrom settings doc [] 0 (leavesOf true parsed.decls)) = .ok buffers ∧
      ∀ side, (buffers.side side).result = .ok (output.on side) := by
  simp only [splitDocument, hparse] at h
  split at h
  · cases h
  · rename_i out hout
    obtain rfl := Except.ok.inj h
    obtain ⟨buffers, kernels, hreq, -, hhost, hdevice, -⟩ := splitDecls_ok hout
    refine ⟨buffers, hreq, fun side => ?_⟩
    cases side with
    | host => exact hhost
    | device => exact hdevice

/-- Edits that have no byte in common with a token leave its bytes where they are. -/
theorem textAt_of_apart {spots : Side → SourceRange → Prop}
 {calls : List DualBuffer.Call} {b : EditBuffer} {z : Token}
    (hs : Harmonious doc spots) (hallowed : ∀ c ∈ calls, c.Allowed spots)
    (hreq : (EditBuffer.ofDocument doc).requestAll (DualBuffer.callsOn doc side calls) = .ok b)
    (hapart : ∀ span, SpanOf doc spots side span → Apart span z) (hz : z.span.stop ≤ doc.length)
    (hoffset : z.span.contains offset = true) :
    Edit.textAt doc b.edits offset = doc.bytes[offset]?.toList := by
  rw [Span.contains_iff] at hoffset
  refine Edit.textAt_of_untouched fun e he => ?_
  obtain ⟨-, x, hx, rfl⟩ := EditBuffer.requestAll_edits_subset hreq e he
  rcases spanOf_of_mem_callsOn hallowed hx with hspan | ⟨text, rfl⟩
  · have hpos := (hs.in_bounds hspan).1
    have hdisjoint := hapart _ hspan
    unfold Apart at hdisjoint
    refine ⟨by omega, fun _ => ?_⟩
    rw [← Bool.not_eq_true, Span.contains_iff]
    omega
  · refine ⟨?_, by simp [Edit.isRange, Edit.isInsertion]⟩
    have : doc.length ≠ offset := by omega
    exact this

/-- A function that is removed takes the bytes of its range along. -/
theorem takesAway_of_remove {calls : List DualBuffer.Call}
 {buffers : DualBuffer} (hreq : (DualBuffer.ofDocument doc).requestAll calls = .ok buffers)
 {range : SourceRange} (hc : .remove side range ∈ calls)
    (hoffset : range.span.contains offset = true) :
    Edit.takesAway (buffers.side side).edits offset = true := by
  obtain ⟨span, hspan⟩ := DualBuffer.requestAll_remove_ok hreq hc
  obtain ⟨hstart, hstop⟩ := withTerminator_ok hspan
  have hside := DualBuffer.requestAll_side hreq side
  rw [show (DualBuffer.ofDocument doc).side side = .ofDocument doc by cases side <;> rfl] at hside
  rw [EditBuffer.takesAway_requestAll hside, Edit.takesAway_iff]
  refine ⟨_, mem_map_of_mem (DualBuffer.mem_callsOn.mpr ⟨_, hc, rfl,
    DualBuffer.Call.onBuffer?_remove.mpr ⟨span, hspan, rfl⟩⟩), rfl, ?_⟩
  rw [Span.contains_iff] at hoffset ⊢
  simp only [EditBuffer.Call.edit_remove]
  omega

/-- In a plain document the two tokens that start a linkage specification, at any depth, keep all
their bytes in both outputs, and nothing is put between these bytes. The functions it holds stand
behind them, and one that is removed from an output goes without its specifier. -/
theorem linkage_specifier_stays (settings : Settings) (name text : String) {raw : List Token}
    {pp : Preprocessed} {parsed : Parsed} {output : Output} (h : Plain (.ofText name text) raw pp)
    (hparse : parseDocument (.ofText name text) = .ok parsed)
    (hsplit : splitDocument settings (.ofText name text) = .ok output) {l : Linkage}
    (hl : l ∈ linkagesOf parsed.decls) :
    let doc := Document.ofText name text
    ∃ k first second, pp.tokens[k]? = some first ∧ pp.tokens[k + 1]? = some second ∧
      first.lexeme = .ident "extern" ∧ second.lexeme = .str l.language ∧
      first.span.start = l.span.start ∧
      ∀ side, ∃ edits, Text.bytes (output.on side) = Edit.pointwise doc edits ∧
        (∀ z ∈ [first, second], ∀ offset, z.span.contains offset = true →
          Edit.textAt doc edits offset = doc.bytes[offset]?.toList) ∧
        ∀ f ∈ functionsOf l.decls, second.span.stop ≤ f.range.span.start ∧
          (.remove side f.range ∈ callsFrom settings doc [] 0 (leavesOf true parsed.decls) →
            ∀ offset, f.range.span.contains offset = true →
              Edit.takesAway edits offset = true) := by
  intro doc
  obtain ⟨decls, c, hlaid, hdecls⟩ := h.laid hparse
  obtain ⟨ps, hps⟩ := hlaid.places
  have hs := h.harmonious hps
  have hallowed : ∀ x ∈ callsFrom settings doc [] 0 (leavesOf true parsed.decls),
      x.Allowed (Spot pp ps) := fun x hx => by
    rw [hdecls] at hx
    exact allowed_of_mem_callsFrom (within_of_plain settings h hlaid hps) hx
  rw [hdecls] at hl
  obtain ⟨k, hat⟩ := hps.linkages l (mem_linkagesOf_mergeDirectives hl)
  obtain ⟨last, hspan⟩ := hat.span
  obtain ⟨first, _, hfirst, -, heq⟩ := TokenStream.spanBetween_ok hspan
  have hsize : k + 1 < pp.stream.size :=
    Nat.lt_of_succ_lt (h.bracketed.ended.lt_of_lexeme_ne (by simp [hat.language]))
  obtain ⟨second, hsecond⟩ := TokenStream.exists_token hsize
  have hword := hat.word
  have hlanguage := hat.language
  rw [(TokenStream.lexeme_of_token hfirst).2] at hword
  rw [(TokenStream.lexeme_of_token hsecond).2] at hlanguage
  obtain ⟨buffers, hreq, hresult⟩ := splitDocument_ok hparse hsplit
  refine ⟨k, first, second, Plain.getElem?_of_token hfirst, Plain.getElem?_of_token hsecond, hword,
    hlanguage, by rw [heq], fun side => ⟨(buffers.side side).edits, ?_, ?_, ?_⟩⟩
  all_goals
    have hside := DualBuffer.requestAll_side hreq side
    rw [show (DualBuffer.ofDocument doc).side side = .ofDocument doc by cases side <;> rfl] at hside
  · exact EditBuffer.requestAll_bytes hside
      (fun x hx => ((nested_of_callsOn hs hallowed side).1 x hx).1) (Text.isUtf8_bytes text)
      (hresult side)
  · intro z hz offset hoffset
    obtain ⟨n, hn, htoken⟩ : ∃ n, (n = k ∨ n = k + 1) ∧ pp.stream.token n = .ok z := by
      simp only [mem_cons, not_mem_nil, or_false] at hz
      rcases hz with rfl | rfl
      · exact ⟨k, .inl rfl, hfirst⟩
      · exact ⟨k + 1, .inr rfl, hsecond⟩
    exact textAt_of_apart hs hallowed hside
      (fun span hspan => h.apart_of_spot hps hat hspan hn htoken)
      (h.lexed.takes z (h.mem_raw htoken).2.1).stop hoffset
  · intro f hf
    refine ⟨?_, fun hremove offset hoffset => takesAway_of_remove hreq hremove hoffset⟩
    obtain ⟨p, -, hp, hbehind⟩ := hat.holds f hf
    obtain ⟨a, _, ha, -, hrange⟩ := TokenStream.rangeBetween_ok hp.range
    rw [hrange]
    exact (h.before (hbehind.trans_le hp.opening.le) hsecond ha).le

/-! ### A specifier that passes to the next function -/

/-- The edits of a buffer are in order and give the text. -/
def gives (b : EditBuffer) (text : String) : Bool :=
  decide (b.edits.Pairwise (Edit.precedes · · = true)) &&
    (EditBuffer.applyFrom b.document 0 b.edits).toOption == some (Text.bytes text)

theorem result_of_gives {b : EditBuffer} {text : String} (h : gives b text = true) :
    b.result = .ok text := by
  simp only [gives, Bool.and_eq_true, decide_eq_true_eq, beq_iff_eq] at h
  rw [EditBuffer.result, EditBuffer.resultBytes, mergeSort_of_pairwise h.1]
  cases ha : EditBuffer.applyFrom b.document 0 b.edits with
  | error f => simp [ha, Except.toOption] at h
  | ok bytes =>
    obtain rfl : bytes = Text.bytes text := by simpa [ha, Except.toOption] using h.2
    exact congrArg Except.ok (Text.ofBytes_bytes text)

def walked (settings : Settings) (doc : Document) : Except SplitError Unit × State :=
  (visitDecls settings true (unsorted doc).decls).run.run (.ofDocument doc)

/-- A document in which nothing is left to sort splits as its edits say. -/
theorem splitDocument_of_sorted {settings : Settings} {host device : String}
    (hparse : parseDocument doc = .ok (unsorted doc)) (hwalk : (walked settings doc).1.isOk = true)
    (hhost : gives (walked settings doc).2.buffers.host host = true)
    (hdevice : gives (walked settings doc).2.buffers.device device = true) :
    ∃ output, splitDocument settings doc = .ok output ∧ output.host = host ∧
      output.device = device := by
  rcases hw : walked settings doc with ⟨e | u, s⟩
  · simp [hw, Except.isOk, Except.toBool] at hwalk
  · rw [hw] at hhost hdevice
    have hdecls : splitDecls settings doc (unsorted doc).decls =
        .ok ⟨host, device, s.diagnostics, s.kernels⟩ := by
      unfold walked at hw
      simp only [splitDecls, hw, result_of_gives hhost, result_of_gives hdevice]
    refine ⟨⟨host, device, (unsorted doc).diagnostics ++ s.diagnostics, s.kernels⟩, ?_, rfl, rfl⟩
    simp only [splitDocument, hparse, hdecls]

/-- The functions declared under some linkage specification. -/
def underLinkage (ds : List Decl) : List String :=
  (linkagesOf ds).flatMap fun l => (functionsOf l.decls).map (·.name)

/-- A function for the device under a specification without braces, and another one behind it. -/
def linkedText : String :=
  "extern \"C\" int f() __attribute__((amp_restrict(\"gpu\")));\nint g();\n"

def linked : Document := .ofText "a.cpp" linkedText

def linkedHost : String := "extern \"C\" \nint g();\n"

theorem linked_evaluates :
    ((parseUnsorted linked).isOk = true ∧
      (unsorted linked).decls.Pairwise fun a b => a.span.start ≤ b.span.start) ∧
    ((walked {} linked).1.isOk = true ∧ gives (walked {} linked).2.buffers.host linkedHost = true ∧
      gives (walked {} linked).2.buffers.device linkedText = true) ∧
    underLinkage (unsorted linked).decls = ["f"] := by
  decide +kernel

theorem linked_splits : parseDocument linked = .ok (unsorted linked) ∧
    ∃ output, splitDocument {} linked = .ok output ∧ output.host = linkedHost := by
  obtain ⟨⟨hok, hsorted⟩, ⟨hwalk, hhost, hdevice⟩, -⟩ := linked_evaluates
  have hparse := parseDocument_of_sorted hok hsorted
  obtain ⟨output, hsplit, heq, -⟩ := splitDocument_of_sorted hparse hwalk hhost hdevice
  exact ⟨hparse, output, hsplit, heq⟩

/-- The bytes of `f` are gone on the host, those of `extern "C"` are not. -/
theorem linkage_specifier_stays_linked :
    (∃ raw pp, Plain linked raw pp) ∧ parseDocument linked = .ok (unsorted linked) ∧
      ∃ output, splitDocument {} linked = .ok output ∧
        ∃ l ∈ linkagesOf (unsorted linked).decls, ∃ f ∈ functionsOf l.decls,
          .remove .host f.range ∈ callsFrom {} linked [] 0 (leavesOf true (unsorted linked).decls) ∧
          ∃ first second : Token, first.lexeme = .ident "extern" ∧ second.lexeme = .str "C" ∧
            ∃ edits, Text.bytes output.host = Edit.pointwise linked edits ∧
              (∀ z ∈ [first, second], ∀ offset, z.span.contains offset = true →
                Edit.textAt linked edits offset = linked.bytes[offset]?.toList) ∧
              ∀ offset, f.range.span.contains offset = true →
                Edit.takesAway edits offset = true := by
  obtain ⟨⟨raw, pp, h⟩, l, hl, hlanguage, f, hf, hremove⟩ :
      (∃ raw pp, Plain linked raw pp) ∧
        ∃ l ∈ linkagesOf (unsorted linked).decls, l.language = "C" ∧
          ∃ f ∈ functionsOf l.decls, .remove .host f.range ∈
            callsFrom {} linked [] 0 (leavesOf true (unsorted linked).decls) := by
    decide +kernel
  obtain ⟨hparse, output, hsplit, -⟩ := linked_splits
  obtain ⟨k, first, second, -, -, hfirst, hsecond, -, hside⟩ :=
    linkage_specifier_stays {} "a.cpp" linkedText h hparse hsplit hl
  obtain ⟨edits, hbytes, hstays, hgone⟩ := hside .host
  rw [hlanguage] at hsecond
  exact ⟨⟨raw, pp, h⟩, hparse, output, hsplit, l, hl, f, hf, hremove, first, second, hfirst,
    hsecond, edits, hbytes, hstays, (hgone f hf).2 hremove⟩

theorem linkedHost_evaluates :
    ((parseUnsorted (.ofText "a.cpp" linkedHost)).isOk = true ∧
      (unsorted (.ofText "a.cpp" linkedHost)).decls.Pairwise fun a b =>
        a.span.start ≤ b.span.start) ∧
    underLinkage (unsorted (.ofText "a.cpp" linkedHost)).decls = ["g"] := by
  decide +kernel

/-- The host loses `f` but not its specifier, and `g` has C linkage there. -/
theorem specifier_passes_to_next_function :
    ∃ output parsed reparsed, splitDocument {} linked = .ok output ∧
      parseDocument linked = .ok parsed ∧ underLinkage parsed.decls = ["f"] ∧
      output.host = "extern \"C\" \nint g();\n" ∧
      parseDocument (.ofText "a.cpp" output.host) = .ok reparsed ∧
      underLinkage reparsed.decls = ["g"] := by
  obtain ⟨-, -, hunder⟩ := linked_evaluates
  obtain ⟨⟨hok, hsorted⟩, hunder'⟩ := linkedHost_evaluates
  obtain ⟨hparse, output, hsplit, heq⟩ := linked_splits
  refine ⟨output, _, _, hsplit, hparse, hunder, heq, ?_, hunder'⟩
  rw [heq]
  exact parseDocument_of_sorted hok hsorted

end Split

end Offload
