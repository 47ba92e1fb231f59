import Offload.Proofs.Edit.Boundary
import Offload.Proofs.Split.Nesting
import Mathlib.Data.List.Flatten
import Mathlib.Data.List.NodupEquivFin

/-!
# Functions stand apart

In a document that expands no macro the functions, each with its template heads and its terminator,
take stretches of the text that follow one another, at any nesting and also where the text is
malformed. To remove one of them takes no byte of another away.
-/

namespace Offload.Source

open TokenStream List

/-! ### Declarations among directives -/

namespace Arranged

variable {ts : TokenStream} {c c' : Nat} {ds : List Decl}

/-- Each declaration starts with a token from `c` on. -/
theorem starts (h : Arranged ts c c' ds) :
    ∀ d ∈ ds, ∃ i t, c ≤ i ∧ ts.token i = .ok t ∧ d.span.start = t.span.start := by
  induction h with
  | nil => simp
  | @function c c' first last f rest h hf _ ih =>
    intro d hd
    rcases mem_cons.mp hd with rfl | hd
    · obtain ⟨t, u, ht, -, hrange⟩ := rangeBetween_ok hf.range
      exact ⟨first, t, h, ht, by rw [Decl.span, hrange]⟩
    · obtain ⟨i, t, hi, ht⟩ := ih d hd
      have := hf.le
      exact ⟨i, t, by omega, ht⟩
  | @nest c c' m first last d' inner rest h hspan _ hinner _ _ ih =>
    intro d hd
    rcases mem_cons.mp hd with rfl | hd
    · obtain ⟨t, u, ht, -, hspan⟩ := spanBetween_ok hspan
      exact ⟨first, t, h, ht, by rw [hspan]⟩
    · obtain ⟨i, t, hi, ht⟩ := ih d hd
      have := hinner.le
      exact ⟨i, t, by omega, ht⟩

theorem sorted (h : Arranged ts c c' ds)
    (hmono : ∀ {i j t u}, i ≤ j → ts.token i = .ok t → ts.token j = .ok u →
      t.span.start ≤ u.span.start) : ds.Pairwise fun a b => a.span.start ≤ b.span.start := by
  induction h with
  | nil => exact .nil
  | @function c c' first last f rest h hf hrest ih =>
    obtain ⟨t, u, ht, -, hrange⟩ := rangeBetween_ok hf.range
    refine pairwise_cons.mpr ⟨fun d hd => ?_, ih⟩
    obtain ⟨i, v, hi, hv, hstart⟩ := hrest.starts d hd
    have hle := hf.le
    rw [hstart, Decl.span, hrange]
    exact hmono (by omega) ht hv
  | @nest c c' m first last d' inner rest h hspan _ hinner hrest _ ih =>
    obtain ⟨t, u, ht, -, hspan⟩ := spanBetween_ok hspan
    refine pairwise_cons.mpr ⟨fun d hd => ?_, ih⟩
    obtain ⟨i, v, hi, hv, hstart⟩ := hrest.starts d hd
    have hle := hinner.le
    rw [hstart, hspan]
    exact hmono (by omega) ht hv

end Arranged

theorem functionsOf_eq_flatMap (ds : List Decl) : functionsOf ds = ds.flatMap Decl.functions := by
  induction ds with
  | nil => rfl
  | cons d ds ih => rw [functionsOf, ih, flatMap_cons]

/-- Directives take their places and leave the functions in their order. -/
theorem functionsOf_mergeDirectives {ds : List Decl} {directives : List Directive}
    (h : ds.Pairwise fun a b => a.span.start ≤ b.span.start) :
    functionsOf (mergeDirectives ds directives) = functionsOf ds := by
  have hperm : (mergeDirectives ds directives).Perm (ds ++ directives.map Decl.directive) :=
    mergeSort_perm _ _
  have hkeep : ds.Sublist (mergeDirectives ds directives) := by
    refine sublist_mergeSort ?_ ?_ (by simpa using h) (sublist_append_left _ _)
    · intro a b c hab hbc
      simp only [decide_eq_true_eq] at hab hbc ⊢
      omega
    · intro a b
      simp only [Bool.or_eq_true, decide_eq_true_eq]
      omega
  have hnone : (directives.map Decl.directive).flatMap Decl.functions = [] := by
    simp [flatMap_eq_nil_iff, Decl.functions]
  rw [functionsOf_eq_flatMap, functionsOf_eq_flatMap]
  refine ((hkeep.flatMap Decl.functions).eq_of_length ?_).symm
  rw [(hperm.flatMap_right Decl.functions).length_eq, flatMap_append, hnone, append_nil]

/-! ### Edited spans -/

theorem Tokenized.start_le_start {doc : Document} {raw : List Token} {i j : Nat} {t u : Token}
    (h : Tokenized doc raw) (hij : i ≤ j) (ht : raw[i]? = some t) (hu : raw[j]? = some u) :
    t.span.start ≤ u.span.start := by
  rcases Nat.eq_or_lt_of_le hij with rfl | hlt
  · obtain rfl := Option.some.inj (ht.symm.trans hu)
    exact le_rfl
  · exact (h.stands t (mem_of_getElem? ht)).ordered.trans (h.stop_le_start hlt ht hu)

/-- The span to edit for the tokens of the text from one index to another, the first of which is no
semicolon. -/
structure Edited (raw : List Token) (i j : Nat) (span : Span) : Prop where
  le : i ≤ j
  starts : ∃ t, raw[i]? = some t ∧ t.lexeme ≠ .symbol .semicolon ∧ span.start = t.span.start
  stops : ∃ u v, raw[j]? = some u ∧ raw[j + 1]? = some v ∧ span.stop = terminated u v

namespace Edited

variable {doc : Document} {raw : List Token} {i j i' j' : Nat} {span span' : Span}

theorem pos (h : Edited raw i j span) (hraw : Tokenized doc raw) : span.start < span.stop := by
  obtain ⟨t, ht, -, hstart⟩ := h.starts
  obtain ⟨u, v, hu, hv, hstop⟩ := h.stops
  calc
    span.start = t.span.start := hstart
    _ ≤ u.span.start := hraw.start_le_start h.le ht hu
    _ < u.span.stop := (hraw.stands u (mem_of_getElem? hu)).pos (hraw.resumes_getElem? hu hv).notEof
    _ ≤ terminated u v := hraw.le_terminated hu hv
    _ = span.stop := hstop.symm

/-- Tokens behind others are not reached by the span of these: a semicolon that is taken along is
not where the next tokens start. -/
theorem stop_le (h : Edited raw i j span) (h' : Edited raw i' j' span') (hraw : Tokenized doc raw)
    (hlt : j < i') : span.stop ≤ span'.start := by
  obtain ⟨u, v, hu, hv, hstop⟩ := h.stops
  obtain ⟨t, ht, hne, hstart⟩ := h'.starts
  rw [hstop, hstart]
  rcases hraw.terminated_le hlt hu hv ht with hle | ⟨rfl, hsemicolon⟩
  · exact hle
  · obtain rfl := Option.some.inj (hv.symm.trans ht)
    exact absurd hsemicolon hne

end Edited

section

variable {doc : Document} {raw : List Token} {pp : Preprocessed} {place : Nat ↪o Nat}

theorem StandsAt.edited {f : FunctionDecl} {i j : Nat} (h : StandsAt pp.stream f i j)
    (hraw : Tokenized doc raw) (hfile : ∀ t ∈ pp.tokens, t.isExpanded = false)
    (hplace : ∀ k, pp.tokens[k]? = raw[place k]?) :
    ∃ span, withTerminator doc (f.templateRange.getD f.range) = .ok span ∧
      Edited raw (place i) (place j) span := by
  have htext : ∀ {k x}, pp.stream.token k = .ok x → raw[place k]? = some x := fun hx =>
    (hplace _).symm.trans (Plain.getElem?_of_token hx)
  obtain ⟨t, u, ht, hu, hrange⟩ := rangeBetween_ok h.range
  have hstarts := h.starts
  rw [(lexeme_of_token ht).2] at hstarts
  have hle := place.monotone h.le
  obtain ⟨v, hv⟩ : ∃ v, raw[place j + 1]? = some v := by
    obtain ⟨x, hx⟩ := exists_token h.lt_size
    have hsize := (List.getElem?_eq_some_iff.mp (htext hx)).1
    have hlt : place j < place (j + 1) := place.strictMono (Nat.lt_succ_self j)
    exact ⟨_, List.getElem?_eq_getElem (by omega)⟩
  refine ⟨⟨t.span.start, terminated u v⟩, ?_, hle, ⟨t, htext ht, hstarts, rfl⟩, u, v, htext hu, hv,
    rfl⟩
  rw [hrange]
  refine (hraw.resumes_getElem? (htext hu) hv).withTerminator_eq ?_
    (hraw.stands v (List.mem_of_getElem? hv)).ordered rfl ?_
  · exact (hraw.start_le_start hle (htext ht) (htext hu)).trans
      (hraw.stands u (List.mem_of_getElem? (htext hu))).ordered
  · have := hfile u (List.mem_of_getElem? (Plain.getElem?_of_token hu))
    simp only [Token.isExpanded, bne_eq_false_iff_eq] at this
    simp [this]

/-- The spans to edit for functions that stand one after another. -/
theorem exists_editedSpans {fs : List FunctionDecl} {ps : List (Nat × Nat)}
    (hraw : Tokenized doc raw) (hfile : ∀ t ∈ pp.tokens, t.isExpanded = false)
    (hplace : ∀ k, pp.tokens[k]? = raw[place k]?)
    (hps : List.Forall₂ (fun f p => StandsAt pp.stream f p.1 p.2) fs ps)
    (hpairs : ps.Pairwise fun p q => p.2 < q.1) :
    ∃ spans, fs.mapM (fun f => withTerminator doc (f.templateRange.getD f.range)) = .ok spans ∧
      List.Forall₂ (fun p span => Edited raw (place p.1) (place p.2) span) ps spans ∧
      spans.Pairwise fun a b => a.start < b.start ∧ a.stop ≤ b.start := by
  induction hps with
  | nil => exact ⟨[], rfl, .nil, .nil⟩
  | @cons f p fs ps hf _ ih =>
    obtain ⟨hfirst, hrest⟩ := pairwise_cons.mp hpairs
    obtain ⟨spans, hspans, hedited, hapart⟩ := ih hrest
    obtain ⟨span, hspan, hhead⟩ := hf.edited hraw hfile hplace
    refine ⟨span :: spans, ?_, .cons hhead hedited, pairwise_cons.mpr ⟨?_, hapart⟩⟩
    · rw [mapM_cons, hspan]
      simp only [hspans, bind, Except.bind, pure, Except.pure]
    · intro b hb
      obtain ⟨q, hq, hlater⟩ := mem_of_forall₂_right hedited hb
      have hstop := hhead.stop_le hlater hraw (place.strictMono (hfirst q hq))
      exact ⟨(hhead.pos hraw).trans_le hstop, hstop⟩

end

end Offload.Source

namespace Offload

/-- Recording a range takes away the bytes that were taken away before, and its own. -/
theorem EditBuffer.takesAway_addRange {b b' : EditBuffer} {span : Span} {kind : EditKind}
    {offset : Nat} (h : b.addRange span kind = .ok b') (hout : span.contains offset = false) :
    Edit.takesAway b'.edits offset = Edit.takesAway b.edits offset := by
  obtain ⟨-, ⟨rfl, -⟩ | ⟨rfl, -⟩⟩ := addRange_ok h
  · rfl
  · rw [Bool.eq_iff_iff, Edit.takesAway_iff, Edit.takesAway_iff]
    constructor
    · rintro ⟨e, he, hrange, hin⟩
      rcases List.mem_append.mp he with he | he
      · exact ⟨e, (List.mem_filter.mp he).1, hrange, hin⟩
      · obtain rfl := List.mem_singleton.mp he
        rw [hout] at hin
        cases hin
    · rintro ⟨e, he, hrange, hin⟩
      refine ⟨e, List.mem_append_left _ (List.mem_filter.mpr ⟨he, ?_⟩), hrange, hin⟩
      -- A range that the new one covers has no byte outside of it.
      have hcovers : span.covers e.span = false := by
        by_contra hcovers
        have := Span.contains_of_covers (by simpa using hcovers) hin
        rw [hout] at this
        cases this
      simp only [Edit.isRange, Bool.not_eq_true'] at hrange
      simp [staysBeside, hrange, hcovers]

open Source

/-- In a document that expands no macro each function, with its template heads and its terminator,
takes a stretch of the text that is not empty. The stretches come in the order of the functions and
share no byte, so that removing one of them from an output, whatever has been edited there before,
takes no byte of another away. -/
theorem functions_stand_apart {doc : Document} {raw : List Token} {found : List Diagnostic}
    {pp : Preprocessed} {parsed : Parsed} (hraw : tokenize doc = .ok (raw, found))
    (hpp : preprocess doc raw = .ok pp) (hfile : ∀ t ∈ pp.tokens, t.isExpanded = false)
    (hparse : parseDocument doc = .ok parsed) :
    ∃ spans, (functionsOf parsed.decls).mapM
        (fun f => withTerminator doc (f.templateRange.getD f.range)) = .ok spans ∧
      (∀ span ∈ spans, span.start < span.stop) ∧
      (spans.Pairwise fun a b => a.start < b.start ∧ a.stop ≤ b.start) ∧
      ∀ removed ∈ spans, ∀ kept ∈ spans, removed ≠ kept →
        ∀ b b' : EditBuffer, b.remove removed = .ok b' →
          ∀ offset, kept.contains offset = true →
            Edit.takesAway b'.edits offset = Edit.takesAway b.edits offset := by
  have htokens := tokenized_of_tokenize hraw
  have hlayout := htokens.layout hpp hfile
  obtain ⟨hend, hsize⟩ := htokens.ended_stream hlayout
  obtain ⟨place, hplace⟩ := List.sublist_iff_exists_orderEmbedding_getElem?_eq.mp hlayout.sublist
  obtain ⟨decls, state, hrun, hdecls⟩ := gives_of_parseDocument hraw hpp hparse
  have harranged := (walks_unit hend hsize).ok rfl hrun
  have hsorted := harranged.sorted fun hij ht hu =>
    htokens.start_le_start (place.monotone hij)
      ((hplace _).symm.trans (Plain.getElem?_of_token ht))
      ((hplace _).symm.trans (Plain.getElem?_of_token hu))
  obtain ⟨ps, hps, hpairs, -⟩ := harranged.functions
  obtain ⟨spans, hspans, hedited, hapart⟩ := exists_editedSpans htokens hfile hplace hps hpairs
  refine ⟨spans, ?_, ?_, hapart, ?_⟩
  · rw [hdecls, functionsOf_mergeDirectives hsorted]
    exact hspans
  · intro span hspan
    obtain ⟨p, -, hp⟩ := mem_of_forall₂_right hedited hspan
    exact hp.pos htokens
  · intro removed hremoved kept hkept hne b b' hremove offset hin
    refine EditBuffer.takesAway_addRange hremove ?_
    rw [Span.contains_iff] at hin
    rw [← Bool.not_eq_true, Span.contains_iff]
    rcases eq_or_rel_of_pairwise hapart hremoved hkept with heq | hbefore | hbehind
    · exact absurd heq hne
    · omega
    · omega

/-- A template, a member with a semicolon behind it and a function whose parenthesis is closed by a
bracket. -/
def malformedText : String :=
  "template<class T>T f();namespace n\x7bstruct S\x7bT g()\x7b\x7d;\x7d;T h(]\x7b\x7d\x7d\n#if 1\n"

theorem functions_stand_apart_malformed :
    parseDocument (.ofText "a" malformedText) = .ok (Split.unsorted (.ofText "a" malformedText)) ∧
      (functionsOf (Split.unsorted (.ofText "a" malformedText)).decls).mapM
        (fun f => withTerminator (.ofText "a" malformedText) (f.templateRange.getD f.range)) =
          .ok [⟨0, 23⟩, ⟨44, 52⟩, ⟨54, 61⟩] ∧
      ∀ b b' : EditBuffer, b.remove ⟨44, 52⟩ = .ok b' →
        Edit.takesAway b'.edits 54 = Edit.takesAway b.edits 54 := by
  obtain ⟨hok, hsorted, hspans, hfile⟩ :
      (Split.parseUnsorted (.ofText "a" malformedText)).isOk = true ∧
        ((Split.unsorted (.ofText "a" malformedText)).decls.Pairwise
          fun a b => a.span.start ≤ b.span.start) ∧
        (functionsOf (Split.unsorted (.ofText "a" malformedText)).decls).mapM
          (fun f => withTerminator (.ofText "a" malformedText) (f.templateRange.getD f.range)) =
            .ok [⟨0, 23⟩, ⟨44, 52⟩, ⟨54, 61⟩] ∧
        (do
          let r ← tokenize (.ofText "a" malformedText)
          let pp ← preprocess (.ofText "a" malformedText) r.1
          return pp.tokens.all fun t => !t.isExpanded : Except Fault Bool) = .ok true := by
    decide +kernel
  have hparse := Split.parseDocument_of_sorted hok hsorted
  simp only [except_bind_ok] at hfile
  obtain ⟨⟨raw, found⟩, hraw, pp, hpp, hfile⟩ := hfile
  have hfile' : ∀ t ∈ pp.tokens, t.isExpanded = false := by
    simpa using Except.ok.inj hfile
  obtain ⟨spans, heq, -, -, hremove⟩ := functions_stand_apart hraw hpp hfile' hparse
  obtain rfl := Except.ok.inj (hspans.symm.trans heq)
  refine ⟨hparse, hspans, fun b b' h => ?_⟩
  exact hremove ⟨44, 52⟩ (by simp) ⟨54, 61⟩ (by simp) (by simp) b b' h 54 (by decide)

end Offload
