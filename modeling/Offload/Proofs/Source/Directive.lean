import Offload.Proofs.Outcome
import Offload.Proofs.Source.Lexer
import Offload.Source.Directive

/-!
# Tokens and directives of a document

Without macro expansion preprocessing only takes tokens away: directive lines, and names whose
macro is empty. The tokens that stay keep their order, and each directive covers a stretch of the
text that no other directive and no token that stays reaches into.
-/

namespace Offload.Source

open List

variable {d : Directive} {doc : Document} {raw : List Token} {macros : MacroTable}
  {pp : Preprocessed} {hash : Token}

/-- The token ends where the other starts, or before. -/
structure Token.Before (t u : Token) : Prop where
  notEof : t.lexeme ≠ .eof
  le : t.span.stop ≤ u.span.start

theorem Tokenized.pairwise (h : Tokenized doc raw) : raw.Pairwise Token.Before := by
  rw [pairwise_iff_getElem]
  intro u v hu hv huv
  refine ⟨?_, h.stop_le_start huv (getElem?_eq_getElem hu) (getElem?_eq_getElem hv)⟩
  have hnext : u + 1 < raw.length := by omega
  exact (h.resumes_getElem? (getElem?_eq_getElem hu) (getElem?_eq_getElem hnext)).notEof

/-! ### One token, one line -/

theorem MacroTable.markLast_expanded {ts : List Token} (h : ts ≠ []) :
    ∃ t ∈ markLast ts, t.isExpanded = true := by
  induction ts with
  | nil => exact absurd rfl h
  | cons t rest ih =>
    cases rest with
    | nil => exact ⟨_, mem_singleton_self _, rfl⟩
    | cons u rest =>
      obtain ⟨x, hx, hexpanded⟩ := ih (by simp)
      exact ⟨x, mem_cons_of_mem _ hx, hexpanded⟩

/-- A token that leaves no expansion behind stays as it is or vanishes. -/
theorem MacroTable.contribution_eq {t : Token}
    (h : ∀ u ∈ macros.contribution t, u.isExpanded = false) :
    macros.contribution t = [t] ∨ macros.contribution t = [] ∧ t.lexeme ≠ .eof := by
  unfold contribution at h ⊢
  split
  · rename_i name hname
    split
    · exact .inl rfl
    · rename_i body hbody
      right
      simp only [hname, hbody] at h
      refine ⟨?_, by simp [hname]⟩
      generalize markFirst t.atLineStart (expand macros t.span (macros.length + 1) [] t) = ts at h ⊢
      by_cases hts : ts = []
      · rw [hts]
        rfl
      · obtain ⟨u, hu, hexpanded⟩ := markLast_expanded hts
        rw [h u hu] at hexpanded
        cases hexpanded
  · exact .inl rfl

theorem includeKind_span {start : Nat} {operands : List Token} {file : String} {angled : Bool}
    {span : Span} {problems : List Problem}
    (h : includeKind doc start operands = .ok (some (.include_ file angled span), problems)) :
    span.start = start ∧ ∃ t ∈ operands, t.span.stop = span.stop := by
  unfold includeKind at h
  split at h
  · cases h
  rename_i first rest
  split at h
  · cases h
    exact ⟨rfl, first, mem_cons_self, rfl⟩
  · split at h
    · cases h
    · rename_i close hclose
      cases hslice : doc.slice ⟨first.span.stop, close.span.start⟩ with
      | error f => simp [hslice, bind, Except.bind] at h
      | ok name =>
        simp only [hslice, bind, Except.bind, pure, Except.pure] at h
        cases h
        exact ⟨rfl, close, mem_cons_of_mem _ (mem_of_find?_eq_some hclose), rfl⟩
  · cases h

/-- The kind of a directive names no text outside of the tokens given. -/
def DirectiveKind.EndsIn (kind : DirectiveKind) (start : Nat) (ts : List Token) : Prop :=
  ∀ file angled span, kind = .include_ file angled span →
    span.start = start ∧ ∃ t ∈ ts, t.span.stop = span.stop

theorem directiveEffect_directive {line : List Token} {effect : DirectiveEffect}
    (h : directiveEffect doc macros hash line = .ok effect) (hd : effect.directive = some d) :
    d.span = ⟨hash.span.start, (line.getLast?.getD hash).span.stop⟩ ∧
      d.kind.EndsIn hash.span.start line := by
  unfold directiveEffect at h
  split at h
  · cases h
    cases hd
  rename_i word operands
  simp only [pure, Except.pure] at h
  split_ifs at h with hinclude hdefine hundef
  · cases hkind : includeKind doc hash.span.start operands with
    | error f => simp [hkind, bind, Except.bind] at h
    | ok r =>
      obtain ⟨kind, problems⟩ := r
      simp only [hkind, bind, Except.bind] at h
      cases h
      obtain ⟨k, rfl, rfl⟩ := Option.map_eq_some_iff.mp hd
      refine ⟨rfl, fun file angled span heq => ?_⟩
      rw [show k = .include_ file angled span from heq] at hkind
      obtain ⟨hstart, t, ht, hstop⟩ := includeKind_span hkind
      exact ⟨hstart, t, mem_cons_of_mem _ ht, hstop⟩
  · split at h
    · split at h
      · cases h
        cases hd
        exact ⟨rfl, by simp [DirectiveKind.EndsIn]⟩
      · cases h
        cases hd
    · cases h
      cases hd
  · cases h
    cases hd
    exact ⟨rfl, by simp [DirectiveKind.EndsIn]⟩
  · cases h
    cases hd
    exact ⟨rfl, by simp [DirectiveKind.EndsIn]⟩

/-! ### All tokens and directives -/

/-- The directive reaches from a `#` of the file to the end of a token; the name of an included
file ends at a token as well. -/
structure Directive.Among (d : Directive) (raw : List Token) : Prop where
  hash : ∃ t ∈ raw, t.lexeme = .symbol .hash ∧ t.span.start = d.span.start
  header : ∀ file angled span, d.kind = .include_ file angled span →
    span.start = d.span.start ∧ span.stop ≤ d.span.stop ∧
      ∃ t ∈ raw, t.lexeme ≠ .eof ∧ d.span.start ≤ t.span.start ∧ t.span.stop = span.stop

theorem Directive.Among.mono {raw' : List Token} (h : d.Among raw) (hsub : raw ⊆ raw') :
    d.Among raw' where
  hash := by
    obtain ⟨t, ht, hlexeme, hstart⟩ := h.hash
    exact ⟨t, hsub ht, hlexeme, hstart⟩
  header file angled span hkind := by
    obtain ⟨hstart, hstop, t, ht, hne, hle, heq⟩ := h.header file angled span hkind
    exact ⟨hstart, hstop, t, hsub ht, hne, hle, heq⟩

/-- What preprocessing leaves of the tokens of a file when it expands nothing. -/
structure Layout (raw kept : List Token) (directives : List Directive) : Prop where
  sublist : kept.Sublist raw
  among : ∀ d ∈ directives, d.Among raw
  apart : ∀ d ∈ directives, ∀ t ∈ kept,
    t.span.stop ≤ d.span.start ∨ d.span.stop ≤ t.span.start
  ordered : directives.Pairwise fun d d' => d.span.stop ≤ d'.span.start
  ended : ∀ t, raw.getLast? = some t → t.lexeme = .eof → kept.getLast? = some t

namespace Layout

variable {raw kept line : List Token} {directives : List Directive} {t hash : Token}

theorem nil : Layout [] [] [] := ⟨.slnil, by simp, by simp, .nil, by simp⟩

theorem keep (h : Layout raw kept directives) (ht : ∀ u ∈ raw, t.Before u) :
    Layout (t :: raw) (t :: kept) directives where
  sublist := h.sublist.cons_cons t
  among d hd := (h.among d hd).mono (subset_cons_self _ _)
  apart d hd u hu := by
    rcases mem_cons.mp hu with rfl | hu
    · obtain ⟨x, hx, -, hstart⟩ := (h.among d hd).hash
      exact .inl (hstart ▸ (ht x hx).le)
    · exact h.apart d hd u hu
  ordered := h.ordered
  ended u hu heof := by
    rw [getLast?_cons] at hu ⊢
    cases hlast : raw.getLast? with
    | none =>
      obtain rfl := getLast?_eq_none_iff.mp hlast
      rw [sublist_nil.mp h.sublist]
      exact hu
    | some last =>
      obtain rfl : last = u := by simpa [hlast] using hu
      rw [h.ended last hlast heof]
      rfl

theorem drop (h : Layout raw kept directives) (ht : t.lexeme ≠ .eof) :
    Layout (t :: raw) kept directives where
  sublist := h.sublist.cons t
  among d hd := (h.among d hd).mono (subset_cons_self _ _)
  apart := h.apart
  ordered := h.ordered
  ended u hu heof := by
    rw [getLast?_cons] at hu
    cases hlast : raw.getLast? with
    | none =>
      obtain rfl : t = u := by simpa [hlast] using hu
      exact absurd heof ht
    | some last =>
      obtain rfl : last = u := by simpa [hlast] using hu
      exact h.ended last hlast heof

/-- A line of tokens is taken away one by one. -/
theorem dropAll (h : Layout raw kept directives) (hline : ∀ t ∈ line, t.lexeme ≠ .eof) :
    Layout (line ++ raw) kept directives := by
  induction line with
  | nil => exact h
  | cons t line ih =>
    exact (ih fun u hu => hline u (mem_cons_of_mem _ hu)).drop (hline t mem_cons_self)

/-- A directive ahead of everything else. -/
theorem cons (h : Layout raw kept directives) (hd : d.Among raw)
    (hkept : ∀ t ∈ kept, d.span.stop ≤ t.span.start)
    (hrest : ∀ d' ∈ directives, d.span.stop ≤ d'.span.start) :
    Layout raw kept (d :: directives) where
  sublist := h.sublist
  among d' hd' := by
    rcases mem_cons.mp hd' with rfl | hd'
    · exact hd
    · exact h.among d' hd'
  apart d' hd' t ht := by
    rcases mem_cons.mp hd' with rfl | hd'
    · exact .inr (hkept t ht)
    · exact h.apart d' hd' t ht
  ordered := pairwise_cons.mpr ⟨hrest, h.ordered⟩
  ended := h.ended

end Layout

theorem stop_le_getLast {line : List Token} (hpairs : (hash :: line).Pairwise Token.Before)
    (hordered : ∀ t ∈ hash :: line, t.span.start ≤ t.span.stop) {t : Token}
    (ht : t ∈ hash :: line) : t.span.stop ≤ (line.getLast?.getD hash).span.stop := by
  induction line generalizing hash t with
  | nil =>
    obtain rfl := mem_singleton.mp ht
    exact le_rfl
  | cons u line ih =>
    obtain ⟨hfirst, hrest⟩ := pairwise_cons.mp hpairs
    have hlast : ∀ x ∈ u :: line, x.span.stop ≤ (line.getLast?.getD u).span.stop := fun x hx =>
      ih hrest (fun y hy => hordered y (mem_cons_of_mem _ hy)) hx
    rw [getLast?_cons, Option.getD_some]
    rcases mem_cons.mp ht with rfl | ht
    · have hle := (hfirst u mem_cons_self).le
      have hu := hordered u (mem_cons_of_mem _ mem_cons_self)
      have := hlast u mem_cons_self
      omega
    · exact hlast t ht

/-- A directive line in front of tokens that are laid out already. -/
theorem Layout.line {line kept : List Token} {directives : List Directive}
    {effect : DirectiveEffect} (h : Layout raw kept directives)
    (hhash : hash.lexeme = .symbol .hash) (hline : ∀ t ∈ line, t.lexeme ≠ .eof)
    (hpairs : (hash :: (line ++ raw)).Pairwise Token.Before)
    (hordered : ∀ t ∈ hash :: line, t.span.start ≤ t.span.stop)
    (heffect : directiveEffect doc macros hash line = .ok effect) :
    Layout (hash :: (line ++ raw)) kept (effect.directive.toList ++ directives) := by
  have hall : Layout (hash :: (line ++ raw)) kept directives :=
    (h.dropAll hline).drop (by simp [hhash])
  cases hd : effect.directive with
  | none => exact hall
  | some d =>
    obtain ⟨hspan, hkind⟩ := directiveEffect_directive heffect hd
    rw [← cons_append, pairwise_append] at hpairs
    obtain ⟨hfront, -, hacross⟩ := hpairs
    have hlast : line.getLast?.getD hash ∈ hash :: line := by
      cases hl : line.getLast? with
      | none => exact mem_cons_self
      | some last => exact mem_cons_of_mem _ (mem_of_getLast? hl)
    have hafter : ∀ u ∈ raw, d.span.stop ≤ u.span.start := by
      intro u hu
      rw [hspan]
      exact (hacross _ hlast u hu).le
    refine hall.cons ⟨⟨hash, mem_cons_self, hhash, by rw [hspan]⟩, ?_⟩ ?_ ?_
    · intro file angled span heq
      obtain ⟨hstart, t, ht, hstop⟩ := hkind file angled span heq
      refine ⟨by rw [hspan, hstart], ?_, t,
        mem_cons_of_mem _ (mem_append_left _ ht), hline t ht, ?_, hstop⟩
      · rw [hspan, ← hstop]
        exact stop_le_getLast hfront hordered (mem_cons_of_mem _ ht)
      · rw [hspan]
        exact (hordered hash mem_cons_self).trans ((pairwise_cons.mp hfront).1 t ht).le
    · intro t ht
      exact hafter t (h.sublist.subset ht)
    · intro d' hd'
      obtain ⟨u, hu, -, hstart⟩ := (h.among d' hd').hash
      rw [← hstart]
      exact hafter u hu

/-- A token opens a directive, which takes its line away, or makes its contribution. -/
theorem preprocessFrom_cons {fuel : Nat} {t : Token} {rest : List Token}
    (h : preprocessFrom doc (fuel + 1) macros (t :: rest) = .ok pp) :
    (t.lexeme = .symbol .hash ∧ ∃ effect after,
      directiveEffect doc macros t (rest.takeWhile continuesLine) = .ok effect ∧
        preprocessFrom doc fuel effect.macros (rest.dropWhile continuesLine) = .ok after ∧
        pp.tokens = after.tokens ∧
        pp.directives = effect.directive.toList ++ after.directives) ∨
      ∃ after, preprocessFrom doc fuel macros rest = .ok after ∧
        pp.tokens = macros.contribution t ++ after.tokens ∧ pp.directives = after.directives := by
  rw [preprocessFrom] at h
  split_ifs at h with hdirective
  · obtain ⟨hhash, -⟩ : t.lexeme = .symbol .hash ∧ _ := by simpa using hdirective
    obtain ⟨effect, heffect, h⟩ := except_bind_ok.mp h
    obtain ⟨after, hafter, h⟩ := except_bind_ok.mp h
    obtain rfl := Except.ok.inj h
    exact .inl ⟨hhash, effect, after, heffect, hafter, rfl, rfl⟩
  · obtain ⟨after, hafter, h⟩ := except_bind_ok.mp h
    obtain rfl := Except.ok.inj h
    exact .inr ⟨after, hafter, rfl, rfl⟩

theorem layout_of_preprocessFrom {fuel : Nat} (h : preprocessFrom doc fuel macros raw = .ok pp)
    (hpairs : raw.Pairwise Token.Before) (hordered : ∀ t ∈ raw, t.span.start ≤ t.span.stop)
    (hfile : ∀ t ∈ pp.tokens, t.isExpanded = false) : Layout raw pp.tokens pp.directives := by
  induction fuel generalizing macros raw pp with
  | zero =>
    cases raw with
    | nil =>
      cases h
      exact .nil
    | cons t rest => cases h
  | succ fuel ih =>
    cases raw with
    | nil =>
      cases h
      exact .nil
    | cons t rest =>
      rcases preprocessFrom_cons h with
        ⟨hhash, effect, after, heffect, hafter, htokens, hdirectives⟩ |
        ⟨after, hafter, htokens, hdirectives⟩
      · rw [htokens] at hfile ⊢
        rw [hdirectives]
        rw [← takeWhile_append_dropWhile (p := continuesLine) (l := rest)]
          at hpairs hordered ⊢
        have htail : (rest.dropWhile continuesLine).Pairwise Token.Before :=
          ((pairwise_cons.mp hpairs).2).sublist (sublist_append_right _ _)
        have hrest := ih hafter htail
          (fun u hu => hordered u (mem_cons_of_mem _ (mem_append_right _ hu))) hfile
        refine hrest.line hhash (fun u hu => ?_) hpairs (fun u hu => hordered u ?_) heffect
        · have hcontinues := all_eq_true.mp all_takeWhile u hu
          simp only [continuesLine, Token.isEof] at hcontinues
          simpa using (Bool.and_eq_true_iff.mp hcontinues).2
        · rcases mem_cons.mp hu with rfl | hu
          · exact mem_cons_self
          · exact mem_cons_of_mem _ (mem_append_left _ hu)
      · rw [htokens] at hfile ⊢
        rw [hdirectives]
        obtain ⟨hfirst, htail⟩ := pairwise_cons.mp hpairs
        have hrest := ih hafter htail (fun u hu => hordered u (mem_cons_of_mem _ hu))
          fun u hu => hfile u (mem_append_right _ hu)
        rcases macros.contribution_eq fun u hu => hfile u (mem_append_left _ hu) with
          hkeep | ⟨hdrop, hne⟩
        · rw [hkeep]
          exact hrest.keep hfirst
        · rw [hdrop]
          exact hrest.drop hne

theorem Tokenized.layout (h : Tokenized doc raw) (hpp : preprocess doc raw = .ok pp)
    (hfile : ∀ t ∈ pp.tokens, t.isExpanded = false) : Layout raw pp.tokens pp.directives :=
  layout_of_preprocessFrom hpp h.pairwise (fun t ht => (h.stands t ht).ordered) hfile

end Offload.Source
