import Offload.Proofs.Source.Placement

/-!
# How parsing can fail

When every bracket of a stream closes before its end, whatever else the tokens are, parsing returns
or trips over a reversed span. The tokens of a preprocessed document stand in order, since what a
macro leaves behind takes the place of its name, and then the reversed span is that of a parameter
with nothing before the `=` of its default.
-/

namespace Offload.Source

open TokenStream Parse List

/-! ### Preprocessed tokens stand in order -/

namespace MacroTable

variable {macros : MacroTable} {site : Span} {t : Token} {ts : List Token}

theorem span_expand {fuel : Nat} {active : List String} (ht : t.span = site) :
    ∀ u ∈ expand macros site fuel active t, u.span = site := by
  induction fuel generalizing active t with
  | zero => simpa [expand] using ht
  | succ fuel ih =>
    intro u hu
    have hself : u ∈ [t] → u.span = site := fun hu => by rw [mem_singleton.mp hu, ht]
    rw [expand] at hu
    split at hu
    · split_ifs at hu
      · exact hself hu
      · split at hu
        · exact hself hu
        · obtain ⟨v, -, hv⟩ := mem_flatMap.mp hu
          exact ih rfl u hv
    · exact hself hu

theorem span_markFirst {atLineStart : Bool} (h : ∀ u ∈ ts, u.span = site) :
    ∀ u ∈ markFirst atLineStart ts, u.span = site := by
  cases ts with
  | nil => exact h
  | cons v rest => simpa [markFirst] using h

theorem span_markLast (h : ∀ u ∈ ts, u.span = site) : ∀ u ∈ markLast ts, u.span = site := by
  induction ts with
  | nil => exact h
  | cons v rest ih =>
    rw [forall_mem_cons] at h
    cases rest with
    | nil => simpa [markLast] using h.1
    | cons w rest =>
      rw [markLast, forall_mem_cons]
      · exact ⟨h.1, ih h.2⟩
      · simp

/-- What a token contributes takes its place. -/
theorem span_contribution : ∀ u ∈ macros.contribution t, u.span = t.span := by
  unfold contribution
  split
  · split
    · simp
    · exact span_markLast (span_markFirst (span_expand rfl))
  · simp

end MacroTable

theorem forward_of_preprocessFrom {doc : Document} {fuel : Nat} {macros : MacroTable}
    {raw : List Token} {pp : Preprocessed} (h : preprocessFrom doc fuel macros raw = .ok pp)
    (hpairs : raw.Pairwise Token.Before) (hordered : ∀ t ∈ raw, t.span.start ≤ t.span.stop) :
    pp.tokens.Pairwise (fun t u => t.span.start ≤ u.span.stop) ∧
      ∀ t ∈ pp.tokens, ∃ u ∈ raw, t.span = u.span := by
  induction fuel generalizing macros raw pp with
  | zero =>
    cases raw with
    | nil =>
      cases h
      exact ⟨.nil, by simp⟩
    | cons t rest => cases h
  | succ fuel ih =>
    cases raw with
    | nil =>
      cases h
      exact ⟨.nil, by simp⟩
    | cons t rest =>
      obtain ⟨hfirst, htail⟩ := pairwise_cons.mp hpairs
      rw [forall_mem_cons] at hordered
      rcases preprocessFrom_cons h with ⟨-, effect, after, -, hafter, htokens, -⟩ |
        ⟨after, hafter, htokens, -⟩
      · have hdrop : (rest.dropWhile continuesLine).Sublist rest := dropWhile_sublist _
        obtain ⟨hforward, hplaced⟩ := ih hafter (htail.sublist hdrop) fun u hu =>
          hordered.2 u (hdrop.subset hu)
        rw [htokens]
        refine ⟨hforward, fun u hu => ?_⟩
        obtain ⟨v, hv, hspan⟩ := hplaced u hu
        exact ⟨v, mem_cons_of_mem _ (hdrop.subset hv), hspan⟩
      · obtain ⟨hforward, hplaced⟩ := ih hafter htail hordered.2
        have hsame := macros.span_contribution (t := t)
        rw [htokens]
        refine ⟨pairwise_append.mpr ⟨?_, hforward, ?_⟩, fun u hu => ?_⟩
        · refine pairwise_of_forall_mem_list fun u hu v hv => ?_
          rw [hsame u hu, hsame v hv]
          exact hordered.1
        · intro u hu v hv
          obtain ⟨w, hw, hspan⟩ := hplaced v hv
          rw [hsame u hu, hspan]
          exact (hordered.1.trans (hfirst w hw).le).trans (hordered.2 w hw)
        · rcases mem_append.mp hu with hu | hu
          · exact ⟨t, mem_cons_self, hsame u hu⟩
          · obtain ⟨v, hv, hspan⟩ := hplaced u hu
            exact ⟨v, mem_cons_of_mem _ hv, hspan⟩

theorem Tokenized.forward {doc : Document} {raw : List Token} {pp : Preprocessed}
    (h : Tokenized doc raw) (hpp : preprocess doc raw = .ok pp) : pp.stream.Forward := by
  obtain ⟨hpairs, hplaced⟩ := forward_of_preprocessFrom hpp h.pairwise fun t ht =>
    (h.stands t ht).ordered
  refine forward_of_pairwise hpairs fun t ht => ?_
  obtain ⟨v, hv, hspan⟩ := hplaced t ht
  rw [hspan]
  exact (h.stands v hv).ordered

/-! ### The outcome of parsing -/

/-- The tokens of a function `v f(E]` where `E` stands for `=`: its parenthesis is closed by a
bracket, and its only parameter is the sign. -/
def bareStream : TokenStream where
  tokens := #[⟨.ident "v", ⟨12, 13⟩, true, .file, none⟩, ⟨.ident "f", ⟨14, 15⟩, false, .file, none⟩,
    ⟨.symbol .openParen, ⟨15, 16⟩, false, .file, none⟩,
    ⟨.symbol .equal, ⟨17, 18⟩, false, .expansionEnd, some ⟨10, 11⟩⟩,
    ⟨.symbol .closeBracket, ⟨18, 19⟩, false, .file, none⟩, ⟨.eof, ⟨19, 19⟩, false, .file, none⟩]

end Offload.Source
