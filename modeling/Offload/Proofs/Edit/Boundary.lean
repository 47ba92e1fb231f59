import Offload.Proofs.Edit.Terminator

/-!
# Terminators at the boundary of a token

The terminator of a range is looked for by scanning on from its end. If the range ends with a token
of the document, what is found is the token after that one, so the edited span is known from the
tokens alone: it takes a semicolon that comes next, and no byte of any other token.
-/

namespace Offload

open Source

/-- The end of the edited span for a stretch up to `t` with the token `u` behind it. -/
def terminated (t u : Token) : Nat :=
  if u.lexeme = .symbol .semicolon then u.span.stop else t.span.stop

namespace Source.Resumes

variable {doc : Document} {t u : Token} {range : SourceRange}

theorem semicolonAfter_eq (h : Resumes doc t u) (hstop : range.span.stop = t.span.stop)
    (hlast : range.last ≠ .expansion) :
    semicolonAfter doc range =
      .ok (if u.lexeme = .symbol .semicolon then some u.span else none) := by
  obtain ⟨step, hstep, hlexeme, hsame⟩ := h.step
  rw [← hstop] at hstep
  by_cases hu : u.lexeme = .symbol .semicolon
  · have hne : u.lexeme ≠ .eof := by simp [hu]
    obtain ⟨htoken, hin⟩ := hsame hne
    rw [Offload.semicolonAfter_eq hlast (hstop ▸ hin) hstep, htoken]
  · rw [if_neg hu]
    by_cases hin : range.span.stop ≤ doc.length
    · rw [Offload.semicolonAfter_eq hlast hin hstep, hlexeme, if_neg hu]
    · -- A token that ends past the text has nothing behind it.
      unfold semicolonAfter
      rw [if_pos (by simp at hin; simp [hin])]
      rfl

theorem withTerminator_eq (h : Resumes doc t u) (hordered : range.span.start ≤ range.span.stop)
    (hu : u.span.start ≤ u.span.stop) (hstop : range.span.stop = t.span.stop)
    (hlast : range.last ≠ .expansion) :
    withTerminator doc range = .ok ⟨range.span.start, terminated t u⟩ := by
  have hle := h.le
  unfold withTerminator terminated
  rw [h.semicolonAfter_eq hstop hlast]
  by_cases hsemicolon : u.lexeme = .symbol .semicolon
  · rw [if_pos hsemicolon, if_pos hsemicolon]
    exact if_pos (by omega)
  · rw [if_neg hsemicolon, if_neg hsemicolon, ← hstop]
    rfl

end Source.Resumes

namespace Source.Tokenized

variable {doc : Document} {raw : List Token} {i j : Nat} {t u v : Token}

theorem le_terminated (h : Tokenized doc raw) (ht : raw[i]? = some t)
    (hu : raw[i + 1]? = some u) : t.span.stop ≤ terminated t u := by
  have hle := (h.resumes_getElem? ht hu).le
  have hordered := (h.stands u (List.mem_of_getElem? hu)).ordered
  unfold terminated
  split_ifs
  · omega
  · exact le_rfl

/-- The edited span reaches into no token behind it, a semicolon apart. -/
theorem terminated_le (h : Tokenized doc raw) (hij : i < j) (ht : raw[i]? = some t)
    (hu : raw[i + 1]? = some u) (hv : raw[j]? = some v) :
    terminated t u ≤ v.span.start ∨ j = i + 1 ∧ u.lexeme = .symbol .semicolon := by
  unfold terminated
  split_ifs with hsemicolon
  · rcases Nat.eq_or_lt_of_le hij with rfl | hlt
    · exact .inr ⟨rfl, hsemicolon⟩
    · exact .inl (h.stop_le_start hlt hu hv)
  · exact .inl (h.stop_le_start hij ht hv)

/-- A token with a byte between the end of a stretch and the end of its edited span is the
semicolon that follows. -/
theorem eq_of_terminates (h : Tokenized doc raw) (ht : raw[i]? = some t)
    (hu : raw[i + 1]? = some u) (hv : v ∈ raw) {offset : Nat} (hstart : v.span.start ≤ offset)
    (hstop : offset < v.span.stop) (hle : t.span.stop ≤ offset) (hlt : offset < terminated t u) :
    v = u ∧ u.lexeme = .symbol .semicolon := by
  obtain ⟨j, hj⟩ := List.mem_iff_getElem?.mp hv
  have hij : i < j := by
    by_contra hji
    rcases Nat.eq_or_lt_of_le (not_lt.mp hji) with rfl | hlt'
    · rw [ht] at hj
      obtain rfl := Option.some.inj hj
      omega
    · have := h.stop_le_start hlt' hj ht
      have := (h.stands t (List.mem_of_getElem? ht)).ordered
      omega
  rcases h.terminated_le hij ht hu hj with hbehind | ⟨rfl, hsemicolon⟩
  · omega
  · rw [hu] at hj
    exact ⟨(Option.some.inj hj).symm, hsemicolon⟩

end Source.Tokenized

/-- Scanning on from the end of any token finds the token after it. A range that ends there, unless
inside an expansion, has that token as its terminator exactly if it is a semicolon. What is edited
then covers the range and holds, beyond it, no byte of a token but that semicolon. -/
theorem scanning_resumes_at_boundary {doc : Document} {raw : List Token} {found : List Diagnostic}
    (h : tokenize doc = .ok (raw, found))
    (hfound : ∀ d ∈ found, d.problem.unterminated = false)
    {i : Nat} {t : Token} (ht : raw[i]? = some t) (hne : t.lexeme ≠ .eof) :
    ∃ u, raw[i + 1]? = some u ∧
      (∃ step, (Scan.resume doc t.span.stop).step = .ok step ∧ step.token = u) ∧
      ∀ range : SourceRange, range.span.start ≤ range.span.stop →
        range.span.stop = t.span.stop → range.last ≠ .expansion →
        semicolonAfter doc range =
            .ok (if u.lexeme = .symbol .semicolon then some u.span else none) ∧
          ∃ span, withTerminator doc range = .ok span ∧ span.covers range.span = true ∧
            ∀ offset, span.start ≤ offset → offset < span.stop →
              (offset < range.span.start ∨ range.span.stop ≤ offset) →
              ∀ v ∈ raw, v.span.start ≤ offset → offset < v.span.stop →
                v = u ∧ u.lexeme = .symbol .semicolon := by
  have hlexed := lexed_of_terminated h hfound
  have htokens := tokenized_of_tokenize h
  obtain ⟨u, hu⟩ := htokens.exists_next ht hne
  have hresumes := htokens.resumes_getElem? ht hu
  have hordered := (htokens.stands u (List.mem_of_getElem? hu)).ordered
  refine ⟨u, hu, (hlexed.follows_getElem? ht hu).step, fun range hrange hstop hlast => ?_⟩
  refine ⟨hresumes.semicolonAfter_eq hstop hlast, _,
    hresumes.withTerminator_eq hrange hordered hstop hlast, ?_, ?_⟩
  · rw [Span.covers_iff]
    exact ⟨le_rfl, hstop ▸ htokens.le_terminated ht hu⟩
  · intro offset hfrom hto hout v hv hvstart hvstop
    have hle : t.span.stop ≤ offset := by
      simp only at hfrom
      omega
    exact htokens.eq_of_terminates ht hu hv hvstart hvstop hle hto

/-- A comment and a continued line stand between the parenthesis and its semicolon, and a stray byte
behind it. -/
theorem scanning_resumes_at_boundary_spliced :
    (∃ step, (Scan.resume (.ofText "a" "f()/*;*/\\\n;@g") 3).step = .ok step ∧
      step.token = ⟨.symbol .semicolon, ⟨10, 11⟩, false, .file, none⟩) ∧
      semicolonAfter (.ofText "a" "f()/*;*/\\\n;@g") (.file ⟨0, 3⟩) = .ok (some ⟨10, 11⟩) := by
  have htokenize : tokenize (.ofText "a" "f()/*;*/\\\n;@g") = .ok
      ([⟨.ident "f", ⟨0, 1⟩, true, .file, none⟩, ⟨.symbol .openParen, ⟨1, 2⟩, false, .file, none⟩,
        ⟨.symbol .closeParen, ⟨2, 3⟩, false, .file, none⟩,
        ⟨.symbol .semicolon, ⟨10, 11⟩, false, .file, none⟩,
        ⟨.ident "g", ⟨12, 13⟩, false, .file, none⟩, ⟨.eof, ⟨13, 13⟩, false, .file, none⟩],
      [⟨.unexpectedByte 64, ⟨11, 12⟩⟩]) := by
    decide +kernel
  obtain ⟨u, hu, hstep, hrange⟩ := scanning_resumes_at_boundary htokenize
    (by simp [Problem.unterminated]) (i := 2) rfl (by simp)
  obtain rfl := Option.some.inj hu
  exact ⟨hstep, (hrange (.file ⟨0, 3⟩) (by decide) rfl (by decide)).1⟩

end Offload
