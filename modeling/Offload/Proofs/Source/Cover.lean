import Mathlib.Data.List.Infix
import Offload.Proofs.Source.Lexer
import Offload.Proofs.Text.Utf8

/-!
# Everything that a text is made of

A text in which nothing is cut short is a sequence of pieces, each of them a token or a gap: a
blank, a comment, a continued line or a stray byte. The pieces stand one right after the other from
the first byte to the last, so no byte is lost and none is read twice. The lexer reports exactly the
stray bytes, and a token that is no string is spelled as it stands in the text.
-/

namespace Offload.Source

open List Ascii

/-! ### Pieces of a text -/

/-- What may stand between two tokens. -/
inductive GapKind where
  | blank
  | lineComment
  | blockComment
  | continuation
  | stray (byte : UInt8)
deriving DecidableEq, Repr

/-- How a gap is written; a line comment also needs what comes after it. -/
def GapKind.Spells : GapKind → List UInt8 → List UInt8 → Prop
  | .blank, here, _ => ∃ b, here = [b] ∧ Ascii.isBlank b = true
  | .lineComment, here, after =>
    ∃ body, here = Ascii.slash :: Ascii.slash :: body ∧ Ascii.newline ∉ body ∧
      ∀ b ∈ after.head?, b = Ascii.newline
  | .blockComment, here, _ =>
    ∃ body, here = Ascii.slash :: Ascii.star :: (body ++ [Ascii.star, Ascii.slash]) ∧
      ¬ [Ascii.star, Ascii.slash] <:+: body
  | .continuation, here, _ =>
    here = [Ascii.backslash, Ascii.newline] ∨
      here = [Ascii.backslash, Ascii.carriageReturn, Ascii.newline]
  | .stray byte, here, _ =>
    here = [byte] ∧ Ascii.isBlank byte = false ∧ startsToken byte = false

inductive Piece where
  | token (t : Token)
  | gap (kind : GapKind) (span : Span)
deriving DecidableEq, Repr

namespace Piece

def span : Piece → Span
  | token t => t.span
  | gap _ span => span

def token? : Piece → Option Token
  | token t => some t
  | gap _ _ => none

/-- Only a stray byte is reported. -/
def report? : Piece → Option Diagnostic
  | gap (.stray byte) span => some ⟨.unexpectedByte byte, span⟩
  | _ => none

/-- How a piece is written. A string literal says only what it contains. -/
def Spells : Piece → List UInt8 → List UInt8 → Prop
  | token t, here, _ =>
    t.lexeme ≠ .eof ∧ ((∀ s, t.lexeme ≠ .str s) → here = Text.bytes t.lexeme.spelling)
  | gap kind _, here, after => kind.Spells here after

end Piece

/-- Bytes cut into pieces from the front, and what is left of them. -/
inductive Cut : Nat → List UInt8 → List Piece → Nat → List UInt8 → Prop
  | done (offset : Nat) (bs : List UInt8) : Cut offset bs [] offset bs
  | piece {offset stop : Nat} {p : Piece} {here after rest : List UInt8} {ps : List Piece}
    (hspan : p.span = ⟨offset, offset + here.length⟩) (hne : here ≠ [])
    (hspells : p.Spells here after) (hrest : Cut (offset + here.length) after ps stop rest) :
    Cut offset (here ++ after) (p :: ps) stop rest

namespace Cut

variable {start stop stop' : Nat} {bs rest rest' : List UInt8} {ps qs : List Piece}

theorem append (h : Cut start bs ps stop rest) (h' : Cut stop rest qs stop' rest') :
    Cut start bs (ps ++ qs) stop' rest' := by
  induction h with
  | done => exact h'
  | piece hspan hne hspells _ ih => exact .piece hspan hne hspells (ih h')

theorem start_le (h : Cut start bs ps stop rest) : start ≤ stop := by
  induction h with
  | done => exact le_rfl
  | piece _ _ _ _ ih => exact (Nat.le_add_right _ _).trans ih

theorem bounds (h : Cut start bs ps stop rest) :
    ∀ p ∈ ps, start ≤ p.span.start ∧ p.span.start < p.span.stop ∧ p.span.stop ≤ stop := by
  induction h with
  | done => simp
  | piece hspan hne _ hrest ih =>
    have hpos := length_pos_iff.mpr hne
    have hle := hrest.start_le
    intro p hp
    rcases mem_cons.mp hp with rfl | hp
    · rw [hspan]
      exact ⟨le_rfl, Nat.lt_add_of_pos_right hpos, hle⟩
    · obtain ⟨hstart, hlt, hstop⟩ := ih p hp
      exact ⟨(Nat.le_add_right _ _).trans hstart, hlt, hstop⟩

/-- The pieces do not overlap. -/
theorem pairwise (h : Cut start bs ps stop rest) :
    ps.Pairwise fun p q => p.span.stop ≤ q.span.start := by
  induction h with
  | done => exact .nil
  | piece hspan _ _ hrest ih =>
    refine pairwise_cons.mpr ⟨fun q hq => ?_, ih⟩
    rw [hspan]
    exact (hrest.bounds q hq).1

/-- No byte lies between two pieces. -/
theorem exists_piece (h : Cut start bs ps stop rest) {offset : Nat} (hstart : start ≤ offset)
    (hstop : offset < stop) : ∃ p ∈ ps, p.span.start ≤ offset ∧ offset < p.span.stop := by
  induction h with
  | done => omega
  | @piece from' _ p here _ _ _ hspan _ _ _ ih =>
    by_cases hhere : offset < from' + here.length
    · refine ⟨p, mem_cons_self, ?_⟩
      rw [hspan]
      exact ⟨hstart, hhere⟩
    · obtain ⟨q, hq, hoffset⟩ := ih (not_lt.mp hhere) hstop
      exact ⟨q, mem_cons_of_mem _ hq, hoffset⟩

/-- Each piece is spelled by the bytes at its span. -/
theorem spells (h : Cut start bs ps stop rest) : ∀ p ∈ ps,
    p.Spells ((bs.drop (p.span.start - start)).take p.span.length)
      (bs.drop (p.span.stop - start)) := by
  induction h with
  | done => simp
  | @piece offset _ p here after _ _ hspan _ hspells hrest ih =>
    intro q hq
    rcases mem_cons.mp hq with rfl | hq
    · rw [hspan]
      simpa [Span.length] using hspells
    · have hdrop : ∀ n, here.length ≤ n →
          (here ++ after).drop n = after.drop (n - here.length) := by
        intro n hn
        rw [drop_append, drop_eq_nil_of_le hn, nil_append]
      obtain ⟨hstart, hlt, -⟩ := hrest.bounds q hq
      rw [hdrop _ (by omega), hdrop _ (by omega), ← Nat.sub_add_eq, ← Nat.sub_add_eq]
      exact ih q hq

end Cut

/-! ### Gaps -/

/-- The bytes up to where skipping has stopped are cut into gaps, and these are reported. -/
def GapsTo (start : Nat) (bs : List UInt8) (r : Scan × List Diagnostic) : Prop :=
  ∃ ps, Cut start bs ps r.1.offset r.1.rest ∧ ps.filterMap Piece.token? = [] ∧
    ps.filterMap Piece.report? = r.2

namespace GapsTo

variable {start offset : Nat} {b : UInt8} {bs here after : List UInt8}
  {r : Scan × List Diagnostic}

theorem done (offset : Nat) (lineStart : Bool) (bs : List UInt8) :
    GapsTo offset bs (⟨bs, offset, lineStart⟩, []) :=
  ⟨[], .done _ _, rfl, rfl⟩

theorem cons (h : GapsTo offset after r) (kind : GapKind) (hspells : kind.Spells here after)
    (hne : here ≠ []) (hoffset : offset = start + here.length) : GapsTo start (here ++ after)
      (r.1, (Piece.gap kind ⟨start, offset⟩).report?.toList ++ r.2) := by
  subst hoffset
  obtain ⟨ps, hcut, htokens, hreports⟩ := h
  refine ⟨.gap kind ⟨start, start + here.length⟩ :: ps, .piece rfl hne hspells hcut, ?_, ?_⟩
  · simpa [Piece.token?] using htokens
  · rw [filterMap_cons, hreports]
    cases (Piece.gap kind ⟨start, start + here.length⟩).report? <;> rfl

theorem blank (h : GapsTo (offset + 1) after r) (hb : isBlank b = true) :
    GapsTo offset (b :: after) r :=
  h.cons .blank ⟨b, rfl, hb⟩ (by simp) rfl

theorem stray (h : GapsTo (offset + 1) after r) (hb : isBlank b ≠ true)
    (ht : startsToken b ≠ true) : GapsTo offset (b :: after) (reportStray b offset r) :=
  h.cons (.stray b) ⟨rfl, by simpa using hb, by simpa using ht⟩ (by simp) rfl

end GapsTo

/-- The bytes of a comment passed so far, from `start` to `offset`. -/
def SkipMode.Holds : SkipMode → Nat → List UInt8 → Nat → List UInt8 → Prop
  | .code, start, here, offset, _ => start = offset ∧ here = []
  | .lineComment, start, here, offset, _ =>
    ∃ body, start + (body.length + 2) = offset ∧ here = Ascii.slash :: Ascii.slash :: body ∧
      Ascii.newline ∉ body
  | .blockComment _, start, here, offset, rest =>
    ∃ body, start + (body.length + 2) = offset ∧ here = Ascii.slash :: Ascii.star :: body ∧
      ∀ b ∈ rest.head?, ¬ [Ascii.star, Ascii.slash] <:+: body ++ [b]

theorem not_closed_concat {body : List UInt8} {b c : UInt8} (h : ¬ [star, slash] <:+: body ++ [b])
    (hbc : ¬ (b == star && c == slash) = true) : ¬ [star, slash] <:+: (body ++ [b]) ++ [c] := by
  rw [infix_concat_iff]
  rintro (⟨init, hinit⟩ | hpart)
  · rw [append_assoc] at hinit
    have hlast := (append_inj' hinit rfl).2
    obtain ⟨rfl, rfl⟩ : star = b ∧ slash = c := by simpa using hlast
    exact hbc rfl
  · exact h hpart

/-- Skipping goes over gaps only. In a comment, the bytes passed of it are the first of them. -/
theorem skip_gaps {mode : SkipMode} {offset : Nat} {lineStart : Bool} {bs : List UInt8}
    (hclean : ∀ d ∈ (skip mode offset lineStart bs).2, d.problem.unterminated = false)
    {start : Nat} {here : List UInt8} (hhere : mode.Holds start here offset bs) :
    GapsTo start (here ++ bs) (skip mode offset lineStart bs) := by
  fun_induction skip mode offset lineStart bs generalizing start here with
  | case1 => simp [Problem.unterminated] at hclean
  | case2 => simp [Problem.unterminated] at hclean
  | case3 _ offset lineStart b c tail hbc ih =>
    obtain ⟨body, rfl, rfl, hbody⟩ := hhere
    obtain ⟨rfl, rfl⟩ : b = star ∧ c = slash := by simpa using hbc
    have hpart : ¬ [star, slash] <:+: body := fun hpart =>
      hbody _ rfl (hpart.trans (prefix_append _ _).isInfix)
    simpa [Piece.report?] using (ih hclean ⟨rfl, rfl⟩).cons .blockComment
      ⟨body, rfl, hpart⟩ (by simp) (by simp [Nat.add_assoc])
  | case4 _ offset lineStart b c tail hbc ih =>
    obtain ⟨body, rfl, rfl, hbody⟩ := hhere
    have hopen : ∀ d ∈ (c :: tail).head?, ¬ [star, slash] <:+: body ++ [b] ++ [d] := by
      intro d hd
      obtain rfl : c = d := by simpa using hd
      exact not_closed_concat (hbody _ rfl) hbc
    simpa using ih hclean ⟨body ++ [b], by simp; omega, rfl, hopen⟩
  | case5 offset lineStart =>
    obtain ⟨body, rfl, rfl, hbody⟩ := hhere
    exact (GapsTo.done _ lineStart []).cons .lineComment ⟨body, rfl, hbody, by simp⟩
      (by simp) rfl
  | case6 offset lineStart b tail hb ih =>
    obtain ⟨body, rfl, rfl, hbody⟩ := hhere
    obtain rfl : b = newline := by simpa using hb
    exact ((ih hclean ⟨rfl, rfl⟩).blank rfl).cons .lineComment
      ⟨body, rfl, hbody, by simp⟩ (by simp) rfl
  | case7 offset lineStart b tail hb ih =>
    obtain ⟨body, rfl, rfl, hbody⟩ := hhere
    have hline : newline ∉ body ++ [b] := by
      have hb : b ≠ newline := by simpa using hb
      simp [hbody, Ne.symm hb]
    simpa using ih hclean ⟨body ++ [b], by simp; omega, rfl, hline⟩
  | case8 offset lineStart =>
    obtain ⟨rfl, rfl⟩ := hhere
    exact .done _ _ _
  | case9 offset lineStart b hb =>
    obtain ⟨rfl, rfl⟩ := hhere
    obtain rfl : b = newline := by simpa using hb
    exact (GapsTo.done _ _ _).blank rfl
  | case10 offset lineStart b _ hb =>
    obtain ⟨rfl, rfl⟩ := hhere
    exact (GapsTo.done _ _ _).blank hb
  | case11 offset lineStart b _ _ _ =>
    obtain ⟨rfl, rfl⟩ := hhere
    exact .done _ _ _
  | case12 offset lineStart b _ hb ht =>
    obtain ⟨rfl, rfl⟩ := hhere
    exact (GapsTo.done _ _ _).stray hb ht
  | case13 offset lineStart b c tail hb ih =>
    obtain ⟨rfl, rfl⟩ := hhere
    obtain rfl : b = newline := by simpa using hb
    exact (ih hclean ⟨rfl, rfl⟩).blank rfl
  | case14 offset lineStart b c tail _ hb ih =>
    obtain ⟨rfl, rfl⟩ := hhere
    exact (ih hclean ⟨rfl, rfl⟩).blank hb
  | case15 offset lineStart b c tail _ _ hbc ih =>
    obtain ⟨rfl, rfl⟩ := hhere
    obtain ⟨rfl, rfl⟩ : b = slash ∧ c = slash := by simpa using hbc
    exact ih hclean ⟨[], rfl, rfl, by simp⟩
  | case16 offset lineStart b c tail _ _ _ hbc ih =>
    obtain ⟨rfl, rfl⟩ := hhere
    obtain ⟨rfl, rfl⟩ : b = slash ∧ c = star := by simpa using hbc
    exact ih hclean ⟨[], rfl, rfl, fun d _ h => by simpa using h.length_le⟩
  | case17 offset lineStart b c tail _ _ _ _ _ =>
    obtain ⟨rfl, rfl⟩ := hhere
    exact .done _ _ _
  | case18 offset lineStart b c tail _ _ _ _ _ hbc ih =>
    obtain ⟨rfl, rfl⟩ := hhere
    obtain ⟨rfl, rfl⟩ : b = backslash ∧ c = newline := by simpa using hbc
    exact (ih hclean ⟨rfl, rfl⟩).cons .continuation (.inl rfl) (by simp) rfl
  | case19 offset lineStart b c _ _ _ _ _ _ d more hbc ih =>
    obtain ⟨rfl, rfl⟩ := hhere
    obtain ⟨⟨rfl, rfl⟩, rfl⟩ :
        (b = backslash ∧ c = carriageReturn) ∧ d = newline := by simpa using hbc
    exact (ih hclean ⟨rfl, rfl⟩).cons .continuation (.inr rfl) (by simp) rfl
  | case20 offset lineStart b c _ hb _ _ ht _ d more _ ih =>
    obtain ⟨rfl, rfl⟩ := hhere
    exact (ih (fun d hd => hclean d (mem_cons_of_mem _ hd)) ⟨rfl, rfl⟩).stray hb ht
  | case21 offset lineStart b c _ hb _ _ ht _ ih =>
    obtain ⟨rfl, rfl⟩ := hhere
    exact (ih (fun d hd => hclean d (mem_cons_of_mem _ hd)) ⟨rfl, rfl⟩).stray hb ht

/-! ### Tokens -/

/-- The bytes that a token takes are its spelling. -/
def Scanned.Spelled (r : Scanned) (rest : List UInt8) : Prop :=
  (∀ s, r.lexeme ≠ .str s) → rest.take r.length = Text.bytes r.lexeme.spelling

theorem isNumberByte_ascii {b : UInt8} (h : isNumberByte b = true) : b < 0x80 := by
  grind [isNumberByte, isIdentContinue, isIdentStart, isAlpha, isUpper, isLower, isDigit]

theorem isNumberByte_of_name {b : UInt8} {bs : List UInt8} (hb : isIdentStart b = true)
    (hbs : ∀ c ∈ bs, isIdentContinue c = true) : ∀ c ∈ b :: bs, isNumberByte c = true :=
  forall_mem_cons.mpr ⟨by simp [isNumberByte, isIdentContinue, hb],
    fun c hc => by simp [isNumberByte, hbs c hc]⟩

/-- The bytes of a word are a text. -/
theorem bytes_word {bs : List UInt8} (h : ∀ b ∈ bs, isNumberByte b = true) :
    Text.bytes (Text.ofBytes bs) = bs :=
  (Text.isUtf8_of_ascii fun b hb => isNumberByte_ascii (h b hb)).bytes_ofBytes

theorem punctuator_spelling (s : String) : (punctuator s).spelling = s := by
  unfold punctuator
  split
  · rename_i x hx
    unfold Symbol.ofSpelling? at hx
    have hspelling := find?_some hx
    exact beq_iff_eq.mp hspelling
  · rfl

/-- A character literal may hold any characters; the text can be cut at its closing quote. -/
theorem scanCharacter_spelled {rest : List UInt8} (hutf : Text.IsUtf8 rest)
    (hr : (scanCharacter rest).problem = none) : (scanCharacter rest).Spelled rest := by
  intro _
  unfold scanCharacter at hr ⊢
  rcases hbody : quotedBody singleQuote (rest.drop 1) with ⟨n, closed⟩
  simp only [hbody] at hr ⊢
  cases closed with
  | false => cases hr
  | true =>
    have hquote := quotedBody_closed hbody
    rw [getElem?_drop, Nat.add_comm] at hquote
    have hboundary : Text.isBoundary rest (n + 1) = true := by
      rw [Text.isBoundary, hquote]
      simp only [Bool.or_eq_true]
      exact .inr rfl
    have htake : rest.take (n + 2) = rest.take (n + 1) ++ [singleQuote] := by
      rw [take_add_one, hquote]
      rfl
    have htext : Text.IsUtf8 (rest.take (n + 2)) := by
      rw [htake]
      exact (hutf.cut hboundary).1.append (Text.isUtf8_singleton (by decide))
    exact htext.bytes_ofBytes.symm

theorem scanToken_spelled {b : UInt8} {tail : List UInt8} {r : Scanned}
    (hutf : Text.isContinuation b = false → Text.IsUtf8 (b :: tail))
    (h : scanToken b tail = .ok r) (hr : r.problem = none) : r.Spelled (b :: tail) := by
  rcases scanToken_ok h with
    hstring | ⟨bs, after, rfl, hb, hbs, rfl⟩ | ⟨bs, after, rfl, hb, hbs, rfl⟩ | ⟨rfl, rfl⟩ | hp
  · obtain ⟨s, hs⟩ := (scanString?_sound hstring).2
    exact fun hne => absurd hs (hne s)
  · intro _
    have hword := bytes_word (isNumberByte_of_name hb hbs)
    exact (congrArg (b :: ·) take_left).trans hword.symm
  · intro _
    exact (congrArg (b :: ·) take_left).trans (bytes_word hbs.2).symm
  · exact scanCharacter_spelled (hutf (by decide)) hr
  · obtain ⟨s, -, hfront, rfl⟩ := scanPunctuator?_some hp
    intro _
    change List.take (Text.bytes s).length _ = Text.bytes (punctuator s).spelling
    rw [punctuator_spelling]
    exact (prefix_iff_eq_take.mp hfront).symm

/-! ### All pieces -/

/-- The bytes before the next token are cut into gaps. -/
theorem Scan.gapsTo {s : Scan} {m : Scan} {gaps : List Diagnostic}
    (hm : Source.skip .code s.offset s.lineStart s.rest = (m, gaps))
    (hclean : ∀ d ∈ gaps, d.problem.unterminated = false) : GapsTo s.offset s.rest (m, gaps) := by
  have hgaps : GapsTo s.offset ([] ++ s.rest) (Source.skip .code s.offset s.lineStart s.rest) :=
    skip_gaps (by rwa [hm]) ⟨rfl, rfl⟩
  rwa [hm] at hgaps

/-- A token is cut off the front of the text. -/
theorem cut_token {m : Scan} {doc : Document} {b : UInt8} {tail : List UInt8} {r : Scanned}
    {t : Token} (hm : m.Within doc) (hutf : Text.IsUtf8 doc.bytes) (hrest : m.rest = b :: tail)
    (hr : scanToken b tail = .ok r) (hproblem : r.problem = none) (ht : t.lexeme = r.lexeme)
    (hspan : t.span = ⟨m.offset, m.offset + r.length⟩) :
    Cut m.offset m.rest [.token t] (m.offset + r.length) (m.rest.drop r.length) := by
  have hsound := scanToken_sound hr
  have hfits := hsound.fits hproblem
  have hfront : Text.isContinuation b = false → Text.IsUtf8 (b :: tail) := by
    intro hb
    rw [← hrest, hm.rest]
    refine (hutf.cut ?_).2
    have hget : doc.bytes[m.offset]? = some b := by
      rw [← head?_drop, ← hm.rest, hrest]
      rfl
    rw [Text.isBoundary, hget]
    simp [hb]
  have hspelled := scanToken_spelled hfront hr hproblem
  rw [← hrest] at hfits hspelled
  have hlength : (m.rest.take r.length).length = r.length := by
    rw [length_take, Nat.min_eq_left hfits.le]
  have hcut : Cut m.offset (m.rest.take r.length ++ m.rest.drop r.length) [.token t]
      (m.offset + (m.rest.take r.length).length) (m.rest.drop r.length) := by
    refine .piece (by rw [hlength]; exact hspan) ?_ ⟨?_, ?_⟩ (.done _ _)
    · apply ne_nil_of_length_pos
      rw [hlength]
      exact hfits.pos
    · rw [ht]
      exact hsound.moves.notEof
    · rw [ht]
      exact hspelled
  rwa [take_append_drop, hlength] at hcut

/-- What is left of a text is cut into the tokens of a run and the gaps around them. -/
theorem Scan.Runs.cut {s : Scan} {doc : Document} {raw : List Token} {found : List Diagnostic}
    (h : s.Runs raw found) (hs : s.Within doc) (hutf : Text.IsUtf8 doc.bytes)
    (hclean : ∀ d ∈ found, d.problem.unterminated = false) :
    ∃ ps eof, Cut s.offset s.rest ps doc.length [] ∧
      raw = ps.filterMap Piece.token? ++ [eof] ∧ eof.lexeme = .eof ∧
      eof.span = ⟨doc.length, doc.length⟩ ∧ ps.filterMap Piece.report? = found := by
  induction h with
  | @last s step hstep heof =>
    rcases hm : Source.skip .code s.offset s.lineStart s.rest with ⟨m, gaps⟩
    have hskip := hs.skip hm
    rcases Scan.step_ok hstep hm with ⟨hrest, rfl⟩ | ⟨b, tail, r, -, hr, rfl⟩
    · obtain ⟨ps, hcut, htokens, hreports⟩ := Scan.gapsTo hm hclean
      have hend : m.offset = doc.length := by
        have hlength := hskip.length_rest
        have hle := hskip.le
        simp only [hrest, length_nil] at hlength
        omega
      simp only [hrest, hend] at hcut
      exact ⟨ps, _, hcut, by rw [htokens]; rfl, rfl, by rw [hend]; rfl, hreports⟩
    · exact absurd heof (scanToken_sound hr).moves.notEof
  | @more s step tokens found hstep hne _ ih =>
    obtain ⟨hnow, hlater⟩ := forall_mem_append.mp hclean
    obtain ⟨-, hnext⟩ := hs.step hstep hnow
    obtain ⟨qs, eof, hcut', htokens', heof, hspan, hreports'⟩ :=
      ih (hnext hne ▸ Scan.within_resume _ _) hlater
    rcases hm : Source.skip .code s.offset s.lineStart s.rest with ⟨m, gaps⟩
    have hskip := hs.skip hm
    rcases Scan.step_ok hstep hm with ⟨-, rfl⟩ | ⟨b, tail, r, hrest, hr, rfl⟩
    · exact absurd rfl hne
    · obtain ⟨hgaps, hreport⟩ := forall_mem_append.mp hnow
      have hproblem := (scanToken_sound hr).moves.problem_eq_none hreport
      obtain ⟨ps, hcut, htokens, hreports⟩ := Scan.gapsTo hm hgaps
      have htoken := cut_token (t := ⟨r.lexeme, ⟨m.offset, m.offset + r.length⟩, m.lineStart,
        .file, none⟩) hskip hutf hrest hr hproblem rfl rfl
      simp only [((scanToken_sound hr).fits hproblem).consumed] at hcut'
      refine ⟨ps ++ (.token _ :: qs), eof, hcut.append (htoken.append hcut'), ?_, heof, hspan, ?_⟩
      · rw [filterMap_append, htokens, htokens']
        rfl
      · rw [filterMap_append, hreports, filterMap_cons, hreports']
        simp [Piece.report?, Scanned.reports, hproblem]

/-- The text is made of pieces: its tokens, and the gaps between them. No piece is empty, they stand
in order and apart, and together they take every byte. Each is spelled by the bytes it takes, a
string literal apart. The last token is `eof` at the end of the text, and what is reported are the
stray bytes, one by one. -/
theorem tokenize_covers_text {name text : String} {raw : List Token} {found : List Diagnostic}
    (h : tokenize (.ofText name text) = .ok (raw, found))
    (hfound : ∀ d ∈ found, d.problem.unterminated = false) :
    ∃ (pieces : List Piece) (eof : Token), raw = pieces.filterMap Piece.token? ++ [eof] ∧
      eof.lexeme = .eof ∧ eof.span = ⟨(Text.bytes text).length, (Text.bytes text).length⟩ ∧
      found = pieces.filterMap Piece.report? ∧
      (∀ p ∈ pieces, p.span.start < p.span.stop ∧ p.span.stop ≤ (Text.bytes text).length ∧
        p.Spells (((Text.bytes text).drop p.span.start).take p.span.length)
          ((Text.bytes text).drop p.span.stop)) ∧
      (pieces.Pairwise fun p q => p.span.stop ≤ q.span.start) ∧
      ∀ offset < (Text.bytes text).length,
        ∃ p ∈ pieces, p.span.start ≤ offset ∧ offset < p.span.stop := by
  obtain ⟨ps, eof, hcut, hraw, heof, hspan, hreports⟩ := (Scan.runs_of_tokens h).cut
    (Scan.within_ofDocument _) (Text.isUtf8_bytes text) hfound
  refine ⟨ps, eof, hraw, heof, hspan, hreports.symm, fun p hp => ?_, hcut.pairwise, ?_⟩
  · obtain ⟨-, hlt, hstop⟩ := hcut.bounds p hp
    exact ⟨hlt, hstop, hcut.spells p hp⟩
  · intro offset hoffset
    exact hcut.exists_piece (Nat.zero_le _) hoffset

/-- A comment that holds a quote, a stray byte, a continued line and a character of two bytes. -/
theorem tokenize_covers_text_mixed :
    ∃ pieces : List Piece, pieces.filterMap Piece.report? = [⟨.unexpectedByte 64, ⟨7, 8⟩⟩] ∧
      (pieces.filterMap Piece.token?).map (·.lexeme) = [.ident "x", .char "'é'", .punct "+="] ∧
      ∀ offset < 16, ∃ p ∈ pieces, p.span.start ≤ offset ∧ offset < p.span.stop := by
  have htokenize : tokenize (.ofText "a" "x/*'*/ @\\\n'é'+=") = .ok
      ([⟨.ident "x", ⟨0, 1⟩, true, .file, none⟩, ⟨.char "'é'", ⟨10, 14⟩, false, .file, none⟩,
        ⟨.punct "+=", ⟨14, 16⟩, false, .file, none⟩, ⟨.eof, ⟨16, 16⟩, false, .file, none⟩],
      [⟨.unexpectedByte 64, ⟨7, 8⟩⟩]) := by
    decide +kernel
  obtain ⟨pieces, eof, hraw, -, -, hfound, -, -, hcover⟩ :=
    tokenize_covers_text htokenize (by simp [Problem.unterminated])
  refine ⟨pieces, hfound.symm, ?_, hcover⟩
  have hlexemes := congrArg (fun ts : List Token => (ts.map (·.lexeme)).dropLast) hraw
  simpa using hlexemes.symm

end Offload.Source
