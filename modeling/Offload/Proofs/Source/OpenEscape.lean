import Offload.Proofs.Source.Directive

/-!
# Where scanning fails

What stands in quotes goes up to the closing quote, the end of the line or the end of the text, and
a backslash takes the byte behind it along. Only a plain string whose own backslash ends the text
asks for a byte that is not there, and every byte that belongs to no gap starts a token. So scanning
fails exactly where it comes to such a string, and takes every other text token by token to its end.
-/

namespace Offload.Source

open List Ascii

variable {quote b : UInt8} {body bs rest tail : List UInt8} {opening : Nat} {s : Scan}
  {fault : Fault}

/-! ### Quoted bytes -/

/-- Bytes that stay in quotes: none is the quote or ends the line, but for those that a backslash
takes along. -/
inductive Quoted (quote : UInt8) : List UInt8 → Prop
  | nil : Quoted quote []
  | plain {b : UInt8} {body : List UInt8} (hline : b ≠ Ascii.newline)
    (hescape : b ≠ Ascii.backslash) (hquote : b ≠ quote) (hbody : Quoted quote body) :
    Quoted quote (b :: body)
  | escaped {b : UInt8} {body : List UInt8} (hbody : Quoted quote body) :
    Quoted quote (Ascii.backslash :: b :: body)

theorem Quoted.quotedBody_append (h : Quoted quote body) (bs : List UInt8) :
    quotedBody quote (body ++ bs) =
      (body.length + (quotedBody quote bs).1, (quotedBody quote bs).2) := by
  induction h with
  | nil => simp
  | plain hline hescape hquote _ ih =>
    rw [cons_append, quotedBody.eq_def]
    simp [hline, hescape, hquote, ih, Nat.add_right_comm]
  | escaped _ ih =>
    rw [cons_append, cons_append, quotedBody]
    simp only [ih, length_cons, Nat.add_right_comm _ 2]
    rfl

/-- Only a backslash at the end of the text can make a body longer than the text. -/
theorem quoted_of_length_lt (h : bs.length < (quotedBody quote bs).1) :
    ∃ body, bs = body ++ [backslash] ∧ Quoted quote body := by
  fun_induction quotedBody quote bs with
  | case1 => simp at h
  | case2 => simp at h
  | case3 b _ hb =>
    obtain rfl : b = backslash := by simpa using hb
    exact ⟨[], rfl, .nil⟩
  | case4 b _ hb c more n closed heq ih =>
    obtain rfl : b = backslash := by simpa using hb
    rw [heq] at ih
    obtain ⟨body, rfl, hbody⟩ := ih (by simpa using h)
    exact ⟨_ :: _ :: body, rfl, .escaped hbody⟩
  | case5 => simp at h
  | case6 b tail hline hescape hquote n closed heq ih =>
    rw [heq] at ih
    obtain ⟨body, rfl, hbody⟩ := ih (by simpa using h)
    exact ⟨b :: body, rfl, .plain (by simpa using hline) (by simpa using hescape)
      (by simpa using hquote) hbody⟩

/-! ### Strings that end the text with a backslash -/

/-- The text is a plain string, with or without an encoding mark, that is not closed and ends with
a backslash that no other one takes along. -/
def OpenEscape (rest : List UInt8) : Prop :=
  ∃ mark ∈ encodings, ∃ body, Quoted Ascii.doubleQuote body ∧
    rest = Text.bytes mark ++ Ascii.doubleQuote :: (body ++ [Ascii.backslash])

theorem scanString?_of_mark {mark : String} (h : mark ∈ encodings) (tail : List UInt8) :
    scanString? (Text.bytes mark ++ doubleQuote :: tail) = some (scanString (Text.bytes mark).length
        (Text.bytes mark ++ doubleQuote :: tail)) := by
  simp only [encodings, mem_cons, not_mem_nil, or_false] at h
  rcases h with rfl | rfl | rfl | rfl | rfl <;> rfl

theorem scanString?_doubleQuote (tail : List UInt8) :
    scanString? (doubleQuote :: tail) = some (scanString 0 (doubleQuote :: tail)) :=
  scanString?_of_mark (show "" ∈ encodings by decide) tail

theorem scanString_error (h : scanString opening rest = .error fault) :
    (∃ start stop, fault = .text start stop) ∧
      ∃ body, rest.drop (opening + 1) = body ++ [backslash] ∧ Quoted doubleQuote body := by
  unfold scanString at h
  simp only at h
  split_ifs at h with hclosed hle
  exact ⟨⟨_, _, (Except.error.inj h).symm⟩, quoted_of_length_lt (not_le.mp hle)⟩

theorem scanString?_error (h : scanString? rest = some (.error fault)) :
    (∃ start stop, fault = .text start stop) ∧ OpenEscape rest := by
  obtain ⟨mark, hmark, h⟩ := exists_of_findSome?_eq_some h
  simp only at h
  split_ifs at h with hfront hraw hquote
  · cases Option.some.inj h
  · obtain ⟨after, rfl⟩ := isPrefixOf_iff_prefix.mp hfront
    obtain ⟨tail, rfl⟩ : ∃ tail, after = doubleQuote :: tail := by
      simpa [head?_eq_some_iff] using hquote
    obtain ⟨htext, body, hbody, hquoted⟩ := scanString_error (Option.some.inj h)
    rw [← drop_drop, drop_left, drop_one, tail_cons] at hbody
    rw [hbody]
    exact ⟨htext, mark, hmark, body, hquoted, rfl⟩

theorem OpenEscape.scanString? (h : OpenEscape rest) :
    ∃ fault, scanString? rest = some (.error fault) := by
  obtain ⟨mark, hmark, body, hbody, rfl⟩ := h
  have hlength := hbody.quotedBody_append [backslash]
  have hopen : quotedBody doubleQuote [backslash] = (2, false) := rfl
  rw [scanString?_of_mark hmark, scanString, ← drop_drop, drop_left, drop_one,
    tail_cons, hlength, hopen]
  simp

/-! ### Every other token is there -/

/-- The first byte of a punctuator is a punctuator by itself. -/
theorem punctuators_first : ∀ s ∈ punctuators, (Text.bytes s).head?.all
    (fun b => punctuators.any (Text.bytes · == [b])) = true := by decide

theorem scanPunctuator?_isSome (h : startsPunctuator b = true) :
    (scanPunctuator? (b :: tail)).isSome = true := by
  obtain ⟨s, hs, hhead⟩ := any_eq_true.mp h
  have hfirst := punctuators_first s hs
  rw [beq_iff_eq.mp hhead, Option.all_some, any_eq_true] at hfirst
  obtain ⟨p, hp, hbytes⟩ := hfirst
  refine findSome?_isSome_iff.mpr ⟨p, hp, ?_⟩
  simp [beq_iff_eq.mp hbytes]

theorem scanToken_error (hb : startsToken b = true) (h : scanToken b tail = .error fault) :
    (∃ start stop, fault = .text start stop) ∧ OpenEscape (b :: tail) := by
  unfold scanToken at h
  simp only at h
  split at h
  · rename_i hstring
    rw [h] at hstring
    exact scanString?_error hstring
  · rename_i hstring
    split_ifs at h with hident hnumber hquote
    split at h
    · cases h
    · rename_i hnone
      have hstarts : startsPunctuator b = true := by
        simp only [startsToken, Bool.or_eq_true] at hb
        rcases hb with (((hb | hb) | hb) | hb) | hb
        · exact absurd hb hident
        · simp [hb] at hnumber
        · rw [beq_iff_eq.mp hb, scanString?_doubleQuote] at hstring
          cases hstring
        · exact absurd hb hquote
        · exact hb
      have hsome := @scanPunctuator?_isSome b tail hstarts
      rw [hnone] at hsome
      cases hsome

/-- Skipping stops at a token. -/
theorem skip_starts (mode : SkipMode) (offset : Nat) (lineStart : Bool) (bs : List UInt8) :
    ∀ b ∈ (skip mode offset lineStart bs).1.rest.head?, startsToken b = true := by
  fun_induction skip mode offset lineStart bs <;> simp_all [reportStray]

/-! ### Scanning a whole text -/

/-- What is left where the next token starts. -/
def Scan.front (s : Scan) : List UInt8 := (skip .code s.offset s.lineStart s.rest).1.rest

/-- Scanning comes to a token, or to the end of the text, with `rest` left. -/
inductive Scan.Reaches : Scan → List UInt8 → Prop
  | here (s : Scan) : Reaches s s.front
  | next {s : Scan} {step : Step} {rest : List UInt8} (hstep : s.step = .ok step)
    (hne : step.token.lexeme ≠ .eof) (hrest : Reaches step.next rest) : Reaches s rest

theorem Scan.step_error (h : s.step = .error fault) :
    (∃ start stop, fault = .text start stop) ∧ OpenEscape s.front := by
  have hstarts := skip_starts .code s.offset s.lineStart s.rest
  unfold Scan.front
  unfold Scan.step at h
  rcases hskip : skip .code s.offset s.lineStart s.rest with ⟨m, found⟩
  simp only [hskip] at h hstarts ⊢
  split at h
  · cases h
  · rename_i b tail hrest
    rw [hrest] at hstarts ⊢
    split at h
    · rename_i hfault
      obtain rfl := Except.error.inj h
      exact scanToken_error (hstarts b rfl) hfault
    · cases h

theorem OpenEscape.step (h : OpenEscape s.front) : ∃ fault, s.step = .error fault := by
  obtain ⟨fault, hstring⟩ := h.scanString?
  unfold Scan.front at h hstring
  unfold Scan.step
  rcases hskip : skip .code s.offset s.lineStart s.rest with ⟨m, found⟩
  simp only [hskip] at h hstring ⊢
  cases hrest : m.rest with
  | nil =>
    rw [hrest] at hstring
    cases hstring
  | cons b tail =>
    rw [hrest] at hstring
    simp [scanToken, hstring]

/-- A token takes at least one byte. -/
theorem Scan.length_next_lt {step : Step} (h : s.step = .ok step)
    (hne : step.token.lexeme ≠ .eof) : step.next.rest.length < s.rest.length := by
  rcases hskip : skip .code s.offset s.lineStart s.rest with ⟨m, found⟩
  obtain ⟨hfrom, hcount, -⟩ := Scan.skip_on hskip
  rcases Scan.step_ok h hskip with ⟨-, rfl⟩ | ⟨b, tail, r, hrest, hr, rfl⟩
  · exact absurd rfl hne
  · have hpos := (scanToken_sound hr).moves.pos
    have hconsumed := (scanToken_sound hr).moves.le
    have hlength := congrArg List.length hrest
    rw [length_cons] at hlength
    simp only [length_drop]
    omega

/-- With room for every byte, scanning fails at an open escape and nowhere else. -/
theorem Scan.tokens_error_or_ok {fuel : Nat} (hfuel : s.rest.length < fuel) :
    (∃ start stop, s.tokens fuel = .error (.text start stop)) ∧
        (∃ rest, s.Reaches rest ∧ OpenEscape rest) ∨
      (∃ r, s.tokens fuel = .ok r) ∧ ∀ rest, s.Reaches rest → ¬ OpenEscape rest := by
  induction fuel generalizing s with
  | zero => omega
  | succ fuel ih =>
    rw [Scan.tokens]
    cases hstep : s.step with
    | error fault =>
      obtain ⟨⟨start, stop, rfl⟩, hopen⟩ := Scan.step_error hstep
      exact .inl ⟨⟨start, stop, rfl⟩, _, .here s, hopen⟩
    | ok step =>
      have hfront : ¬ OpenEscape s.front := fun hopen => by
        obtain ⟨fault, hfault⟩ := hopen.step
        rw [hstep] at hfault
        cases hfault
      simp only [bind, Except.bind, pure, Except.pure]
      by_cases heof : step.token.lexeme = .eof
      · rw [if_pos (by simp [Token.isEof, heof])]
        refine .inr ⟨⟨_, rfl⟩, fun rest hrest => ?_⟩
        cases hrest with
        | here => exact hfront
        | next hstep' hne =>
          rw [hstep] at hstep'
          exact absurd (Except.ok.inj hstep' ▸ heof) hne
      · rw [if_neg (by simp [Token.isEof, heof])]
        have hroom := Scan.length_next_lt hstep heof
        rcases @ih step.next (by omega) with ⟨⟨start, stop, herror⟩, rest, hrest, hopen⟩ |
            ⟨⟨r, hr⟩, hnone⟩
        · exact .inl ⟨⟨start, stop, by rw [herror]⟩, rest, .next hstep heof hrest, hopen⟩
        · refine .inr ⟨⟨_, by rw [hr]⟩, fun rest hrest => ?_⟩
          cases hrest with
          | here => exact hfront
          | next hstep' _ hrest =>
            rw [hstep] at hstep'
            exact hnone rest (Except.ok.inj hstep' ▸ hrest)

/-- Scanning a text fails exactly if it comes to a plain string whose own backslash ends the text.
Otherwise it takes token after token, each behind the one before and none empty, up to an `eof` that
is the last token and the only one of its kind. -/
theorem tokenize_fails_iff_open_escape (doc : Document) :
    ((∃ fault, tokenize doc = .error fault) ↔
      ∃ rest, (Scan.ofDocument doc).Reaches rest ∧ OpenEscape rest) ∧
    (∀ fault, tokenize doc = .error fault → ∃ start stop, fault = .text start stop) ∧
    ∀ raw found, tokenize doc = .ok (raw, found) →
      (∃ init eof, raw = init ++ [eof] ∧ eof.lexeme = .eof ∧ ∀ t ∈ init, t.lexeme ≠ .eof) ∧
      raw.Pairwise fun t u => t.span.start < t.span.stop ∧ t.span.stop ≤ u.span.start := by
  have hfuel : (Scan.ofDocument doc).rest.length < doc.length + 1 := Nat.lt_succ_self _
  rcases Scan.tokens_error_or_ok hfuel with ⟨⟨start, stop, herror⟩, hopen⟩ | ⟨⟨r, hok⟩, hnone⟩
  · rw [tokenize, herror]
    refine ⟨⟨fun _ => hopen, fun _ => ⟨_, rfl⟩⟩, fun fault h => ?_, fun raw found h => ?_⟩
    · exact ⟨start, stop, (Except.error.inj h).symm⟩
    · cases h
  · rw [tokenize, hok]
    refine ⟨⟨?_, ?_⟩, fun fault h => ?_, fun raw found h => ?_⟩
    · rintro ⟨fault, h⟩
      cases h
    · rintro ⟨rest, hrest, hopen⟩
      exact absurd hopen (hnone rest hrest)
    · cases h
    · have htokens := tokenized_of_tokenize (hok.trans h)
      have hpairs := htokens.pairwise
      constructor
      · obtain ⟨eof, hlast, heof⟩ := htokens.ended
        obtain ⟨init, rfl⟩ := getLast?_eq_some_iff.mp hlast
        have hbefore := (pairwise_append.mp hpairs).2.2
        exact ⟨init, eof, rfl, heof, fun t ht => (hbefore t ht eof (by simp)).1⟩
      · refine hpairs.imp_of_mem fun {t u} ht _ hbefore => ⟨?_, hbefore.2⟩
        exact (htokens.stands t ht).pos hbefore.1

/-- A marked string whose quote is taken along and whose backslash ends the text. -/
theorem tokenize_fails_iff_open_escape_marked :
    ∃ fault, tokenize (.ofText "a" "L\"\\\"\\") = .error fault :=
  (tokenize_fails_iff_open_escape _).1.mpr
    ⟨_, .here _, "L", by decide, [backslash, doubleQuote], .escaped .nil, by decide⟩

end Offload.Source
