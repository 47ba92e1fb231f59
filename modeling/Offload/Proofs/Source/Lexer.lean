import Mathlib.Data.List.Chain
import Mathlib.Data.List.TakeWhile
import Mathlib.Data.Nat.Basic
import Mathlib.Order.Basic
import Mathlib.Tactic.SplitIfs
import Offload.Source.Lexer

/-!
# The tokens of a document

Scanning goes on where the last token ended. Unless something is cut short, a token's span is what
scanning has passed, so the tokens of a document lie one after the other, none empty but `eof`, and
scanning again from the end of a token finds the next one.
-/

namespace Offload

open List

variable {doc : Document} {found : List Diagnostic} {raw : List Token} {bs rest tail : List UInt8}
  {n opening : Nat} {s : Scan} {r : Scanned} {b : UInt8}

/-- Problems of something that is cut short. -/
def Problem.unterminated : Problem → Bool
  | .unterminatedComment | .unterminatedString | .unterminatedRawString
  | .unterminatedCharacter | .unterminatedTemplateParameters | .unterminatedBlock => true
  | _ => false

namespace Source

/-! ### What a token takes -/

theorem reportStray_fst (b : UInt8) (offset : Nat) (r : Scan × List Diagnostic) :
    (reportStray b offset r).1 = r.1 := rfl

/-- Skipping drops bytes from the front and counts them. -/
theorem skip_suffix (mode : SkipMode) (offset : Nat) (lineStart : Bool) (bs : List UInt8) :
    (skip mode offset lineStart bs).1.rest <:+ bs ∧
      (skip mode offset lineStart bs).1.offset + (skip mode offset lineStart bs).1.rest.length =
        offset + bs.length := by
  fun_induction skip mode offset lineStart bs <;> grind [reportStray_fst, suffix_cons_iff]

/-- Skipping goes on in the same text. -/
theorem Scan.skip_on {s m : Scan} (h : skip .code s.offset s.lineStart s.rest = (m, found)) :
    s.offset ≤ m.offset ∧ m.offset + m.rest.length = s.offset + s.rest.length ∧
      ∀ bs : List UInt8, s.rest = bs.drop s.offset → m.rest = bs.drop m.offset := by
  obtain ⟨hsuffix, hcount⟩ := skip_suffix .code s.offset s.lineStart s.rest
  simp only [h] at hsuffix hcount
  have hle := hsuffix.length_le
  have hoffset : m.offset = s.offset + (s.rest.length - m.rest.length) := by omega
  refine ⟨by omega, hcount, fun bs hbs => ?_⟩
  rw [hoffset, ← drop_drop, ← hbs]
  exact suffix_iff_eq_drop.mp hsuffix

/-- A body that is closed ends at its quote. -/
theorem quotedBody_closed {quote : UInt8} (h : quotedBody quote bs = (n, true)) :
    bs[n]? = some quote := by
  fun_induction quotedBody quote bs generalizing n <;> grind

theorem quotedBody_lt {quote : UInt8} (h : quotedBody quote bs = (n, true)) : n < bs.length :=
  (List.getElem?_eq_some_iff.mp (quotedBody_closed h)).1

theorem lengthBefore_le {closing : List UInt8} (h : lengthBefore closing bs = some n) :
    n + closing.length ≤ bs.length := by
  induction bs generalizing n with
  | nil => cases h
  | cons b tail ih =>
    rw [lengthBefore] at h
    split_ifs at h with hclosing
    · obtain rfl := Option.some.inj h
      rw [Nat.zero_add]
      exact ( isPrefixOf_iff_prefix.mp hclosing).length_le
    · obtain ⟨m, hm, rfl⟩ := Option.map_eq_some_iff.mp h
      have := ih hm
      rw [length_cons]
      omega

/-- Bytes that may stand in a number. -/
def isNumberByte (b : UInt8) : Bool :=
  isIdentContinue b || b == Ascii.dot || b == Ascii.singleQuote || b == Ascii.plus ||
    b == Ascii.minus

/-- The rest of a number is cut off the front of the text. -/
theorem exists_numberTail (b : UInt8) (tail : List UInt8) :
    ∃ bs after, tail = bs ++ after ∧ numberTail b tail = bs.length ∧
      numberTail b bs = bs.length ∧ ∀ c ∈ bs, isNumberByte c = true := by
  induction tail generalizing b with
  | nil => exact ⟨[], [], rfl, rfl, rfl, by simp⟩
  | cons c tail ih =>
    rw [numberTail]
    split_ifs with hc
    · obtain ⟨bs, after, rfl, hlength, hbs, hall⟩ := ih c
      refine ⟨c :: bs, after, rfl, by rw [hlength, length_cons], ?_, ?_⟩
      · rw [numberTail, if_pos hc, hbs, length_cons]
      · refine forall_mem_cons.mpr ⟨?_, hall⟩
        grind [isNumberByte, isIdentContinue, isIdentStart, Ascii.isAlphanumeric]
    · exact ⟨[], c :: tail, rfl, rfl, rfl, by simp⟩

/-- A token that takes at least one byte. No byte that is there is passed beyond its end. -/
structure Scanned.Moves (r : Scanned) (rest : List UInt8) : Prop where
  notEof : r.lexeme ≠ .eof
  pos : 0 < r.length
  le : r.length ≤ r.consumed
  past : rest.drop r.consumed = rest.drop r.length
  reports : ∀ p, r.problem = some p → p.1.unterminated = true

/-- The token takes at least one byte and none that is not there; nothing more is passed. -/
structure Scanned.Fits (r : Scanned) (rest : List UInt8) : Prop where
  consumed : r.consumed = r.length
  pos : 0 < r.length
  le : r.length ≤ rest.length

/-- What holds of every token; one that is not cut short also fits. -/
structure Scanned.Sound (r : Scanned) (rest : List UInt8) : Prop where
  moves : r.Moves rest
  fits : r.problem = none → r.Fits rest

theorem Scanned.sound_complete {l : Lexeme} (hl : l ≠ .eof) (hpos : 0 < n)
    (hle : n ≤ rest.length) : (Scanned.complete l n).Sound rest :=
  ⟨⟨hl, hpos, le_rfl, rfl, by simp [Scanned.complete]⟩, fun _ => ⟨rfl, hpos, hle⟩⟩

theorem scanString_sound (h : scanString opening rest = .ok r) :
    r.Sound rest ∧ ∃ s, r.lexeme = .str s := by
  unfold scanString at h
  rcases hbody : quotedBody Ascii.doubleQuote (rest.drop (opening + 1)) with ⟨n, closed⟩
  simp only [hbody] at h
  split_ifs at h with hclosed hn
  · obtain rfl := Except.ok.inj h
    obtain rfl : closed = true := hclosed
    have hlt := quotedBody_lt hbody
    rw [length_drop] at hlt
    exact ⟨Scanned.sound_complete (by simp) (by omega) (by omega), _, rfl⟩
  · obtain rfl := Except.ok.inj h
    refine ⟨⟨⟨by simp, ?_, le_rfl, rfl, by simp [Problem.unterminated]⟩, by simp⟩, _, rfl⟩
    simp only
    omega

theorem scanRawString_sound (h : scanRawString opening rest = r) :
    r.Sound rest ∧ ∃ s, r.lexeme = .str s := by
  subst h
  unfold scanRawString
  simp only
  split
  · rename_i n hn
    have hle := lengthBefore_le hn
    simp only [length_drop, length_cons, length_append, length_nil] at hle
    exact ⟨Scanned.sound_complete (by simp) (by omega) (by omega), _, rfl⟩
  · refine ⟨⟨⟨by simp, ?_, le_rfl, rfl, by simp [Problem.unterminated]⟩, by simp⟩, _, rfl⟩
    simp only
    omega

theorem scanCharacter_sound (h : rest ≠ []) : (scanCharacter rest).Sound rest := by
  unfold scanCharacter
  rcases hbody : quotedBody Ascii.singleQuote (rest.drop 1) with ⟨n, closed⟩
  have hpos := length_pos_iff.mpr h
  cases closed with
  | true =>
    have hlt := quotedBody_lt hbody
    rw [length_drop] at hlt
    exact Scanned.sound_complete (by simp) (by omega) (by omega)
  | false =>
    simp only [Bool.false_eq_true, if_false]
    refine ⟨⟨by simp, ?_, Nat.min_le_left _ _, ?_, by simp [Problem.unterminated]⟩, by simp⟩
    · simp only
      omega
    · -- The span stops at the end of the text, and nothing is left there.
      simp only
      rcases Nat.le_total (n + 1) rest.length with hle | hle
      · rw [Nat.min_eq_left hle]
      · rw [Nat.min_eq_right hle, drop_length, drop_eq_nil_of_le hle]

theorem scanString?_sound (h : scanString? rest = some (.ok r)) :
    r.Sound rest ∧ ∃ s, r.lexeme = .str s := by
  obtain ⟨mark, -, h⟩ := exists_of_findSome?_eq_some h
  simp only at h
  split_ifs at h with hmark hraw hquote
  · exact scanRawString_sound (Except.ok.inj (Option.some.inj h))
  · exact scanString_sound (Option.some.inj h)

theorem punctuator_ne_eof (s : String) : punctuator s ≠ .eof := by
  unfold punctuator
  split <;> simp

theorem punctuators_length_pos : ∀ s ∈ punctuators, 0 < (Text.bytes s).length := by decide

/-- A punctuator is one of the list, at the front of the text. -/
theorem scanPunctuator?_some (h : scanPunctuator? rest = some r) :
    ∃ s ∈ punctuators, Text.bytes s <+: rest ∧
      r = .complete (punctuator s) (Text.bytes s).length := by
  obtain ⟨s, hs, h⟩ := exists_of_findSome?_eq_some h
  simp only at h
  split_ifs at h with hfront
  exact ⟨s, hs, isPrefixOf_iff_prefix.mp hfront, (Option.some.inj h).symm⟩

/-- What a token can be: a string, a word, a number, a character or a punctuator. -/
theorem scanToken_ok (h : scanToken b tail = .ok r) :
    scanString? (b :: tail) = some (.ok r) ∨
      (∃ bs after, tail = bs ++ after ∧ isIdentStart b = true ∧
        (∀ c ∈ bs, isIdentContinue c = true) ∧
        r = .complete (.ident (Text.ofBytes (b :: bs))) (bs.length + 1)) ∨
      (∃ bs after, tail = bs ++ after ∧
        (Ascii.isDigit b || b == Ascii.dot && bs.head?.any Ascii.isDigit) = true ∧
        (numberTail b bs = bs.length ∧ ∀ c ∈ b :: bs, isNumberByte c = true) ∧
        r = .complete (.number (Text.ofBytes (b :: bs))) (bs.length + 1)) ∨
      b = Ascii.singleQuote ∧ r = scanCharacter (b :: tail) ∨
      scanPunctuator? (b :: tail) = some r := by
  unfold scanToken at h
  simp only at h
  split at h
  · rename_i hstring
    rw [h] at hstring
    exact .inl hstring
  split_ifs at h with hident hnumber hquote
  · have hsplit := takeWhile_append_dropWhile (p := isIdentContinue) (l := tail)
    rw [takeWhile_cons_of_pos (by simp [isIdentContinue, hident]), length_cons,
      take_succ_cons, ← prefix_iff_eq_take.mp ( takeWhile_prefix _)] at h
    exact .inr (.inl ⟨_, _, hsplit.symm, hident, fun c hc => mem_takeWhile_imp hc,
      (Except.ok.inj h).symm⟩)
  · obtain ⟨bs, after, rfl, hlength, hbs, hall⟩ := exists_numberTail b tail
    rw [hlength, take_succ_cons, take_left] at h
    have hfirst : isNumberByte b = true := by grind [isNumberByte, isIdentContinue]
    refine .inr (.inr (.inl ⟨bs, after, rfl, ?_, ⟨hbs, forall_mem_cons.mpr ⟨hfirst, hall⟩⟩,
      (Except.ok.inj h).symm⟩))
    -- A digit behind a dot belongs to the number.
    cases bs with
    | cons c bs => exact hnumber
    | nil =>
      cases after with
      | nil => exact hnumber
      | cons c after =>
        rw [nil_append, numberTail] at hlength
        have hdigit : Ascii.isDigit c = false := by grind [Ascii.isAlphanumeric]
        simpa [hdigit] using hnumber
  · exact .inr (.inr (.inr (.inl ⟨by simpa using hquote, (Except.ok.inj h).symm⟩)))
  · split at h
    · rename_i hpunctuator
      obtain rfl := Except.ok.inj h
      exact .inr (.inr (.inr (.inr hpunctuator)))
    · cases h

theorem scanToken_sound (h : scanToken b tail = .ok r) : r.Sound (b :: tail) := by
  rcases scanToken_ok h with
    hstring | ⟨bs, after, rfl, -, -, rfl⟩ | ⟨bs, after, rfl, -, -, rfl⟩ | ⟨-, rfl⟩ | hp
  · exact (scanString?_sound hstring).1
  · exact Scanned.sound_complete (by simp) (Nat.succ_pos _) (by simp)
  · exact Scanned.sound_complete (by simp) (Nat.succ_pos _) (by simp)
  · exact scanCharacter_sound (by simp)
  · obtain ⟨s, hs, hfront, rfl⟩ := scanPunctuator?_some hp
    exact Scanned.sound_complete (punctuator_ne_eof s) (punctuators_length_pos s hs)
      hfront.length_le

/-! ### One step -/

/-- A token cut short is reported where it stands. -/
def Scanned.reports (r : Scanned) (offset : Nat) : List Diagnostic :=
  match r.problem with
  | some (problem, length) => [⟨problem, ⟨offset, offset + length⟩⟩]
  | none => []

/-- A step passes over what is no token, and then stands at the end of the text or at a token. -/
theorem Scan.step_ok {step : Step} (h : s.step = .ok step) {m : Scan}
    (hskip : skip .code s.offset s.lineStart s.rest = (m, found)) :
    m.rest = [] ∧ step = ⟨⟨.eof, .point m.offset, m.lineStart, .file, none⟩, found,
        { m with lineStart := false }⟩ ∨
      ∃ b tail r, m.rest = b :: tail ∧ scanToken b tail = .ok r ∧
        step = ⟨⟨r.lexeme, ⟨m.offset, m.offset + r.length⟩, m.lineStart, .file, none⟩,
          found ++ r.reports m.offset, ⟨m.rest.drop r.consumed, m.offset + r.consumed, false⟩⟩ := by
  unfold Scan.step at h
  simp only [hskip] at h
  split at h
  · rename_i hrest
    exact .inl ⟨hrest, (Except.ok.inj h).symm⟩
  · rename_i b tail hrest
    split at h
    · cases h
    · rename_i r hr
      exact .inr ⟨b, tail, r, hrest, hr, (Except.ok.inj h).symm⟩

theorem Scan.step_of_nil (h : s.rest = []) :
    s.step = .ok ⟨⟨.eof, .point s.offset, s.lineStart, .file, none⟩, [],
      { s with lineStart := false }⟩ := by
  obtain ⟨rest, offset, lineStart⟩ := s
  obtain rfl : rest = [] := h
  rfl

/-- The scan stands at its offset in the document. -/
structure Scan.Within (s : Scan) (doc : Document) : Prop where
  le : s.offset ≤ doc.length
  rest : s.rest = doc.bytes.drop s.offset

theorem Scan.within_ofDocument (doc : Document) : (Scan.ofDocument doc).Within doc :=
  ⟨Nat.zero_le _, rfl⟩

theorem Scan.within_resume (doc : Document) (offset : Nat) : (Scan.resume doc offset).Within doc :=
  ⟨Nat.min_le_right _ _, rfl⟩

theorem Scan.Within.length_rest (h : s.Within doc) : s.rest.length = doc.length - s.offset := by
  rw [h.rest, length_drop, Document.length]

theorem Scan.Within.skip {m : Scan} (h : s.Within doc)
    (hskip : skip .code s.offset s.lineStart s.rest = (m, found)) : m.Within doc := by
  obtain ⟨-, hcount, hrest⟩ := Scan.skip_on hskip
  have hlength := h.length_rest
  have hle := h.le
  exact ⟨by omega, hrest _ h.rest⟩

theorem Scanned.Moves.problem_eq_none {offset : Nat} (h : r.Moves rest)
    (hclean : ∀ d ∈ r.reports offset, d.problem.unterminated = false) : r.problem = none := by
  cases hp : r.problem with
  | none => rfl
  | some p =>
    have hcut := h.reports p hp
    simp [Scanned.reports, hp, hcut] at hclean

/-- A token that lies in the file at the front of what follows `offset`. -/
structure Token.Takes (t : Token) (doc : Document) (offset : Nat) : Prop where
  file : t.position = .file
  start : offset ≤ t.span.start
  pos : t.lexeme ≠ .eof → t.span.start < t.span.stop
  ordered : t.span.start ≤ t.span.stop
  stop : t.span.stop ≤ doc.length

/-- A step that reports nothing cut short takes one token, and goes on at its end unless that was
`eof`. -/
theorem Scan.Within.step (h : s.Within doc) {step : Step} (hstep : s.step = .ok step)
    (hclean : ∀ d ∈ step.found, d.problem.unterminated = false) :
    step.token.Takes doc s.offset ∧
      (step.token.lexeme ≠ .eof → step.next = Scan.resume doc step.token.span.stop) := by
  rcases hs : Source.skip .code s.offset s.lineStart s.rest with ⟨m, found⟩
  obtain ⟨hfrom, -⟩ := Scan.skip_on hs
  have hskip := h.skip hs
  have hle := hskip.le
  rcases Scan.step_ok hstep hs with ⟨-, rfl⟩ | ⟨b, tail, r, hrest, hr, rfl⟩
  · exact ⟨⟨rfl, hfrom, fun hne => absurd rfl hne, le_rfl, hle⟩, fun hne => absurd rfl hne⟩
  · have hreports : ∀ d ∈ r.reports m.offset, d.problem.unterminated = false := fun d hd =>
      hclean d (mem_append_right _ hd)
    have hsound := scanToken_sound hr
    have hproblem := hsound.moves.problem_eq_none hreports
    have hfits := hsound.fits hproblem
    have hpos := hfits.pos
    have hroom := hfits.le
    rw [← hrest, hskip.length_rest] at hroom
    have hstop : m.offset + r.length ≤ doc.length := by omega
    refine ⟨⟨rfl, hfrom, fun _ => ?_, Nat.le_add_right _ _, hstop⟩, fun _ => ?_⟩
    · exact Nat.lt_add_of_pos_right hpos
    · simp only [hfits.consumed, Scan.resume, Nat.min_eq_left hstop, hskip.rest, drop_drop]

/-! ### All tokens -/

/-- Tokens and reports from a scan up to the end of the text. -/
inductive Scan.Runs : Scan → List Token → List Diagnostic → Prop
  | last {s : Scan} {step : Step} (hstep : s.step = .ok step) (heof : step.token.lexeme = .eof) :
    Runs s [step.token] step.found
  | more {s : Scan} {step : Step} {tokens : List Token} {found : List Diagnostic}
    (hstep : s.step = .ok step) (hne : step.token.lexeme ≠ .eof)
    (hrest : Runs step.next tokens found) : Runs s (step.token :: tokens) (step.found ++ found)

theorem Scan.runs_of_tokens {fuel : Nat} (h : s.tokens fuel = .ok (raw, found)) :
    s.Runs raw found := by
  induction fuel generalizing s raw found with
  | zero => cases h
  | succ fuel ih =>
    rw [Scan.tokens] at h
    cases hstep : s.step with
    | error f => simp [hstep, bind, Except.bind] at h
    | ok step =>
      simp only [hstep, bind, Except.bind, pure, Except.pure] at h
      split_ifs at h with heof
      · obtain ⟨rfl, rfl⟩ := Prod.mk.inj (Except.ok.inj h)
        exact .last hstep (by simpa [Token.isEof] using heof)
      · split at h
        · cases h
        · rename_i rest hrest
          obtain ⟨rfl, rfl⟩ := Prod.mk.inj (Except.ok.inj h)
          exact .more hstep (by simpa [Token.isEof] using heof) (ih hrest)

/-- The first token of a run is what the scan finds. -/
theorem Scan.Runs.head (h : s.Runs raw found) :
    ∃ step, s.step = .ok step ∧ raw.head? = some step.token ∧ step.found ⊆ found := by
  cases h with
  | last hstep _ => exact ⟨_, hstep, rfl, List.Subset.refl _⟩
  | more hstep _ _ => exact ⟨_, hstep, rfl, subset_append_left _ _⟩

theorem Scan.Runs.ended (h : s.Runs raw found) : ∃ t, raw.getLast? = some t ∧ t.lexeme = .eof := by
  induction h with
  | last _ heof => exact ⟨_, rfl, heof⟩
  | more _ _ _ ih =>
    obtain ⟨t, ht, heof⟩ := ih
    refine ⟨t, ?_, heof⟩
    rw [getLast?_cons, ht]
    rfl

/-- What every step keeps and gives holds of all tokens of a run, and of any two in a row. -/
theorem Scan.Runs.holds {I : Scan → Prop} {P : Token → Prop} {R : Token → Token → Prop}
    {all : List Diagnostic} (h : s.Runs raw found) (hs : I s) (hfound : found ⊆ all)
    (hstep : ∀ {s step}, I s → s.step = .ok step → step.found ⊆ all →
      P step.token ∧ (step.token.lexeme ≠ .eof → I step.next ∧ ∀ {after},
        step.next.step = .ok after → after.found ⊆ all → R step.token after.token)) :
    (∀ t ∈ raw, P t) ∧ raw.IsChain R := by
  induction h with
  | last hfirst _ =>
    exact ⟨fun t ht => mem_singleton.mp ht ▸ (hstep hs hfirst hfound).1, .singleton _⟩
  | more hfirst hne hrest ih =>
    obtain ⟨hnow, hlater⟩ := append_subset.mp hfound
    obtain ⟨htoken, hon⟩ := hstep hs hfirst hnow
    obtain ⟨hnext, hpair⟩ := hon hne
    obtain ⟨hall, hchain⟩ := ih hnext hlater
    refine ⟨forall_mem_cons.mpr ⟨htoken, hall⟩, isChain_cons.mpr ⟨fun u hu => ?_, hchain⟩⟩
    obtain ⟨after, hafter, hhead, hsub⟩ := hrest.head
    obtain rfl : after.token = u := by simpa [hhead] using hu
    exact hpair hafter fun d hd => hlater (hsub hd)

/-- A token of the file. -/
structure Token.Stands (t : Token) : Prop where
  file : t.position = .file
  pos : t.lexeme ≠ .eof → t.span.start < t.span.stop
  ordered : t.span.start ≤ t.span.stop

/-- Scanning on from the end of `t` finds what `u` is, at the place of `u` unless the text is at its
end: a literal that is cut short there can put `eof` beyond it. -/
structure Resumes (doc : Document) (t u : Token) : Prop where
  notEof : t.lexeme ≠ .eof
  le : t.span.stop ≤ u.span.start
  step : ∃ step, (Scan.resume doc t.span.stop).step = .ok step ∧
    step.token.lexeme = u.lexeme ∧ (u.lexeme ≠ .eof → step.token = u ∧ t.span.stop ≤ doc.length)

/-- The tokens of any document, whatever the lexer has to report. -/
structure Tokenized (doc : Document) (raw : List Token) : Prop where
  stands : ∀ t ∈ raw, t.Stands
  resumes : raw.IsChain (Resumes doc)
  ended : ∃ t, raw.getLast? = some t ∧ t.lexeme = .eof

/-- One step, wherever the scan stands: the token and what is left behind it. -/
structure Scan.StepsOn (s : Scan) (doc : Document) (step : Step) : Prop where
  stands : step.token.Stands
  start : s.offset ≤ step.token.span.start
  rest : step.token.lexeme ≠ .eof → step.next.rest = doc.bytes.drop step.next.offset
  le : step.token.lexeme ≠ .eof → step.token.span.stop ≤ step.next.offset
  next : step.token.lexeme ≠ .eof →
    step.next = Scan.resume doc step.token.span.stop ∧ step.token.span.stop ≤ doc.length ∨
      step.next.rest = [] ∧ doc.bytes.drop step.token.span.stop = []

theorem Scan.stepsOn (h : s.rest = doc.bytes.drop s.offset) {step : Step}
    (hstep : s.step = .ok step) : s.StepsOn doc step := by
  rcases hs : Source.skip .code s.offset s.lineStart s.rest with ⟨m, found⟩
  obtain ⟨hfrom, -, hrest⟩ := Scan.skip_on hs
  have hm := hrest _ h
  rcases Scan.step_ok hstep hs with ⟨-, rfl⟩ | ⟨b, tail, r, hfront, hr, rfl⟩
  · exact ⟨⟨rfl, fun hne => absurd rfl hne, le_rfl⟩, hfrom, fun hne => absurd rfl hne,
      fun hne => absurd rfl hne, fun hne => absurd rfl hne⟩
  · have hmoves := (scanToken_sound hr).moves
    rw [← hfront] at hmoves
    have hpast := hmoves.past
    refine ⟨⟨rfl, fun _ => Nat.lt_add_of_pos_right hmoves.pos, Nat.le_add_right _ _⟩, hfrom,
      fun _ => ?_, fun _ => Nat.add_le_add_left hmoves.le _, fun _ => ?_⟩
    · simp only [hm, drop_drop]
    · -- Only at the end of the text can scanning pass more than the token.
      by_cases hfit : r.consumed = r.length ∧ m.offset + r.length ≤ doc.length
      · left
        refine ⟨?_, hfit.2⟩
        simp only [hfit.1, Scan.resume, Nat.min_eq_left hfit.2, hm, drop_drop]
      · right
        have hle := hmoves.le
        have hlengths := congrArg List.length hpast
        have htotal := congrArg List.length hm
        simp only [length_drop] at hlengths htotal
        have hend : doc.bytes.length ≤ m.offset + r.length := by
          simp only [Document.length] at hfit
          omega
        have hnil : doc.bytes.drop (m.offset + r.length) = [] := drop_eq_nil_of_le hend
        refine ⟨?_, hnil⟩
        rw [hpast, hm, drop_drop, hnil]

theorem Scan.StepsOn.resumes {step after : Step} (h : s.StepsOn doc step)
    (hne : step.token.lexeme ≠ .eof) (hafter : step.next.step = .ok after)
    (hle : step.next.offset ≤ after.token.span.start) : Resumes doc step.token after.token := by
  refine ⟨hne, (h.le hne).trans hle, ?_⟩
  rcases h.next hne with ⟨hnext, hstop⟩ | ⟨hrest, hdrop⟩
  · rw [hnext] at hafter
    exact ⟨after, hafter, rfl, fun _ => ⟨rfl, hstop⟩⟩
  · have heof : after.token.lexeme = .eof := by
      rw [Scan.step_of_nil hrest] at hafter
      rw [← Except.ok.inj hafter]
    have hresume : (Scan.resume doc step.token.span.stop).rest = [] := by
      have hlength := drop_eq_nil_iff.mp hdrop
      exact drop_eq_nil_of_le (le_min hlength le_rfl)
    exact ⟨_, Scan.step_of_nil hresume, heof.symm, fun hne' => absurd heof hne'⟩

theorem Scan.Runs.tokenized (h : s.Runs raw found) (hs : s.rest = doc.bytes.drop s.offset) :
    Tokenized doc raw := by
  obtain ⟨hstands, hresumes⟩ := h.holds (I := fun s => s.rest = doc.bytes.drop s.offset)
    (P := Token.Stands) (R := Resumes doc) hs (List.Subset.refl _) fun hs hstep _ => by
      have hsteps := Scan.stepsOn hs hstep
      exact ⟨hsteps.stands, fun hne => ⟨hsteps.rest hne, fun hafter _ =>
        hsteps.resumes hne hafter (Scan.stepsOn (hsteps.rest hne) hafter).start⟩⟩
  exact ⟨hstands, hresumes, h.ended⟩

theorem tokenized_of_tokenize (h : tokenize doc = .ok (raw, found)) : Tokenized doc raw :=
  (Scan.runs_of_tokens h).tokenized rfl

namespace Tokenized

variable {doc : Document} {raw : List Token} {u v : Nat} {t t' : Token}

theorem resumes_getElem? (h : Tokenized doc raw) (ht : raw[u]? = some t)
    (ht' : raw[u + 1]? = some t') : Resumes doc t t' := by
  obtain ⟨hu, rfl⟩ := List.getElem?_eq_some_iff.mp ht
  obtain ⟨hu', rfl⟩ := List.getElem?_eq_some_iff.mp ht'
  exact List.isChain_iff_getElem.mp h.resumes u hu'

/-- Tokens lie one after the other. -/
theorem stop_le_start (h : Tokenized doc raw) (huv : u < v) (ht : raw[u]? = some t)
    (ht' : raw[v]? = some t') : t.span.stop ≤ t'.span.start := by
  induction v generalizing t' with
  | zero => omega
  | succ v ih =>
    obtain ⟨m, hm⟩ : ∃ m, raw[v]? = some m :=
      ⟨_, List.getElem?_eq_getElem (Nat.lt_of_succ_lt (List.getElem?_eq_some_iff.mp ht').1)⟩
    have hlast := (h.resumes_getElem? hm ht').le
    rcases Nat.eq_or_lt_of_le (Nat.le_of_lt_succ huv) with rfl | hlt
    · rw [ht] at hm
      obtain rfl := Option.some.inj hm
      exact hlast
    · have := ih hlt hm
      have := (h.stands m (mem_of_getElem? hm)).ordered
      omega

/-- Every token but the last has one after it. -/
theorem exists_next (h : Tokenized doc raw) (ht : raw[u]? = some t) (hne : t.lexeme ≠ .eof) :
    ∃ t', raw[u + 1]? = some t' := by
  have hu := (List.getElem?_eq_some_iff.mp ht).1
  by_cases hlast : u + 1 < raw.length
  · exact ⟨_, List.getElem?_eq_getElem hlast⟩
  · obtain ⟨e, he, heof⟩ := h.ended
    rw [List.getLast?_eq_getElem?, show raw.length - 1 = u by omega, ht] at he
    obtain rfl := Option.some.inj he
    exact absurd heof hne

end Tokenized

/-! ### Texts in which nothing is cut short -/

/-- Scanning on from the end of `t` finds `u`. -/
structure Follows (doc : Document) (t u : Token) : Prop where
  notEof : t.lexeme ≠ .eof
  takes : u.Takes doc t.span.stop
  step : ∃ step, (Scan.resume doc t.span.stop).step = .ok step ∧ step.token = u

/-- The tokens of a document in which the lexer has found nothing to be cut short. -/
structure Lexed (doc : Document) (raw : List Token) : Prop where
  takes : ∀ t ∈ raw, t.Takes doc 0
  follows : raw.IsChain (Follows doc)
  ended : ∃ t, raw.getLast? = some t ∧ t.lexeme = .eof

theorem Scan.Runs.lexed (h : s.Runs raw found) (hs : s.Within doc)
    (hclean : ∀ d ∈ found, d.problem.unterminated = false) : Lexed doc raw := by
  obtain ⟨htakes, hfollows⟩ := h.holds (I := fun s => s.Within doc) (P := fun t => t.Takes doc 0)
    (R := Follows doc) hs (List.Subset.refl _) fun {_ step} hs hstep hsub => by
      obtain ⟨htakes, hnext⟩ := hs.step hstep fun d hd => hclean d (hsub hd)
      refine ⟨{ htakes with start := Nat.zero_le _ }, fun hne => ?_⟩
      have hresume := Scan.within_resume doc step.token.span.stop
      rw [← hnext hne] at hresume
      refine ⟨hresume, fun {after} hafter hsub => ?_⟩
      have htakes' := (hresume.step hafter fun d hd => hclean d (hsub hd)).1
      rw [hnext hne] at htakes' hafter
      simp only [Scan.resume, Nat.min_eq_left htakes.stop] at htakes'
      exact ⟨hne, htakes', after, hafter, rfl⟩
  exact ⟨htakes, hfollows, h.ended⟩

theorem lexed_of_terminated (h : tokenize doc = .ok (raw, found))
    (hclean : ∀ d ∈ found, d.problem.unterminated = false) : Lexed doc raw :=
  (Scan.runs_of_tokens h).lexed (Scan.within_ofDocument doc) hclean

theorem lexed_of_tokenize (h : tokenize doc = .ok (raw, [])) :
    Lexed doc raw := lexed_of_terminated h (by simp)

namespace Lexed

variable {doc : Document} {raw : List Token} {u v : Nat} {t t' : Token}

theorem follows_getElem? (h : Lexed doc raw) (ht : raw[u]? = some t)
    (ht' : raw[u + 1]? = some t') : Follows doc t t' := by
  obtain ⟨hu, rfl⟩ := List.getElem?_eq_some_iff.mp ht
  obtain ⟨hu', rfl⟩ := List.getElem?_eq_some_iff.mp ht'
  exact List.isChain_iff_getElem.mp h.follows u hu'

theorem tokenized (h : Lexed doc raw) : Tokenized doc raw := by
  refine ⟨fun t ht => ?_, ?_, h.ended⟩
  · exact ⟨(h.takes t ht).file, (h.takes t ht).pos, (h.takes t ht).ordered⟩
  · rw [isChain_iff_getElem]
    intro i hi
    have hfollows := isChain_iff_getElem.mp h.follows i hi
    obtain ⟨step, hstep, heq⟩ := hfollows.step
    refine ⟨hfollows.notEof, hfollows.takes.start, step, hstep, by rw [heq], fun _ => ⟨heq, ?_⟩⟩
    exact (h.takes _ (getElem_mem _)).stop

end Lexed

end Source

end Offload
