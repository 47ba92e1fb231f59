import Offload.Proofs.Compiled.Tokenize

/-!
# Escapes in byte strings

The text between the quotes of a byte string is a sequence of pieces, each of which stands for one
byte: a byte other than a backslash, a doubled backslash, and a backslash with two hexadecimal
digits. The numeral behind a backslash is read like any other numeral, so a plus sign with one digit
is taken as well. There is one way at most to take a text apart like this, and every sequence of
bytes can be written in it.
-/

namespace Offload.Compiled

open List Ascii

/-! ### Pieces -/

/-- Value of a hexadecimal digit. -/
def hexDigitValue (b : UInt8) : Nat :=
  if Ascii.isDigit b then b.toNat - 0x30
  else if Ascii.isUpper b then b.toNat - 0x41 + 10
  else b.toNat - 0x61 + 10

/-- A piece of a byte string's text. -/
inductive Piece where
  | plain (b : UInt8) (h : b ≠ Ascii.backslash)
  | backslash
  | code (high low : UInt8) (hhigh : Ascii.isHexDigit high = true)
    (hlow : Ascii.isHexDigit low = true)
  /-- A plus sign in the place of the first digit. -/
  | signed (low : UInt8) (hlow : Ascii.isHexDigit low = true)

namespace Piece

def text : Piece → List UInt8
  | plain b _ => [b]
  | backslash => [Ascii.backslash, Ascii.backslash]
  | code high low _ _ => [Ascii.backslash, high, low]
  | signed low _ => [Ascii.backslash, Ascii.plus, low]

/-- The byte that the piece stands for. -/
def value : Piece → UInt8
  | plain b _ => b
  | backslash => Ascii.backslash
  | code high low _ _ => UInt8.ofNat (hexDigitValue high * 16 + hexDigitValue low)
  | signed low _ => UInt8.ofNat (hexDigitValue low)

def isSigned : Piece → Bool
  | signed .. => true
  | _ => false

end Piece

/-- The pieces make up the text and stand for the bytes `out`. -/
def Denotes (ps : List Piece) (raw out : List UInt8) : Prop :=
  ps.flatMap Piece.text = raw ∧ ps.map Piece.value = out

/-! ### Reading -/

theorem digit?_latin1 : ∀ b : UInt8, Text.Numeral.digit? 16 (latin1 b) =
    (if isHexDigit b = true then some (hexDigitValue b) else none) ∧
    (latin1 b = '+' ↔ b = plus) ∧
    (isHexDigit b = true → hexDigitValue b < 16 ∧ b ≠ backslash ∧ b ≠ plus) :=
  forall_byte (by decide +kernel)

theorem escapeValue?_plus {b : UInt8} (h : isHexDigit b = true) :
    escapeValue? plus b = some (UInt8.ofNat (hexDigitValue b)) := by
  obtain ⟨hdigit, -, hsmall⟩ := digit?_latin1 b
  have hplus : latin1 plus = '+' := rfl
  have hlt : hexDigitValue b < 256 := Nat.lt_trans (hsmall h).1 (by decide)
  simp [escapeValue?, Text.Numeral.natural?, Text.Numeral.digits?, Text.Numeral.digitsFrom, hplus,
    hdigit, h, Option.filter, hlt]

theorem escapeValue?_digits {a b : UInt8} (ha : isHexDigit a = true) (hb : isHexDigit b = true) :
    escapeValue? a b = some (UInt8.ofNat (hexDigitValue a * 16 + hexDigitValue b)) := by
  obtain ⟨hdigit, hsign, hsmall⟩ := digit?_latin1 a
  obtain ⟨hdigit', -, hsmall'⟩ := digit?_latin1 b
  have hplus : latin1 a ≠ '+' := fun h => (hsmall ha).2.2 (hsign.mp h)
  have hlt : hexDigitValue a * 16 + hexDigitValue b < 256 := by
    have := (hsmall ha).1
    have := (hsmall' hb).1
    omega
  rw [if_pos ha] at hdigit
  rw [if_pos hb] at hdigit'
  simp [escapeValue?, Text.Numeral.natural?, Text.Numeral.digits?, Text.Numeral.digitsFrom, hplus,
    hdigit, hdigit', Option.filter, hlt]

/-- A numeral of two characters has a digit last, and before it a digit or a plus sign. -/
theorem of_escapeValue? {a b v : UInt8} (h : escapeValue? a b = some v) :
    isHexDigit b = true ∧ (isHexDigit a = true ∨ a = plus) := by
  obtain ⟨hdigit, hsign, -⟩ := digit?_latin1 a
  obtain ⟨hdigit', -, -⟩ := digit?_latin1 b
  by_cases hplus : a = plus
  · by_cases hb : isHexDigit b = true
    · exact ⟨hb, .inr hplus⟩
    · rw [if_neg hb] at hdigit'
      simp [escapeValue?, Text.Numeral.natural?, Text.Numeral.digits?, Text.Numeral.digitsFrom,
        hsign.mpr hplus, hdigit'] at h
  · have hne : latin1 a ≠ '+' := fun heq => hplus (hsign.mp heq)
    by_cases ha : isHexDigit a = true
    · by_cases hb : isHexDigit b = true
      · exact ⟨hb, .inl ha⟩
      · rw [if_neg hb] at hdigit'
        rw [if_pos ha] at hdigit
        simp [escapeValue?, Text.Numeral.natural?, Text.Numeral.digits?, Text.Numeral.digitsFrom,
          hne, hdigit, hdigit'] at h
    · rw [if_neg ha] at hdigit
      simp [escapeValue?, Text.Numeral.natural?, Text.Numeral.digits?, Text.Numeral.digitsFrom,
        hne, hdigit] at h

/-- A piece in front of a text stands for its byte. -/
theorem unescape?_piece (p : Piece) (raw : List UInt8) :
    unescape? (p.text ++ raw) = (unescape? raw).map (p.value :: ·) := by
  have hdo (v : UInt8) : (do return v :: (← unescape? raw)) = (unescape? raw).map (v :: ·) := by
    cases unescape? raw <;> rfl
  cases p with
  | plain b h =>
    rw [Piece.text, singleton_append, unescape?.eq_def]
    exact if_pos (bne_iff_ne.mpr h)
  | backslash =>
    rw [Piece.text, cons_append, singleton_append, unescape?.eq_def]
    rfl
  | code high low hhigh hlow =>
    have hbackslash := ((digit?_latin1 high).2.2 hhigh).2.1
    simp only [Piece.text, cons_append, nil_append, unescape?, bne_self_eq_false,
      Bool.false_eq_true, if_false, beq_iff_eq, hbackslash, escapeValue?_digits hhigh hlow,
      Option.bind_eq_bind, Option.bind_some, Piece.value]
    exact hdo _
  | signed low hlow =>
    have hplus : plus ≠ backslash := by decide
    simp only [Piece.text, cons_append, nil_append, unescape?, bne_self_eq_false,
      Bool.false_eq_true, if_false, beq_iff_eq, hplus, escapeValue?_plus hlow,
      Option.bind_eq_bind, Option.bind_some, Piece.value]
    exact hdo _

theorem Denotes.cons {ps : List Piece} {raw out : List UInt8} (h : Denotes ps raw out) (p : Piece) :
    Denotes (p :: ps) (p.text ++ raw) (p.value :: out) := by
  rw [Denotes, flatMap_cons, map_cons, h.1, h.2]
  exact ⟨rfl, rfl⟩

theorem Denotes.unescape? {ps : List Piece} {raw out : List UInt8} (h : Denotes ps raw out) :
    unescape? raw = some out := by
  obtain ⟨rfl, rfl⟩ := h
  induction ps with
  | nil => rfl
  | cons p ps ih => rw [flatMap_cons, unescape?_piece, ih, map_cons, Option.map_some]

theorem exists_denotes_of_unescape? {raw out : List UInt8} (h : unescape? raw = some out) :
    ∃ ps, Denotes ps raw out := by
  fun_induction Compiled.unescape? raw generalizing out with
  | case1 =>
    cases h
    exact ⟨[], rfl, rfl⟩
  | case2 b rest hb ih =>
    obtain ⟨out, hrest, rfl⟩ := Option.map_eq_some_iff.mp h
    obtain ⟨ps, hps⟩ := ih hrest
    exact ⟨_, hps.cons (.plain b (bne_iff_ne.mp hb))⟩
  | case3 => cases h
  | case4 b hb c rest hc ih =>
    obtain ⟨out, hrest, rfl⟩ := Option.map_eq_some_iff.mp h
    obtain ⟨ps, hps⟩ := ih hrest
    obtain rfl : c = backslash := beq_iff_eq.mp hc
    obtain rfl : b = backslash := by simpa using hb
    exact ⟨_, hps.cons .backslash⟩
  | case5 => cases h
  | case6 b hb c hc d rest ih =>
    obtain ⟨v, hv, h⟩ := Option.bind_eq_some_iff.mp h
    obtain ⟨out, hrest, heq⟩ := Option.bind_eq_some_iff.mp h
    obtain ⟨ps, hps⟩ := ih hrest
    obtain rfl : b = backslash := by simpa using hb
    obtain ⟨hd, hdigit | rfl⟩ := of_escapeValue? hv
    · rw [escapeValue?_digits hdigit hd] at hv
      cases hv
      cases heq
      exact ⟨_, hps.cons (.code c d hdigit hd)⟩
    · rw [escapeValue?_plus hd] at hv
      cases hv
      cases heq
      exact ⟨_, hps.cons (.signed d hd)⟩

/-! ### One way to take a text apart -/

/-- The byte behind a backslash tells the kinds of pieces apart. -/
theorem Piece.text_append_inj {p q : Piece} {us vs : List UInt8}
    (h : p.text ++ us = q.text ++ vs) : p = q ∧ us = vs := by
  have hdigit {b : UInt8} (hb : isHexDigit b = true) :
      b ≠ Ascii.backslash ∧ b ≠ Ascii.plus := ((digit?_latin1 b).2.2 hb).2
  have hplus : Ascii.plus ≠ Ascii.backslash := by decide
  cases p with
  | plain b hb =>
    cases q with
    | plain c hc => simpa [text] using h
    | _ => exact absurd (cons.inj h).1 hb
  | backslash =>
    cases q with
    | plain c hc => exact absurd (cons.inj h).1.symm hc
    | backslash => simpa [text] using h
    | code high low hhigh hlow =>
      exact absurd (cons.inj (cons.inj h).2).1.symm (hdigit hhigh).1
    | signed low hlow => exact absurd (cons.inj (cons.inj h).2).1.symm hplus
  | code high low hhigh hlow =>
    cases q with
    | plain c hc => exact absurd (cons.inj h).1.symm hc
    | backslash => exact absurd (cons.inj (cons.inj h).2).1 (hdigit hhigh).1
    | code high' low' hhigh' hlow' => simpa [text, and_assoc] using h
    | signed low' hlow' => exact absurd (cons.inj (cons.inj h).2).1 (hdigit hhigh).2
  | signed low hlow =>
    cases q with
    | plain c hc => exact absurd (cons.inj h).1.symm hc
    | backslash => exact absurd (cons.inj (cons.inj h).2).1 hplus
    | code high' low' hhigh' hlow' =>
      exact absurd (cons.inj (cons.inj h).2).1.symm (hdigit hhigh').2
    | signed low' hlow' => simpa [text] using h

theorem Piece.text_ne_nil (p : Piece) : p.text ≠ [] := by cases p <;> simp [text]

theorem flatMap_text_injective : Function.Injective (flatMap Piece.text) := by
  intro ps qs h
  induction ps generalizing qs with
  | nil =>
    cases qs with
    | nil => rfl
    | cons q qs => simp [q.text_ne_nil] at h
  | cons p ps ih =>
    cases qs with
    | nil => simp [p.text_ne_nil] at h
    | cons q qs =>
      rw [flatMap_cons, flatMap_cons] at h
      have ⟨hhead, htail⟩ := Piece.text_append_inj h
      rw [hhead, ih htail]

/-! ### Writing -/

def upperHexDigit (n : UInt8) : UInt8 := if n < 10 then 0x30 + n else 0x37 + n

/-- Printable bytes stand for themselves, but for the quote and the backslash; the latter is
doubled, and every other byte is written with its code. -/
def escapeByte (b : UInt8) : List UInt8 :=
  if b = Ascii.backslash then [b, b]
  else if 0x20 ≤ b ∧ b ≤ 0x7E ∧ b ≠ Ascii.doubleQuote then [b]
  else [Ascii.backslash, upperHexDigit (b / 16), upperHexDigit (b % 16)]

def escape (bs : List UInt8) : List UInt8 := bs.flatMap escapeByte

theorem upperHexDigit_code : ∀ b : UInt8, isHexDigit (upperHexDigit (b / 16)) = true ∧
    isHexDigit (upperHexDigit (b % 16)) = true ∧
    UInt8.ofNat (hexDigitValue (upperHexDigit (b / 16)) * 16 +
      hexDigitValue (upperHexDigit (b % 16))) = b :=
  forall_byte (by decide +kernel)

theorem exists_piece_of_byte (b : UInt8) :
    ∃ p : Piece, p.text = escapeByte b ∧ p.value = b ∧ p.isSigned = false := by
  unfold escapeByte
  split_ifs with hbackslash hprintable
  · rw [hbackslash]
    exact ⟨.backslash, rfl, rfl, rfl⟩
  · exact ⟨.plain b hbackslash, rfl, rfl, rfl⟩
  · have ⟨hhigh, hlow, hvalue⟩ := upperHexDigit_code b
    exact ⟨.code _ _ hhigh hlow, rfl, hvalue, rfl⟩

theorem exists_denotes_escape (bs : List UInt8) :
    ∃ ps, Denotes ps (escape bs) bs ∧ ∀ p ∈ ps, p.isSigned = false := by
  induction bs with
  | nil => exact ⟨[], ⟨rfl, rfl⟩, by simp⟩
  | cons b bs ih =>
    obtain ⟨ps, hps, hunsigned⟩ := ih
    obtain ⟨p, htext, hvalue, hsigned⟩ := exists_piece_of_byte b
    have hcons := hps.cons p
    rw [htext, hvalue] at hcons
    exact ⟨p :: ps, hcons, forall_mem_cons.mpr ⟨hsigned, hunsigned⟩⟩

theorem doubleQuote_not_mem_escape (bs : List UInt8) : doubleQuote ∉ escape bs := by
  have hbyte : ∀ b : UInt8, doubleQuote ∉ escapeByte b := forall_byte (by decide +kernel)
  intro hmem
  obtain ⟨b, -, hb⟩ := mem_flatMap.mp hmem
  exact hbyte b hb

/-! ### Byte strings -/

/-- A byte string without a quote in it ends at the next quote. -/
theorem scanTok_byteString {raw : List UInt8} (h : doubleQuote ∉ raw) (rest : List UInt8) :
    scanTok lowerC (doubleQuote :: (raw ++ doubleQuote :: rest)) =
      match unescape? raw with
      | some bs => .ok (.bytes bs, raw.length + 3)
      | none => .error .badEscape := by
  have htake : (raw ++ doubleQuote :: rest).takeWhile (· != doubleQuote) = raw := by
    apply takeWhile_append_of_stop
    · intro b hb
      exact bne_iff_ne.mpr fun heq => h (heq ▸ hb)
    · simp
  have hquoted : quoted? (raw ++ doubleQuote :: rest) = some raw := by
    rw [quoted?]
    simp [htake]
  rw [scanTok, if_neg (by decide), if_neg (by decide), if_pos (by simp),
    tail_cons, scanString_ok.mpr hquoted]
  rfl

/-- A text is read as some bytes exactly if it is made of pieces that stand for them; these are the
texts made of plain bytes, doubled backslashes and codes of two digits, and those in which a code
has a plus sign for its first digit. Bytes that are written with escapes are read back. -/
theorem byteString_read_iff (raw out : List UInt8) :
    (unescape? raw = some out ↔ ∃ ps, Denotes ps raw out) ∧
      ((∃ ps, Denotes ps raw out ∧ ∀ p ∈ ps, p.isSigned = false) ↔
        unescape? raw = some out ∧ ∀ ps, Denotes ps raw out → ∀ p ∈ ps, p.isSigned = false) ∧
      (Ascii.doubleQuote ∉ raw → ∀ rest,
        (scanTok Ascii.lowerC (Ascii.doubleQuote :: (raw ++ Ascii.doubleQuote :: rest)) =
          .ok (.bytes out, raw.length + 3) ↔ unescape? raw = some out)) ∧
      unescape? (escape out) = some out ∧ Ascii.doubleQuote ∉ escape out := by
  refine ⟨⟨exists_denotes_of_unescape?, ?_⟩, ⟨?_, ?_⟩, ?_, ?_, doubleQuote_not_mem_escape out⟩
  · rintro ⟨ps, hps⟩
    exact hps.unescape?
  · rintro ⟨ps, hps, hunsigned⟩
    refine ⟨hps.unescape?, fun qs hqs => ?_⟩
    rwa [flatMap_text_injective (hqs.1.trans hps.1.symm)]
  · rintro ⟨hread, hunsigned⟩
    obtain ⟨ps, hps⟩ := exists_denotes_of_unescape? hread
    exact ⟨ps, hps, hunsigned ps hps⟩
  · intro hraw rest
    rw [scanTok_byteString hraw]
    cases unescape? raw <;> simp
  · obtain ⟨ps, hps, -⟩ := exists_denotes_escape out
    exact hps.unescape?

/-- `A\41\\\+f`, in which each kind of piece occurs. -/
def mixedPieces : List UInt8 := [0x41, 0x5C, 0x34, 0x31, 0x5C, 0x5C, 0x5C, 0x2B, 0x66]

theorem byteString_read_iff_mixed :
    Ascii.doubleQuote ∉ mixedPieces ∧
      scanTok Ascii.lowerC (Ascii.doubleQuote :: (mixedPieces ++ Ascii.doubleQuote :: [])) =
        .ok (.bytes [0x41, 0x41, 0x5C, 0x0F], mixedPieces.length + 3) :=
  ⟨by decide, ((byteString_read_iff mixedPieces [0x41, 0x41, 0x5C, 0x0F]).2.2.1
    (by decide) []).mpr (by decide)⟩

/-- `\+f` is read as the byte 15 and is no code of two digits. -/
theorem plus_sign_read_as_digit :
    unescape? [0x5C, 0x2B, 0x66] = some [0x0F] ∧
      ¬ ∃ ps, Denotes ps [0x5C, 0x2B, 0x66] [0x0F] ∧ ∀ p ∈ ps, p.isSigned = false := by
  refine ⟨by decide, ?_⟩
  rintro ⟨ps, hps, hunsigned⟩
  have heq : ps = [.signed 0x66 (by decide)] := flatMap_text_injective hps.1
  rw [heq] at hunsigned
  exact absurd (hunsigned _ mem_cons_self) (by decide)

end Offload.Compiled
