import Mathlib.Data.List.TakeWhile
import Offload.Compiled.Tokenize
import Offload.Proofs.Outcome
import Offload.Proofs.Text.Utf8

/-!
# The tokens of module text

The scan of a module text as a relation: blanks, comments and tokens, one after the other, each
token with the piece of text that it takes. A token depends on its own piece and on the byte after
it only. Bytes that can continue no token are all alike there.
-/

namespace Offload.Compiled

open List Ascii

variable {c : Char} {otherwise : Except ReadFlaw (Tok × Nat)} {body bs rest : List UInt8} {n : Nat}
  {name : String} {tok : Tok} {b : UInt8}

/-- Reading the bytes from a place on gives the tokens and ends at `finish`. Every piece that a
token takes satisfies `P`. -/
inductive Lexes (P : List UInt8 → Prop) : Place → List UInt8 → List Token → Place → Prop
  | nil {place : Place} : Lexes P place [] [] place
  | newline {place finish : Place} {rest : List UInt8} {ts : List Token}
    (hrest : Lexes P ⟨place.line + 1, 1⟩ rest ts finish) :
    Lexes P place (Ascii.newline :: rest) ts finish
  | blank {place finish : Place} {b : UInt8} {rest : List UInt8} {ts : List Token}
    (hnewline : b ≠ Ascii.newline) (hblank : Ascii.isBlank b = true)
    (hrest : Lexes P ⟨place.line, place.column + 1⟩ rest ts finish) :
    Lexes P place (b :: rest) ts finish
  | comment {place finish : Place} {body rest : List UInt8} {ts : List Token}
    (hbody : Ascii.newline ∉ body) (hends : ∀ b ∈ rest.head?, b = Ascii.newline)
    (hrest : Lexes P ⟨place.line, place.column + (body.length + 1)⟩ rest ts finish) :
    Lexes P place (Ascii.semicolon :: (body ++ rest)) ts finish
  | token {place finish : Place} {b : UInt8} {body rest : List UInt8} {tok : Tok}
    {ts : List Token} (hblank : Ascii.isBlank b = false) (hsemicolon : b ≠ Ascii.semicolon)
    (hscan : scanTok b (body ++ rest) = .ok (tok, body.length + 1)) (hpiece : P (b :: body))
    (hrest : Lexes P ⟨place.line, place.column + (body.length + 1)⟩ rest ts finish) :
    Lexes P place (b :: (body ++ rest)) (⟨tok, place⟩ :: ts) finish

/-! ### Runs of bytes -/

section

variable {p : UInt8 → Bool} {xs ys : List UInt8}

theorem takeWhile_append_of_stop (hxs : ∀ x ∈ xs, p x = true) (hys : ∀ y ∈ ys.head?, p y = false) :
    (xs ++ ys).takeWhile p = xs := by
  rw [takeWhile_append_of_pos hxs]
  cases ys with
  | nil => simp
  | cons y ys => simp [hys y rfl]

/-- A run of bytes goes up to the byte behind it, and only that byte is looked at. -/
theorem exists_takeWhile (p : UInt8 → Bool) (bs : List UInt8) : ∃ body rest, bs = body ++ rest ∧
    (bs.takeWhile p = body ∧ bs.dropWhile p = rest) ∧ (∀ b ∈ body, p b = true) ∧
      (∀ b ∈ rest.head?, p b = false) ∧
        ∀ {rest'}, (∀ b ∈ rest'.head?, p b = false) → (body ++ rest').takeWhile p = body := by
  have hbody : ∀ b ∈ bs.takeWhile p, p b = true := fun b hb => mem_takeWhile_imp hb
  refine ⟨_, _, takeWhile_append_dropWhile.symm, ⟨rfl, rfl⟩, hbody, fun b hb => ?_,
    takeWhile_append_of_stop hbody⟩
  have hstop := head?_dropWhile_not p bs
  rwa [hb] at hstop

end

/-! ### The byte after a token -/

/-- A byte that continues no token. -/
def endsToken (b : UInt8) : Bool :=
  !isNameByte b && !isSign b && b != Ascii.colon && b != Ascii.doubleQuote

/-- What stands behind a token, as far as the token can tell. -/
def Alike (rest rest' : List UInt8) : Prop :=
  rest'.head? = rest.head? ∨
    (∀ b ∈ rest.head?, endsToken b = true) ∧ ∀ b ∈ rest'.head?, endsToken b = true

theorem not_isNameByte_of_endsToken (h : endsToken b = true) : isNameByte b = false := by
  simp only [endsToken, Bool.and_eq_true, Bool.not_eq_true'] at h
  exact h.1.1.1

theorem isNameByte_of_isHexDigit (h : isHexDigit b = true) : isNameByte b = true := by
  simp only [isHexDigit, isNameByte, isAlphanumeric, isAlpha, isUpper,
    isLower, isDigit, Bool.or_eq_true, Bool.and_eq_true, decide_eq_true_eq,
    UInt8.le_iff_toNat_le, UInt8.reduceToNat] at *
  omega

theorem isNameByte_of_isDigit (h : isDigit b = true) : isNameByte b = true := by
  simp [isNameByte, isAlphanumeric, h]

theorem isNameByte_of_startsFraction (h : startsFraction b = true) : isNameByte b = true := by
  simp only [startsFraction, Bool.or_eq_true, beq_iff_eq] at h
  rcases h with (rfl | rfl) | rfl <;> decide

theorem not_continues {p : UInt8 → Bool} (hp : ∀ b, p b = true → isNameByte b = true)
    (h : endsToken b = true) : p b = false := by
  have hname := not_isNameByte_of_endsToken h
  exact Bool.eq_false_iff.mpr fun hb => by simp [hp b hb] at hname

/-- A class of bytes that continue a token has the next byte or does not have it, in both texts. -/
theorem Alike.stop {rest' : List UInt8} (h : Alike rest rest') {p : UInt8 → Bool}
    (hp : ∀ b, endsToken b = true → p b = false) (hstop : ∀ b ∈ rest.head?, p b = false) :
    ∀ b ∈ rest'.head?, p b = false := by
  intro b hb
  rcases h with heq | ⟨-, hends⟩
  · exact hstop b (heq ▸ hb)
  · exact hp b (hends b hb)

/-- Only the bytes behind a piece can change, and only to bytes that are alike. -/
theorem Alike.append {rest' : List UInt8} (h : Alike rest rest') (xs : List UInt8) :
    Alike (xs ++ rest) (xs ++ rest') := by
  cases xs with
  | nil => exact h
  | cons x xs => exact .inl rfl

theorem numberTail_cons (b : UInt8) (rest : List UInt8) :
    numberTail (b :: rest) =
      if isDigit b then ((numberTail rest).1 + 1, (numberTail rest).2)
      else if startsFraction b then
        if rest.head?.any isSign then ((numberTail rest.tail).1 + 2, true)
        else ((numberTail rest).1 + 1, true)
      else (0, false) := by
  cases rest with
  | nil => simp [numberTail]
  | cons c rest =>
    rw [numberTail]
    rfl

theorem numberTail_of_stop {l : List UInt8}
    (h : ∀ b ∈ l.head?, (isDigit b || startsFraction b) = false) : numberTail l = (0, false) := by
  cases l with
  | nil => rfl
  | cons b l =>
    have hb := h b rfl
    rw [Bool.or_eq_false_iff] at hb
    simp [numberTail_cons, hb.1, hb.2]

/-- A number goes up to the byte behind it, which is looked at only for whether it continues it. -/
theorem numberTail_piece (l : List UInt8) : ∃ xs rest, l = xs ++ rest ∧
    (numberTail l).1 = xs.length ∧
      ∀ {rest'}, Alike rest rest' → numberTail (xs ++ rest') = numberTail l := by
  have hends : ∀ b, endsToken b = true → (isDigit b || startsFraction b) = false :=
    fun b => not_continues fun b hb => (Bool.or_eq_true_iff.mp hb).elim isNameByte_of_isDigit
      isNameByte_of_startsFraction
  -- An exponent takes its sign along, so the induction is on the length.
  induction hn : l.length using Nat.strong_induction_on generalizing l with
  | _ n ih =>
    cases l with
    | nil => exact ⟨[], [], rfl, rfl, fun h => numberTail_of_stop (h.stop hends (by simp))⟩
    | cons b l =>
      rw [length_cons] at hn
      obtain ⟨xs, rest, rfl, hlength, hsame⟩ := ih l.length (by omega) l rfl
      rw [numberTail_cons]
      split_ifs with hdigit hfraction hsign
      · refine ⟨b :: xs, rest, rfl, by rw [hlength, length_cons], fun h => ?_⟩
        rw [cons_append, numberTail_cons, if_pos hdigit, hsame h]
      · obtain ⟨c, l, hl⟩ : ∃ c l, xs ++ rest = c :: l := by
          apply exists_cons_of_ne_nil
          rintro hnil
          simp [hnil] at hsign
        rw [hl, length_cons] at hn
        rw [hl] at hsign ⊢
        obtain ⟨xs, rest, rfl, hlength, hsame⟩ := ih l.length (by omega) l rfl
        refine ⟨b :: c :: xs, rest, rfl, by simp [hlength], fun h => ?_⟩
        rw [cons_append, numberTail_cons, if_neg hdigit, if_pos hfraction]
        refine (if_pos hsign).trans ?_
        rw [cons_append, tail_cons, hsame h, tail_cons]
      · refine ⟨b :: xs, rest, rfl, by rw [hlength, length_cons], fun {rest'} h => ?_⟩
        have hnone : ∀ c ∈ (xs ++ rest').head?, isSign c = false :=
          (h.append xs).stop (by simp +contextual [endsToken]) fun c hc => by
            rw [Option.mem_def.mp hc] at hsign
            simpa using hsign
        rw [cons_append, numberTail_cons, if_neg hdigit, if_pos hfraction, hsame h,
          if_neg (by simpa [Option.any_eq_false] using hnone)]
      · refine ⟨[], b :: (xs ++ rest), rfl, rfl, fun h => numberTail_of_stop (h.stop hends ?_)⟩
        simp [hdigit, hfraction]

/-! ### Tokens by the pieces they take -/

section

variable {xs ys zs : List UInt8}

/-- A quoted text goes up to its quote. -/
theorem quoted?_piece (h : quoted? bs = some body) :
    ∃ rest, bs = body ++ doubleQuote :: rest ∧
      ∀ rest', quoted? (body ++ doubleQuote :: rest') = some body := by
  obtain ⟨body', rest, rfl, ⟨hbody, -⟩, -, hstop, hsame⟩ := exists_takeWhile (· != doubleQuote) bs
  simp only [quoted?, hbody] at h
  split_ifs at h with hlt
  obtain rfl := Option.some.inj h
  cases rest with
  | nil => simp at hlt
  | cons c rest =>
    obtain rfl : c = doubleQuote := by simpa using hstop c rfl
    refine ⟨rest, rfl, fun rest' => ?_⟩
    simp only [quoted?, hsame (show ∀ b ∈ (doubleQuote :: rest').head?, _ by simp)]
    rw [if_pos (by simp)]

theorem endsName (b : UInt8) (h : endsToken b = true) : (isNameByte b || b == minus) = false := by
  simp only [endsToken, isSign, Bool.and_eq_true, Bool.not_eq_true', Bool.or_eq_false_iff] at h
  simp [h.1.1.1, h.1.1.2.2]

theorem scanName_piece {sigil : UInt8} (h : scanName sigil bs = .ok (name, n)) :
    ∃ xs rest, bs = xs ++ rest ∧ n = xs.length ∧ ∀ {rest'}, Alike rest rest' →
      scanName sigil (xs ++ rest') = .ok (name, n) := by
  cases bs with
  | nil => cases h
  | cons b bs =>
    simp only [scanName] at h
    split_ifs at h with hquote hempty
    · split at h
      · rename_i body hbody
        obtain ⟨rest, rfl, hsame⟩ := quoted?_piece hbody
        obtain ⟨rfl, rfl⟩ := Prod.mk.inj (Except.ok.inj h)
        refine ⟨b :: (body ++ [doubleQuote]), rest, by simp, by simp, fun _ => ?_⟩
        simp only [cons_append, append_assoc, nil_append, scanName, hquote, if_true, hsame]
      · cases h
    · obtain ⟨body, rest, hsplit, ⟨hbody, -⟩, -, hstop, hsame⟩ :=
        exists_takeWhile (fun c => isNameByte c || c == minus) (b :: bs)
      rw [hbody] at h hempty
      obtain ⟨rfl, rfl⟩ := Prod.mk.inj (Except.ok.inj h)
      refine ⟨body, rest, hsplit, rfl, fun halike => ?_⟩
      have hwhole := hsame (halike.stop endsName hstop)
      cases body with
      | nil => exact absurd rfl hempty
      | cons c body =>
        obtain rfl := (cons.inj hsplit).1
        rw [cons_append] at hwhole ⊢
        simp only [scanName, hwhole]
        rw [if_neg hquote, if_neg hempty]

/-- A label takes the colon behind its name, and nothing else does. -/
theorem labelOr_ok {name : List UInt8} : labelOr name rest otherwise = .ok (tok, n) ↔
      rest.head? = some colon ∧ tok = .label (Text.ofBytes name) ∧ n = name.length + 1 ∨
        rest.head? ≠ some colon ∧ otherwise = .ok (tok, n) := by
  cases rest with
  | nil => simp [labelOr]
  | cons b rest =>
    simp only [labelOr, beq_iff_eq]
    split_ifs with hb
    · simp [hb, eq_comm]
    · simp [hb]

theorem Alike.head?_eq_iff (h : Alike ys zs) (hb : endsToken b = false) :
    zs.head? = some b ↔ ys.head? = some b := by
  rcases h with heq | ⟨hys, hzs⟩
  · rw [heq]
  · constructor
    · intro hhead
      simp [hzs b hhead] at hb
    · intro hhead
      simp [hys b hhead] at hb

theorem scanHex_piece (h : scanHex bs = .ok (tok, n)) : ∃ xs rest, bs = xs ++ rest ∧
    n = xs.length + 2 ∧ ∀ {rest'}, Alike rest rest' → scanHex (xs ++ rest') = .ok (tok, n) := by
  obtain ⟨body, rest, rfl, ⟨hbody, -⟩, -, hstop, hsame⟩ := exists_takeWhile isHexDigit bs
  simp only [scanHex, hbody] at h
  refine ⟨body, rest, rfl, ?_, fun halike => ?_⟩
  · split at h
    · cases h
    · split_ifs at h
      exact (Prod.mk.inj (Except.ok.inj h)).2.symm
  · have hends (b : UInt8) := not_continues (b := b) fun _ => isNameByte_of_isHexDigit
    rw [scanHex, hsame (halike.stop hends hstop)]
    exact h

/-- A label takes in a colon behind its name, which only the next byte tells. -/
theorem labelOr_piece {name : List UInt8} (h : labelOr name rest otherwise = .ok (tok, n))
    (hplain : otherwise = .ok (tok, n) → n = name.length) : ∃ more rest', rest = more ++ rest' ∧
      n = name.length + more.length ∧
      ∀ {rest''}, Alike rest' rest'' → labelOr name (more ++ rest'') otherwise = .ok (tok, n) := by
  rcases labelOr_ok.mp h with ⟨hhead, rfl, rfl⟩ | ⟨hhead, hok⟩
  · obtain ⟨rest, rfl⟩ := head?_eq_some_iff.mp hhead
    exact ⟨[colon], rest, rfl, rfl, fun _ => rfl⟩
  · exact ⟨[], rest, rfl, hplain hok, fun halike =>
      labelOr_ok.mpr (.inr ⟨mt (halike.head?_eq_iff (by decide)).mp hhead, hok⟩)⟩

theorem scanNumber_piece (h : scanNumber b bs = .ok (tok, n)) : ∃ body rest, bs = body ++ rest ∧
    n = body.length + 1 ∧
      ∀ {rest'}, Alike rest rest' → scanNumber b (body ++ rest') = .ok (tok, n) := by
  obtain ⟨xs, rest, rfl, hlength, hsame⟩ := numberTail_piece bs
  simp only [scanNumber, hlength, take_left, drop_left] at h
  obtain ⟨more, rest, rfl, hn, hlabel⟩ := labelOr_piece h (by
    intro hok
    split_ifs at hok
    · split at hok
      · exact (Prod.mk.inj (Except.ok.inj hok)).2.symm
      · cases hok
    · split at hok
      · exact (Prod.mk.inj (Except.ok.inj hok)).2.symm
      · cases hok)
  refine ⟨xs ++ more, rest, by simp, by simpa [Nat.add_right_comm] using hn, fun halike => ?_⟩
  simp only [scanNumber, append_assoc, hsame (halike.append more), hlength, take_left, drop_left]
  exact hlabel halike

/-- The head of what follows the first byte of a token is in its piece, or behind it. -/
theorem head?_append_beq (xs : List UInt8) (h : Alike ys zs) (hb : endsToken b = false) :
    ((xs ++ zs).head? == some b) = ((xs ++ ys).head? == some b) := by
  rw [Bool.eq_iff_iff, beq_iff_eq, beq_iff_eq]
  cases xs with
  | nil => exact h.head?_eq_iff hb
  | cons c xs => simp

theorem scanString_ok : scanString bs = .ok body ↔ quoted? bs = some body := by
  unfold scanString
  split
  · rename_i hbody
    rw [hbody, Except.ok.injEq, Option.some.injEq]
  · rename_i hbody
    rw [hbody]
    simp

/-- A token takes its first byte and a part of what follows. What it is depends on this piece and
on the byte behind it. -/
theorem scanTok_piece (h : scanTok b bs = .ok (tok, n)) : ∃ body rest, bs = body ++ rest ∧
    n = body.length + 1 ∧
      ∀ {rest'}, Alike rest rest' → scanTok b (body ++ rest') = .ok (tok, n) := by
  unfold scanTok at h
  by_cases hname : (b == percent || b == atSign) = true
  · rw [if_pos hname] at h
    obtain ⟨⟨name, m⟩, hscan, heq⟩ := except_bind_ok.mp h
    obtain ⟨body, rest, rfl, rfl, hsame⟩ := scanName_piece hscan
    obtain ⟨rfl, rfl⟩ := Prod.mk.inj (Except.ok.inj heq)
    refine ⟨body, rest, rfl, rfl, fun halike => ?_⟩
    rw [scanTok, if_pos hname, hsame halike]
    rfl
  rw [if_neg hname] at h
  split_ifs at h with hstring hbytes hhex hnumber hword hmark
  · obtain ⟨body, hscan, heq⟩ := except_bind_ok.mp h
    obtain ⟨rest, rfl, hsame⟩ := quoted?_piece (scanString_ok.mp hscan)
    obtain ⟨rfl, rfl⟩ := Prod.mk.inj (Except.ok.inj heq)
    refine ⟨body ++ [doubleQuote], rest, by simp, by simp, fun {rest'} _ => ?_⟩
    rw [scanTok, if_neg hname, if_pos hstring, append_assoc, singleton_append,
      scanString_ok.mpr (hsame rest')]
    rfl
  · obtain ⟨body, hscan, heq⟩ := except_bind_ok.mp h
    split at heq
    · rename_i value hvalue
      obtain ⟨tail, rfl⟩ : ∃ tail, bs = doubleQuote :: tail := by
        simpa [head?_eq_some_iff] using (Bool.and_eq_true_iff.mp hbytes).2
      obtain ⟨rest, rfl, hsame⟩ := quoted?_piece (scanString_ok.mp hscan)
      obtain ⟨rfl, rfl⟩ := Prod.mk.inj (Except.ok.inj heq)
      refine ⟨doubleQuote :: (body ++ [doubleQuote]), rest, by simp, by simp,
        fun {rest'} _ => ?_⟩
      rw [scanTok, if_neg hname, if_neg hstring, cons_append, if_pos (by simpa using hbytes),
        tail_cons, append_assoc, singleton_append, scanString_ok.mpr (hsame rest')]
      simp only [bind, Except.bind, hvalue]
      rfl
    · cases heq
  · obtain ⟨tail, rfl⟩ : ∃ tail, bs = lowerX :: tail := by
      simpa [head?_eq_some_iff] using (Bool.and_eq_true_iff.mp hhex).2
    obtain ⟨body, rest, rfl, rfl, hsame⟩ := scanHex_piece h
    refine ⟨lowerX :: body, rest, rfl, rfl, fun halike => ?_⟩
    rw [scanTok, if_neg hname, if_neg hstring, cons_append, if_neg (by simpa using hbytes),
      if_pos (by simpa using hhex)]
    exact hsame halike
  · obtain ⟨body, rest, rfl, rfl, hsame⟩ := scanNumber_piece h
    refine ⟨body, rest, rfl, rfl, fun halike => ?_⟩
    rw [scanTok, if_neg hname, if_neg hstring, head?_append_beq body halike (by decide),
      if_neg hbytes, head?_append_beq body halike (by decide), if_neg hhex, if_pos hnumber,
      hsame halike]
  · obtain ⟨xs, rest, rfl, ⟨hbody, -⟩, -, hstop, hsame⟩ := exists_takeWhile isNameByte bs
    simp only [hbody, length_cons, Nat.add_sub_cancel, drop_left] at h
    obtain ⟨more, rest, rfl, rfl, hlabel⟩ :=
      labelOr_piece h fun hok => (Prod.mk.inj (Except.ok.inj hok)).2.symm
    refine ⟨xs ++ more, rest, by simp, by simp; omega, fun halike => ?_⟩
    rw [← append_assoc] at hbytes hhex
    rw [scanTok, if_neg hname, if_neg hstring, head?_append_beq _ halike (by decide), if_neg hbytes,
      head?_append_beq _ halike (by decide), if_neg hhex, if_neg hnumber, if_pos hword]
    have hsame := hsame ((halike.append more).stop (fun _ => not_isNameByte_of_endsToken) hstop)
    simp only [append_assoc, hsame, length_cons, Nat.add_sub_cancel, drop_left]
    exact hlabel halike
  · obtain ⟨rfl, rfl⟩ := Prod.mk.inj (Except.ok.inj h)
    refine ⟨[], bs, rfl, rfl, fun halike => ?_⟩
    rw [← nil_append bs] at hbytes hhex
    rw [scanTok, if_neg hname, if_neg hstring, head?_append_beq [] halike (by decide),
      if_neg hbytes, head?_append_beq [] halike (by decide), if_neg hhex, if_neg hnumber,
      if_neg hword, if_pos hmark]

theorem scanTok_alike (h : Alike ys zs) (hscan : scanTok b (xs ++ ys) = .ok (tok, xs.length + 1)) :
    scanTok b (xs ++ zs) = .ok (tok, xs.length + 1) := by
  obtain ⟨body, rest, hsplit, hlength, hsame⟩ := scanTok_piece hscan
  obtain ⟨rfl, rfl⟩ := append_inj hsplit (Nat.succ.inj hlength)
  exact hsame h

end

/-! ### Classes of bytes and characters -/

theorem forall_byte {P : UInt8 → Prop} (h : ∀ n < 256, P (UInt8.ofNat n)) (b : UInt8) : P b := by
  have hb := h b.toNat b.toNat_lt
  rwa [UInt8.ofNat_toNat] at hb

def startsWord (b : UInt8) : Bool :=
  Ascii.isAlpha b || b == Ascii.underscore || b == Ascii.dot || b == Ascii.dollar

/-- The byte is not blank and starts no comment, no name and no string. -/
def StartsNoOther (b : UInt8) : Prop :=
  Ascii.isBlank b = false ∧ b ≠ Ascii.semicolon ∧
    (b == Ascii.percent || b == Ascii.atSign) = false ∧ (b == Ascii.doubleQuote) = false

instance : DecidablePred StartsNoOther := fun _ => inferInstanceAs (Decidable (_ ∧ _))

/-- The bytes that start a mark, a word and a number are apart. -/
theorem others_of_start : ∀ b : UInt8,
    (isMark b = true → StartsNoOther b ∧ (b == lowerC) = false ∧
      (b == zero) = false ∧ (isDigit b || isSign b) = false ∧ startsWord b = false) ∧
    (startsWord b = true → StartsNoOther b ∧ (b == zero) = false ∧
      (isDigit b || isSign b) = false) ∧
    ((isDigit b || isSign b) = true → StartsNoOther b ∧ (b == lowerC) = false ∧
      (b == lowerX) = false) :=
  forall_byte (by decide +kernel)

theorem scanTok_of_isMark (h : isMark b = true) (rest : List UInt8) :
    scanTok b rest = .ok (.mark (latin1 b), 1) := by
  obtain ⟨⟨-, -, hsigil, hquote⟩, hbytes, hhex, hnumber, hword⟩ := (others_of_start b).1 h
  rw [startsWord] at hword
  simp only [scanTok, hsigil, hquote, hbytes, hhex, hnumber, hword, h, Bool.false_and,
    Bool.false_eq_true, if_false, if_true]

theorem forall_ascii {P : Char → Prop} (h : ∀ n < 128, P (Char.ofNat n)) (c : Char)
    (hc : c.toNat < 128) : P c := by
  have hn := h c.toNat hc
  rwa [Char.ofNat_toNat] at hn

/-- An ASCII character is written as one byte. -/
theorem utf8EncodeChar_of_ascii : ∀ c : Char, c.toNat < 128 →
    String.utf8EncodeChar c = [UInt8.ofNat c.toNat] ∧ latin1 (UInt8.ofNat c.toNat) = c :=
  forall_ascii (by decide +kernel)

/-- An ASCII text has a byte for each character. -/
theorem bytes_of_ascii {s : String} (h : ∀ c ∈ s.toList, c.toNat < 128) :
    Text.bytes s = s.toList.map fun c => UInt8.ofNat c.toNat := by
  rw [Text.bytes, map_eq_flatMap]
  exact flatMap_congr fun c hc => (utf8EncodeChar_of_ascii c (h c hc)).1

/-- A character that a name may have without quotes. -/
def isNameChar (c : Char) : Bool :=
  c.isAlphanum || c == '_' || c == '.' || c == '$' || c == '-'

theorem toNat_lt_of_isNameChar (h : isNameChar c = true) : c.toNat < 128 := by
  have hle : ∀ {a : UInt32}, c.val ≤ a → a.toNat < 128 → c.toNat < 128 := fun hca ha =>
    Nat.lt_of_le_of_lt (UInt32.le_iff_toNat_le.mp hca) ha
  have hclass : isNameChar c = (decide (c.val ≥ 65 ∧ c.val ≤ 90) || c.val ≥ 97 && c.val ≤ 122 ||
      c.val ≥ 48 && c.val ≤ 57 || c == '_' || c == '.' || c == '$' || c == '-') := rfl
  simp only [hclass, Bool.or_eq_true, Bool.and_eq_true, decide_eq_true_eq, beq_iff_eq] at h
  rcases h with ((((((h | h) | h) | h) | h) | h) | h)
  · exact hle h.2 (by decide)
  · exact hle h.2 (by decide)
  · exact hle h.2 (by decide)
  all_goals
    rw [h]
    decide

/-- The byte of an ASCII character is in the classes that the character is in. -/
theorem classes_of_ascii : ∀ c : Char, c.toNat < 128 →
    isDigit (UInt8.ofNat c.toNat) = c.isDigit ∧
      (UInt8.ofNat c.toNat == minus) = (c == '-') ∧
      (isNameByte (UInt8.ofNat c.toNat) || UInt8.ofNat c.toNat == minus) = isNameChar c :=
  forall_ascii (by decide +kernel)

/-! ### Texts that are one token -/

/-- A name that is written without quotes. -/
def IsName (name : String) : Prop := name ≠ "" ∧ ∀ c ∈ name.toList, isNameChar c = true

-- Over the characters of the name: the instance for all characters would try each of them.
instance (name : String) : Decidable (IsName name) :=
  decidable_of_iff (name ≠ "" ∧ name.toList.all isNameChar = true) <| by
    rw [IsName, all_eq_true]

/-- Alone, the text is the one token. -/
def IsToken (w : String) (tok : Tok) : Prop :=
  ∃ b body, Text.bytes w = b :: body ∧ Ascii.isBlank b = false ∧ b ≠ Ascii.semicolon ∧
    scanTok b body = .ok (tok, body.length + 1)

/-- Before a byte that ends it, the text is the token as well. -/
theorem IsToken.scanTok_append {w : String} (h : IsToken w tok) :
    ∃ b body, Text.bytes w = b :: body ∧ isBlank b = false ∧ b ≠ semicolon ∧
      ∀ rest, (∀ c ∈ rest.head?, endsToken c = true) →
        scanTok b (body ++ rest) = .ok (tok, body.length + 1) := by
  obtain ⟨b, body, hw, hblank, hsemicolon, hscan⟩ := h
  refine ⟨b, body, hw, hblank, hsemicolon, ?_⟩
  intro rest hends
  rw [← append_nil body] at hscan
  have halike : Alike [] rest := .inr ⟨by simp, hends⟩
  exact scanTok_alike halike (by simpa using hscan)

theorem IsName.forall_bytes (h : IsName name) :
    Text.bytes name ≠ [] ∧ ∀ b ∈ Text.bytes name, (isNameByte b || b == minus) = true := by
  obtain ⟨hne, hchars⟩ := h
  rw [bytes_of_ascii fun c hc => toNat_lt_of_isNameChar (hchars c hc)]
  constructor
  · simpa using hne
  · intro b hb
    obtain ⟨c, hc, rfl⟩ := mem_map.mp hb
    rw [(classes_of_ascii c (toNat_lt_of_isNameChar (hchars c hc))).2.2, hchars c hc]

theorem scanName_of_isName (h : IsName name) (sigil : UInt8) :
    scanName sigil (Text.bytes name) = .ok (name, (Text.bytes name).length) := by
  obtain ⟨hne, hbytes⟩ := h.forall_bytes
  have hname := Text.ofBytes_bytes name
  generalize Text.bytes name = bs at hne hbytes hname
  cases bs with
  | nil => exact absurd rfl hne
  | cons b bs =>
    have hquote : (b == doubleQuote) = false := by
      rw [beq_eq_false_iff_ne]
      rintro rfl
      have := hbytes _ mem_cons_self
      revert this
      decide
    have hall : (b :: bs).takeWhile (fun c => isNameByte c || c == minus) = b :: bs :=
      takeWhile_eq_self_iff.mpr hbytes
    simp only [scanName, hquote, hall, Bool.false_eq_true, if_false, hname]
    rfl

theorem isToken_value (h : IsName name) : IsToken ("%" ++ name) (.value name) := by
  refine ⟨percent, Text.bytes name, ?_, by decide, by decide, ?_⟩
  · rw [Text.bytes_append]
    rfl
  · rw [scanTok, if_pos (by decide), scanName_of_isName h]
    rfl

theorem isToken_symbol (h : IsName name) : IsToken ("@" ++ name) (.symbol name) := by
  refine ⟨atSign, Text.bytes name, ?_, by decide, by decide, ?_⟩
  · rw [Text.bytes_append]
    rfl
  · rw [scanTok, if_pos (by decide), scanName_of_isName h]
    rfl

/-- A word: no number, and written without quotes. -/
def IsWord (w : String) : Prop :=
  IsName w ∧ '-' ∉ w.toList ∧ ∀ c ∈ w.toList.head?, c.isDigit = false

instance (w : String) : Decidable (IsWord w) :=
  decidable_of_iff (IsName w ∧ '-' ∉ w.toList ∧ w.toList.head?.all (!·.isDigit) = true) <| by
    simp [IsWord, Option.all_eq_true]

theorem isNameByte_of_ne_minus (h : isNameChar c = true) (hminus : c ≠ '-') :
    isNameByte (UInt8.ofNat c.toNat) = true := by
  obtain ⟨-, hsame, hclass⟩ := classes_of_ascii c (toNat_lt_of_isNameChar h)
  rwa [hsame, beq_false_of_ne hminus, Bool.or_false, h] at hclass

theorem startsWord_of_isNameChar (h : isNameChar c = true) (hminus : c ≠ '-')
    (hdigit : c.isDigit = false) : startsWord (UInt8.ofNat c.toNat) = true := by
  have hname := isNameByte_of_ne_minus h hminus
  rwa [isNameByte, isAlphanumeric, (classes_of_ascii c (toNat_lt_of_isNameChar h)).1, hdigit,
    Bool.or_false] at hname

theorem scanTok_word (hstart : startsWord b = true) (hbody : ∀ c ∈ body, isNameByte c = true) :
    scanTok b body = .ok (.word (Text.ofBytes (b :: body)), body.length + 1) := by
  obtain ⟨⟨-, -, hsigil, hquote⟩, hzero, hnumber⟩ := (others_of_start b).2.1 hstart
  have hstring : (body.head? == some doubleQuote) = false := by
    cases body with
    | nil => rfl
    | cons c body =>
      simp only [head?_cons, beq_eq_false_iff_ne, ne_eq, Option.some.injEq]
      rintro rfl
      exact absurd (hbody doubleQuote mem_cons_self) (by decide)
  have hall : body.takeWhile isNameByte = body := takeWhile_eq_self_iff.mpr hbody
  rw [startsWord] at hstart
  simp only [scanTok, hsigil, hquote, hzero, hnumber, hstart, hstring, hall, Bool.and_false,
    Bool.false_and, Bool.false_eq_true, if_false, if_true, length_cons, Nat.add_sub_cancel,
    drop_length, labelOr]

theorem isToken_word {w : String} (h : IsWord w) : IsToken w (.word w) := by
  obtain ⟨⟨hne, hchars⟩, hminus, hfirst⟩ := h
  have hbytes := bytes_of_ascii fun c hc => toNat_lt_of_isNameChar (hchars c hc)
  cases hw : w.toList with
  | nil => exact absurd (String.toList_eq_nil_iff.mp hw) hne
  | cons c cs =>
    rw [hw] at hbytes hchars hminus hfirst
    rw [forall_mem_cons] at hchars
    rw [mem_cons, not_or] at hminus
    have hstart := startsWord_of_isNameChar hchars.1 (Ne.symm hminus.1) (hfirst c rfl)
    have hbody : ∀ b ∈ cs.map fun c => UInt8.ofNat c.toNat, isNameByte b = true := by
      intro b hb
      obtain ⟨d, hd, rfl⟩ := mem_map.mp hb
      exact isNameByte_of_ne_minus (hchars.2 d hd) fun heq => hminus.2 (heq ▸ hd)
    obtain ⟨⟨hblank, hsemicolon, -⟩, -⟩ := (others_of_start _).2.1 hstart
    refine ⟨_, _, hbytes, hblank, hsemicolon, ?_⟩
    have hname := Text.ofBytes_bytes w
    rw [hbytes, map_cons] at hname
    rw [scanTok_word hstart hbody, hname]

theorem toNat_lt_of_isDigit (h : c.isDigit = true) : c.toNat < 128 :=
  toNat_lt_of_isNameChar (by simp [isNameChar, Char.isAlphanum, h])

theorem digit?_of_isDigit (h : c.isDigit = true) :
    Text.Numeral.digit? 10 c = some (c.toNat - '0'.toNat) := by
  have hle : c.toNat ≤ 57 := (Char.isDigit_iff_toNat.mp h).2
  have hlt : c.toNat - '0'.toNat < 10 := Nat.lt_succ_of_le (Nat.sub_le_sub_right hle 48)
  simp only [Text.Numeral.digit?, h, if_true, Option.filter, decide_eq_true hlt]

theorem digitsFrom_eq {cs : List Char} (h : ∀ c ∈ cs, c.isDigit = true) (value : Nat) :
    Text.Numeral.digitsFrom 10 value cs = some (Nat.ofDigitChars 10 cs value) := by
  induction cs generalizing value with
  | nil => rfl
  | cons c cs ih =>
    obtain ⟨hc, hcs⟩ := forall_mem_cons.mp h
    rw [Text.Numeral.digitsFrom, digit?_of_isDigit hc, Nat.ofDigitChars_cons, Nat.mul_comm 10 value]
    exact ih hcs _

theorem isDigit_of_mem_toDigits : ∀ c ∈ Nat.toDigits 10 n, c.isDigit = true :=
  fun _ => Nat.isDigit_of_mem_toDigits (by decide) le_rfl

/-- The digits of a number are a numeral for it. -/
theorem digits?_toDigits (n : Nat) : Text.Numeral.digits? 10 (Nat.toDigits 10 n) = some n := by
  have hdigits := digitsFrom_eq (isDigit_of_mem_toDigits (n := n)) 0
  rw [Nat.ofDigitChars_ten_toDigits] at hdigits
  have hne : Nat.toDigits 10 n ≠ [] := Nat.toDigits_ne_nil
  generalize Nat.toDigits 10 n = cs at hdigits hne
  cases cs with
  | nil => exact absurd rfl hne
  | cons c cs => exact hdigits

/-- The bytes of a number are its digits. -/
theorem bytes_toDigits (n : Nat) :
    ∃ bs, Text.bytes (String.ofList (Nat.toDigits 10 n)) = bs ∧ bs ≠ [] ∧
      (∀ b ∈ bs, isDigit b = true) ∧ bs.map latin1 = Nat.toDigits 10 n := by
  have hascii : ∀ c ∈ (String.ofList (Nat.toDigits 10 n)).toList, c.toNat < 128 := by
    intro c hc
    rw [String.toList_ofList] at hc
    exact toNat_lt_of_isDigit (isDigit_of_mem_toDigits c hc)
  refine ⟨_, bytes_of_ascii hascii, ?_, ?_, ?_⟩
  · simp [Nat.toDigits_ne_nil]
  · intro b hb
    obtain ⟨c, hc, rfl⟩ := mem_map.mp hb
    rw [String.toList_ofList] at hc
    have hdigit := isDigit_of_mem_toDigits c hc
    rw [(classes_of_ascii c (toNat_lt_of_isDigit hdigit)).1, hdigit]
  · rw [map_map, String.toList_ofList]
    nth_rewrite 2 [← map_id (Nat.toDigits 10 n)]
    apply map_congr_left
    intro c hc
    exact (utf8EncodeChar_of_ascii c (toNat_lt_of_isDigit (isDigit_of_mem_toDigits c hc))).2

theorem numberTail_digits (h : ∀ b ∈ bs, isDigit b = true) :
    numberTail bs = (bs.length, false) := by
  induction bs with
  | nil => rfl
  | cons b bs ih =>
    obtain ⟨hb, hbs⟩ := forall_mem_cons.mp h
    rw [numberTail_cons, if_pos hb, ih hbs, length_cons]

/-- A sign or a digit with digits behind it. -/
theorem scanTok_digits {v : Int} (hb : (isDigit b || isSign b) = true)
    (hbody : ∀ c ∈ body, isDigit c = true)
    (hv : Text.Numeral.integer? ((b :: body).map latin1) = some v) :
    scanTok b body = .ok (.int v, body.length + 1) := by
  obtain ⟨⟨-, -, hsigil, hquote⟩, hbytes, -⟩ := (others_of_start b).2.2 hb
  have hhex : (body.head? == some lowerX) = false := by
    cases body with
    | nil => rfl
    | cons c body =>
      have := ((others_of_start c).2.2 (by simp [hbody c mem_cons_self])).2.2
      simpa using this
  simp only [scanTok, hsigil, hquote, hbytes, hhex, hb, Bool.false_and, Bool.and_false,
    Bool.false_eq_true, if_false, if_true, scanNumber, numberTail_digits hbody, take_length,
    drop_length, labelOr, hv, length_cons]

theorem isToken_nat (h : n < 2 ^ 63) : IsToken (toString n) (.int n) := by
  obtain ⟨bs, hbytes, hne, hdigits, hchars⟩ := bytes_toDigits n
  rw [IsToken, Nat.toString_eq_ofList_toDigits, hbytes]
  cases bs with
  | nil => exact absurd rfl hne
  | cons b bs =>
    obtain ⟨hb, hbs⟩ := forall_mem_cons.mp hdigits
    have hclass : (isDigit b || isSign b) = true := by simp [hb]
    obtain ⟨⟨hblank, hsemicolon, -⟩, -⟩ := (others_of_start b).2.2 hclass
    refine ⟨b, bs, rfl, hblank, hsemicolon, scanTok_digits hclass hbs ?_⟩
    have hfirst : ∀ c cs, Nat.toDigits 10 n = c :: cs → c.isDigit = true :=
      fun c cs hcs => isDigit_of_mem_toDigits c (by rw [hcs]; exact mem_cons_self)
    rw [hchars]
    unfold Text.Numeral.integer?
    split
    · rename_i heq
      exact absurd (hfirst _ _ heq) (by decide)
    · rename_i heq
      exact absurd (hfirst _ _ heq) (by decide)
    · rw [digits?_toDigits]
      have hbound : n < Text.Numeral.signedBound := h
      rw [Option.filter_some, if_pos (by simpa using hbound)]
      rfl

theorem isToken_int {v : Int} (hlow : -2 ^ 63 ≤ v) (hhigh : v < 2 ^ 63) :
    IsToken (toString v) (.int v) := by
  cases v with
  | ofNat n => exact isToken_nat (by simp only [Int.ofNat_eq_natCast] at hhigh; omega)
  | negSucc n =>
    obtain ⟨bs, hbytes, -, hdigits, hchars⟩ := bytes_toDigits (n + 1)
    refine ⟨minus, bs, ?_, by decide, by decide, scanTok_digits (by decide) hdigits ?_⟩
    · change Text.bytes ("-" ++ (n + 1).repr) = _
      rw [Text.bytes_append, Nat.repr_eq_ofList_toDigits, hbytes]
      rfl
    · have hsign : latin1 minus = '-' := rfl
      rw [map_cons, hchars, hsign, Text.Numeral.integer?, digits?_toDigits]
      have hbound : n + 1 ≤ Text.Numeral.signedBound := by
        unfold Text.Numeral.signedBound
        omega
      rw [Option.filter_some, if_pos (by simpa using hbound)]
      rfl

/-! ### The scan as a relation -/

/-- A comment ends before the first newline. -/
theorem takeWhile_comment (hbody : newline ∉ body) (hends : ∀ b ∈ rest.head?, b = newline) :
    (semicolon :: (body ++ rest)).takeWhile (· != newline) = semicolon :: body := by
  rw [← cons_append]
  apply takeWhile_append_of_stop
  · intro b hb
    rcases mem_cons.mp hb with rfl | hb
    · decide
    · exact bne_iff_ne.mpr fun heq => hbody (heq ▸ hb)
  · intro b hb
    simp [hends b hb]

theorem Lexes.tokensFrom {P : List UInt8 → Prop} {place finish : Place} {ts : List Token}
    (h : Lexes P place bs ts finish) {fuel : Nat} (hfuel : bs.length < fuel) :
    tokensFrom fuel place bs = .ok ⟨ts, finish⟩ := by
  induction h generalizing fuel with
    obtain ⟨fuel, rfl⟩ := exists_eq_succ hfuel
  | nil => rfl
  | newline hrest ih =>
    rw [length_cons] at hfuel
    rw [Compiled.tokensFrom, if_pos (by decide)]
    exact ih (by omega)
  | blank hnewline hblank hrest ih =>
    rw [length_cons] at hfuel
    rw [Compiled.tokensFrom, if_neg (by simpa using hnewline), if_pos hblank]
    exact ih (by omega)
  | @comment place finish body rest ts hbody hends hrest ih =>
    rw [length_cons, length_append] at hfuel
    rw [Compiled.tokensFrom, if_neg (by decide), if_neg (by decide), if_pos (by decide)]
    simp only [takeWhile_comment hbody hends]
    rw [← cons_append, drop_left]
    exact ih (by omega)
  | @token place finish b body rest tok ts hblank hsemicolon hscan hpiece hrest ih =>
    rw [length_cons, length_append] at hfuel
    have hnewline : (b == Ascii.newline) = false := by
      simp [Ascii.isBlank] at hblank
      simpa using hblank.1.1.2
    rw [Compiled.tokensFrom, if_neg (by simp [hnewline]), if_neg (by simp [hblank]),
      if_neg (by simpa using hsemicolon), hscan]
    simp only
    rw [← cons_append, ← length_cons, drop_left, length_cons, ih (by omega)]
    rfl

/-- The pieces of text that the tokens take. -/
def piecesFrom : Nat → List UInt8 → List (List UInt8)
  | 0, _ => []
  | _ + 1, [] => []
  | fuel + 1, b :: rest =>
    if Ascii.isBlank b then piecesFrom fuel rest
    else if b == Ascii.semicolon then
      piecesFrom fuel ((b :: rest).dropWhile (· != Ascii.newline))
    else
      match scanTok b rest with
      | .error _ => []
      | .ok (_, n) => (b :: rest).take n :: piecesFrom fuel ((b :: rest).drop n)

theorem lexes_of_tokensFrom {P : List UInt8 → Prop} {fuel : Nat} {place finish : Place}
    {ts : List Token} (h : tokensFrom fuel place bs = .ok ⟨ts, finish⟩) (hfuel : bs.length < fuel)
    (hP : ∀ piece ∈ piecesFrom fuel bs, P piece) : Lexes P place bs ts finish := by
  induction fuel generalizing place bs ts with
  | zero => simp at hfuel
  | succ fuel ih =>
    cases bs with
    | nil =>
      cases h
      exact .nil
    | cons b rest =>
      rw [length_cons] at hfuel
      rw [Compiled.tokensFrom] at h
      rw [piecesFrom] at hP
      by_cases hnewline : (b == newline) = true
      · obtain rfl := beq_iff_eq.mp hnewline
        rw [if_pos hnewline] at h
        rw [if_pos (by decide)] at hP
        exact .newline (ih h (by omega) hP)
      rw [if_neg hnewline] at h
      by_cases hblank : isBlank b = true
      · rw [if_pos hblank] at h hP
        exact .blank (by simpa using hnewline) hblank (ih h (by omega) hP)
      rw [if_neg hblank] at h hP
      by_cases hsemicolon : (b == semicolon) = true
      · obtain rfl := beq_iff_eq.mp hsemicolon
        rw [if_pos hsemicolon] at h hP
        obtain ⟨body, rest', rfl, ⟨htake, hdrop⟩, hbody, hstop, -⟩ :=
          exists_takeWhile (· != newline) rest
        rw [dropWhile_cons_of_pos (by decide), hdrop] at hP
        simp only [takeWhile_cons_of_pos (p := (· != newline))
          (show (semicolon != newline) = true by decide), htake, length_cons,
          drop_succ_cons, drop_left] at h
        rw [length_append] at hfuel
        refine .comment ?_ ?_ (ih h (by omega) hP)
        · exact fun hmem => absurd (hbody _ hmem) (by decide)
        · exact fun c hc => by simpa using hstop c hc
      rw [if_neg hsemicolon] at h hP
      cases hscan : scanTok b rest with
      | error flaw =>
        rw [hscan] at h
        cases h
      | ok result =>
        obtain ⟨tok, n⟩ := result
        rw [hscan] at h hP
        obtain ⟨others, hothers, heq⟩ := except_bind_ok.mp h
        obtain ⟨body, rest', rfl, rfl, -⟩ := scanTok_piece hscan
        rw [length_append] at hfuel
        simp only [take_succ_cons, take_left, drop_succ_cons, drop_left,
          forall_mem_cons] at hothers hP
        cases heq
        exact .token (by simpa using hblank) (by simpa using hsemicolon) hscan hP.1
          (ih hothers (by omega) hP.2)

end Offload.Compiled
