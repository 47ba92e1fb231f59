import Mathlib.Tactic
import Offload.Text.Utf8

/-!
# Texts and their bytes

Reading the UTF-8 form of a text gives the text back, and a cut at boundaries is again the UTF-8
form of a text. A continuation byte never starts a character, so the boundaries of a text are
exactly the offsets between its characters.
-/

namespace Offload.Text

open List

variable {c : Char} {bs : List UInt8} {b : UInt8}

/-- The bytes of some text. -/
def IsUtf8 (bs : List UInt8) : Prop := ∃ cs : List Char, bs = cs.flatMap String.utf8EncodeChar

theorem isUtf8_bytes (s : String) : IsUtf8 (bytes s) := ⟨s.toList, rfl⟩

theorem isUtf8_nil : IsUtf8 [] := ⟨[], rfl⟩

theorem IsUtf8.append {xs ys : List UInt8} (hx : IsUtf8 xs) (hy : IsUtf8 ys) :
    IsUtf8 (xs ++ ys) := by
  obtain ⟨cs, rfl⟩ := hx
  obtain ⟨ds, rfl⟩ := hy
  exact ⟨cs ++ ds, by simp⟩

theorem isUtf8_singleton (h : b < 0x80) : IsUtf8 [b] := by
  refine ⟨[Ascii.latin1 b], ?_⟩
  have hb : (Ascii.latin1 b).val.toNat ≤ 0x7F := Nat.le_of_lt_succ (UInt8.lt_iff_toNat_lt.mp h)
  rw [flatMap_singleton]
  dsimp only [String.utf8EncodeChar]
  rw [if_pos hb]
  exact congrArg (fun x => [x]) UInt8.ofNat_toNat.symm

/-- Bytes of ASCII are a text. -/
theorem isUtf8_of_ascii (h : ∀ b ∈ bs, b < 0x80) : IsUtf8 bs := by
  induction bs with
  | nil => exact isUtf8_nil
  | cons b bs ih =>
    rw [forall_mem_cons] at h
    exact (isUtf8_singleton h.1).append (ih h.2)

@[simp] theorem bytes_append (s t : String) : bytes (s ++ t) = bytes s ++ bytes t := by
  simp [bytes]

@[simp] theorem bytes_empty : bytes "" = [] := by simp [bytes]

/-! ### Reading one character -/

theorem decodeFrom_begun {p : Pending} (h : lead b = .begun p) (rest : List UInt8) :
    decodeFrom none (b :: rest) = decodeFrom (some p) rest := by
  rw [decodeFrom, h]

theorem decodeFrom_whole (h : b.toNat < 0x80) (rest : List UInt8) :
    decodeFrom none (b :: rest) = Char.ofNat b.toNat :: decodeFrom none rest := by
  have hb : b < 0x80 := UInt8.lt_iff_toNat_lt.mpr h
  have hlatin : Ascii.latin1 b = Char.ofNat b.toNat := (Char.ofNat_toNat (Ascii.latin1 b)).symm
  rw [decodeFrom, lead, if_pos hb, hlatin]

theorem toNat_ofNat_of_lt {n : Nat} (h : n < 256) : (UInt8.ofNat n).toNat = n := by
  simpa using h

/-- The last six bits of a number as a continuation byte. -/
theorem toNat_continuation (n : Nat) : (UInt8.ofNat (n % 0x40 + 0x80)).toNat = n % 64 + 0x80 :=
  toNat_ofNat_of_lt (by omega)

theorem continuation_bounds (n : Nat) :
    0x80 ≤ UInt8.ofNat (n % 0x40 + 0x80) ∧ UInt8.ofNat (n % 0x40 + 0x80) ≤ 0xBF := by
  simp only [UInt8.le_iff_toNat_le, toNat_continuation, UInt8.reduceToNat]
  omega

theorem code_continuation (n : Nat) :
    n / 64 * 64 + ((UInt8.ofNat (n % 0x40 + 0x80)).toNat - 0x80) = n := by
  rw [toNat_continuation]
  omega

section

variable {n : Nat} {low high : UInt8}
  (h : low ≤ UInt8.ofNat (n % 0x40 + 0x80) ∧ UInt8.ofNat (n % 0x40 + 0x80) ≤ high)
include h

/-- A byte in the range that is due adds the last six bits of a number to those before. -/
theorem decodeFrom_more (more : Nat) (rest : List UInt8) :
    decodeFrom (some ⟨n / 64, low, high, more + 1⟩) (UInt8.ofNat (n % 0x40 + 0x80) :: rest) =
      decodeFrom (some ⟨n, 0x80, 0xBF, more⟩) rest := by
  rw [decodeFrom]
  simp only [h.1, h.2, decide_true, Bool.and_self, reduceIte, code_continuation]

/-- The last byte completes the character. -/
theorem decodeFrom_last (rest : List UInt8) :
    decodeFrom (some ⟨n / 64, low, high, 0⟩) (UInt8.ofNat (n % 0x40 + 0x80) :: rest) =
      Char.ofNat n :: decodeFrom none rest := by
  rw [decodeFrom]
  simp only [h.1, h.2, decide_true, Bool.and_self, reduceIte, code_continuation]

end

/-- A byte that begins a character of two bytes. -/
theorem lead_two {n : Nat} (hl : 2 ≤ n) (hh : n < 0x20) :
    lead (UInt8.ofNat (n % 0x20 + 0xC0)) = .begun ⟨n, 0x80, 0xBF, 0⟩ := by
  have hb : (UInt8.ofNat (n % 0x20 + 0xC0)).toNat = n + 0xC0 := by
    rw [toNat_ofNat_of_lt (by omega), Nat.mod_eq_of_lt hh]
  unfold lead
  simp only [UInt8.lt_iff_toNat_lt, UInt8.reduceToNat, hb]
  rw [if_neg (by omega), if_neg (by omega), if_pos (by omega), Nat.add_sub_cancel]

/-- A byte that begins a character of three bytes: its second byte excludes overlong forms and
surrogates. -/
theorem lead_three {n : Nat} (hl : 0x20 ≤ n) (hh : n < 0x400) (hvalid : n < 0x360 ∨ 0x380 ≤ n) :
    ∃ low high, lead (UInt8.ofNat (n / 64 % 0x10 + 0xE0)) = .begun ⟨n / 64, low, high, 1⟩ ∧
      low ≤ UInt8.ofNat (n % 0x40 + 0x80) ∧ UInt8.ofNat (n % 0x40 + 0x80) ≤ high := by
  have hb : (UInt8.ofNat (n / 64 % 0x10 + 0xE0)).toNat = n / 64 + 0xE0 := by
    rw [toNat_ofNat_of_lt (by omega), Nat.mod_eq_of_lt (by omega)]
  have hx := continuation_bounds n
  unfold lead
  simp only [UInt8.lt_iff_toNat_lt, UInt8.le_iff_toNat_le, beq_iff_eq, ← UInt8.toNat_inj,
    UInt8.reduceToNat, toNat_continuation, hb] at hx ⊢
  rw [if_neg (by omega), if_neg (by omega), if_neg (by omega)]
  split_ifs with h₁ h₂ h₃
  · exact ⟨0xA0, 0xBF, by simp [show n / 64 = 0 by omega], by simp; omega, hx.2⟩
  · exact ⟨0x80, 0x9F, by simp [show n / 64 = 0xD by omega], hx.1, by simp; omega⟩
  · exact ⟨0x80, 0xBF, by simp, hx⟩
  all_goals omega

/-- A byte that begins a character of four bytes: its second byte excludes overlong forms and code
points past the last. -/
theorem lead_four {n : Nat} (hl : 0x10 ≤ n) (hh : n < 0x110) :
    ∃ low high, lead (UInt8.ofNat (n / 64 % 0x08 + 0xF0)) = .begun ⟨n / 64, low, high, 2⟩ ∧
      low ≤ UInt8.ofNat (n % 0x40 + 0x80) ∧ UInt8.ofNat (n % 0x40 + 0x80) ≤ high := by
  have hb : (UInt8.ofNat (n / 64 % 0x08 + 0xF0)).toNat = n / 64 + 0xF0 := by
    rw [toNat_ofNat_of_lt (by omega), Nat.mod_eq_of_lt (by omega)]
  have hx := continuation_bounds n
  unfold lead
  simp only [UInt8.lt_iff_toNat_lt, UInt8.le_iff_toNat_le, beq_iff_eq, ← UInt8.toNat_inj,
    UInt8.reduceToNat, toNat_continuation, hb] at hx ⊢
  rw [if_neg (by omega), if_neg (by omega), if_neg (by omega), if_neg (by omega),
    if_neg (by omega), if_neg (by omega)]
  split_ifs with h₁ h₂ h₃
  · exact ⟨0x90, 0xBF, by simp [show n / 64 = 0 by omega], by simp; omega, hx.2⟩
  · exact ⟨0x80, 0xBF, by simp, hx⟩
  · exact ⟨0x80, 0x8F, by simp [show n / 64 = 4 by omega], hx.1, by simp; omega⟩
  · omega

/-- Reading undoes writing, one character at a time. -/
theorem decodeFrom_encodeChar (c : Char) (rest : List UInt8) :
    decodeFrom none (String.utf8EncodeChar c ++ rest) = c :: decodeFrom none rest := by
  have hvalid : c.val.toNat < 0xD800 ∨ 0xDFFF < c.val.toNat ∧ c.val.toNat < 0x110000 := c.valid
  have hchar : Char.ofNat c.val.toNat = c := Char.ofNat_toNat c
  dsimp only [String.utf8EncodeChar]
  generalize c.val.toNat = n at hvalid hchar ⊢
  rw [show n / 4096 = n / 64 / 64 by omega, show n / 262144 = n / 64 / 64 / 64 by omega]
  have hlast := continuation_bounds n
  split_ifs with h₁ h₂ h₃
  · have h : (UInt8.ofNat n).toNat = n := toNat_ofNat_of_lt (by omega)
    have hread := decodeFrom_whole (b := UInt8.ofNat n) (by omega) rest
    rwa [h, hchar] at hread
  · simp only [cons_append, nil_append]
    rw [decodeFrom_begun (lead_two (by omega) (by omega)), decodeFrom_last hlast, hchar]
  · obtain ⟨low, high, hlead, hsecond⟩ := lead_three (n := n / 64) (by omega) (by omega) (by omega)
    simp only [cons_append, nil_append]
    rw [decodeFrom_begun hlead, decodeFrom_more hsecond, decodeFrom_last hlast, hchar]
  · obtain ⟨low, high, hlead, hsecond⟩ := lead_four (n := n / 64 / 64) (by omega) (by omega)
    simp only [cons_append, nil_append]
    rw [decodeFrom_begun hlead, decodeFrom_more hsecond, decodeFrom_more (continuation_bounds _),
      decodeFrom_last hlast, hchar]

theorem decodeFrom_flatMap (cs : List Char) :
    decodeFrom none (cs.flatMap String.utf8EncodeChar) = cs := by
  induction cs with
  | nil => rfl
  | cons c cs ih => rw [flatMap_cons, decodeFrom_encodeChar, ih]

theorem ofBytes_bytes (s : String) : ofBytes (bytes s) = s := by
  rw [ofBytes, bytes, decodeFrom_flatMap, String.ofList_toList]

theorem IsUtf8.bytes_ofBytes (h : IsUtf8 bs) : bytes (ofBytes bs) = bs := by
  obtain ⟨cs, rfl⟩ := h
  rw [ofBytes, decodeFrom_flatMap, bytes, String.toList_ofList]

/-! ### Cutting a text -/

theorem isContinuation_continuation (n : Nat) :
    isContinuation (UInt8.ofNat (n % 0x40 + 0x80)) = true := by
  simp only [isContinuation, Bool.and_eq_true, decide_eq_true_eq]
  exact continuation_bounds n

theorem isContinuation_of_mem_tail (h : b ∈ (String.utf8EncodeChar c).tail) :
    isContinuation b = true := by
  dsimp only [String.utf8EncodeChar] at h
  split_ifs at h
  · simp at h
  · simp only [tail_cons, mem_singleton] at h
    rw [h]
    exact isContinuation_continuation _
  · simp only [tail_cons, mem_cons, not_mem_nil, or_false] at h
    rcases h with rfl | rfl <;> exact isContinuation_continuation _
  · simp only [tail_cons, mem_cons, not_mem_nil, or_false] at h
    rcases h with rfl | rfl | rfl <;> exact isContinuation_continuation _

theorem isBoundary_drop {start stop : Nat} (h : isBoundary bs stop = true) (hle : start ≤ stop) :
    isBoundary (bs.drop start) (stop - start) = true := by
  unfold isBoundary at h ⊢
  simp only [Bool.or_eq_true, beq_iff_eq, length_drop, getElem?_drop,
    Nat.add_sub_cancel' hle] at h ⊢
  rcases h with (h | h) | h
  · exact Or.inl (Or.inl (by omega))
  · exact Or.inl (Or.inr (by omega))
  · exact Or.inr h

/-- Both parts of a text that is cut at a boundary are texts. -/
theorem IsUtf8.cut (h : IsUtf8 bs) {offset : Nat} (hb : isBoundary bs offset = true) :
    IsUtf8 (bs.take offset) ∧ IsUtf8 (bs.drop offset) := by
  obtain ⟨cs, rfl⟩ := h
  induction cs generalizing offset with
  | nil => simpa using isUtf8_nil
  | cons c cs ih =>
    rw [flatMap_cons] at hb ⊢
    set first := String.utf8EncodeChar c with hfirst
    set rest := cs.flatMap String.utf8EncodeChar with hrest
    have hchar : IsUtf8 first := ⟨[c], by simp [hfirst]⟩
    rcases Nat.lt_or_ge offset first.length with hlt | hge
    · -- inside a character only its start is a boundary
      have hzero : offset = 0 := by
        by_contra hne
        obtain ⟨k, rfl⟩ := Nat.exists_eq_succ_of_ne_zero hne
        have hmem : first[k + 1] ∈ first.tail := by
          rw [← getElem_tail (by simpa using by omega)]
          exact getElem_mem _
        have hget : (first ++ rest)[k + 1]? = some first[k + 1] := by
          rw [getElem?_append_left hlt, getElem?_eq_getElem hlt]
        unfold isBoundary at hb
        rw [hget] at hb
        simp only [isContinuation_of_mem_tail hmem, Bool.or_eq_true, beq_iff_eq,
          length_append] at hb
        simp at hb
        omega
      subst hzero
      exact ⟨by simpa using isUtf8_nil, by simpa using hchar.append ⟨cs, hrest⟩⟩
    · have hb' := isBoundary_drop hb hge
      rw [drop_left] at hb'
      obtain ⟨htake, hdrop⟩ := ih hb'
      rw [take_append, drop_append, take_of_length_le hge, drop_eq_nil_of_le hge, nil_append]
      exact ⟨hchar.append htake, hdrop⟩

theorem isContinuation_ofNat {n : Nat} (hn : n < 256) (h : n < 0x80 ∨ 0xC0 ≤ n) :
    isContinuation (UInt8.ofNat n) = false := by
  rw [Bool.eq_false_iff]
  simp only [isContinuation, ne_eq, Bool.and_eq_true, decide_eq_true_eq, UInt8.le_iff_toNat_le,
    toNat_ofNat_of_lt hn, UInt8.reduceToNat]
  omega

theorem not_ofNat_lt {n : Nat} (hn : n < 256) (h : 0xC0 ≤ n) : ¬ UInt8.ofNat n < 0x80 := by
  simp only [UInt8.lt_iff_toNat_lt, toNat_ofNat_of_lt hn, UInt8.reduceToNat]
  omega

/-- The first byte of a character is no continuation, and an ASCII byte is all of its character. -/
theorem utf8EncodeChar_eq_cons (c : Char) :
    ∃ b tail, String.utf8EncodeChar c = b :: tail ∧ isContinuation b = false ∧
      (b < 0x80 → tail = []) := by
  dsimp only [String.utf8EncodeChar]
  split_ifs with h₁ h₂ h₃
  · have hc : c.toNat ≤ 0x7F := h₁
    exact ⟨_, _, rfl, isContinuation_ofNat (by omega) (by omega), fun _ => rfl⟩
  all_goals
    exact ⟨_, _, rfl, isContinuation_ofNat (by omega) (by omega), fun h =>
      absurd h (not_ofNat_lt (by omega) (by omega))⟩

/-- An ASCII byte stands for the character of that code only. -/
theorem eq_latin1_of_mem_utf8EncodeChar (hb : b < 0x80) (h : b ∈ String.utf8EncodeChar c) :
    c = Ascii.latin1 b := by
  obtain ⟨first, tail, hc, -, htail⟩ := utf8EncodeChar_eq_cons c
  have hdecode := decodeFrom_encodeChar c []
  rw [hc, mem_cons] at h
  rcases h with rfl | hmem
  · rw [hc, htail hb, append_nil, decodeFrom_whole (UInt8.lt_iff_toNat_lt.mp hb)] at hdecode
    rw [← (cons.inj hdecode).1]
    exact Char.ofNat_toNat (Ascii.latin1 b)
  · have hcontinuation : isContinuation b = true :=
      isContinuation_of_mem_tail (c := c) (by rw [hc]; exact hmem)
    simp only [isContinuation, Bool.and_eq_true, decide_eq_true_eq] at hcontinuation
    exact absurd hcontinuation.1 (UInt8.not_le.mpr hb)

theorem latin1_mem_of_mem_bytes {s : String} (hb : b < 0x80) (h : b ∈ bytes s) :
    Ascii.latin1 b ∈ s.toList := by
  obtain ⟨c, hc, hmem⟩ := mem_flatMap.mp h
  rwa [← eq_latin1_of_mem_utf8EncodeChar hb hmem]

theorem head?_of_head?_bytes {s : String} (hb : b < 0x80) (h : (bytes s).head? = some b) :
    s.toList.head? = some (Ascii.latin1 b) := by
  unfold bytes at h
  cases hs : s.toList with
  | nil => simp [hs] at h
  | cons c cs =>
    obtain ⟨first, tail, hc, -, -⟩ := utf8EncodeChar_eq_cons c
    have hfirst : first = b := by simpa [hs, hc] using h
    rw [head?_cons, eq_latin1_of_mem_utf8EncodeChar hb (c := c) (by simp [hc, hfirst])]

theorem bytes_injective : Function.Injective bytes := by
  intro s t h
  rw [← ofBytes_bytes s, h, ofBytes_bytes]

theorem IsUtf8.cons {b : UInt8} {tail : List UInt8} (h : IsUtf8 (b :: tail)) :
    isContinuation b = false ∧ (b < 0x80 → IsUtf8 tail) := by
  obtain ⟨cs, hcs⟩ := h
  cases cs with
  | nil => cases hcs
  | cons c cs =>
    obtain ⟨first, more, hc, hfirst, hmore⟩ := utf8EncodeChar_eq_cons c
    rw [flatMap_cons, hc, cons_append, cons.injEq] at hcs
    obtain ⟨rfl, rfl⟩ := hcs
    refine ⟨hfirst, fun hb => ?_⟩
    rw [hmore hb]
    exact ⟨cs, rfl⟩

/-- A text can be cut before and behind each of its ASCII characters. -/
theorem IsUtf8.isBoundary_of_ascii (h : IsUtf8 bs) {i : Nat} (hb : bs[i]? = some b)
    (hascii : b < 0x80) : isBoundary bs i = true ∧ isBoundary bs (i + 1) = true := by
  have hfirst : isBoundary bs i = true := by
    have hlead : isContinuation b = false := by
      rw [← UInt8.ofNat_toNat (x := b)]
      exact isContinuation_ofNat b.toNat_lt (.inl (UInt8.lt_iff_toNat_lt.mp hascii))
    simp [isBoundary, hb, hlead]
  refine ⟨hfirst, ?_⟩
  obtain ⟨hi, rfl⟩ := List.getElem?_eq_some_iff.mp hb
  have hrest := (h.cut hfirst).2
  rw [drop_eq_getElem_cons hi] at hrest
  have htail := hrest.cons.2 hascii
  cases hnext : bs[i + 1]? with
  | none =>
    have hlength := getElem?_eq_none_iff.mp hnext
    have : i + 1 = bs.length := by omega
    simp [isBoundary, this]
  | some c =>
    obtain ⟨hi', rfl⟩ := List.getElem?_eq_some_iff.mp hnext
    rw [drop_eq_getElem_cons hi'] at htail
    simp [isBoundary, hnext, htail.cons.1]

theorem slice_eq_some_iff {part : List UInt8} {start stop : Nat} :
    slice bs start stop = some part ↔
      (start ≤ stop ∧ stop ≤ bs.length ∧ isBoundary bs start = true ∧ isBoundary bs stop = true) ∧
        part = (bs.drop start).take (stop - start) := by
  unfold slice
  split_ifs with h
  · simp [h, eq_comm]
  · simp [h]

theorem IsUtf8.slice {part : List UInt8} (h : IsUtf8 bs) {start stop : Nat}
    (hs : slice bs start stop = some part) : IsUtf8 part := by
  obtain ⟨⟨hle, -, hstart, hstop⟩, rfl⟩ := slice_eq_some_iff.mp hs
  exact ((h.cut hstart).2.cut (isBoundary_drop hstop hle)).1

end Offload.Text
