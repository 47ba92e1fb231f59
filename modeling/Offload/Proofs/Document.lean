import Mathlib.Data.List.DropRight
import Offload.Document

/-!
# Lines and columns

The line of an offset is told by the newlines before it, and its column by how far back the last of
them lies. Each byte passed makes the line or, within a line, the column larger, so a position in a
text and its line and column determine each other.
-/

namespace Offload.Document

open List

variable {doc : Document} {a b : Nat}

theorem lt_of_mem_startsAfter {pos start : Nat} {bs : List UInt8}
    (h : start ∈ startsAfter pos bs) : pos < start := by
  induction bs generalizing pos with
  | nil => cases h
  | cons b rest ih =>
    rw [startsAfter] at h
    split at h
    · rcases mem_cons.mp h with rfl | h
      · exact Nat.lt_succ_self pos
      · exact Nat.lt_of_succ_lt (ih h)
    · exact Nat.lt_of_succ_lt (ih h)

/-- The lines that start up to an offset are those of the bytes before it. -/
theorem takeWhile_startsAfter (pos n : Nat) (bs : List UInt8) :
    (startsAfter pos bs).takeWhile (· ≤ pos + n) = startsAfter pos (bs.take n) := by
  induction bs generalizing pos n with
  | nil => simp [startsAfter]
  | cons b rest ih =>
    cases n with
    | zero =>
      have hnone : ∀ start ∈ startsAfter pos (b :: rest), ¬ start ≤ pos := fun start hstart =>
        Nat.not_le.mpr (lt_of_mem_startsAfter hstart)
      simpa [startsAfter, takeWhile_eq_nil_iff] using fun hpos =>
        hnone _ (getElem_mem hpos)
    | succ n =>
      have hrest := ih (pos + 1) n
      rw [Nat.add_right_comm] at hrest
      rw [take_succ_cons, startsAfter, startsAfter]
      split
      · rw [takeWhile_cons_of_pos (by simp), ← Nat.add_assoc, hrest]
      · rw [← Nat.add_assoc, hrest]

theorem startsAfter_concat (pos : Nat) (bs : List UInt8) (b : UInt8) :
    startsAfter pos (bs ++ [b]) =
      startsAfter pos bs ++ if b == Ascii.newline then [pos + bs.length + 1] else [] := by
  induction bs generalizing pos with
  | nil => simp [startsAfter]
  | cons c rest ih =>
    rw [cons_append, startsAfter, startsAfter, ih, length_cons, Nat.add_right_comm pos 1,
      Nat.add_assoc pos]
    split <;> rfl

/-- As many lines start behind the first one as there are newlines. -/
theorem length_startsAfter (pos : Nat) (bs : List UInt8) :
    (startsAfter pos bs).length = bs.count Ascii.newline := by
  induction bs generalizing pos with
  | nil => rfl
  | cons b rest ih =>
    rw [startsAfter, count_cons, ← ih (pos + 1)]
    split <;> rfl

/-- The last line starts behind the last newline. -/
theorem getLastD_startsAfter (bs : List UInt8) :
    (startsAfter 0 bs).getLastD 0 + (bs.rtakeWhile (· != Ascii.newline)).length = bs.length := by
  induction bs using List.reverseRecOn with
  | nil => rfl
  | append_singleton bs b ih =>
    rw [startsAfter_concat]
    by_cases hb : b = Ascii.newline
    · subst hb
      rw [rtakeWhile_concat_neg _ _ _ (by simp)]
      simp
    · rw [rtakeWhile_concat_pos _ _ _ (by simpa using hb), if_neg (by simpa using hb),
        append_nil, length_append, length_append]
      omega

theorem lineColumn_eq (h : a ≤ doc.length) : doc.lineColumn a =
    ⟨1 + (doc.bytes.take a).count Ascii.newline,
      1 + ((doc.bytes.take a).rtakeWhile (· != Ascii.newline)).length⟩ := by
  have hstarts : doc.lineStarts.takeWhile (· ≤ a) = 0 :: startsAfter 0 (doc.bytes.take a) := by
    have htake := takeWhile_startsAfter 0 a doc.bytes
    rw [Nat.zero_add] at htake
    rw [lineStarts, takeWhile_cons_of_pos (by simp), htake]
  have hlast := getLastD_startsAfter (doc.bytes.take a)
  rw [length_take_of_le h] at hlast
  rw [lineColumn, hstarts, length_cons, length_startsAfter, getLastD_cons, Nat.add_comm]
  congr 1
  omega

/-- Further on in the text the line is greater, or it is the same and the column is greater. -/
theorem lineColumn_lt (hab : a < b) (hb : b ≤ doc.length) :
    (doc.lineColumn a).line < (doc.lineColumn b).line ∨
      (doc.lineColumn a).line = (doc.lineColumn b).line ∧
        (doc.lineColumn a).column < (doc.lineColumn b).column := by
  obtain ⟨passed, hpassed, hne⟩ : ∃ passed, doc.bytes.take b = doc.bytes.take a ++ passed ∧
      0 < passed.length := by
    refine ⟨(doc.bytes.drop a).take (b - a), ?_, ?_⟩
    · rw [← take_add, Nat.add_sub_cancel' hab.le]
    · rw [length_take, length_drop]
      exact Nat.lt_min.mpr ⟨Nat.sub_pos_of_lt hab, Nat.sub_pos_of_lt (hab.trans_le hb)⟩
  rw [lineColumn_eq (hab.le.trans hb), lineColumn_eq hb, hpassed, count_append]
  simp only
  by_cases hnewline : Ascii.newline ∈ passed
  · left
    have := count_pos_iff.mpr hnewline
    omega
  · right
    have hplain : ∀ c ∈ passed.reverse, (c != Ascii.newline) = true := by
      intro c hc
      rw [bne_iff_ne]
      rintro rfl
      exact hnewline (mem_reverse.mp hc)
    rw [count_eq_zero.mpr hnewline, List.rtakeWhile, List.rtakeWhile, reverse_append,
      takeWhile_append_of_pos hplain]
    simp only [length_reverse, length_append]
    omega

end Offload.Document
