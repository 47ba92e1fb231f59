import Offload.Proofs.Source.Bracket

/-!
# Lists in brackets that pair up

In a stretch of a stream whose brackets pair up by kind every bracket is closed by its own partner,
and the stretch is split at commas outside of all its brackets. This holds although brackets are
counted without telling kinds apart and a `<` may be taken for the start of template arguments:
every scan goes from one place outside of the brackets to another.
-/

namespace Offload.Source.TokenStream

variable {ts : TokenStream} {start stop i m : Nat}

/-- The place `i` of a stretch stands in none of the brackets of the stretch. -/
structure Level (ts : TokenStream) (start stop i : Nat) : Prop where
  le : start ≤ i
  le_stop : i ≤ stop
  dyck : Dyck (ts.between start i)

namespace Level

theorem dyck_between (h : Level ts start stop i) (h' : Level ts start stop m) (him : i ≤ m) :
    Dyck (ts.between i m) := by
  have hall := h'.dyck
  rw [← between_append h.le him] at hall
  exact h.dyck.of_append hall

variable (hend : ts.Ended) (hsize : stop ≤ ts.size) (hw : Dyck (ts.between start stop))

include hsize hw

theorem step (h : Level ts start stop i) (hi : i < stop) (ho : (ts.lexeme i).opens = false) :
    Level ts start stop (i + 1) := by
  have hrest : Dyck (ts.between i stop) :=
    h.dyck_between ⟨h.le.trans hi.le, le_rfl, hw⟩ hi.le
  rw [between_cons hi (hi.trans_le hsize)] at hrest
  refine ⟨h.le.trans (Nat.le_succ i), hi, ?_⟩
  rw [← between_append h.le (Nat.le_succ i), between_cons (Nat.lt_succ_self i) (hi.trans_le hsize),
    between_self]
  exact h.dyck.append (.plain ho hrest.closes_head .nil)

include hend

theorem jump (h : Level ts start stop i) (hi : i < stop) (ho : (ts.lexeme i).opens) :
    Level ts start stop (ts.matching i + 1) := by
  have hlt := lt_matching hend ho
  obtain ⟨-, hstop, hpartner, hinner⟩ := matching_between hend hsize hw h.le hi ho
  have hpair : Dyck (ts.between i (ts.matching i + 1)) := by
    rw [between_cons (by omega) (by omega), ← between_append hlt (Nat.le_succ _),
      between_cons (Nat.lt_succ_self _) (by omega), between_self, hpartner]
    exact .pair ho hinner .nil
  have hle : i ≤ ts.matching i + 1 := by omega
  refine ⟨h.le.trans hle, hstop, ?_⟩
  rw [← between_append h.le hle]
  exact h.dyck.append hpair

end Level

theorem Tiles.dyck {group : Nat} {gs : List (Nat × Nat)} (hsize : stop ≤ ts.size)
    (hw : Dyck (ts.between start stop)) (h : Tiles ts (Level ts start stop) stop group gs)
    (hgroup : Level ts start stop group) : ∀ g ∈ gs, Dyck (ts.between g.1 g.2) := by
  induction h with
  | last group =>
    have hstop := hgroup.le.trans hgroup.le_stop
    simpa using hgroup.dyck_between ⟨hstop, le_rfl, hw⟩ hgroup.le_stop
  | comma hle hlt hcomma hi _ ih =>
    exact List.forall_mem_cons.mpr ⟨hgroup.dyck_between hi hle,
      ih (hi.step hsize hw hlt (opens_of_eq hcomma rfl))⟩

/-- In a stretch before the last token whose brackets pair up by kind, the bracket found for one that
opens is its partner, with whole pairs between the two. The groups that the stretch is split into
begin at its start and end at its end, with a comma outside of all brackets from each one to the
next, and the brackets of each group pair up. -/
theorem groups_tile_stretch (hend : ts.Ended) (hlt : start < stop) (hsize : stop < ts.size)
    (hw : Dyck (ts.between start stop)) :
    (∀ i, start ≤ i → i < stop → (ts.lexeme i).opens → ∀ m, ts.matching i = m ↔
      i < m ∧ m < stop ∧ ts.lexeme m = (ts.lexeme i).partner ∧ Dyck (ts.between (i + 1) m)) ∧
    Tiles ts (Level ts start stop) stop start (ts.splitTopLevel start stop) ∧
      ∀ g ∈ ts.splitTopLevel start stop, Dyck (ts.between g.1 g.2) := by
  have hstart : Level ts start stop start := ⟨le_rfl, hlt.le, between_self ts start ▸ .nil⟩
  have htiles : Tiles ts (Level ts start stop) stop start (ts.splitTopLevel start stop) := by
    rw [splitTopLevel, if_pos hlt]
    exact splitFrom_tiles hend (fun j hj ho h => h.step hsize.le hw hj ho)
      (fun j hj ho h => h.jump hend hsize.le hw hj ho) le_rfl fun _ => hstart
  refine ⟨fun i hi histop ho m => ⟨?_, ?_⟩, htiles, htiles.dyck hsize.le hw hstart⟩
  · rintro rfl
    obtain ⟨-, hstop, hpartner, hinner⟩ := matching_between hend hsize.le hw hi histop ho
    exact ⟨lt_matching hend ho, hstop, hpartner, hinner⟩
  · rintro ⟨him, hstop, hpartner, hinner⟩
    have hdrop : ts.lexemes.drop (i + 1) =
        ts.between (i + 1) m ++ (ts.lexeme i).partner :: ts.lexemes.drop (m + 1) := by
      rw [← hpartner, ← drop_eq_cons (hstop.trans hsize), between_append_drop him]
    have hmatching := (matching_of_dyck hend ho hinner hdrop).1
    rw [length_between (hstop.trans hsize).le] at hmatching
    omega

/-- The tokens of `f<a, b>(c, [d]), e`. -/
def listStream : TokenStream where
  tokens := ⟨([.ident "f", .symbol .less, .ident "a", .symbol .comma, .ident "b", .symbol .greater,
    .symbol .openParen, .ident "c", .symbol .comma, .symbol .openBracket, .ident "d",
    .symbol .closeBracket, .symbol .closeParen, .symbol .comma, .ident "e", .eof] : List Lexeme).map
      fun l => ⟨l, ⟨0, 0⟩, false, .file, none⟩⟩

/-- Neither the comma of the template arguments nor that in the parentheses separates. -/
theorem groups_tile_stretch_call : listStream.Ended ∧ Dyck (listStream.between 0 15) ∧
    listStream.splitTopLevel 0 15 = [(0, 13), (14, 15)] ∧
    Tiles listStream (Level listStream 0 15) 15 0 [(0, 13), (14, 15)] ∧
    listStream.lexeme 12 = .symbol .closeParen ∧ Dyck (listStream.between 7 12) := by
  have hend : listStream.Ended := by
    unfold Ended
    decide
  have hw : Dyck (listStream.between 0 15) := by decide
  obtain ⟨hpartner, htiles, -⟩ := groups_tile_stretch hend (by decide) (by decide) hw
  obtain ⟨-, -, hclose, hinner⟩ := (hpartner 6 (by decide) (by decide) (by decide) 12).mp (by decide)
  have hgroups : listStream.splitTopLevel 0 15 = [(0, 13), (14, 15)] := by decide
  exact ⟨hend, hw, hgroups, hgroups ▸ htiles, hclose, hinner⟩

end Offload.Source.TokenStream
