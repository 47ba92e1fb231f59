import Mathlib.Data.Nat.Basic
import Mathlib.Order.Basic
import Mathlib.Tactic.SplitIfs
import Offload.Proofs.Outcome
import Offload.Source.Stream

/-!
# Brackets of a token stream

Bracket matching counts openings and closings without telling kinds apart. What it skips is whole:
a bracket that opens inside closes inside. From this follows what every scan of the parser relies
on, that a cursor which never steps over a parenthesis alone stays outside of the parentheses it has
passed. In a stream whose brackets pair up by kind each bracket finds its own partner.
-/

namespace Offload.Source

open List

variable {l : Lexeme} {rest stack w : List Lexeme}

theorem Lexeme.closes_of_opens (h : l.opens) : l.closes = false := by
  cases l with
  | symbol s => cases s <;> first | rfl | cases h
  | _ => rfl

theorem Lexeme.eq_of_opens (h : l.opens) :
    l = .symbol .openParen ∨ l = .symbol .openBracket ∨ l = .symbol .openBrace := by
  cases l with
  | symbol s => cases s <;> simp_all [opens, Symbol.opens]
  | _ => cases h

namespace TokenStream

variable {ts : TokenStream} {i j k p m m' d e : Nat}

/-- The last token is `eof`. -/
def Ended (ts : TokenStream) : Prop := ts.lexeme (ts.size - 1) = .eof

theorem opens_of_eq {b : Bool} (h : ts.lexeme i = l) (hl : l.opens = b) : (ts.lexeme i).opens = b :=
  h ▸ hl

theorem lexeme_of_size_le (h : ts.size ≤ i + 1) : ts.lexeme i = ts.lexeme (ts.size - 1) := by
  have hmin : min i (ts.size - 1) = ts.size - 1 := by omega
  simp only [lexeme, hmin, min_self]

theorem lexeme_of_token {t : Token} (h : ts.token i = .ok t) :
    i < ts.size ∧ ts.lexeme i = t.lexeme := by
  unfold token at h
  split at h
  · rename_i u hu
    obtain rfl := Except.ok.inj h
    have hlt : i < ts.size := (Array.getElem?_eq_some_iff.mp hu).1
    refine ⟨hlt, ?_⟩
    have hmin : min i (ts.size - 1) = i := by omega
    simp only [lexeme, hmin, hu]
  · cases h

theorem exists_token (h : i < ts.size) : ∃ t, ts.token i = .ok t := by
  unfold token
  rw [Array.getElem?_eq_getElem h]
  exact ⟨_, rfl⟩

theorem spanBetween_ok {first last : Nat} {span : Span} (h : ts.spanBetween first last = .ok span) :
    ∃ a b, ts.token first = .ok a ∧ ts.token last = .ok b ∧ span = ⟨a.span.start, b.span.stop⟩ := by
  simp only [spanBetween, except_bind_ok] at h
  obtain ⟨a, ha, b, hb, h⟩ := h
  unfold Span.between at h
  split_ifs at h
  exact ⟨a, b, ha, hb, (Except.ok.inj h).symm⟩

theorem rangeBetween_ok {first last : Nat} {range : SourceRange}
    (h : ts.rangeBetween first last = .ok range) :
    ∃ a b, ts.token first = .ok a ∧ ts.token last = .ok b ∧
      range = ⟨⟨a.span.start, b.span.stop⟩, b.position⟩ := by
  simp only [rangeBetween, except_bind_ok] at h
  obtain ⟨span, hspan, b, hb, h⟩ := h
  obtain ⟨a, b', ha, hb', rfl⟩ := spanBetween_ok hspan
  rw [hb] at hb'
  obtain rfl := Except.ok.inj hb'
  exact ⟨a, b, ha, hb, (Except.ok.inj h).symm⟩

theorem Ended.lt_of_lexeme_ne (hend : ts.Ended) (h : ts.lexeme i ≠ .eof) : i + 1 < ts.size := by
  by_contra hge
  exact h ((lexeme_of_size_le (by omega)).trans hend)

theorem Ended.lt_of_opens (hend : ts.Ended) (h : (ts.lexeme i).opens) : i + 1 < ts.size := by
  refine hend.lt_of_lexeme_ne fun heq => ?_
  rw [heq] at h
  cases h

/-! ### Matching as a relation -/

/-- Counting from `i` with `d` brackets open, the last of them closes at `m`, or the stream ends
there. -/
inductive Closes (ts : TokenStream) : Nat → Nat → Nat → Prop
  | ended {d i : Nat} (hi : ts.size ≤ i + 1) : Closes ts d i i
  | opening {d i m : Nat} (hi : i + 1 < ts.size) (ho : (ts.lexeme i).opens) :
    Closes ts (d + 1) (i + 1) m → Closes ts d i m
  | found {d i : Nat} (hi : i + 1 < ts.size) (hc : (ts.lexeme i).closes) (hd : d ≤ 1) :
    Closes ts d i i
  | closing {d i m : Nat} (hi : i + 1 < ts.size) (hc : (ts.lexeme i).closes) (hd : 1 < d) :
    Closes ts (d - 1) (i + 1) m → Closes ts d i m
  | plain {d i m : Nat} (hi : i + 1 < ts.size) (ho : (ts.lexeme i).opens = false)
    (hc : (ts.lexeme i).closes = false) : Closes ts d (i + 1) m → Closes ts d i m

theorem closes_matchingFrom {fuel : Nat} (h : ts.size ≤ i + fuel) :
    Closes ts d i (ts.matchingFrom fuel d i) := by
  induction fuel generalizing d i with
  | zero => exact .ended (by omega)
  | succ fuel ih =>
    rw [matchingFrom]
    split_ifs with hend ho hc hd
    · exact .ended (by simpa [atEnd] using hend)
    · exact .opening (by simpa [atEnd] using hend) ho (ih (by omega))
    · exact .found (by simpa [atEnd] using hend) hc hd
    · exact .closing (by simpa [atEnd] using hend) hc (by omega) (ih (by omega))
    · exact .plain (by simpa [atEnd] using hend) (by simpa using ho) (by simpa using hc)
        (ih (by omega))

namespace Closes

theorem le (h : Closes ts d i m) : i ≤ m := by
  induction h with
  | ended _ | found _ _ _ => exact le_rfl
  | opening _ _ _ ih | closing _ _ _ _ ih | plain _ _ _ _ ih => omega

theorem of_opens (h : Closes ts d i m) (hi : i + 1 < ts.size) (ho : (ts.lexeme i).opens) :
    Closes ts (d + 1) (i + 1) m := by
  have hno := Lexeme.closes_of_opens ho
  cases h with
  | ended hge => omega
  | opening _ _ h => exact h
  | found _ hc _ => rw [hno] at hc; cases hc
  | closing _ hc _ _ => rw [hno] at hc; cases hc
  | plain _ hno' _ _ => rw [hno'] at ho; cases ho

theorem of_closes (h : Closes ts d i m) (hi : i + 1 < ts.size) (hc : (ts.lexeme i).closes)
    (hd : 1 < d) : Closes ts (d - 1) (i + 1) m := by
  cases h with
  | ended hge => omega
  | opening _ ho _ => rw [Lexeme.closes_of_opens ho] at hc; cases hc
  | found _ _ hd' => omega
  | closing _ _ _ h => exact h
  | plain _ _ hno _ => rw [hno] at hc; cases hc

theorem of_plain (h : Closes ts d i m) (hi : i + 1 < ts.size) (ho : (ts.lexeme i).opens = false)
    (hc : (ts.lexeme i).closes = false) : Closes ts d (i + 1) m := by
  cases h with
  | ended hge => omega
  | opening _ ho' _ => rw [ho] at ho'; cases ho'
  | found _ hc' _ => rw [hc] at hc'; cases hc'
  | closing _ hc' _ _ => rw [hc] at hc'; cases hc'
  | plain _ _ _ h => exact h

theorem unique (h : Closes ts d i m) (h' : Closes ts d i m') : m' = m := by
  induction h with
  | ended hi =>
    cases h' with
    | ended _ => rfl
    | opening hlt _ _ | found hlt _ _ | closing hlt _ _ _ | plain hlt _ _ _ => omega
  | found hi hc hd =>
    cases h' with
    | ended hge => omega
    | opening _ ho _ => rw [Lexeme.closes_of_opens ho] at hc; cases hc
    | found _ _ _ => rfl
    | closing _ _ hd' _ => omega
    | plain _ _ hno _ => rw [hno] at hc; cases hc
  | opening hi ho _ ih => exact ih (h'.of_opens hi ho)
  | closing hi hc hd _ ih => exact ih (h'.of_closes hi hc hd)
  | plain hi ho hc _ ih => exact ih (h'.of_plain hi ho hc)

/-- On the way to the end of the count some bracket stays open. -/
theorem exists_depth (h : Closes ts d i m) (hd : 1 ≤ d) (hip : i ≤ p) (hpm : p ≤ m) :
    ∃ e, 1 ≤ e ∧ Closes ts e p m := by
  induction h with
  | ended hi =>
    obtain rfl : p = _ := le_antisymm hpm hip
    exact ⟨_, hd, .ended hi⟩
  | found hi hc hd' =>
    obtain rfl : p = _ := le_antisymm hpm hip
    exact ⟨_, hd, .found hi hc hd'⟩
  | opening hi ho h ih =>
    rcases Nat.eq_or_lt_of_le hip with rfl | hlt
    · exact ⟨_, hd, .opening hi ho h⟩
    · exact ih (by omega) hlt hpm
  | closing hi hc hd' h ih =>
    rcases Nat.eq_or_lt_of_le hip with rfl | hlt
    · exact ⟨_, hd, .closing hi hc hd' h⟩
    · exact ih (by omega) hlt hpm
  | plain hi ho hc h ih =>
    rcases Nat.eq_or_lt_of_le hip with rfl | hlt
    · exact ⟨_, hd, .plain hi ho hc h⟩
    · exact ih hd hlt hpm

/-- A deeper count first closes the inner brackets and then goes on with the outer ones. -/
theorem split (h : Closes ts e i p) (he : 1 ≤ e) (h' : Closes ts (e + d) i m) (hd : 1 ≤ d) :
    ts.size ≤ p + 1 ∧ m = p ∨ Closes ts d (p + 1) m := by
  induction h with
  | ended hi =>
    left
    exact ⟨hi, (Closes.ended hi).unique h'⟩
  | found hi hc he' =>
    right
    have hrest := h'.of_closes hi hc (by omega)
    rwa [show _ + d - 1 = d by omega] at hrest
  | opening hi ho _ ih =>
    have hrest := h'.of_opens hi ho
    rw [Nat.add_right_comm] at hrest
    exact ih (by omega) hrest
  | @closing e' _ _ hi hc he' _ ih =>
    have hrest := h'.of_closes hi hc (by omega)
    rw [show e' + d - 1 = e' - 1 + d by omega] at hrest
    exact ih (by omega) hrest
  | plain hi ho hc _ ih => exact ih he (h'.of_plain hi ho hc)

end Closes

/-! ### The bracket that closes another -/

theorem closes_matching (hend : ts.Ended) (ho : (ts.lexeme i).opens) :
    Closes ts 1 (i + 1) (ts.matching i) := by
  have h : Closes ts 0 i (ts.matching i) := closes_matchingFrom (by omega)
  exact h.of_opens (hend.lt_of_opens ho) ho

theorem lt_matching (hend : ts.Ended) (ho : (ts.lexeme i).opens) : i < ts.matching i :=
  (closes_matching hend ho).le

/-- A bracket that opens between another and its partner closes there as well. -/
theorem matching_le_of_nested (hend : ts.Ended) (ho : (ts.lexeme i).opens) (hip : i < p)
    (hpm : p ≤ ts.matching i) (hp : (ts.lexeme p).opens) :
    ts.matching p ≤ ts.matching i ∧
      (ts.matching i + 1 < ts.size → ts.matching p < ts.matching i) := by
  obtain ⟨e, he, hdepth⟩ := (closes_matching hend ho).exists_depth le_rfl hip hpm
  have hafter : Closes ts (1 + e) (p + 1) (ts.matching i) := by
    rw [Nat.add_comm]
    exact hdepth.of_opens (hend.lt_of_opens hp) hp
  rcases (closes_matching hend hp).split le_rfl hafter he with ⟨hge, heq⟩ | hrest
  · exact ⟨heq ▸ le_rfl, fun hlt => by omega⟩
  · have hle := hrest.le
    exact ⟨by omega, fun _ => hle⟩

/-! ### Passing whole parentheses -/

/-- From `i` to `j` no parenthesis is left open: one that opens on the way closes before `j`. -/
structure Passes (ts : TokenStream) (i j : Nat) : Prop where
  le : i ≤ j
  closed : ∀ p, i ≤ p → p < j → ts.lexeme p = .symbol .openParen → ts.matching p < j

namespace Passes

theorem refl (ts : TokenStream) (i : Nat) : Passes ts i i :=
  ⟨le_rfl, fun p hi hj => absurd hj (by omega)⟩

theorem trans (h : Passes ts i j) (h' : Passes ts j k) : Passes ts i k := by
  refine ⟨h.le.trans h'.le, fun p hi hk hp => ?_⟩
  by_cases hj : p < j
  · exact (h.closed p hi hj hp).trans_le h'.le
  · exact h'.closed p (by omega) hk hp

/-- Over a single token that is no parenthesis. -/
theorem step (h : ts.lexeme i ≠ .symbol .openParen) : Passes ts i (i + 1) := by
  refine ⟨Nat.le_succ i, fun p hi hj hp => ?_⟩
  obtain rfl : p = i := by omega
  exact absurd hp h

theorem next (h : Passes ts i j) (ho : (ts.lexeme j).opens = false) : Passes ts i (j + 1) :=
  h.trans (.step fun heq => by rw [opens_of_eq heq rfl] at ho; cases ho)

/-- Over a bracket up to its partner. -/
theorem jump (hend : ts.Ended) (ho : (ts.lexeme i).opens) : Passes ts i (ts.matching i + 1) := by
  have hlt := lt_matching hend ho
  refine ⟨by omega, fun p hi hj hp => ?_⟩
  have hop : (ts.lexeme p).opens := opens_of_eq hp rfl
  rcases Nat.eq_or_lt_of_le hi with rfl | hip
  · exact Nat.lt_succ_self _
  · exact Nat.lt_succ_of_le (matching_le_of_nested hend ho hip (by omega) hop).1

/-- Over a stretch without any parenthesis. -/
theorem of_forall_ne (hij : i ≤ j) (h : ∀ p, i ≤ p → p < j → ts.lexeme p ≠ .symbol .openParen) :
    Passes ts i j :=
  ⟨hij, fun p hi hj hp => absurd hp (h p hi hj)⟩

/-- Between a parenthesis and its partner. -/
theorem inside (hend : ts.Ended) (ho : (ts.lexeme i).opens) (hm : ts.matching i + 1 < ts.size) :
    Passes ts (i + 1) (ts.matching i) := by
  have hlt := lt_matching hend ho
  refine ⟨hlt, fun p hi hj hp => ?_⟩
  have hop : (ts.lexeme p).opens := opens_of_eq hp rfl
  exact (matching_le_of_nested hend ho hi (Nat.le_of_lt hj) hop).2 hm

end Passes

/-- Every bracket that opens is closed, by a bracket of any kind, before the last token. -/
def Closed (ts : TokenStream) : Prop := ∀ i, (ts.lexeme i).opens → ts.matching i + 1 < ts.size

theorem closed_of_forall_lt (hend : ts.Ended)
    (h : ∀ i < ts.size, (ts.lexeme i).opens → ts.matching i + 1 < ts.size) : ts.Closed := fun i ho =>
  h i (Nat.lt_of_succ_lt (hend.lt_of_opens ho)) ho

/-- A scan passes whole parentheses and, where every bracket closes, does not leave the stream. -/
structure Crosses (ts : TokenStream) (i j : Nat) : Prop where
  passes : Passes ts i j
  lt_size : ts.Closed → i < ts.size → j < ts.size

namespace Crosses

theorem refl (ts : TokenStream) (i : Nat) : Crosses ts i i := ⟨.refl ts i, fun _ h => h⟩

theorem trans (h : Crosses ts i j) (h' : Crosses ts j k) : Crosses ts i k :=
  ⟨h.passes.trans h'.passes, fun hc hi => h'.lt_size hc (h.lt_size hc hi)⟩

theorem step (h : ts.lexeme i ≠ .symbol .openParen) (hi : ¬ ts.atEnd i = true) :
    Crosses ts i (i + 1) := ⟨.step h, fun _ _ => by simpa [atEnd] using hi⟩

theorem jump (hend : ts.Ended) (ho : (ts.lexeme i).opens) : Crosses ts i (ts.matching i + 1) :=
  ⟨.jump hend ho, fun hc _ => hc i ho⟩

end Crosses

/-! ### Angle brackets and groups -/

/-- What holds at `i`, and is kept over a single token and over a whole group, holds at the `>` that
is found and behind it. -/
theorem matchingAngleFrom_invariant {P : Nat → Prop} {limit fuel depth close : Nat}
    (hstep : ∀ j < limit, (ts.lexeme j).opens = false → P j → P (j + 1))
    (hjump : ∀ j < limit, (ts.lexeme j).opens → ts.lexeme j ≠ .symbol .openBrace → P j →
      P (ts.matching j + 1))
    (hi : P i) (h : ts.matchingAngleFrom limit fuel depth i = some close) :
    P close ∧ P (close + 1) ∧ close < limit ∧ close + 1 < ts.size := by
  induction fuel generalizing depth i with
  | zero => cases h
  | succ fuel ih =>
    rw [matchingAngleFrom] at h
    by_cases hlt : (decide (i < limit) && !ts.atEnd i) = true
    · rw [if_pos hlt] at h
      obtain ⟨hlimit, hsize⟩ : i < limit ∧ i + 1 < ts.size := by simpa [atEnd] using hlt
      have hover (ho : (ts.lexeme i).opens = false) : P (i + 1) := hstep i hlimit ho hi
      have hfound (ho : (ts.lexeme i).opens = false) (heq : some i = some close) :
          P close ∧ P (close + 1) ∧ close < limit ∧ close + 1 < ts.size := by
        obtain rfl := Option.some.inj heq
        exact ⟨hi, hover ho, hlimit, hsize⟩
      split at h
      · exact ih (hover (opens_of_eq ‹_› rfl)) h
      · have ho : (ts.lexeme i).opens = false := opens_of_eq ‹_› rfl
        split_ifs at h
        · exact hfound ho h
        · exact ih (hover ho) h
      · have ho : (ts.lexeme i).opens = false := opens_of_eq ‹_› rfl
        split_ifs at h
        · exact hfound ho h
        · exact ih (hover ho) h
      · rename_i hopen
        exact ih (hjump i hlimit (opens_of_eq hopen rfl) (by simp [hopen]) hi) h
      · rename_i hopen
        exact ih (hjump i hlimit (opens_of_eq hopen rfl) (by simp [hopen]) hi) h
      · cases h
      · cases h
      · cases h
      · refine ih (hover (Bool.eq_false_iff.mpr fun ho => ?_)) h
        rcases Lexeme.eq_of_opens ho with heq | heq | heq <;> contradiction
    · rw [if_neg hlt] at h
      cases h

theorem crosses_of_matchingAngle (hend : ts.Ended) {limit close : Nat}
    (h : ts.matchingAngle i limit = some close) : Crosses ts i (close + 1) := by
  obtain ⟨-, hpass, -, hlt⟩ := matchingAngleFrom_invariant (fun _ _ ho hpass => hpass.next ho)
    (fun _ _ ho _ hpass => hpass.trans (.jump hend ho)) (Passes.refl ts i) h
  exact ⟨hpass, fun _ _ => hlt⟩

/-- A group of a list whose items start at `start`: it begins and ends outside of the parentheses
of the list's other items, at a comma or at the end of the list. -/
structure GroupIn (ts : TokenStream) (start stop : Nat) (g : Nat × Nat) : Prop where
  first : Passes ts start g.1
  last : Passes ts start g.2
  le : g.2 ≤ stop
  delimited : g.2 = stop ∨ ts.lexeme g.2 = .symbol .comma

/-- Groups from `group` on: each one ends at a comma where `P` holds and the next begins behind it,
up to the last, which ends at `stop`. -/
inductive Tiles (ts : TokenStream) (P : Nat → Prop) (stop : Nat) : Nat → List (Nat × Nat) → Prop
  | last (group : Nat) : Tiles ts P stop group [(group, stop)]
  | comma {group i : Nat} {rest : List (Nat × Nat)} (hle : group ≤ i) (hlt : i < stop)
    (hcomma : ts.lexeme i = .symbol .comma) (hi : P i) (hrest : Tiles ts P stop (i + 1) rest) :
    Tiles ts P stop group ((group, i) :: rest)

theorem splitFrom_tiles (hend : ts.Ended) {P : Nat → Prop} {start stop fuel group : Nat}
    (hstep : ∀ j < stop, (ts.lexeme j).opens = false → P j → P (j + 1))
    (hjump : ∀ j < stop, (ts.lexeme j).opens → P j → P (ts.matching j + 1))
    (hgroup : group ≤ i) (hi : i ≤ stop → P i) :
    Tiles ts P stop group (ts.splitFrom start stop fuel group i) := by
  induction fuel generalizing group i with
  | zero => exact .last group
  | succ fuel ih =>
    rw [splitFrom]
    by_cases hlt : i < stop
    · rw [if_pos hlt]
      have hP := hi hlt.le
      split_ifs with hopens hangle hcomma
      · have hm := lt_matching hend hopens
        refine ih (by omega) fun hnext => ?_
        rw [show min (ts.matching i) stop = ts.matching i by omega]
        exact hjump i hlt hopens hP
      · have hover : P (i + 1) := hstep i hlt (by simpa using hopens) hP
        cases hclose : ts.matchingAngle i stop with
        | none => exact ih (Nat.le_succ_of_le hgroup) fun _ => hover
        | some close =>
          have hle := (crosses_of_matchingAngle hend hclose).passes.le
          have hfound : P (close + 1) := (matchingAngleFrom_invariant hstep
            (fun j hj ho _ => hjump j hj ho) hP hclose).2.1
          exact ih (hgroup.trans hle) fun _ => hfound
      · have hover : P (i + 1) := hstep i hlt (by simpa using hopens) hP
        exact .comma hgroup hlt (by simpa using hcomma) hP (ih le_rfl fun _ => hover)
      · exact ih (by omega) fun _ => hstep i hlt (by simpa using hopens) hP
    · rw [if_neg hlt]
      exact .last group

theorem Tiles.groups {start stop group : Nat} {gs : List (Nat × Nat)}
    (h : Tiles ts (Passes ts start) stop group gs) (hall : Passes ts start stop)
    (hgroup : Passes ts start group) :
    (∀ g ∈ gs, GroupIn ts start stop g ∧ group ≤ g.1) ∧ gs.Pairwise fun g g' => g.2 < g'.1 := by
  induction h with
  | last group => simpa using (⟨hgroup, hall, le_rfl, .inl rfl⟩ : GroupIn ts start stop _)
  | @comma group i rest hle hlt hcomma hi _ ih =>
    obtain ⟨hmem, hpairs⟩ := ih (hi.next (opens_of_eq hcomma rfl))
    refine ⟨forall_mem_cons.mpr ⟨⟨⟨hgroup, hi, hlt.le, .inr hcomma⟩, le_rfl⟩, fun g hg => ?_⟩,
      pairwise_cons.mpr ⟨fun g hg => (hmem g hg).2, hpairs⟩⟩
    have := (hmem g hg).2
    exact ⟨(hmem g hg).1, by omega⟩

theorem splitTopLevel_groups (hend : ts.Ended) {start stop : Nat} (hall : Passes ts start stop)
    (hlt : start < stop) :
    (∀ g ∈ ts.splitTopLevel start stop, GroupIn ts start stop g ∧ start ≤ g.1) ∧
      (ts.splitTopLevel start stop).Pairwise fun g g' => g.2 < g'.1 := by
  have htiles : Tiles ts (Passes ts start) stop start (ts.splitTopLevel start stop) := by
    rw [splitTopLevel, if_pos hlt]
    exact splitFrom_tiles hend (fun _ _ ho hpass => hpass.next ho)
      (fun _ _ ho hpass => hpass.trans (.jump hend ho)) le_rfl fun _ => .refl ts start
  exact htiles.groups hall (.refl ts start)

theorem groups_spec (hend : ts.Ended) {start stop : Nat} (hall : Passes ts start stop) :
    (∀ g ∈ ts.groups start stop, GroupIn ts start stop g ∧ g.1 < g.2) ∧
      (ts.groups start stop).Pairwise fun g g' => g.2 < g'.1 := by
  by_cases hlt : start < stop
  · obtain ⟨hmem, hpairs⟩ := splitTopLevel_groups hend hall hlt
    refine ⟨fun g hg => ?_, hpairs.sublist filter_sublist⟩
    obtain ⟨hg, hpos⟩ := mem_filter.mp hg
    exact ⟨(hmem g hg).1, by simpa using hpos⟩
  · simp [groups, splitTopLevel, hlt]

end TokenStream

/-! ### Brackets that pair up by kind -/

/-- The bracket that closes an opening one. -/
def Lexeme.partner : Lexeme → Lexeme
  | .symbol .openParen => .symbol .closeParen
  | .symbol .openBrace => .symbol .closeBrace
  | .symbol .openBracket => .symbol .closeBracket
  | l => l

theorem Lexeme.closes_partner (h : l.opens) : l.partner.closes := by
  cases l with
  | symbol s => cases s <;> first | rfl | cases h
  | _ => cases h

theorem Lexeme.opens_partner (l : Lexeme) : l.partner.opens = false := by
  cases l with
  | symbol s => cases s <;> rfl
  | _ => rfl

/-- Words in which every bracket is paired with one of its kind, and the pairs nest. -/
inductive Dyck : List Lexeme → Prop
  | nil : Dyck []
  | plain {l : Lexeme} {rest : List Lexeme} (ho : l.opens = false) (hc : l.closes = false)
    (hrest : Dyck rest) : Dyck (l :: rest)
  | pair {l : Lexeme} {inner rest : List Lexeme} (hl : l.opens) (hinner : Dyck inner)
    (hrest : Dyck rest) : Dyck (l :: (inner ++ l.partner :: rest))

namespace Dyck

theorem closes_head (h : Dyck (l :: rest)) : l.closes = false := by
  generalize hw : l :: rest = w at h
  cases h with
  | nil => cases hw
  | plain _ hc _ =>
    obtain ⟨rfl, -⟩ := cons.inj hw
    exact hc
  | pair hl _ _ =>
    obtain ⟨rfl, -⟩ := cons.inj hw
    exact Lexeme.closes_of_opens hl

/-- An opening bracket is followed by such a word and its partner. -/
theorem exists_partner {before after : List Lexeme} (hw : Dyck w) (hl : l.opens)
    (heq : w = before ++ l :: after) :
    ∃ inner rest, Dyck inner ∧ after = inner ++ l.partner :: rest := by
  induction hw generalizing before after with
  | nil => simp at heq
  | @plain l' rest ho hc _ ih =>
    cases before with
    | nil =>
      obtain ⟨rfl, rfl⟩ := cons.inj heq
      rw [hl] at ho
      cases ho
    | cons b before => exact ih (cons.inj heq).2
  | @pair t inner rest ht hinner hrest ihinner ihrest =>
    cases before with
    | nil =>
      obtain ⟨rfl, rfl⟩ := cons.inj heq
      exact ⟨inner, rest, hinner, rfl⟩
    | cons b before =>
      have hne : l ≠ t.partner := by
        rintro rfl
        rw [Lexeme.opens_partner] at hl
        cases hl
      rcases append_eq_append_iff.mp (cons.inj heq).2 with
        ⟨mid, hbefore, hafter⟩ | ⟨mid, hinner', hafter⟩
      · cases mid with
        | nil => exact absurd (cons.inj hafter).1.symm hne
        | cons x mid => exact ihrest (cons.inj hafter).2
      · cases mid with
        | nil => exact absurd (cons.inj hafter).1 hne
        | cons x mid =>
          obtain ⟨rfl, rfl⟩ := cons.inj hafter
          obtain ⟨inner', rest', hd, rfl⟩ := ihinner hinner'
          exact ⟨inner', rest' ++ t.partner :: rest, hd, by simp⟩

/-- Brackets are paired with a stack of the partners that are still to come. -/
def check : List Lexeme → List Lexeme → Bool
  | stack, [] => stack.isEmpty
  | stack, l :: rest =>
    if l.opens then check (l.partner :: stack) rest
    else if l.closes then
      match stack with
      | [] => false
      | t :: stack => l == t && check stack rest
    else check stack rest

theorem check_opens (ho : l.opens) : check stack (l :: rest) = check (l.partner :: stack) rest := by
  rw [check.eq_def]
  simp [ho]

theorem check_plain (ho : l.opens = false) (hc : l.closes = false) :
    check stack (l :: rest) = check stack rest := by
  rw [check.eq_def]
  simp [ho, hc]

/-- The partners in the stack come in their turn, with such words before and between them. -/
def Awaits : List Lexeme → List Lexeme → Prop
  | [], w => Dyck w
  | t :: stack, w => ∃ inner rest, Dyck inner ∧ w = inner ++ t :: rest ∧ Awaits stack rest

theorem Awaits.cons_plain (h : Awaits stack w) (ho : l.opens = false) (hc : l.closes = false) :
    Awaits stack (l :: w) := by
  cases stack with
  | nil => exact .plain ho hc h
  | cons t stack =>
    obtain ⟨inner, rest, hinner, rfl, hrest⟩ := h
    exact ⟨l :: inner, rest, .plain ho hc hinner, rfl, hrest⟩

theorem Awaits.cons_pair (hl : l.opens) (h : Awaits (l.partner :: stack) w) :
    Awaits stack (l :: w) := by
  obtain ⟨inner, rest, hinner, rfl, hrest⟩ := h
  cases stack with
  | nil => exact .pair hl hinner hrest
  | cons t stack =>
    obtain ⟨next, rest, hnext, rfl, hrest⟩ := hrest
    exact ⟨_, rest, .pair hl hinner hnext, by simp, hrest⟩

theorem awaits_of_check (h : check stack w = true) : Awaits stack w := by
  fun_induction check stack w with
  | case1 stack =>
    obtain rfl : stack = [] := by simpa using h
    exact .nil
  | case2 stack l rest ho ih => exact .cons_pair ho (ih h)
  | case3 => cases h
  | case4 l rest _ _ t stack ih =>
    obtain ⟨heq, hrest⟩ : l = t ∧ check stack rest = true := by simpa using h
    exact ⟨[], rest, .nil, by rw [heq]; rfl, ih hrest⟩
  | case5 stack l rest ho hc ih => exact (ih h).cons_plain (by simpa using ho) (by simpa using hc)

theorem check_append (hw : Dyck w) (stack rest : List Lexeme) :
    check stack (w ++ rest) = check stack rest := by
  induction hw generalizing stack rest with
  | nil => rfl
  | plain ho hc _ ih =>
    rw [cons_append, check_plain ho hc, ih]
  | @pair l inner w hl _ _ ihinner ih =>
    have ho := l.opens_partner
    have hc := Lexeme.closes_partner hl
    rw [cons_append, append_assoc, check_opens hl, ihinner, cons_append]
    simp [check, ho, hc, ih]

theorem check_iff : check [] w = true ↔ Dyck w := by
  constructor
  · exact awaits_of_check
  · intro hw
    have h := hw.check_append [] []
    rwa [append_nil] at h

theorem append {w' : List Lexeme} (hw : Dyck w) (hw' : Dyck w') : Dyck (w ++ w') := by
  rw [← check_iff, hw.check_append]
  exact check_iff.mpr hw'

theorem of_append {w' : List Lexeme} (hw : Dyck w) (h : Dyck (w ++ w')) : Dyck w' := by
  rw [← check_iff, hw.check_append] at h
  exact check_iff.mp h

instance (w : List Lexeme) : Decidable (Dyck w) := decidable_of_iff (check [] w = true) check_iff

end Dyck

namespace TokenStream

variable {ts : TokenStream} {i j k d m : Nat}

def lexemes (ts : TokenStream) : List Lexeme := ts.tokens.toList.map Token.lexeme

theorem lexeme_of_drop (h : ts.lexemes.drop i = l :: rest) :
    ts.lexeme i = l ∧ ts.lexemes.drop (i + 1) = rest ∧ (rest ≠ [] → i + 1 < ts.size) := by
  have hget : ts.lexemes[i]? = some l := by
    rw [← head?_drop, h]
    rfl
  obtain ⟨t, ht, rfl⟩ : ∃ t, ts.tokens[i]? = some t ∧ t.lexeme = l := by
    simpa [lexemes] using hget
  have htoken : ts.token i = .ok t := by simp [token, ht]
  have htail : ts.lexemes.drop (i + 1) = rest := by
    rw [← drop_drop, h]
    rfl
  refine ⟨(lexeme_of_token htoken).2, htail, fun hne => ?_⟩
  by_contra hge
  refine hne (htail ▸ drop_eq_nil_of_le ?_)
  simpa [lexemes, size] using hge

theorem drop_of_append (h : ts.lexemes.drop i = w ++ rest) :
    ts.lexemes.drop (i + w.length) = rest := by
  rw [← drop_drop, h, drop_left]

/-- Counting passes over a word of whole pairs and has as many brackets open as before. -/
theorem Closes.of_dyck (hw : Dyck w) (heq : ts.lexemes.drop i = w ++ rest) (hrest : rest ≠ [])
    (hd : 1 ≤ d) (h : Closes ts d (i + w.length) m) : Closes ts d i m := by
  induction hw generalizing i d rest with
  | nil => exact h
  | @plain l w ho hc _ ih =>
    obtain ⟨rfl, htail, hlt⟩ := lexeme_of_drop heq
    rw [length_cons, Nat.add_comm w.length, ← Nat.add_assoc] at h
    exact .plain (hlt (by simp [hrest])) ho hc (ih htail hrest hd h)
  | @pair l inner w hl _ _ ihinner ih =>
    rw [cons_append, append_assoc, cons_append] at heq
    obtain ⟨rfl, htail, hlt⟩ := lexeme_of_drop heq
    obtain ⟨hpartner, hafter, hlt'⟩ := lexeme_of_drop (drop_of_append htail)
    have hlength : i + (ts.lexeme i :: (inner ++ (ts.lexeme i).partner :: w)).length =
        i + 1 + inner.length + 1 + w.length := by
      simp only [length_cons, length_append]
      omega
    rw [hlength] at h
    have houter : Closes ts d (i + 1 + inner.length + 1) m := ih hafter hrest hd h
    have hinner : Closes ts (d + 1) (i + 1 + inner.length) m :=
      .closing (hlt' (by simp [hrest])) (hpartner ▸ Lexeme.closes_partner hl) (by omega) houter
    exact .opening (hlt (by simp)) hl (ihinner htail (by simp) (by omega) hinner)

/-- A bracket with a word of whole pairs and its partner behind it is closed by the partner. -/
theorem matching_of_dyck (hend : ts.Ended) {inner : List Lexeme} (ho : (ts.lexeme i).opens)
    (hinner : Dyck inner)
    (hdrop : ts.lexemes.drop (i + 1) = inner ++ (ts.lexeme i).partner :: rest) :
    ts.matching i = i + 1 + inner.length ∧ i + 1 + inner.length + 1 < ts.size ∧
      ts.lexeme (i + 1 + inner.length) = (ts.lexeme i).partner := by
  have hpartner := (lexeme_of_drop (drop_of_append hdrop)).1
  have hcloses : (ts.lexeme (i + 1 + inner.length)).closes := hpartner ▸ Lexeme.closes_partner ho
  have hnotLast : i + 1 + inner.length + 1 < ts.size := by
    refine hend.lt_of_lexeme_ne fun heof => ?_
    rw [heof] at hcloses
    cases hcloses
  have hfound : Closes ts 1 (i + 1) (i + 1 + inner.length) :=
    .of_dyck hinner hdrop (by simp) le_rfl (.found hnotLast hcloses le_rfl)
  exact ⟨hfound.unique (closes_matching hend ho), hnotLast, hpartner⟩

theorem length_lexemes (ts : TokenStream) : ts.lexemes.length = ts.size := by simp [lexemes, size]

theorem drop_eq_cons (h : i < ts.size) :
    ts.lexemes.drop i = ts.lexeme i :: ts.lexemes.drop (i + 1) := by
  rw [← length_lexemes] at h
  have hcons := drop_eq_getElem_cons h
  rwa [← (lexeme_of_drop hcons).1] at hcons

/-- The lexemes from `i` up to `j`. -/
def between (ts : TokenStream) (i j : Nat) : List Lexeme := (ts.lexemes.drop i).take (j - i)

theorem between_self (ts : TokenStream) (i : Nat) : ts.between i i = [] := by simp [between]

theorem between_append (hij : i ≤ j) (hjk : j ≤ k) :
    ts.between i j ++ ts.between j k = ts.between i k := by
  unfold between
  rw [show k - i = j - i + (k - j) by omega, take_add, drop_drop, Nat.add_sub_cancel' hij]

theorem between_append_drop (hij : i ≤ j) :
    ts.between i j ++ ts.lexemes.drop j = ts.lexemes.drop i := by
  rw [between, ← Nat.add_sub_cancel' hij, ← drop_drop, Nat.add_sub_cancel_left, take_append_drop]

theorem between_cons (hij : i < j) (hi : i < ts.size) :
    ts.between i j = ts.lexeme i :: ts.between (i + 1) j := by
  unfold between
  rw [drop_eq_cons hi, show j - i = j - (i + 1) + 1 by omega, take_succ_cons]

theorem length_between (hj : j ≤ ts.size) : (ts.between i j).length = j - i := by
  rw [between, length_take, length_drop, length_lexemes]
  omega

/-- A bracket of a stretch whose brackets pair up is closed in it, by its partner. -/
theorem matching_between (hend : ts.Ended) {start stop : Nat} (hsize : stop ≤ ts.size)
    (hw : Dyck (ts.between start stop)) (hi : start ≤ i) (hlt : i < stop)
    (ho : (ts.lexeme i).opens) :
    ts.matching i + 1 < ts.size ∧ ts.matching i < stop ∧
      ts.lexeme (ts.matching i) = (ts.lexeme i).partner ∧
      Dyck (ts.between (i + 1) (ts.matching i)) := by
  have hsplit : ts.between start stop =
      ts.between start i ++ ts.lexeme i :: ts.between (i + 1) stop := by
    rw [← between_cons hlt (hlt.trans_le hsize), between_append hi hlt.le]
  obtain ⟨inner, rest, hinner, hafter⟩ := hw.exists_partner ho hsplit
  have hlength : inner.length < stop - (i + 1) := by
    rw [← length_between hsize, hafter]
    simp
  have hdrop : ts.between (i + 1) stop ++ ts.lexemes.drop stop = ts.lexemes.drop (i + 1) :=
    between_append_drop hlt
  rw [hafter, append_assoc, cons_append] at hdrop
  obtain ⟨hmatching, hlast, hpartner⟩ := matching_of_dyck hend ho hinner hdrop.symm
  rw [hmatching]
  refine ⟨hlast, by omega, hpartner, ?_⟩
  rwa [between, Nat.add_sub_cancel_left, ← hdrop, take_left]

/-- Every bracket that opens is closed, before the end, by one of its kind. -/
structure Bracketed (ts : TokenStream) : Prop where
  ended : ts.Ended
  partner : ∀ i, (ts.lexeme i).opens → ts.matching i + 1 < ts.size ∧
    ts.lexeme (ts.matching i) = (ts.lexeme i).partner

theorem bracketed_of_dyck (hend : ts.Ended) (hdyck : Dyck ts.lexemes) : Bracketed ts := by
  refine ⟨hend, fun i ho => ?_⟩
  have hall : ts.between 0 ts.size = ts.lexemes := by simp [between, ← length_lexemes]
  obtain ⟨hlt, -, hpartner, -⟩ := matching_between hend le_rfl (hall ▸ hdyck) (Nat.zero_le i)
    (Nat.lt_of_succ_lt (hend.lt_of_opens ho)) ho
  exact ⟨hlt, hpartner⟩

end TokenStream

end Offload.Source
