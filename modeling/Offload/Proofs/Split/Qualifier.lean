import Offload.Proofs.Source.Spelling

/-!
# Qualifiers of a type

A qualifier belongs to a type as a whole if it stands in no brackets and no pointer follows it;
every other one is part of a template argument or of what a pointer points to. Taking lexemes out
of a list is described by a judgement on each lexeme in its place. Qualifiers side by side belong
to the same thing, so what is left of a type tells which of its qualifiers were taken out.
-/

namespace Offload.Split

open Source List

variable {l : Lexeme} {before ls : List Lexeme} {n : Nesting}

/-! ### Keeping lexemes -/

/-- Keep some lexemes; each is judged together with those before and those behind it. -/
def keepWhere (keep : List Lexeme → Lexeme → List Lexeme → Bool) :
    List Lexeme → List Lexeme → List Lexeme
  | _, [] => []
  | before, l :: after =>
    if keep before l after then l :: keepWhere keep (before ++ [l]) after
    else keepWhere keep (before ++ [l]) after

def isQualifier (l : Lexeme) : Bool := l == .ident "const" || l == .ident "volatile"

theorem isIdent_of_isQualifier (h : isQualifier l = true) : l.isIdent = true := by
  cases l <;> first | rfl | cases h

theorem isWord_of_isQualifier (h : isQualifier l = true) : l.isWord = true := by
  cases l <;> first | rfl | cases h

theorem isQualifier_iff : isQualifier l = true ↔ ∃ q ∈ ["const", "volatile"], l = .ident q := by
  simp [isQualifier]

theorem isQualifier_of_not_ident (h : l.isIdent = false) : isQualifier l = false := by
  cases l <;> first | rfl | cases h

section Keep

variable {keep keep' : List Lexeme → Lexeme → List Lexeme → Bool}

theorem keepWhere_append (before ls ms : List Lexeme) :
    keepWhere keep before (ls ++ ms) =
      keepWhere (fun before l after => keep before l (after ++ ms)) before ls ++
        keepWhere keep (before ++ ls) ms := by
  induction ls generalizing before with
  | nil => simp [keepWhere]
  | cons l ls ih =>
    rw [cons_append, keepWhere, keepWhere, ih, append_assoc, singleton_append]
    split <;> rfl

theorem keepWhere_sublist (before ls : List Lexeme) : (keepWhere keep before ls).Sublist ls := by
  induction ls generalizing before with
  | nil => exact .slnil
  | cons l ls ih =>
    rw [keepWhere]
    split
    · exact (ih _).cons_cons l
    · exact (ih _).cons l

theorem keepWhere_congr
    (h : ∀ mid l after, ls = mid ++ l :: after →
      keep (before ++ mid) l after = keep' (before ++ mid) l after) :
    keepWhere keep before ls = keepWhere keep' before ls := by
  induction ls generalizing before with
  | nil => rfl
  | cons l ls ih =>
    have hl := h [] l ls rfl
    rw [append_nil] at hl
    rw [keepWhere, keepWhere, hl, ih]
    intro mid m after hls
    have hm := h (l :: mid) m after (by rw [hls, cons_append])
    rwa [append_assoc, singleton_append]

theorem keepWhere_const (k : Bool) (before ls : List Lexeme) :
    keepWhere (fun _ _ _ => k) before ls = if k then ls else [] := by
  induction ls generalizing before with
  | nil => cases k <;> rfl
  | cons l ls ih =>
    rw [keepWhere, ih]
    cases k <;> rfl

/-- All but qualifiers are kept. -/
def SparesOthers (keep : List Lexeme → Lexeme → List Lexeme → Bool) : Prop :=
  ∀ before l after, isQualifier l = false → keep before l after = true

theorem filter_keepWhere (hkeep : SparesOthers keep) (before ls : List Lexeme) :
    (keepWhere keep before ls).filter (fun l => !l.isIdent) = ls.filter fun l => !l.isIdent := by
  induction ls generalizing before with
  | nil => rfl
  | cons l ls ih =>
    rw [keepWhere]
    cases hl : l.isIdent with
    | true => split <;> simp [hl, ih]
    | false =>
      rw [if_pos (hkeep before l ls (isQualifier_of_not_ident hl))]
      simp [hl, ih]

/-- The qualifiers that `ls` begins with. -/
def leading (ls : List Lexeme) : Nat := (ls.takeWhile isQualifier).length

theorem leading_cons_of_qualifier (hl : isQualifier l = true) :
    leading (l :: ls) = leading ls + 1 := by
  rw [leading, takeWhile_cons_of_pos hl, length_cons]
  rfl

theorem leading_cons_of_not_qualifier (hl : isQualifier l = false) : leading (l :: ls) = 0 := by
  rw [leading, takeWhile_cons_of_neg (by simp [hl]), length_nil]

theorem leading_keepWhere_le (hkeep : SparesOthers keep) (before ls : List Lexeme) :
    leading (keepWhere keep before ls) ≤ leading ls := by
  induction ls generalizing before with
  | nil => exact le_rfl
  | cons l ls ih =>
    have hrest := ih (before ++ [l])
    rw [keepWhere]
    cases hl : isQualifier l with
    | true =>
      rw [leading_cons_of_qualifier hl]
      split
      · rw [leading_cons_of_qualifier hl]
        omega
      · omega
    | false =>
      rw [if_pos (hkeep before l ls hl), leading_cons_of_not_qualifier hl]
      exact Nat.zero_le _

/-- Qualifiers side by side are judged alike. -/
def Evenly (keep : List Lexeme → Lexeme → List Lexeme → Bool) : Prop :=
  ∀ before q q' after, isQualifier q = true → isQualifier q' = true →
    keep before q (q' :: after) = keep (before ++ [q]) q' after

/-- Of qualifiers side by side, all are kept or none. -/
theorem leading_keepWhere_evenly (hkeep : SparesOthers keep) (heven : Evenly keep) {q : Lexeme}
    (hq : isQualifier q = true) :
    leading (keepWhere keep before (q :: ls)) =
      if keep before q ls then leading (q :: ls) else 0 := by
  induction ls generalizing before q with
  | nil =>
    rw [keepWhere, keepWhere]
    split
    · rfl
    · rfl
  | cons m ls ih =>
    rw [keepWhere]
    cases hm : isQualifier m with
    | true =>
      rw [heven before q m ls hq hm]
      split
      · rename_i hkept
        rw [leading_cons_of_qualifier hq, leading_cons_of_qualifier hq, ih hm, if_pos hkept]
      · rename_i hdropped
        rw [ih hm, if_neg hdropped]
    | false =>
      have hnext : leading (keepWhere keep (before ++ [q]) (m :: ls)) = 0 := by
        rw [keepWhere, if_pos (hkeep _ m ls hm), leading_cons_of_not_qualifier hm]
      split
      · rw [leading_cons_of_qualifier hq, leading_cons_of_qualifier hq, hnext,
          leading_cons_of_not_qualifier hm]
      · exact hnext

/-- If qualifiers side by side are judged alike on one side, the same lexemes are left only if
every lexeme is judged alike. -/
theorem keep_eq_of_keepWhere_eq (hkeep : SparesOthers keep) (hkeep' : SparesOthers keep')
    (heven : Evenly keep') (h : keepWhere keep before ls = keepWhere keep' before ls) :
    ∀ mid l after, ls = mid ++ l :: after →
      keep (before ++ mid) l after = keep' (before ++ mid) l after := by
  induction ls generalizing before with
  | nil =>
    intro mid l after hls
    simp at hls
  | cons l ls ih =>
    -- The first lexeme is judged alike, so the rest is left alike.
    have hfirst : keep before l ls = keep' before l ls := by
      cases hl : isQualifier l with
      | false => rw [hkeep before l ls hl, hkeep' before l ls hl]
      | true =>
        have hlead := congrArg leading h
        rw [leading_keepWhere_evenly hkeep' heven hl, keepWhere] at hlead
        have hle := leading_keepWhere_le hkeep (before ++ [l]) ls
        cases hk : keep before l ls <;> cases hk' : keep' before l ls <;>
          simp only [hk, hk', leading_cons_of_qualifier hl, if_true, if_false,
            Bool.false_eq_true] at hlead ⊢ <;> omega
    have hrest : keepWhere keep (before ++ [l]) ls = keepWhere keep' (before ++ [l]) ls := by
      rw [keepWhere, keepWhere, hfirst] at h
      split at h
      · exact (List.cons.inj h).2
      · exact h
    intro mid m after hls
    cases mid with
    | nil =>
      obtain ⟨rfl, rfl⟩ := List.cons.inj hls
      rwa [append_nil]
    | cons k mid =>
      obtain ⟨rfl, rfl⟩ := List.cons.inj hls
      have hm := ih hrest mid m after rfl
      rwa [append_assoc, singleton_append] at hm

end Keep

/-! ### The top of a type -/

/-- How deep a lexeme stands in template argument lists and in brackets. -/
structure Nesting where
  angles : Nat
  brackets : Nat
deriving DecidableEq, Repr

namespace Nesting

/-- Outside of everything. -/
def top : Nesting := ⟨0, 0⟩

/-- Behind a lexeme. Angle brackets between other brackets are not told from operators. -/
def behind (n : Nesting) (l : Lexeme) : Nesting :=
  if l.opens then { n with brackets := n.brackets + 1 }
  else if l.closes then { n with brackets := n.brackets - 1 }
  else if n.brackets == 0 && l == .symbol .less then { n with angles := n.angles + 1 }
  else if n.brackets == 0 && l == .symbol .greater then { n with angles := n.angles - 1 }
  else n

def behindAll (n : Nesting) (ls : List Lexeme) : Nesting := ls.foldl behind n

theorem behindAll_append (n : Nesting) (ls ms : List Lexeme) :
    n.behindAll (ls ++ ms) = (n.behindAll ls).behindAll ms :=
  foldl_append

end Nesting

def isReference (l : Lexeme) : Bool := l == .symbol .amp || l == .symbol .ampAmp

theorem isReference_iff : isReference l = true ↔ l = .symbol .amp ∨ l = .symbol .ampAmp := by
  simp [isReference]

theorem behind_eq_self (h : isQualifier l = true ∨ isReference l = true) : n.behind l = n := by
  have hl : l = .ident "const" ∨ l = .ident "volatile" ∨ l = .symbol .amp ∨
      l = .symbol .ampAmp := by
    simpa [isQualifier, isReference, or_assoc] using h
  rcases hl with rfl | rfl | rfl | rfl <;>
    simp [Nesting.behind, Lexeme.opens, Lexeme.closes, Symbol.opens, Symbol.closes]

/-- Lexemes that may stand at the top of a type: brackets there are those of template arguments
and of arrays. -/
def staysOnTop (l : Lexeme) : Bool :=
  !([.openParen, .closeParen, .openBrace, .closeBrace, .closeBracket, .greater, .comma].any
    fun s => l == .symbol s)

/-- The lexemes of a type from nesting `n` on: no literals, and every bracket closed. -/
def isTypeFrom (n : Nesting) : List Lexeme → Bool
  | [] => n == .top
  | l :: ls => l.isUnquoted && (n != .top || staysOnTop l) && isTypeFrom (n.behind l) ls

def isType (ls : List Lexeme) : Bool := isTypeFrom .top ls

/-- Some `*` stands at the top of `ls`, which begins at nesting `n`. -/
def pointsFrom (n : Nesting) : List Lexeme → Bool
  | [] => false
  | l :: ls => (n == .top && l == .symbol .star) || pointsFrom (n.behind l) ls

/-- A qualifier between `before` and `after` belongs to the type as a whole: it stands in no
brackets, and no pointer follows. -/
def qualifiesWhole (before after : List Lexeme) : Bool :=
  Nesting.top.behindAll before == .top && !pointsFrom .top after

/-- All but the qualifiers of the type as a whole. -/
def keepsInner (before : List Lexeme) (l : Lexeme) (after : List Lexeme) : Bool :=
  !(isQualifier l && qualifiesWhole before after)

def withoutReference (ls : List Lexeme) : List Lexeme := ls.rdropWhile isReference

/-- The type without its reference and without the qualifiers of the type as a whole. -/
def unqualified (ls : List Lexeme) : List Lexeme :=
  keepWhere keepsInner [] (withoutReference ls)

/-- What is left before the qualifiers at the end. -/
def core (ls : List Lexeme) : List Lexeme := (withoutReference ls).rdropWhile isQualifier

theorem withoutReference_subset (ls : List Lexeme) : withoutReference ls ⊆ ls :=
  ( rdropWhile_prefix isReference ls).subset

theorem isUnquoted_of_isTypeFrom (h : isTypeFrom n ls = true) : ∀ l ∈ ls, l.isUnquoted = true := by
  induction ls generalizing n with
  | nil => simp
  | cons l ls ih =>
    simp only [isTypeFrom, Bool.and_eq_true] at h
    exact forall_mem_cons.mpr ⟨h.1.1, ih h.2⟩

theorem behindAll_of_isTypeFrom (h : isTypeFrom n ls = true) : n.behindAll ls = .top := by
  induction ls generalizing n with
  | nil => exact beq_iff_eq.mp h
  | cons l ls ih =>
    simp only [isTypeFrom, Bool.and_eq_true] at h
    exact ih h.2

/-- The last lexeme of a type brings it back to the top, or stands there. -/
theorem getLast?_ne_comma (h : isTypeFrom n ls = true) : ls.getLast? ≠ some (.symbol .comma) := by
  induction ls generalizing n with
  | nil => simp
  | cons l ls ih =>
    simp only [isTypeFrom, Bool.and_eq_true] at h
    cases ls with
    | nil =>
      intro hcomma
      obtain rfl : l = .symbol .comma := by simpa using hcomma
      have hn : n = .top := by
        simpa [isTypeFrom, Nesting.behind, Lexeme.opens, Lexeme.closes, Symbol.opens,
          Symbol.closes] using h.2
      have hstays := h.1.2
      rw [hn] at hstays
      exact absurd hstays (by decide)
    | cons m ls =>
      rw [getLast?_cons_cons]
      exact ih h.2

theorem behindAll_eq_self (h : ∀ l ∈ ls, isQualifier l = true ∨ isReference l = true) :
    n.behindAll ls = n := by
  induction ls with
  | nil => rfl
  | cons l ls ih =>
    rw [forall_mem_cons] at h
    rw [Nesting.behindAll, foldl_cons, behind_eq_self h.1]
    exact ih h.2

theorem pointsFrom_cons_qualifier {q : Lexeme} (hq : isQualifier q = true) :
    pointsFrom n (q :: ls) = pointsFrom n ls := by
  have hstar : (q == .symbol .star) = false := by
    rw [beq_eq_false_iff_ne]
    rintro rfl
    cases hq
  rw [pointsFrom, hstar, behind_eq_self (.inl hq), Bool.and_false, Bool.false_or]

theorem pointsFrom_append {qs : List Lexeme} (hqs : ∀ q ∈ qs, isQualifier q = true) :
    pointsFrom n (ls ++ qs) = pointsFrom n ls := by
  induction ls generalizing n with
  | nil =>
    induction qs with
    | nil => rfl
    | cons q qs ih =>
      rw [forall_mem_cons] at hqs
      rw [nil_append, pointsFrom_cons_qualifier hqs.1]
      exact ih hqs.2
  | cons l ls ih => rw [cons_append, pointsFrom, pointsFrom, ih]

theorem core_append (ls : List Lexeme) :
    ∃ qs, withoutReference ls = core ls ++ qs ∧ ∀ q ∈ qs, isQualifier q = true :=
  ⟨(withoutReference ls).rtakeWhile isQualifier, rdropWhile_append_rtakeWhile.symm,
    fun _ => mem_rtakeWhile_imp⟩

theorem getLast?_rdropWhile (p : Lexeme → Bool) (ls : List Lexeme) :
    ∀ l ∈ (ls.rdropWhile p).getLast?, p l = false := by
  intro l hl
  have hne : ls.rdropWhile p ≠ [] := by
    intro hnil
    rw [hnil] at hl
    cases hl
  have hlast := rdropWhile_last_not p ls hne
  rw [getLast?_eq_getLast_of_ne_nil hne] at hl
  rw [Option.some.inj hl] at hlast
  exact Bool.eq_false_iff.mpr hlast

/-- The qualifiers at the end are those of the type as a whole. -/
theorem unqualified_eq (h : Nesting.top.behindAll ls = .top) :
    unqualified ls = keepWhere keepsInner [] (core ls) := by
  obtain ⟨qs, hqs, hqualifiers⟩ := core_append ls
  have hnesting : Nesting.top.behindAll (core ls) = .top := by
    have hrefs : withoutReference ls ++ ls.rtakeWhile isReference = ls :=
      rdropWhile_append_rtakeWhile
    rw [← hrefs, hqs, append_assoc, Nesting.behindAll_append,
      behindAll_eq_self (forall_mem_append.mpr ⟨fun q hq => .inl (hqualifiers q hq),
        fun _ hr => .inr (mem_rtakeWhile_imp hr)⟩)] at h
    exact h
  have hend : keepWhere keepsInner (core ls) qs = keepWhere (fun _ _ _ => false) (core ls) qs := by
    apply keepWhere_congr
    intro mid q after hsplit
    rw [hsplit] at hqualifiers
    have hq : isQualifier q = true := hqualifiers q (by simp)
    have hmid : Nesting.top.behindAll (core ls ++ mid) = .top := by
      rw [Nesting.behindAll_append, hnesting]
      exact behindAll_eq_self fun l hl => .inl (hqualifiers l (by simp [hl]))
    have hafter : pointsFrom .top ([] ++ after) = pointsFrom .top [] :=
      pointsFrom_append fun l hl => hqualifiers l (by simp [hl])
    rw [nil_append] at hafter
    simp [keepsInner, hq, qualifiesWhole, hmid, hafter, pointsFrom]
  rw [unqualified, hqs, keepWhere_append, nil_append, hend, keepWhere_const,
    if_neg Bool.false_ne_true, append_nil]
  apply keepWhere_congr
  intro mid l after _
  rw [keepsInner, keepsInner, qualifiesWhole, qualifiesWhole, pointsFrom_append hqualifiers]

theorem evenly_keepsInner : Evenly keepsInner := by
  intro before q q' after hq hq'
  rw [keepsInner, keepsInner, hq, hq', qualifiesWhole, qualifiesWhole,
    pointsFrom_cons_qualifier hq', Nesting.behindAll_append,
    behindAll_eq_self (forall_mem_singleton.mpr (.inl hq))]

end Offload.Split
