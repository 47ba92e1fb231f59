import Offload.Proofs.Source.Arrange

/-!
# Records with specifiers

Between the keyword of a record and its name there may be specifiers in parentheses. Whether a
record has a body is decided by looking ahead for a brace, and the look ahead gives up at the first
parenthesis. So a record is read as one exactly if it has no such specifier; otherwise it becomes a
declaration without structure, over the same tokens, and what it declares inside is not seen.
-/

namespace Offload.Source

open List

namespace TokenStream

variable {ts : TokenStream} {i p q start fuel brace : Nat} {scope : Scope}

/-! ### Scanning without a declarator -/

/-- No declarator, no initializer and no member initializer so far. -/
def Shape.blank : Shape := ⟨none, false, false⟩

/-- The scan of a declaration gets from one token to another with nothing found, and takes at most
one level for each token. -/
structure Scans (ts : TokenStream) (start : Nat) (scope : Scope) (p q : Nat) : Prop where
  le : p ≤ q
  eq : ∀ fuel, ∃ fuel', fuel ≤ fuel' ∧
    ts.extentFrom start scope (fuel + (q - p)) .blank p = ts.extentFrom start scope fuel' .blank q

namespace Scans

theorem refl (ts : TokenStream) (start : Nat) (scope : Scope) (p : Nat) :
    Scans ts start scope p p :=
  ⟨le_rfl, fun fuel => ⟨fuel, le_rfl, by rw [Nat.sub_self, Nat.add_zero]⟩⟩

theorem trans {r : Nat} (h : Scans ts start scope p q) (h' : Scans ts start scope q r) :
    Scans ts start scope p r := by
  have hle := h.le
  have hle' := h'.le
  refine ⟨hle.trans hle', fun fuel => ?_⟩
  obtain ⟨mid, hmid, heq⟩ := h.eq (fuel + (r - q))
  obtain ⟨fuel', hfuel', heq'⟩ := h'.eq (mid - (r - q))
  refine ⟨fuel', by omega, ?_⟩
  rw [show fuel + (r - p) = fuel + (r - q) + (q - p) by omega, heq, ← heq']
  congr 1
  omega

/-- One round of the scan, which may jump ahead. -/
theorem of_round (hlt : p < q) (h : ∀ fuel, ts.extentFrom start scope (fuel + 1) .blank p =
    ts.extentFrom start scope fuel .blank q) : Scans ts start scope p q := by
  refine ⟨hlt.le, fun fuel => ⟨fuel + (q - p) - 1, by omega, ?_⟩⟩
  rw [← h]
  congr 1
  omega

end Scans

/-- Lexemes of the head of a record, parenthesized specifiers aside: no brackets, nothing that ends
a declaration or starts an initializer, and no operator. -/
def inHead (l : Lexeme) : Bool :=
  !l.opens && !l.closes && l != .symbol .semicolon && l != .symbol .equal &&
    l != .ident "operator" && l != .eof

theorem ne_of_inHead {l m : Lexeme} (h : inHead l = true) (h' : inHead m = false) : l ≠ m := by
  rintro rfl
  rw [h] at h'
  cases h'

theorem matchingAngle_in_head {limit close : Nat}
    (hhead : ∀ k, p ≤ k → k < brace → inHead (ts.lexeme k) = true) (hle : p ≤ brace)
    (hbrace : ts.lexeme brace = .symbol .openBrace)
    (h : ts.matchingAngle p limit = some close) : p ≤ close ∧ close < brace := by
  have hstep : ∀ j < limit, (ts.lexeme j).opens = false → p ≤ j ∧ j ≤ brace →
      p ≤ j + 1 ∧ j + 1 ≤ brace := by
    rintro j - ho ⟨hpj, hj⟩
    have hne : j ≠ brace := by
      rintro rfl
      simp [hbrace, Lexeme.opens, Symbol.opens] at ho
    omega
  have hjump : ∀ j < limit, (ts.lexeme j).opens → ts.lexeme j ≠ .symbol .openBrace →
      p ≤ j ∧ j ≤ brace → p ≤ ts.matching j + 1 ∧ ts.matching j + 1 ≤ brace := by
    rintro j - ho hopen ⟨hpj, hj⟩
    have hin := hhead j hpj (hj.lt_of_ne fun heq => hopen (heq ▸ hbrace))
    simp [inHead, ho] at hin
  obtain ⟨hfirst, hlast, -⟩ := matchingAngleFrom_invariant hstep hjump ⟨le_rfl, hle⟩ h
  exact ⟨hfirst.1, hlast.2⟩

/-- The head of a record is scanned up to its brace. -/
theorem scans_head (hhead : ∀ k, p ≤ k → k < brace → inHead (ts.lexeme k) = true)
    (hle : p ≤ brace) (hbrace : ts.lexeme brace = .symbol .openBrace) (hsize : brace < ts.size) :
    Scans ts start scope p brace := by
  induction hn : brace - p using Nat.strong_induction_on generalizing p with
  | _ n ih =>
    rcases Nat.eq_or_lt_of_le hle with rfl | hlt
    · exact .refl ts start scope p
    have hrest : ∀ {q}, p < q → q ≤ brace → Scans ts start scope q brace := fun hpq hq =>
      ih _ (by omega) (fun k hk => hhead k (hpq.le.trans hk)) hq rfl
    have hin := hhead p le_rfl hlt
    have hend : ts.atEnd p = false := by
      simp only [atEnd, decide_eq_false_iff_not]
      omega
    have hround : ∃ q, p < q ∧ q ≤ brace ∧ ∀ fuel,
        ts.extentFrom start scope (fuel + 1) .blank p = ts.extentFrom start scope fuel .blank q := by
      by_cases hless : ts.lexeme p = .symbol .less
      · by_cases hname : start < p ∧ (ts.lexeme (p - 1)).isIdent
        · refine ⟨(ts.matchingAngle p ts.size).getD p + 1, ?_, ?_, fun fuel => ?_⟩
          · cases hangle : ts.matchingAngle p ts.size with
            | none => exact Nat.lt_succ_self p
            | some close => exact Nat.lt_succ_of_le (matchingAngle_in_head hhead hle hbrace hangle).1
          · cases hangle : ts.matchingAngle p ts.size with
            | none => exact hlt
            | some close => exact (matchingAngle_in_head hhead hle hbrace hangle).2
          · rw [extentFrom, hend, if_neg (by simp), hless]
            exact if_pos (by simpa using hname)
        · refine ⟨p + 1, Nat.lt_succ_self p, hlt, fun fuel => ?_⟩
          rw [extentFrom, hend, if_neg (by simp), hless]
          exact if_neg (by simpa using hname)
      · refine ⟨p + 1, Nat.lt_succ_self p, hlt, fun fuel => ?_⟩
        rw [extentFrom, hend, if_neg (by simp)]
        have hne {l : Lexeme} : inHead l = false → ts.lexeme p ≠ l := ne_of_inHead hin
        split <;> first
          | rfl
          | exact absurd ‹ts.lexeme p = _› hless
          | exact absurd ‹ts.lexeme p = _› (hne rfl)
    obtain ⟨q, hpq, hq, hround⟩ := hround
    exact (Scans.of_round hpq hround).trans (hrest hpq hq)

theorem scans_word {word : String} (hlexeme : ts.lexeme p = .ident word) (hne : word ≠ "operator")
    (hlt : p + 1 < ts.size) : Scans ts start scope p (p + 1) := by
  refine .of_round (Nat.lt_succ_self p) fun fuel => ?_
  rw [extentFrom, hlexeme, if_neg (by simp [atEnd, hlt])]
  split <;> first | cases ‹Lexeme.ident word = _› | rfl
  exact absurd rfl hne

/-! ### Specifiers -/

/-- A word with something in parentheses behind it. -/
def specifier (word : String) (inner : List Lexeme) : List Lexeme :=
  .ident word :: .symbol .openParen :: (inner ++ [.symbol .closeParen])

/-- The words of specifiers that may stand before the name of a record. -/
def specifierWords : List String := ["__attribute__", "alignas"]

theorem declaratorName?_of_specifier {word : String} (hword : word ∈ specifierWords)
    (hlexeme : ts.lexeme p = .ident word) : ts.declaratorName? start scope (p + 1) = none := by
  have hnot : nonCallable.contains word = true := by
    simp only [specifierWords, mem_cons, not_mem_nil, or_false] at hword
    rcases hword with rfl | rfl <;> decide
  unfold declaratorName?
  split_ifs
  · rfl
  · simp only [Nat.add_sub_cancel, hlexeme, hnot, Bool.true_or, if_true]

/-- A specifier is scanned as a whole. -/
theorem scans_specifier (hend : ts.Ended) {word : String} {inner rest : List Lexeme}
    (hword : word ∈ specifierWords) (hinner : Dyck inner)
    (h : ts.lexemes.drop p = specifier word inner ++ rest) :
    Scans ts start scope p (p + (specifier word inner).length) := by
  obtain ⟨hlexeme, htail, -⟩ := lexeme_of_drop h
  obtain ⟨hparen, hafter, -⟩ := lexeme_of_drop htail
  have ho : (ts.lexeme (p + 1)).opens := opens_of_eq hparen rfl
  have hdrop : ts.lexemes.drop (p + 1 + 1) = inner ++ (ts.lexeme (p + 1)).partner :: rest := by
    rw [hafter, hparen]
    simp [Lexeme.partner]
  obtain ⟨hmatching, hlt, -⟩ := matching_of_dyck hend ho hinner hdrop
  have hname : Scans ts start scope p (p + 1) := by
    refine scans_word hlexeme ?_ (by omega)
    rintro rfl
    simp [specifierWords] at hword
  have hgroup : Scans ts start scope (p + 1) (ts.matching (p + 1) + 1) := by
    refine .of_round (by omega) fun fuel => ?_
    have hnotEnd : ts.atEnd (p + 1) = false := by
      simp only [atEnd, decide_eq_false_iff_not]
      omega
    rw [extentFrom, hnotEnd, if_neg (by simp), hparen]
    simp only [declaratorName?_of_specifier hword hlexeme, ite_self]
  have hlength : p + (specifier word inner).length = ts.matching (p + 1) + 1 := by
    simp only [specifier, length_cons, length_append, length_nil, hmatching]
    omega
  rw [hlength]
  exact hname.trans hgroup

/-- Specifiers, one after the other. -/
def specifiers (specs : List (String × List Lexeme)) : List Lexeme :=
  specs.flatMap fun spec => specifier spec.1 spec.2

theorem scans_specifiers (hend : ts.Ended) {specs : List (String × List Lexeme)}
    (hspecs : ∀ spec ∈ specs, spec.1 ∈ specifierWords ∧ Dyck spec.2) {rest : List Lexeme}
    (h : ts.lexemes.drop p = specifiers specs ++ rest) :
    Scans ts start scope p (p + (specifiers specs).length) := by
  induction specs generalizing p with
  | nil => exact .refl ts start scope p
  | cons spec specs ih =>
    rw [forall_mem_cons] at hspecs
    have heq : specifiers (spec :: specs) = specifier spec.1 spec.2 ++ specifiers specs := by
      simp [specifiers]
    rw [heq, append_assoc] at h
    have hfirst : Scans ts start scope p (p + (specifier spec.1 spec.2).length) :=
      scans_specifier hend hspecs.1.1 hspecs.1.2 h
    have hrest := hfirst.trans (ih hspecs.2 (drop_of_append h))
    rwa [heq, length_append, ← Nat.add_assoc]

/-! ### Records in a token stream -/

def recordKeywords : List String := ["struct", "class", "union"]

/-- A record with a body starts at a token: its keyword, its specifiers, the rest of its head, its
members in braces, and a semicolon. -/
structure RecordAt (ts : TokenStream) (i : Nat) (keyword : String)
    (specs : List (String × List Lexeme)) (head members : List Lexeme) : Prop where
  keyword_mem : keyword ∈ recordKeywords
  specs_mem : ∀ spec ∈ specs, spec.1 ∈ specifierWords ∧ Dyck spec.2
  head_mem : ∀ l ∈ head, inHead l = true
  members_dyck : Dyck members
  tokens : ∃ rest, ts.lexemes.drop i = .ident keyword :: (specifiers specs ++ (head ++
    .symbol .openBrace :: (members ++ .symbol .closeBrace :: .symbol .semicolon :: rest)))

/-- The index of the brace that opens the body of a record. -/
def openAt (i : Nat) (specs : List (String × List Lexeme)) (head : List Lexeme) : Nat :=
  i + 1 + (specifiers specs).length + head.length

/-- The index of the brace that closes it. -/
def closeAt (i : Nat) (specs : List (String × List Lexeme)) (head members : List Lexeme) : Nat :=
  openAt i specs head + 1 + members.length

theorem lexeme_mem_of_drop {w rest : List Lexeme} (h : ts.lexemes.drop p = w ++ rest)
    (hp : p ≤ q) (hq : q < p + w.length) : ts.lexeme q ∈ w := by
  induction w generalizing p with
  | nil =>
    rw [length_nil] at hq
    omega
  | cons l w ih =>
    obtain ⟨rfl, htail, -⟩ := lexeme_of_drop h
    rcases Nat.eq_or_lt_of_le hp with rfl | hlt
    · exact mem_cons_self
    · rw [length_cons] at hq
      exact mem_cons_of_mem _ (ih htail hlt (by omega))

namespace RecordAt

variable {keyword : String} {specs : List (String × List Lexeme)} {head members : List Lexeme}

theorem lexeme_keyword (h : RecordAt ts i keyword specs head members) :
    ts.lexeme i = .ident keyword := by
  obtain ⟨rest, htokens⟩ := h.tokens
  exact (lexeme_of_drop htokens).1

theorem drop_head (h : RecordAt ts i keyword specs head members) :
    ∃ rest, ts.lexemes.drop (i + 1 + (specifiers specs).length) = head ++
      .symbol .openBrace :: (members ++ .symbol .closeBrace :: .symbol .semicolon :: rest) := by
  obtain ⟨rest, htokens⟩ := h.tokens
  exact ⟨rest, drop_of_append (lexeme_of_drop htokens).2.1⟩

theorem inHead_of_lt (h : RecordAt ts i keyword specs head members) {k : Nat}
    (hk : i + 1 + (specifiers specs).length ≤ k) (hlt : k < openAt i specs head) :
    inHead (ts.lexeme k) = true := by
  obtain ⟨rest, hdrop⟩ := h.drop_head
  exact h.head_mem _ (lexeme_mem_of_drop hdrop hk hlt)

/-- The braces of a record are partners, with a semicolon behind them. -/
theorem braces (h : RecordAt ts i keyword specs head members) (hend : ts.Ended) :
    ts.lexeme (openAt i specs head) = .symbol .openBrace ∧
      ts.matching (openAt i specs head) = closeAt i specs head members ∧
      ts.lexeme (closeAt i specs head members + 1) = .symbol .semicolon ∧
      closeAt i specs head members + 2 < ts.size := by
  obtain ⟨rest, hdrop⟩ := h.drop_head
  obtain ⟨hopen, htail, -⟩ := lexeme_of_drop (drop_of_append hdrop)
  have hinner : ts.lexemes.drop (openAt i specs head + 1) =
      members ++ (ts.lexeme (openAt i specs head)).partner :: .symbol .semicolon :: rest := by
    rw [openAt, htail, hopen]
    rfl
  have ho : (ts.lexeme (openAt i specs head)).opens := by
    rw [openAt, hopen]
    rfl
  obtain ⟨hmatching, -, -⟩ := matching_of_dyck hend ho h.members_dyck hinner
  obtain ⟨-, hafter, -⟩ := lexeme_of_drop (drop_of_append hinner)
  have hsemicolon := (lexeme_of_drop hafter).1
  exact ⟨hopen, hmatching, hsemicolon, hend.lt_of_lexeme_ne (by rw [closeAt, hsemicolon]; simp)⟩

/-- The scan finds no declarator in a record and ends at its semicolon. -/
theorem extent_eq (h : RecordAt ts i keyword specs head members) (hend : ts.Ended)
    (scope : Scope) : ts.extent i scope = ⟨none, none, closeAt i specs head members + 1⟩ := by
  obtain ⟨hopen, hmatching, hsemicolon, hsize⟩ := h.braces hend
  have hclose : closeAt i specs head members = openAt i specs head + 1 + members.length := rfl
  have hopenAt : openAt i specs head = i + 1 + (specifiers specs).length + head.length := rfl
  have hkeyword : Scans ts i scope i (i + 1) := by
    refine scans_word h.lexeme_keyword ?_ (by omega)
    rintro rfl
    simpa [recordKeywords] using h.keyword_mem
  obtain ⟨rest, htokens⟩ := h.tokens
  have hscan : Scans ts i scope i (openAt i specs head) :=
    (hkeyword.trans (scans_specifiers hend h.specs_mem (lexeme_of_drop htokens).2.1)).trans
      (scans_head (fun k => h.inHead_of_lt) (by omega) hopen (by omega))
  obtain ⟨fuel, hfuel, heq⟩ := hscan.eq (ts.size + 1 - (openAt i specs head - i))
  obtain ⟨fuel, rfl⟩ : ∃ m, fuel = m + 2 := ⟨fuel - 2, by omega⟩
  rw [extent, show ts.size + 1 = ts.size + 1 - (openAt i specs head - i) +
    (openAt i specs head - i) by omega]
  refine heq.trans ?_
  rw [extentFrom, hopen, if_neg (by simp [atEnd]; omega)]
  simp only [Shape.blank, Option.isSome_none, Bool.false_and, Bool.false_eq_true, if_false,
    hmatching]
  rw [extentFrom, hsemicolon, if_neg (by simp [atEnd]; omega)]

theorem recordBodyFrom_of_head (hhead : ∀ k, p ≤ k → k < brace → inHead (ts.lexeme k) = true)
    (hle : p ≤ brace) (hbrace : ts.lexeme brace = .symbol .openBrace) (hsize : brace + 1 < ts.size)
    (hfuel : brace - p < fuel) : ts.recordBodyFrom fuel p = true := by
  induction fuel generalizing p with
  | zero => omega
  | succ fuel ih =>
    rw [recordBodyFrom, if_neg (by simp [atEnd]; omega)]
    rcases Nat.eq_or_lt_of_le hle with rfl | hlt
    · rw [hbrace]
    · have hin := hhead p le_rfl hlt
      have hrest := ih (fun k hk => hhead k (Nat.le_of_succ_le hk)) hlt (by omega)
      have hne {l : Lexeme} : inHead l = false → ts.lexeme p ≠ l := ne_of_inHead hin
      split <;> first
        | rfl
        | exact hrest
        | exact absurd ‹ts.lexeme p = _› (hne rfl)

/-- A body is seen ahead exactly if no specifier stands before the name. -/
theorem recordBodyAhead_iff (h : RecordAt ts i keyword specs head members) (hend : ts.Ended) :
    ts.recordBodyAhead i = true ↔ specs = [] := by
  obtain ⟨hopen, -, -, hsize⟩ := h.braces hend
  have hclose : closeAt i specs head members = openAt i specs head + 1 + members.length := rfl
  have hopenAt : openAt i specs head = i + 1 + (specifiers specs).length + head.length := rfl
  cases specs with
  | nil =>
    have hlength : (specifiers []).length = 0 := rfl
    refine iff_of_true (recordBodyFrom_of_head (fun k hk => h.inHead_of_lt ?_) ?_ hopen ?_ ?_) rfl
    all_goals omega
  | cons spec specs =>
    obtain ⟨rest, htokens⟩ := h.tokens
    have hspec : specifiers (spec :: specs) = .ident spec.1 :: .symbol .openParen ::
        (spec.2 ++ [.symbol .closeParen] ++ specifiers specs) := by
      simp [specifiers, specifier]
    obtain ⟨-, htail, -⟩ := lexeme_of_drop htokens
    rw [hspec] at htail hopenAt
    obtain ⟨hword, htail, -⟩ := lexeme_of_drop htail
    obtain ⟨hparen, -, -⟩ := lexeme_of_drop htail
    simp only [length_cons] at hopenAt
    obtain ⟨n, hn⟩ : ∃ n, ts.size = n + 2 := ⟨ts.size - 2, by omega⟩
    rw [recordBodyAhead, hn, recordBodyFrom, hword, if_neg (by simp [atEnd]; omega)]
    simp [recordBodyFrom, hparen, atEnd]

end RecordAt

end TokenStream

open TokenStream Parse

section Parsing

variable {ts : TokenStream} {s s' : ParseState} {fuel : Nat} {scope : Scope}

/-! ### Reading a record -/

theorem gives_peek_of_lt (h : s.cursor < ts.size) : Gives (peek ts) s (ts.lexeme s.cursor) s := by
  obtain ⟨t, ht⟩ := exists_token h
  simp only [peek, gives_bind, gives_cursor, gives_read, gives_pure]
  exact ⟨_, _, ⟨rfl, rfl⟩, t, _, ⟨ht, rfl⟩, (lexeme_of_token ht).2, rfl⟩

theorem gives_at_of_lt (h : s.cursor < ts.size) (l : Lexeme) :
    Gives (at_ ts l) s (ts.lexeme s.cursor == l) s := by
  simp only [at_, gives_bind, gives_pure]
  exact ⟨_, _, gives_peek_of_lt h, rfl, rfl⟩

theorem gives_atAnyWord_of_lt (h : s.cursor < ts.size) {word : String}
    (hword : ts.lexeme s.cursor = .ident word) (words : List String) :
    Gives (atAnyWord ts words) s (words.contains word) s := by
  simp only [atAnyWord, gives_bind]
  refine ⟨_, _, gives_peek_of_lt h, ?_⟩
  rw [hword]
  exact gives_pure.mpr ⟨rfl, rfl⟩

theorem gives_peekAt_self (offset : Nat) :
    Gives (peekAt ts offset) s (ts.lexeme (s.cursor + offset)) s := by
  simp only [peekAt, gives_bind, gives_cursor, gives_pure]
  exact ⟨_, _, ⟨rfl, rfl⟩, rfl, rfl⟩

section Keyword

variable {keyword : String} (hlt : s.cursor < ts.size)
  (hlexeme : ts.lexeme s.cursor = .ident keyword) (hkeyword : keyword ∈ recordKeywords)
include hlt hlexeme hkeyword

theorem gives_atWord_keyword {word : String} (hword : word ∉ recordKeywords) :
    Gives (atWord ts word) s false s := by
  have hat := gives_at_of_lt hlt (.ident word)
  have hne : (Lexeme.ident keyword == .ident word) = false := by
    simp only [beq_eq_false_iff_ne, ne_eq, Lexeme.ident.injEq]
    rintro rfl
    exact hword hkeyword
  rwa [hlexeme, hne] at hat

/-- At the keyword of a record, the look ahead decides how it is read. -/
theorem run_parseDecl_keyword :
    (parseDecl ts (fuel + 1) scope).run s =
      (if ts.recordBodyAhead s.cursor then some <$> parseRecord ts fuel
        else some <$> parseGeneric ts scope none).run s := by
  have heat : Gives (eat ts .semicolon) s false s := by
    have hat := gives_at_of_lt hlt (.symbol .semicolon)
    rw [hlexeme] at hat
    simp only [eat, gives_bind]
    exact ⟨false, s, hat, by simp⟩
  have hword {word : String} : word ∉ recordKeywords → Gives (atWord ts word) s false s :=
    gives_atWord_keyword hlt hlexeme hkeyword
  have hheads : Gives (templateHeads ts (ts.size + 1) none) s (some none) s := by
    simp only [templateHeads, gives_bind]
    exact ⟨false, s, hword (by decide), by simp⟩
  have hrecord : Gives (atAnyWord ts ["struct", "class", "union"]) s true s := by
    have hany := gives_atAnyWord_of_lt hlt hlexeme recordKeywords
    rwa [contains_iff_mem.mpr hkeyword] at hany
  have haccess : Gives (atAnyWord ts ["public", "private", "protected"]) s false s := by
    have hany := gives_atAnyWord_of_lt hlt hlexeme ["public", "private", "protected"]
    have hnot : ["public", "private", "protected"].contains keyword = false := by
      simp only [recordKeywords, mem_cons, not_mem_nil, or_false] at hkeyword
      rcases hkeyword with rfl | rfl | rfl <;> decide
    rwa [hnot] at hany
  rw [parseDecl, run_bind_of_gives heat, if_neg (by simp)]
  cases scope <;> dsimp only
  on_goal 4 =>
    rw [run_bind_of_gives haccess, run_bind_of_gives (gives_peekAt_self 1), Bool.false_and,
      if_neg (by simp)]
  -- In every scope, after the template heads one word after the other is not there.
  all_goals
    rw [run_bind_of_gives hheads]
    dsimp only
    rw [run_bind_of_gives (gives_peekAt_self 1), run_bind_of_gives (hword (by decide)),
      run_bind_of_gives (hword (by decide)), Bool.false_or, Bool.false_and, if_neg (by simp),
      run_bind_of_gives (hword (by decide)), Bool.false_and, if_neg (by simp),
      run_bind_of_gives (hword (by decide)), Bool.false_and, if_neg (by simp),
      run_bind_of_gives hrecord, run_bind_of_gives (gives_cursor.mpr ⟨rfl, rfl⟩), Bool.true_and]
    split_ifs <;> rw [map_eq_pure_bind]

end Keyword

/-! ### Names of records -/

/-- The word of a head that may be the name. -/
def nameWord : Lexeme → Option String
  | .ident word => if word ∈ ["__attribute__", "final", "alignas"] then none else some word
  | _ => none

/-- The name in a head without specifiers: its last such word before a base clause. -/
def headName (head : List Lexeme) : Option String :=
  ((head.takeWhile (· != .symbol .colon)).filterMap nameWord).getLast?

theorem headName_cons {l : Lexeme} (head : List Lexeme) (hl : l ≠ .symbol .colon) :
    headName (l :: head) = (headName head).or (nameWord l) := by
  rw [headName, takeWhile_cons_of_pos (by simpa using hl), filterMap_cons]
  cases nameWord l with
  | none => simp [headName]
  | some word =>
    rw [headName, getLast?_cons]
    cases ((head.takeWhile (· != .symbol .colon)).filterMap nameWord).getLast? <;> rfl

theorem recordName_of_head (hend : ts.Ended) {head rest : List Lexeme} {name r : Option String}
    (hhead : ∀ l ∈ head, inHead l = true)
    (hdrop : ts.lexemes.drop s.cursor = head ++ .symbol .openBrace :: rest)
    (hfuel : head.length < fuel) (h : Gives (recordName ts fuel name) s r s') :
    r = (headName head).or name := by
  induction head generalizing s fuel name with
  | nil =>
    obtain ⟨hbrace, -, -⟩ := lexeme_of_drop hdrop
    obtain ⟨fuel, rfl⟩ : ∃ n, fuel = n + 1 := ⟨fuel - 1, by omega⟩
    rw [recordName] at h
    obtain ⟨_, _, hpeek, h⟩ := gives_bind.mp h
    obtain ⟨rfl, rfl, -⟩ := gives_peek hpeek
    rw [hbrace] at h
    obtain ⟨rfl, -⟩ := gives_pure.mp h
    rfl
  | cons l head ih =>
    obtain ⟨rfl, htail, -⟩ := lexeme_of_drop hdrop
    obtain ⟨fuel, rfl⟩ : ∃ n, fuel = n + 1 := ⟨fuel - 1, by omega⟩
    rw [forall_mem_cons] at hhead
    rw [length_cons] at hfuel
    rw [recordName] at h
    obtain ⟨_, _, hpeek, h⟩ := gives_bind.mp h
    obtain ⟨rfl, rfl, -⟩ := gives_peek hpeek
    have hin := hhead.1
    have hne : ts.lexeme s.cursor ≠ .eof := ne_of_inHead hin rfl
    -- the rest of the head, with the name known so far
    have hrest : ∀ {t m known}, Gives (advance ts) s t m → Gives (recordName ts fuel known) m r s' →
        r = (headName head).or known := by
      intro t m known hadvance hgives
      have hcursor := cursor_advance hend hadvance hne
      exact ih hhead.2 (hcursor ▸ htail) (by omega) hgives
    have hnext : ts.lexeme (s.cursor + 1) ≠ .symbol .openParen := by
      cases head with
      | nil => simp [(lexeme_of_drop htail).1]
      | cons l head =>
        intro hparen
        have hl := hhead.2 l mem_cons_self
        rw [← (lexeme_of_drop htail).1, hparen] at hl
        cases hl
    split at h
    · exact absurd ‹_› (ne_of_inHead hin (m := .symbol .openBrace) rfl)
    · exact absurd ‹_› hne
    · rename_i hcolon
      simp only [gives_bind, gives_cursor, gives_moveTo, gives_pure] at h
      obtain ⟨_, _, ⟨rfl, rfl⟩, _, _, rfl, rfl, rfl⟩ := h
      simp [headName, hcolon]
    · rename_i word hword
      rw [headName_cons head (by simp [hword]), hword]
      obtain ⟨t, m, hadvance, h⟩ := gives_bind.mp h
      split_ifs at h with hattribute hother
      · obtain ⟨paren, _, hat, h⟩ := gives_bind.mp h
        obtain ⟨rfl, rfl⟩ := gives_atSymbol hat
        rw [cursor_advance hend hadvance hne, if_neg (by simpa using hnext)] at h
        have hnone : nameWord (.ident word) = none := by simp_all [nameWord]
        rw [hrest hadvance h, hnone, Option.or_none]
      · have hnone : nameWord (.ident word) = none := by simp_all [nameWord]
        rw [hrest hadvance h, hnone, Option.or_none]
      · have hsome : nameWord (.ident word) = some word := by simp_all [nameWord]
        rw [hrest hadvance h, hsome, Option.or_assoc]
        rfl
    · rename_i hcolon hword
      obtain ⟨t, m, hadvance, h⟩ := gives_bind.mp h
      have hnone : nameWord (ts.lexeme s.cursor) = none := by
        unfold nameWord
        split
        · exact absurd ‹_› (hword _)
        · rfl
      rw [headName_cons head hcolon, hrest hadvance h, hnone, Option.or_none]

/-! ### What is read at a record -/

variable {keyword : String} {specs : List (String × List Lexeme)} {head members : List Lexeme}

/-- Without a specifier, the tokens after the keyword are the head. -/
theorem parseRecord_gives (hend : ts.Ended) (h : RecordAt ts s.cursor keyword [] head members)
    {d : Decl} (hgives : Gives (parseRecord ts fuel) s d s') :
    ∃ span decls, d = .record keyword (headName head) span decls := by
  obtain ⟨hopen, -, -, hsize⟩ := h.braces hend
  obtain ⟨rest, hdrop⟩ := h.drop_head
  cases fuel with
  | zero =>
    rw [parseRecord] at hgives
    exact absurd hgives not_gives_fault
  | succ fuel =>
    rw [parseRecord] at hgives
    obtain ⟨_, _, hcursor, hgives⟩ := gives_bind.mp hgives
    obtain ⟨rfl, rfl⟩ := gives_cursor.mp hcursor
    obtain ⟨t, m, hadvance, hgives⟩ := gives_bind.mp hgives
    obtain ⟨name, n, hname, hgives⟩ := gives_bind.mp hgives
    have hspelling : t.lexeme.spelling = keyword := by
      rw [← (lexeme_of_token (gives_advance hadvance).1).2, h.lexeme_keyword]
      rfl
    have hm : m.cursor = s.cursor + 1 := cursor_advance hend hadvance (by simp [h.lexeme_keyword])
    obtain rfl : name = headName head := by
      rw [recordName_of_head hend h.head_mem (hm ▸ hdrop) ?_ hname, Option.or_none]
      simp only [closeAt, openAt] at hsize
      omega
    obtain ⟨_, _, -, hgives⟩ := gives_bind.mp hgives
    obtain ⟨_, _, -, hgives⟩ := gives_bind.mp hgives
    dsimp only at hgives
    -- whatever the members are and whatever follows the closing brace
    split_ifs at hgives
    all_goals
      simp only [gives_bind] at hgives
      obtain ⟨decls, _, -, _, _, -, _, _, -, _, _, -, _, _, -, hgives⟩ := hgives
      split_ifs at hgives
      all_goals
        simp only [gives_bind, gives_read, gives_pure] at hgives
        obtain ⟨_, _, -, span, _, -, rfl, -⟩ := hgives
        exact ⟨span, decls, by rw [hspelling]⟩

theorem gives_eat_of_eq {x : Symbol} (hlexeme : ts.lexeme s.cursor = .symbol x)
    (hlt : s.cursor + 1 < ts.size) : Gives (eat ts x) s true { s with cursor := s.cursor + 1 } := by
  obtain ⟨t, ht⟩ := exists_token (Nat.lt_of_succ_lt hlt)
  have hat : Gives (atSymbol ts x) s true s := by
    have hat := gives_at_of_lt (Nat.lt_of_succ_lt hlt) (.symbol x)
    rwa [hlexeme, beq_self_eq_true] at hat
  have hadvance : Gives (advance ts) s t { s with cursor := s.cursor + 1 } := by
    simp only [advance, gives_bind, gives_cursor, gives_read]
    refine ⟨_, _, ⟨rfl, rfl⟩, t, s, ⟨ht, rfl⟩, ?_⟩
    rw [if_pos hlt]
    simp
  simp only [eat, gives_bind]
  refine ⟨true, s, hat, ?_⟩
  rw [if_pos rfl]
  exact gives_bind.mpr ⟨t, _, hadvance, gives_pure.mpr ⟨rfl, rfl⟩⟩

theorem Forward.spanBetween {i j : Nat} (h : ts.Forward) (hij : i ≤ j) (hj : j < ts.size) :
    ∃ span, ts.spanBetween i j = .ok span := by
  obtain ⟨t, ht⟩ := exists_token (hij.trans_lt hj)
  obtain ⟨u, hu⟩ := exists_token hj
  have hle := h hij ht hu
  simp [TokenStream.spanBetween, ht, hu, bind, Except.bind, Span.between, hle]

/-- A declaration without structure, from the keyword of a record to its closing brace. -/
theorem parseGeneric_gives (hend : ts.Ended) (h : RecordAt ts s.cursor keyword specs head members)
    {span : Span}
    (hspan : ts.spanBetween s.cursor (closeAt s.cursor specs head members) = .ok span) :
    Gives (parseGeneric ts scope none) s (.other span)
      { s with cursor := closeAt s.cursor specs head members + 2 } := by
  obtain ⟨-, -, hsemicolon, hsize⟩ := h.braces hend
  simp only [parseGeneric, gives_bind, gives_cursor]
  refine ⟨_, _, ⟨rfl, rfl⟩, ?_⟩
  rw [h.extent_eq hend scope]
  have heat : Gives (eat ts .semicolon)
      { s with cursor := closeAt s.cursor specs head members + 1 } true
      { s with cursor := closeAt s.cursor specs head members + 2 } :=
    gives_eat_of_eq hsemicolon hsize
  have hlast : max (closeAt s.cursor specs head members) s.cursor =
      closeAt s.cursor specs head members := by
    simp only [closeAt, openAt]
    omega
  simp only [gives_bind, gives_moveTo, gives_read, gives_pure, Option.getD_none,
    Nat.add_sub_cancel, hlast]
  exact ⟨(), _, rfl, true, _, heat, span, _, ⟨hspan, rfl⟩, rfl, rfl⟩

theorem cursor_lt_closeAt : s.cursor < closeAt s.cursor specs head members := by
  simp only [closeAt, openAt]
  omega

theorem parseDecl_record (hend : ts.Ended) (h : RecordAt ts s.cursor keyword [] head members)
    {d : Option Decl} (hgives : Gives (parseDecl ts (fuel + 1) scope) s d s') :
    ∃ span decls, d = some (.record keyword (headName head) span decls) := by
  obtain ⟨-, -, -, hsize⟩ := h.braces hend
  have hcursor : s.cursor < closeAt s.cursor [] head members := cursor_lt_closeAt
  rw [Gives, run_parseDecl_keyword (by omega) h.lexeme_keyword h.keyword_mem,
    if_pos ((h.recordBodyAhead_iff hend).mpr rfl)] at hgives
  obtain ⟨x, hrecord, rfl⟩ := gives_map.mp hgives
  obtain ⟨span, decls, rfl⟩ := parseRecord_gives hend h hrecord
  exact ⟨span, decls, rfl⟩

theorem parseDecl_hidden (hend : ts.Ended) (h : RecordAt ts s.cursor keyword specs head members)
    (hspecs : specs ≠ []) {span : Span}
    (hspan : ts.spanBetween s.cursor (closeAt s.cursor specs head members) = .ok span) :
    Gives (parseDecl ts (fuel + 1) scope) s (some (.other span))
      { s with cursor := closeAt s.cursor specs head members + 2 } := by
  obtain ⟨-, -, -, hsize⟩ := h.braces hend
  have hcursor : s.cursor < closeAt s.cursor specs head members := cursor_lt_closeAt
  have hahead : ¬ ts.recordBodyAhead s.cursor = true := fun hbody =>
    hspecs ((h.recordBodyAhead_iff hend).mp hbody)
  rw [Gives, run_parseDecl_keyword (by omega) h.lexeme_keyword h.keyword_mem, if_neg hahead]
  exact gives_map.mpr ⟨_, parseGeneric_gives hend h hspan, rfl⟩

end Parsing

/-- At a record with a body: without a specifier before its name it is read as a record, or a
parameter that begins with the `=` of its default stops the reading. With a specifier it is read as
a declaration without structure, up to the closing brace, and nothing is reported. -/
theorem specifier_hides_record {ts : TokenStream} (hend : ts.Ended) (hclosed : ts.Closed)
    (hforward : ts.Forward) {s : ParseState} {keyword : String}
    {specs : List (String × List Lexeme)} {head members : List Lexeme}
    (h : RecordAt ts s.cursor keyword specs head members) (scope : Scope) {fuel : Nat}
    (hfuel : 3 * (ts.size - s.cursor) + 1 ≤ fuel) :
    (specs = [] →
      (∃ span decls s', Gives (parseDecl ts fuel scope) s
        (some (.record keyword (headName head) span decls)) s') ∨
      ∃ start stop, (parseDecl ts fuel scope).run s = .error (.reversed start stop) ∧
        ts.BareDefault start stop) ∧
    (specs ≠ [] → ∃ span,
      ts.spanBetween s.cursor (closeAt s.cursor specs head members) = .ok span ∧
      Gives (parseDecl ts fuel scope) s (some (.other span))
        { s with cursor := closeAt s.cursor specs head members + 2 }) := by
  obtain ⟨-, -, -, hsize⟩ := h.braces hend
  have hcursor : s.cursor < closeAt s.cursor specs head members := cursor_lt_closeAt
  obtain ⟨fuel, rfl⟩ : ∃ n, fuel = n + 1 := ⟨fuel - 1, by omega⟩
  refine ⟨fun hnone => ?_, fun hsome => ?_⟩
  · subst hnone
    cases hrun : (parseDecl ts (fuel + 1) scope).run s with
    | error f =>
      obtain ⟨start, stop, rfl, hbare⟩ :=
        ((declWalks hend (fuel + 1)).decl (by omega) fun _ => hfuel).error rfl hrun hclosed
      exact .inr ⟨start, stop, rfl, hbare hforward⟩
    | ok r =>
      have hgives : Gives (parseDecl ts (fuel + 1) scope) s r.1 r.2 := hrun
      obtain ⟨span, decls, heq⟩ := parseDecl_record hend h hgives
      exact .inl ⟨span, decls, r.2, heq ▸ hgives⟩
  · obtain ⟨span, hspan⟩ := Forward.spanBetween hforward hcursor.le (by omega)
    exact ⟨span, hspan, parseDecl_hidden hend h hsome hspan⟩

/-! ### A packed record -/

def fileToken (l : Lexeme) (start stop : Nat) : Token := ⟨l, ⟨start, stop⟩, false, .file, none⟩

/-- The tokens of `struct S \x7b int f(); \x7d;`, with others behind the keyword. -/
def recordStream (specifiers : List Token) : TokenStream where
  tokens := ⟨fileToken (.ident "struct") 0 6 :: (specifiers ++
    [fileToken (.ident "S") 31 32, fileToken (.symbol .openBrace) 33 34,
      fileToken (.ident "int") 35 38, fileToken (.ident "f") 39 40,
      fileToken (.symbol .openParen) 40 41, fileToken (.symbol .closeParen) 41 42,
      fileToken (.symbol .semicolon) 42 43, fileToken (.symbol .closeBrace) 44 45,
      fileToken (.symbol .semicolon) 45 46, fileToken .eof 47 47])⟩

/-- With `__attribute__((packed))` there. -/
def packedStream : TokenStream := recordStream
  [fileToken (.ident "__attribute__") 7 20, fileToken (.symbol .openParen) 20 21,
    fileToken (.symbol .openParen) 21 22, fileToken (.ident "packed") 22 28,
    fileToken (.symbol .closeParen) 28 29, fileToken (.symbol .closeParen) 29 30]

theorem recordAt_packed : RecordAt packedStream 0 "struct"
    [("__attribute__", [.symbol .openParen, .ident "packed", .symbol .closeParen])] [.ident "S"]
    [.ident "int", .ident "f", .symbol .openParen, .symbol .closeParen, .symbol .semicolon] where
  keyword_mem := by decide
  specs_mem := by
    have hdyck : Dyck [.symbol .openParen, .ident "packed", .symbol .closeParen] :=
      Dyck.check_iff.mp (by decide)
    simp [specifierWords, hdyck]
  head_mem := by decide
  members_dyck := Dyck.check_iff.mp (by decide)
  tokens := ⟨[.eof], by decide⟩

/-- The record with the attribute is read to its end, and is no record. -/
theorem specifier_hides_record_packed : packedStream.Ended ∧ packedStream.Closed ∧
    Gives (parseDecl packedStream 60 .file) .initial (some (.other ⟨0, 45⟩))
      { ParseState.initial with cursor := 16 } := by
  have hend : packedStream.Ended := by
    unfold Ended
    decide
  have hclosed : packedStream.Closed := closed_of_forall_lt hend (by decide)
  have hforward : packedStream.Forward := forward_of_pairwise (by decide) (by decide)
  have hrecord : RecordAt packedStream ParseState.initial.cursor _ _ _ _ := recordAt_packed
  have hfuel : 3 * (packedStream.size - ParseState.initial.cursor) + 1 ≤ 60 := by decide
  obtain ⟨span, hspan, hgives⟩ :=
    (specifier_hides_record hend hclosed hforward hrecord .file hfuel).2 (by simp)
  obtain rfl : span = ⟨0, 45⟩ := by
    have hreads : packedStream.spanBetween 0 14 = .ok ⟨0, 45⟩ := by decide
    exact Except.ok.inj (hspan.symm.trans hreads)
  exact ⟨hend, hclosed, hgives⟩

/-- The function in the record is found, unless there is an attribute before the name. -/
theorem attribute_hides_member_function : ∃ shown hidden s s',
    Gives (parseUnit (recordStream [])) .initial shown s ∧
      Gives (parseUnit packedStream) .initial hidden s' ∧
      (functionsOf shown).map (·.name) = ["f"] ∧ functionsOf hidden = [] ∧
      s'.diagnostics = [] := by
  have hshown : ((parseUnit (recordStream [])).run .initial).toOption.any
      (fun r => (functionsOf r.1).map (·.name) == ["f"]) = true := by decide +kernel
  have hhidden : ((parseUnit packedStream).run .initial).toOption.any
      (fun r => (functionsOf r.1).isEmpty && r.2.diagnostics.isEmpty) = true := by decide +kernel
  obtain ⟨shown, hgives, hnames⟩ := exists_ok_of_any hshown
  obtain ⟨hidden, hgives', hnone⟩ := exists_ok_of_any hhidden
  simp only [Bool.and_eq_true, List.isEmpty_iff] at hnone
  exact ⟨shown.1, hidden.1, shown.2, hidden.2, hgives, hgives', by simpa using hnames, hnone.1,
    hnone.2⟩

end Offload.Source
