import Offload.Proofs.Source.OpenEscape
import Offload.Proofs.Source.Spelling

/-!
# Rendered text scanned again

A type is recorded as text: the spellings of its lexemes, with a blank between two words and behind
each comma. Nothing else is kept apart, while the scanner takes the longest token that it finds. So
the lexemes are found again where each of them ends before what is rendered behind it, and where no
slash begins a comment; in other places two of them can become one.
-/

namespace Offload.Source

open List Ascii

variable {b quote : UInt8} {bs rest tail after : List UInt8} {l : Lexeme} {s : Scan} {p : String}

/-! ### Where a lexeme ends -/

/-- The lexeme is closed, and nothing that stands behind it becomes a part of it. -/
def Lexeme.EndsBefore (after : List UInt8) : Lexeme → Prop
  | .ident _ => True
  | .number s => ∀ b ∈ (Text.bytes s).getLast?, numberTail b after = 0
  | .str s => Quoted Ascii.doubleQuote (Text.bytes s)
  | .char s => ∃ body, Quoted Ascii.singleQuote body ∧
      Text.bytes s = Ascii.singleQuote :: (body ++ [Ascii.singleQuote])
  | .eof => False
  | l => (∀ q ∈ punctuators, Text.bytes q <+: Text.bytes l.spelling ++ after →
        (Text.bytes q).length ≤ (Text.bytes l.spelling).length) ∧
      (l.spelling = "." → after.head?.any Ascii.isDigit = false)

theorem endsBefore_punctuator (p : String) (after : List UInt8) :
    (punctuator p).EndsBefore after ↔ (∀ q ∈ punctuators, Text.bytes q <+: Text.bytes p ++ after →
        (Text.bytes q).length ≤ (Text.bytes p).length) ∧
      (p = "." → after.head?.any isDigit = false) := by
  have hspelling := punctuator_spelling p
  unfold punctuator at hspelling ⊢
  split <;> simp_all [Lexeme.EndsBefore]

/-- No name goes on here, and no string begins. -/
def PartsName (after : List UInt8) : Prop :=
  ∀ b ∈ after.head?, isIdentContinue b = false ∧ b ≠ Ascii.doubleQuote

/-- The lexeme is scanned off the front of the text, as it is spelled there. -/
def Scans (l : Lexeme) (b : UInt8) (tail : List UInt8) : Prop :=
  scanToken b tail = .ok (.complete l (Text.bytes l.spelling).length)

/-! ### Names and numbers -/

/-- Encoding marks and the mark of a raw string look like a name. -/
theorem encodings_class {mark : String} (hmark : mark ∈ encodings) {xs : List UInt8}
    (hxs : xs ∈ [Text.bytes mark, Text.bytes mark ++ [0x52]]) :
    (∀ c ∈ xs, isIdentContinue c = true) ∧ ∀ c ∈ xs.head?, isIdentStart c = true := by
  have hall : ∀ mark ∈ encodings, ∀ xs ∈ [Text.bytes mark, Text.bytes mark ++ [0x52]],
      xs.all isIdentContinue = true ∧ xs.head?.all isIdentStart = true := by decide
  simpa [Option.all_eq_true] using hall mark hmark xs hxs

theorem scanString?_some {x : Except Fault Scanned} (h : scanString? rest = some x) :
    ∃ xs ys, rest = xs ++ doubleQuote :: ys ∧ (∀ c ∈ xs, isIdentContinue c = true) ∧
      ∀ c ∈ xs.head?, isIdentStart c = true := by
  obtain ⟨mark, hmark, h⟩ := exists_of_findSome?_eq_some h
  simp only at h
  split_ifs at h with hfront hraw hquote
  · obtain ⟨after, rfl⟩ := isPrefixOf_iff_prefix.mp hfront
    rw [drop_left] at hraw
    obtain ⟨more, rfl⟩ := isPrefixOf_iff_prefix.mp hraw
    exact ⟨Text.bytes mark ++ [0x52], more, by rw [append_assoc]; rfl,
      encodings_class hmark (by simp)⟩
  · obtain ⟨after, rfl⟩ := isPrefixOf_iff_prefix.mp hfront
    obtain ⟨tail, rfl⟩ : ∃ tail, after = doubleQuote :: tail := by
      simpa [head?_eq_some_iff] using hquote
    exact ⟨Text.bytes mark, tail, rfl, encodings_class hmark (by simp)⟩

theorem scanString?_eq_none (hb : isIdentStart b = false) (hquote : b ≠ doubleQuote) :
    scanString? (b :: tail) = none := by
  cases h : scanString? (b :: tail) with
  | none => rfl
  | some x =>
    obtain ⟨xs, ys, hrest, -, hhead⟩ := scanString?_some h
    cases xs with
    | nil => exact absurd (cons.inj hrest).1 hquote
    | cons c xs =>
      rw [(cons.inj hrest).1, hhead c rfl] at hb
      cases hb

theorem scans_name (hs : Text.bytes p = b :: bs) (hb : isIdentStart b = true)
    (hbs : ∀ c ∈ bs, isIdentContinue c = true) (hafter : PartsName after) :
    Scans (.ident p) b (bs ++ after) := by
  have hcontinue : isIdentContinue b = true := by simp [isIdentContinue, hb]
  have hstop : after.takeWhile isIdentContinue = [] := by
    cases after with
    | nil => rfl
    | cons c after => simp [(hafter c rfl).1]
  have htake : (b :: (bs ++ after)).takeWhile isIdentContinue = b :: bs := by
    rw [takeWhile_cons_of_pos hcontinue, takeWhile_append_of_pos hbs, hstop, append_nil]
  have hstring : scanString? (b :: (bs ++ after)) = none := by
    cases h : scanString? (b :: (bs ++ after)) with
    | none => rfl
    | some x =>
      obtain ⟨xs, ys, hrest, hxs, -⟩ := scanString?_some h
      have hquote : isIdentContinue doubleQuote = false := by decide
      rw [hrest, takeWhile_append_of_pos hxs, takeWhile_cons_of_neg (by simp [hquote]),
        append_nil] at htake
      rw [htake, ← cons_append, append_cancel_left_eq] at hrest
      exact absurd rfl (hafter doubleQuote (by simp [hrest])).2
  rw [Scans, scanToken, hstring]
  simp only
  rw [if_pos hb, htake, length_cons, take_succ_cons, take_left, ← hs,
    Text.ofBytes_bytes, Lexeme.spelling, hs, length_cons]

theorem numberTail_append (h : numberTail b bs = bs.length) (after : List UInt8) :
    numberTail b (bs ++ after) = bs.length + numberTail (bs.getLast?.getD b) after := by
  induction bs generalizing b with
  | nil => simp
  | cons c bs ih =>
    rw [numberTail] at h
    split_ifs at h with hc
    rw [cons_append, numberTail, if_pos hc, ih (by simpa using h), getLast?_cons,
      length_cons, Option.getD_some]
    omega

theorem scans_number (hs : Text.bytes p = b :: bs)
    (hb : (isDigit b || b == dot && bs.head?.any isDigit) = true)
    (hbs : numberTail b bs = bs.length) (h : (Lexeme.number p).EndsBefore after) :
    Scans (.number p) b (bs ++ after) := by
  have hstart : isIdentStart b = false ∧ b ≠ doubleQuote := by
    grind [isIdentStart, isDigit, isAlpha, isUpper, isLower]
  have hnumber : (isDigit b || b == dot && (bs ++ after).head?.any isDigit) = true := by
    cases bs with
    | nil => simp_all
    | cons c bs => exact hb
  have hstop : numberTail b (bs ++ after) = bs.length := by
    rw [numberTail_append hbs, h _ (by rw [hs, getLast?_cons]; rfl), Nat.add_zero]
  rw [Scans, scanToken, scanString?_eq_none hstart.1 hstart.2]
  simp only
  rw [if_neg (by simp [hstart.1]), if_pos hnumber, hstop, take_succ_cons, take_left, ← hs,
    Text.ofBytes_bytes, Lexeme.spelling, hs, length_cons]

/-! ### Literals -/

theorem Quoted.quotedBody_closed (h : Quoted quote bs) (hline : quote ≠ newline)
    (hescape : quote ≠ backslash) (after : List UInt8) :
    quotedBody quote (bs ++ quote :: after) = (bs.length, true) := by
  rw [h.quotedBody_append, quotedBody.eq_def]
  simp [hline, hescape]

theorem string_spelling (p : String) : Text.bytes (Lexeme.str p).spelling =
    doubleQuote :: (Text.bytes p ++ [doubleQuote]) := by
  rw [Lexeme.spelling, Text.bytes_append, Text.bytes_append]
  rfl

theorem scans_string (h : (Lexeme.str p).EndsBefore after) :
    Scans (.str p) doubleQuote (Text.bytes p ++ [doubleQuote] ++ after) := by
  have hclosed := Quoted.quotedBody_closed h (by decide) (by decide) after
  rw [Scans, string_spelling, scanToken, scanString?_doubleQuote, append_assoc, singleton_append]
  simp only [scanString, Nat.zero_add, drop_one, tail_cons, hclosed, if_true,
    take_left, Text.ofBytes_bytes]
  simp [Nat.add_comm]

theorem scans_character (hs : Text.bytes p = singleQuote :: bs)
    (h : (Lexeme.char p).EndsBefore after) : Scans (.char p) singleQuote (bs ++ after) := by
  obtain ⟨body, hbody, heq⟩ := h
  obtain rfl := (cons.inj (hs.symm.trans heq)).2
  have hclosed := hbody.quotedBody_closed (by decide) (by decide) after
  have htake : (singleQuote :: (body ++ [singleQuote] ++ after)).take
      (body.length + 2) = Text.bytes p := by
    rw [hs, take_succ_cons, take_left' (by simp)]
  have hscan : scanToken singleQuote (body ++ [singleQuote] ++ after) =
      .ok (scanCharacter (singleQuote :: (body ++ [singleQuote] ++ after))) := by
    rw [scanToken, scanString?_eq_none (by decide) (by decide)]
    rfl
  have hdrop : (singleQuote :: (body ++ [singleQuote] ++ after)).drop 1 =
      body ++ singleQuote :: after := by simp
  rw [Scans, hscan, scanCharacter, hdrop, hclosed]
  simp only [if_true, htake, Text.ofBytes_bytes, Lexeme.spelling]
  simp [hs]

/-! ### Punctuators -/

/-- Each punctuator stands before those that begin it. -/
theorem punctuators_pairwise : punctuators.Pairwise fun p q => ¬ Text.bytes p <+: Text.bytes q := by
  decide

theorem exists_bytes_punctuator (hp : p ∈ punctuators) :
    ∃ b bs, Text.bytes p = b :: bs ∧ startsToken b = true ∧ isIdentContinue b = false ∧
      b ≠ doubleQuote ∧ b ≠ singleQuote := by
  have hclass : ∀ p ∈ punctuators, Text.bytes p ≠ [] ∧ (Text.bytes p).head?.all
      (fun b => startsToken b && !isIdentContinue b && b != doubleQuote && b != singleQuote) =
        true := by decide
  obtain ⟨hne, hhead⟩ := hclass p hp
  obtain ⟨b, bs, hs⟩ := exists_cons_of_ne_nil hne
  exact ⟨b, bs, hs, by simpa [hs, and_assoc] using hhead⟩

/-- A dot at the front of a punctuator is all of it, or no digit stands behind. -/
theorem punctuators_dot : ∀ p ∈ punctuators, (Text.bytes p).head? = some dot →
    p = "." ∨ (Text.bytes p).tail.head?.any (fun c => !isDigit c) = true := by decide

/-- The longest punctuator is found. -/
theorem scanPunctuator?_eq (hp : p ∈ punctuators) (hfront : Text.bytes p <+: rest)
    (h : ∀ q ∈ punctuators, Text.bytes q <+: rest → (Text.bytes q).length ≤ (Text.bytes p).length) :
    scanPunctuator? rest = some (.complete (punctuator p) (Text.bytes p).length) := by
  obtain ⟨r, hr⟩ : ∃ r, scanPunctuator? rest = some r := by
    rw [← Option.isSome_iff_exists]
    exact findSome?_isSome_iff.mpr
      ⟨p, hp, by rw [if_pos ( isPrefixOf_iff_prefix.mpr hfront)]; rfl⟩
  obtain ⟨before, q, behind, hsplit, hq, hbefore⟩ := findSome?_eq_some_iff.mp hr
  have hpairs := punctuators_pairwise
  simp only at hq hbefore
  split_ifs at hq with hfront'
  rw [ isPrefixOf_iff_prefix] at hfront'
  rw [hsplit, pairwise_append, pairwise_cons] at hpairs
  rw [hr, ← Option.some.inj hq]
  have hle := h q (by simp [hsplit]) hfront'
  rw [hsplit, mem_append, mem_cons] at hp
  rcases hp with hp | rfl | hp
  · have hnone := hbefore p hp
    rw [if_pos ( isPrefixOf_iff_prefix.mpr hfront)] at hnone
    cases hnone
  · rfl
  · exact absurd (prefix_of_prefix_length_le hfront' hfront hle) (hpairs.2.1.1 p hp)

theorem scans_punctuator (hp : p ∈ punctuators) (hs : Text.bytes p = b :: bs)
    (h : (punctuator p).EndsBefore after) : Scans (punctuator p) b (bs ++ after) := by
  obtain ⟨c, cs, hs', -, hname, hquote, hchar⟩ := exists_bytes_punctuator hp
  obtain ⟨rfl, rfl⟩ := cons.inj (hs'.symm.trans hs)
  obtain ⟨hlongest, hdot⟩ := (endsBefore_punctuator p after).mp h
  have hstart : isIdentStart c = false ∧ isDigit c = false := by
    simpa [isIdentContinue] using hname
  have hnumber : ¬ (isDigit c || c == dot && (cs ++ after).head?.any isDigit) = true := by
    rw [hstart.2, Bool.false_or, Bool.and_eq_true, beq_iff_eq]
    rintro ⟨rfl, hhead⟩
    rcases punctuators_dot p hp (by simp [hs]) with rfl | hother
    · obtain rfl : [] = cs := (cons.inj hs).2
      rw [nil_append, hdot rfl] at hhead
      cases hhead
    · cases cs <;> simp_all
  rw [hs, cons_append, ← hs] at hlongest
  have hfound := scanPunctuator?_eq hp (by rw [hs]; exact prefix_append _ _) hlongest
  rw [Scans, punctuator_spelling, scanToken, scanString?_eq_none hstart.1 hquote]
  simp only
  rw [if_neg (by simp [hstart.1]), if_neg hnumber, if_neg (by simpa using hchar), hfound]

/-! ### Rendered text -/

theorem Lexeme.Formed.starts (h : l.Formed) :
    ∃ b bs, Text.bytes l.spelling = b :: bs ∧ startsToken b = true := by
  cases h with
  | name hs hb _ => exact ⟨_, _, hs, by simp [startsToken, hb]⟩
  | number hs hb _ =>
    refine ⟨_, _, hs, ?_⟩
    rw [Bool.or_eq_true, Bool.and_eq_true, beq_iff_eq] at hb
    rcases hb with hb | ⟨rfl, -⟩
    · simp [startsToken, hb]
    · decide
  | string s => exact ⟨_, _, string_spelling s, by decide⟩
  | character hs => exact ⟨_, _, hs, by decide⟩
  | punctuator hp =>
    obtain ⟨b, bs, hs, hstarts, -⟩ := exists_bytes_punctuator hp
    exact ⟨b, bs, by rw [punctuator_spelling, hs], hstarts⟩

/-- A lexeme that ends before what stands behind it is found. -/
theorem Lexeme.Formed.scans (hl : l.Formed) (hafter : l.isWord = true → PartsName after)
    (h : l.EndsBefore after) (hspelling : Text.bytes l.spelling = b :: bs) :
    Scans l b (bs ++ after) := by
  cases hl with
  | name hs hb hbs =>
    obtain ⟨rfl, rfl⟩ := cons.inj (hs.symm.trans hspelling)
    exact scans_name hs hb hbs (hafter rfl)
  | number hs hb hbs =>
    obtain ⟨rfl, rfl⟩ := cons.inj (hs.symm.trans hspelling)
    exact scans_number hs hb hbs.1 h
  | string s =>
    obtain ⟨rfl, rfl⟩ := cons.inj ((string_spelling s).symm.trans hspelling)
    exact scans_string h
  | character hs =>
    obtain ⟨rfl, rfl⟩ := cons.inj (hs.symm.trans hspelling)
    exact scans_character hs h
  | punctuator hp =>
    rw [punctuator_spelling] at hspelling
    exact scans_punctuator hp hspelling h

def OpensComment (bs : List UInt8) : Prop :=
  [Ascii.slash, Ascii.slash] <+: bs ∨ [Ascii.slash, Ascii.star] <+: bs

instance (bs : List UInt8) : Decidable (OpensComment bs) := inferInstanceAs (Decidable (_ ∨ _))

theorem skip_stays (hb : startsToken b = true) (hcomment : ¬ OpensComment (b :: tail))
    (offset : Nat) (lineStart : Bool) :
    skip .code offset lineStart (b :: tail) = (⟨b :: tail, offset, lineStart⟩, []) := by
  have hclass : b ≠ newline ∧ isBlank b = false := by
    have hall : ∀ n : Fin 256, startsToken ⟨⟨n⟩⟩ = true → (⟨⟨n⟩⟩ : UInt8) ≠ newline ∧
        isBlank ⟨⟨n⟩⟩ = false := by decide +kernel
    exact hall b.toBitVec.toFin hb
  cases tail with
  | nil => simp [skip, hclass, hb]
  | cons c tail =>
    simp only [OpensComment, cons_prefix_cons, nil_prefix, and_true, not_or] at hcomment
    rw [skip.eq_def]
    simp only [beq_iff_eq, Bool.and_eq_true, hclass, hb, if_false, if_true, Bool.false_eq_true]
    rw [if_neg (by simpa [eq_comm] using hcomment.1), if_neg (by simpa [eq_comm] using hcomment.2)]

theorem skip_space (offset : Nat) (lineStart : Bool) (bs : List UInt8) :
    skip .code offset lineStart (space :: bs) = skip .code (offset + 1) lineStart bs := by
  cases bs with
  | nil => rfl
  | cons c bs =>
    rw [skip.eq_def]
    dsimp only
    rw [if_neg (by decide), if_pos (by decide)]

/-- The lexemes stand apart in the text that is rendered from them. -/
def StandApart : List Token → Prop
  | [] => True
  | t :: ts =>
    (t.lexeme.EndsBefore (Text.bytes (renderFrom (some t.lexeme) ts)) ∧
      ¬ OpensComment (Text.bytes t.lexeme.spelling ++
        Text.bytes (renderFrom (some t.lexeme) ts))) ∧ StandApart ts

theorem StandApart.ne_eof {ts : List Token} (h : StandApart ts) : ∀ t ∈ ts, t.lexeme ≠ .eof := by
  induction ts with
  | nil => simp
  | cons t ts ih =>
    refine forall_mem_cons.mpr ⟨fun heof => ?_, ih h.2⟩
    have hends := h.1.1
    rw [heof] at hends
    exact hends

theorem bytes_renderFrom_cons (previous : Option Lexeme) (t : Token) (ts : List Token) :
    Text.bytes (renderFrom previous (t :: ts)) =
      (if previous.any (spaced · t.lexeme) then [space] else []) ++
        (Text.bytes t.lexeme.spelling ++ Text.bytes (renderFrom (some t.lexeme) ts)) := by
  simp only [Text.bytes, toList_renderFrom, map_cons, spellFrom, gap_eq, flatMap_append]
  congr 1
  split <;> rfl

/-- What stands behind a word is no part of it. -/
theorem partsName_renderFrom {ts : List Token} (hl : l.isWord = true)
    (hts : ∀ t ∈ ts, t.lexeme.Formed) : PartsName (Text.bytes (renderFrom (some l) ts)) := by
  intro b hb
  cases ts with
  | nil => cases hb
  | cons t ts =>
    rw [bytes_renderFrom_cons] at hb
    cases hword : t.lexeme.isWord with
    | true =>
      obtain rfl : space = b := by simpa [spaced, hl, hword] using hb
      decide
    | false =>
      have hother : ∃ p ∈ punctuators, t.lexeme = punctuator p := by
        have hformed := hts t mem_cons_self
        generalize t.lexeme = m at hword hformed
        cases hformed with
        | punctuator hp => exact ⟨_, hp, rfl⟩
        | _ => cases hword
      obtain ⟨p, hp, hlexeme⟩ := hother
      obtain ⟨c, cs, hs, -, hname, hquote, -⟩ := exists_bytes_punctuator hp
      have hspaced : spaced l t.lexeme = false := by
        rw [spaced, hword, Bool.and_false, Bool.false_or, beq_eq_false_iff_ne]
        rintro rfl
        cases hl
      rw [hlexeme] at hspaced hb
      obtain rfl : c = b := by simpa [hspaced, punctuator_spelling, hs] using hb
      exact ⟨hname, hquote⟩

/-- A lexeme that stands apart is the next token. -/
theorem Scan.exists_step {space : List UInt8} (hspace : space = [] ∨ space = [Ascii.space])
    (hs : s.rest = space ++ (Text.bytes l.spelling ++ after)) (hl : l.Formed)
    (hafter : l.isWord = true → PartsName after) (h : l.EndsBefore after)
    (hcomment : ¬ OpensComment (Text.bytes l.spelling ++ after)) : ∃ step, s.step = .ok step ∧
      step.token.lexeme = l ∧ step.found = [] ∧ step.next.rest = after := by
  obtain ⟨offset, hskip⟩ : ∃ offset, skip .code s.offset s.lineStart s.rest =
      skip .code offset s.lineStart (Text.bytes l.spelling ++ after) := by
    rw [hs]
    rcases hspace with rfl | rfl
    · exact ⟨_, rfl⟩
    · exact ⟨_, skip_space _ _ _⟩
  obtain ⟨b, bs, hspelling, hstarts⟩ := hl.starts
  have hscans := hl.scans hafter h hspelling
  rw [hspelling, cons_append] at hskip hcomment
  rw [skip_stays hstarts hcomment] at hskip
  rw [Scans, hspelling] at hscans
  unfold Scan.step
  simp only [hskip, hscans, Scanned.complete]
  refine ⟨_, rfl, rfl, rfl, ?_⟩
  simp

/-- Scanning a text that is rendered from lexemes that stand apart gives them back. -/
theorem Scan.exists_runs {previous : Option Lexeme} {ts : List Token}
    (hts : ∀ t ∈ ts, t.lexeme.Formed) (hs : s.rest = Text.bytes (renderFrom previous ts))
    (h : StandApart ts) : ∃ again, s.Runs again [] ∧
      again.map Token.lexeme = ts.map Token.lexeme ++ [.eof] := by
  induction ts generalizing previous s with
  | nil => exact ⟨_, .last (Scan.step_of_nil hs) rfl, rfl⟩
  | cons t ts ih =>
    have hne := h.ne_eof t mem_cons_self
    rw [forall_mem_cons] at hts
    rw [bytes_renderFrom_cons] at hs
    obtain ⟨step, hstep, hlexeme, hfound, hnext⟩ := Scan.exists_step (by split_ifs <;> simp) hs
      hts.1 (fun hword => partsName_renderFrom hword hts.2) h.1.1 h.1.2
    obtain ⟨again, hruns, hlexemes⟩ := ih hts.2 hnext h.2
    have hmore := Scan.Runs.more hstep (hlexeme ▸ hne) hruns
    rw [hfound, nil_append] at hmore
    exact ⟨_, hmore, by rw [map_cons, hlexeme, hlexemes]; rfl⟩

theorem Scan.Runs.tokens {raw : List Token} {found : List Diagnostic} (h : s.Runs raw found)
    {fuel : Nat} (hfuel : s.rest.length < fuel) : s.tokens fuel = .ok (raw, found) := by
  induction h generalizing fuel with
  | last hstep heof =>
    obtain ⟨fuel, rfl⟩ := exists_eq_succ hfuel
    simp [Scan.tokens, hstep, Token.isEof, heof, bind, Except.bind, pure, Except.pure]
  | more hstep hne _ ih =>
    obtain ⟨fuel, rfl⟩ := exists_eq_succ hfuel
    have hless := Scan.length_next_lt hstep hne
    simp [Scan.tokens, hstep, Token.isEof, hne, bind, Except.bind, pure, Except.pure,
      @ih fuel (by omega)]

/-- Take any tokens with lexemes of a document. If each of them is closed, is no `eof`, and stands
apart from what is rendered behind it, scanning the text rendered from them gives these lexemes
back, with nothing to report. They stand apart if no digits, dots or signs go on a number, no longer
punctuator is spelled, no dot becomes part of a number and no slash begins a comment. -/
theorem rescan_of_standApart {name text : String} {raw ts : List Token} {found : List Diagnostic}
    (h : tokenize (.ofText name text) = .ok (raw, found))
    (hts : ∀ t ∈ ts, ∃ u ∈ raw, u.lexeme = t.lexeme) (hapart : StandApart ts) :
    ∃ again, tokenize (.ofText name (render ts)) = .ok (again, []) ∧
      again.map Token.lexeme = ts.map Token.lexeme ++ [.eof] := by
  have hformed : ∀ t ∈ ts, t.lexeme.Formed := by
    intro t ht
    obtain ⟨u, hu, hlexeme⟩ := hts t ht
    rw [← hlexeme]
    apply (Scan.runs_of_tokens h).formed u hu
    rw [hlexeme]
    exact hapart.ne_eof t ht
  obtain ⟨again, hruns, hlexemes⟩ :=
    Scan.exists_runs (s := .ofDocument (.ofText name (render ts))) hformed rfl hapart
  exact ⟨again, hruns.tokens (Nat.lt_succ_self _), hlexemes⟩

theorem rescan_of_standApart_reference :
    ∃ raw, tokenize (.ofText "a" "T & x") = .ok (raw, []) ∧ StandApart (raw.take 2) ∧
      ∃ again, tokenize (.ofText "a" (render (raw.take 2))) = .ok (again, []) ∧
        again.map Token.lexeme = [.ident "T", .symbol .amp, .eof] := by
  have htokenize : tokenize (.ofText "a" "T & x") = .ok
      ([⟨.ident "T", ⟨0, 1⟩, true, .file, none⟩, ⟨.symbol .amp, ⟨2, 3⟩, false, .file, none⟩,
        ⟨.ident "x", ⟨4, 5⟩, false, .file, none⟩, ⟨.eof, ⟨5, 5⟩, false, .file, none⟩], []) := by
    decide +kernel
  refine ⟨_, htokenize, ?_, rescan_of_standApart htokenize (by simp) ?_⟩
  all_goals exact ⟨⟨trivial, by decide⟩, ⟨⟨by decide, by decide⟩, by decide⟩, trivial⟩

/-- Two signs in a row become one. -/
theorem rescan_joins_signs :
    ∃ raw again, tokenize (.ofText "a" "a - -b") = .ok (raw, []) ∧
      raw.map Token.lexeme = [.ident "a", .punct "-", .punct "-", .ident "b", .eof] ∧
      tokenize (.ofText "a" (render raw.dropLast)) = .ok (again, []) ∧
      again.map Token.lexeme = [.ident "a", .punct "--", .ident "b", .eof] :=
  ⟨[⟨.ident "a", ⟨0, 1⟩, true, .file, none⟩, ⟨.punct "-", ⟨2, 3⟩, false, .file, none⟩,
      ⟨.punct "-", ⟨4, 5⟩, false, .file, none⟩, ⟨.ident "b", ⟨5, 6⟩, false, .file, none⟩,
      ⟨.eof, ⟨6, 6⟩, false, .file, none⟩],
    [⟨.ident "a", ⟨0, 1⟩, true, .file, none⟩, ⟨.punct "--", ⟨1, 3⟩, false, .file, none⟩,
      ⟨.ident "b", ⟨3, 4⟩, false, .file, none⟩, ⟨.eof, ⟨4, 4⟩, false, .file, none⟩],
    by decide +kernel, rfl, by decide +kernel, rfl⟩

end Offload.Source
