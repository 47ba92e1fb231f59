import Offload.Proofs.Compiled.Stable
import Offload.Proofs.Compiled.Tokenize

/-!
# Places of tokens

A text is laid out as its tokens with what is skipped before each. A token's line counts the
newlines that are skipped before it, and its column the bytes since the last of these. A newline
inside a quoted name or a string is not counted. So places are the real ones up to the first token
with a newline in it and fall behind from there on. Errors are reported at these places, and the
reader takes a token to start a line exactly if a newline is skipped before it.
-/

namespace Offload.Compiled

open List Ascii

/-! ### Lines and columns -/

/-- The place behind some bytes: a line for each newline, a column for each byte since the last. -/
def Place.after (bs : List UInt8) : Place :=
  ⟨bs.count Ascii.newline + 1, (bs.reverse.takeWhile (· != Ascii.newline)).length + 1⟩

namespace Place

theorem after_newline (bs : List UInt8) : after (bs ++ [newline]) = ⟨(after bs).line + 1, 1⟩ := by
  simp [after]

theorem after_append {xs : List UInt8} (h : newline ∉ xs) (bs : List UInt8) :
    after (bs ++ xs) = ⟨(after bs).line, (after bs).column + xs.length⟩ := by
  have hxs : ∀ b ∈ xs.reverse, (b != newline) = true := by
    intro b hb
    exact bne_iff_ne.mpr fun heq => h (heq ▸ mem_reverse.mp hb)
  rw [after, count_append, count_eq_zero_of_not_mem h, reverse_append,
    takeWhile_append_of_pos hxs, length_append, length_reverse]
  simp only [after, Nat.add_zero, mk.injEq, true_and]
  omega

end Place

/-- The place of the token with the given number, and that of the end behind the last. -/
def TokenText.placeAt (tt : TokenText) (k : Nat) : Place :=
  (tt.tokens[k]?.map Token.place).getD tt.finish

/-! ### Layouts -/

/-- A token's piece of the text, and what is skipped before it. -/
structure Segment where
  skipped : List UInt8
  piece : List UInt8

def Segment.text (s : Segment) : List UInt8 := s.skipped ++ s.piece

/-- A text as its tokens, and what is skipped behind the last. -/
structure Layout where
  segments : List Segment
  rest : List UInt8

namespace Layout

def text (l : Layout) : List UInt8 := l.segments.flatMap Segment.text ++ l.rest

/-- What is skipped before a token, or behind the last. -/
def gap (l : Layout) (k : Nat) : List UInt8 := (l.segments[k]?.map Segment.skipped).getD l.rest

/-- The text before the first byte of a token; all of it for the end. -/
def before (l : Layout) (k : Nat) : List UInt8 :=
  (l.segments.take k).flatMap Segment.text ++ l.gap k

/-- Skip more bytes before the first token. -/
def skip (xs : List UInt8) (l : Layout) : Layout :=
  match l.segments with
  | [] => ⟨[], xs ++ l.rest⟩
  | s :: more => ⟨⟨xs ++ s.skipped, s.piece⟩ :: more, l.rest⟩

/-- Put a token in front. -/
def cons (piece : List UInt8) (l : Layout) : Layout := ⟨⟨[], piece⟩ :: l.segments, l.rest⟩

end Layout

/-- The layout of the remaining bytes. -/
def layoutFrom : Nat → List UInt8 → Layout
  | 0, bs => ⟨[], bs⟩
  | _ + 1, [] => ⟨[], []⟩
  | fuel + 1, b :: rest =>
    if Ascii.isBlank b then (layoutFrom fuel rest).skip [b]
    else if b == Ascii.semicolon then
      let comment := (b :: rest).takeWhile (· != Ascii.newline)
      (layoutFrom fuel ((b :: rest).drop comment.length)).skip comment
    else
      match scanTok b rest with
      | .error _ => ⟨[], b :: rest⟩
      | .ok (_, n) => (layoutFrom fuel ((b :: rest).drop n)).cons ((b :: rest).take n)

def layout (text : String) : Layout :=
  let bs := Text.bytes text
  layoutFrom (bs.length + 1) bs

/-- Bytes without newlines, in the place of bytes that may have some. -/
def unbroken (bs : List UInt8) : List UInt8 :=
  bs.map fun b => if b = Ascii.newline then Ascii.space else b

theorem newline_not_mem_unbroken (bs : List UInt8) : newline ∉ unbroken bs := by
  have hspace : space ≠ newline := by decide
  intro hmem
  obtain ⟨b, -, hb⟩ := mem_map.mp hmem
  split_ifs at hb with heq
  · exact hspace hb
  · exact heq hb

theorem unbroken_of_not_mem {bs : List UInt8} (h : newline ∉ bs) : unbroken bs = bs := by
  unfold unbroken
  nth_rewrite 2 [← map_id bs]
  apply map_congr_left
  intro b hb
  apply if_neg
  intro heq
  exact h (heq ▸ hb)

@[simp] theorem length_unbroken (bs : List UInt8) : (unbroken bs).length = bs.length := length_map _

/-- The same segment with no newline in its token. -/
def Segment.joined (s : Segment) : Segment := ⟨s.skipped, unbroken s.piece⟩

theorem count_flatMap_text (ss : List Segment) :
    (ss.flatMap Segment.text).count newline =
      ((ss.map Segment.joined).flatMap Segment.text).count newline +
        (ss.flatMap Segment.piece).count newline := by
  induction ss with
  | nil => rfl
  | cons s ss ih =>
    have hpiece := count_eq_zero_of_not_mem (newline_not_mem_unbroken s.piece)
    simp only [flatMap_cons, map_cons, count_append, Segment.text, Segment.joined, hpiece] at ih ⊢
    omega

theorem map_joined_of_not_mem {ss : List Segment} (h : ∀ s ∈ ss, newline ∉ s.piece) :
    ss.map Segment.joined = ss := by
  nth_rewrite 2 [← map_id ss]
  apply map_congr_left
  intro s hs
  rw [Segment.joined, unbroken_of_not_mem (h s hs), id_eq]

namespace Layout

variable {l : Layout} {k : Nat} {s : Segment}

/-- The same layout with no newline in any token. -/
def joined (l : Layout) : Layout := ⟨l.segments.map Segment.joined, l.rest⟩

theorem gap_joined (l : Layout) (k : Nat) : l.joined.gap k = l.gap k := by
  simp [gap, joined, Function.comp_def, Segment.joined]

theorem before_succ (h : l.segments[k]? = some s) :
    l.before (k + 1) = l.before k ++ (s.piece ++ l.gap (k + 1)) := by
  have hgap : l.gap k = s.skipped := by simp [gap, h]
  rw [before, before, hgap, take_add_one, h, flatMap_append]
  simp [Segment.text]

theorem count_before (l : Layout) (k : Nat) :
    (l.before k).count newline = (l.joined.before k).count newline +
      ((l.segments.take k).flatMap Segment.piece).count newline := by
  rw [before, before, count_append, count_append, gap_joined, joined, ← map_take,
    count_flatMap_text]
  omega

theorem joined_before (h : ∀ s ∈ l.segments.take k, newline ∉ s.piece) :
    l.joined.before k = l.before k := by
  rw [before, before, gap_joined, joined, ← map_take, map_joined_of_not_mem h]

/-! ### The parts of a layout -/

theorem text_skip (xs : List UInt8) (l : Layout) : (l.skip xs).text = xs ++ l.text := by
  unfold skip
  split <;> simp_all [text, Segment.text]

theorem before_skip (xs : List UInt8) (l : Layout) (k : Nat) :
    (l.skip xs).before k = xs ++ l.before k := by
  unfold skip
  split
  · simp_all [before, gap]
  · cases k <;> simp_all [before, gap, Segment.text]

theorem length_skip (xs : List UInt8) (l : Layout) :
    (l.skip xs).segments.length = l.segments.length := by
  unfold skip
  split <;> simp_all

theorem piece_skip (xs : List UInt8) (l : Layout) (k : Nat) :
    (l.skip xs).segments[k]?.map Segment.piece = l.segments[k]?.map Segment.piece := by
  unfold skip
  split
  · simp_all
  · cases k <;> simp_all

theorem joined_skip (xs : List UInt8) (l : Layout) : (l.skip xs).joined = l.joined.skip xs := by
  unfold skip
  split <;> simp_all [joined, Segment.joined]

theorem before_cons_zero (piece : List UInt8) (l : Layout) : (l.cons piece).before 0 = [] := by
  simp [before, gap, cons]

theorem before_cons_succ (piece : List UInt8) (l : Layout) (k : Nat) :
    (l.cons piece).before (k + 1) = piece ++ l.before k := by
  simp [before, gap, cons, Segment.text]

theorem joined_cons (piece : List UInt8) (l : Layout) :
    (l.cons piece).joined = l.joined.cons (unbroken piece) := by
  simp [joined, cons, Segment.joined]

/-- The token with number `k` is scanned off the text behind what stands before it, and takes the
piece with that number. -/
def Scans (l : Layout) (bs : List UInt8) (k : Nat) (tok : Tok) : Prop :=
  ∃ b body rest, bs = l.before k ++ b :: (body ++ rest) ∧
    l.segments[k]?.map Segment.piece = some (b :: body) ∧
    scanTok b (body ++ rest) = .ok (tok, body.length + 1)

/-- The layout is that of the bytes, which stand behind `pre` and have the given tokens. -/
structure Fits (l : Layout) (pre bs : List UInt8) (tt : TokenText) : Prop where
  text : l.text = bs
  length : l.segments.length = tt.tokens.length
  scans : ∀ k t, tt.tokens[k]? = some t → l.Scans bs k t.tok
  place : ∀ k, tt.placeAt k = Place.after (pre ++ l.joined.before k)

theorem Fits.empty (pre : List UInt8) : Fits ⟨[], []⟩ pre [] ⟨[], Place.after pre⟩ where
  text := rfl
  length := rfl
  scans := by simp
  place k := by simp [TokenText.placeAt, before, joined, gap]

theorem Fits.skip {pre xs bs : List UInt8} {tt : TokenText} (h : l.Fits (pre ++ xs) bs tt) :
    (l.skip xs).Fits pre (xs ++ bs) tt where
  text := by rw [text_skip, h.text]
  length := by rw [length_skip, h.length]
  scans k t ht := by
    obtain ⟨b, body, rest, hbs, hpiece, hscan⟩ := h.scans k t ht
    refine ⟨b, body, rest, ?_, ?_, hscan⟩
    · rw [before_skip, hbs, append_assoc]
    · rw [piece_skip, hpiece]
  place k := by rw [h.place, joined_skip, before_skip, append_assoc]

theorem Fits.cons {pre body rest : List UInt8} {b : UInt8} {tok : Tok} {ts : List Token}
    {finish : Place} (h : l.Fits (pre ++ unbroken (b :: body)) rest ⟨ts, finish⟩)
    (hscan : scanTok b (body ++ rest) = .ok (tok, body.length + 1)) :
    (l.cons (b :: body)).Fits pre (b :: (body ++ rest)) ⟨⟨tok, Place.after pre⟩ :: ts, finish⟩ where
  text := by rw [← h.text]; simp [Layout.text, Layout.cons, Segment.text]
  length := by simp [Layout.cons, h.length]
  scans k t ht := by
    cases k with
    | zero =>
      obtain rfl : (⟨tok, Place.after pre⟩ : Token) = t := by simpa using ht
      exact ⟨b, body, rest, by rw [before_cons_zero, nil_append], rfl, hscan⟩
    | succ k =>
      obtain ⟨c, body', rest', hrest, hpiece, hscan'⟩ := h.scans k t ht
      exact ⟨c, body', rest', by rw [before_cons_succ, hrest]; simp, hpiece, hscan'⟩
  place k := by
    cases k with
    | zero => rw [joined_cons, before_cons_zero, append_nil]; rfl
    | succ k => rw [joined_cons, before_cons_succ, ← append_assoc, ← h.place]; rfl

end Layout

/-- A step of the scan adds to the layout what it takes. -/
theorem Lexes.fits {P : List UInt8 → Prop} {place finish : Place} {bs pre : List UInt8}
    {ts : List Token} (h : Lexes P place bs ts finish) {fuel : Nat} (hfuel : bs.length < fuel)
    (hplace : place = Place.after pre) : (layoutFrom fuel bs).Fits pre bs ⟨ts, finish⟩ := by
  induction h generalizing fuel pre with
    obtain ⟨fuel, rfl⟩ := exists_eq_succ hfuel
  | nil =>
    rw [hplace]
    apply Layout.Fits.empty
  | newline hrest ih =>
    rw [length_cons] at hfuel
    rw [layoutFrom, if_pos (by decide)]
    apply Layout.Fits.skip
    apply ih (by omega)
    rw [Place.after_newline, hplace]
  | @blank place finish b rest ts hnewline hblank hrest ih =>
    rw [length_cons] at hfuel
    rw [layoutFrom, if_pos hblank]
    apply Layout.Fits.skip
    apply ih (by omega)
    rw [Place.after_append (by simpa using hnewline.symm), hplace, length_singleton]
  | @comment place finish body rest ts hbody hends hrest ih =>
    rw [length_cons, length_append] at hfuel
    rw [layoutFrom, if_neg (by decide), if_pos (by decide)]
    simp only [takeWhile_comment hbody hends]
    rw [← cons_append, drop_left]
    apply Layout.Fits.skip
    apply ih (by omega)
    rw [Place.after_append, hplace, length_cons]
    simpa using ⟨by decide, hbody⟩
  | @token place finish b body rest tok ts hblank hsemicolon hscan hpiece hrest ih =>
    rw [length_cons, length_append] at hfuel
    rw [layoutFrom, if_neg (by simp [hblank]), if_neg (by simpa using hsemicolon), hscan]
    simp only [take_succ_cons, take_left, drop_succ_cons, drop_left]
    rw [hplace]
    apply Layout.Fits.cons _ hscan
    apply ih (by omega)
    rw [Place.after_append (newline_not_mem_unbroken _), hplace, length_unbroken, length_cons]

theorem layout_fits {text : String} {tt : TokenText} (h : tokenizeModule text = .ok tt) :
    (layout text).Fits [] (Text.bytes text) tt := by
  have hlexes : Lexes (fun _ => True) ⟨1, 1⟩ (Text.bytes text) tt.tokens tt.finish :=
    lexes_of_tokensFrom h (Nat.lt_succ_self _) fun _ _ => trivial
  exact hlexes.fits (Nat.lt_succ_self _) rfl

/-! ### Lines of the reader -/

namespace Layout.Fits

variable {l : Layout} {bs : List UInt8} {tt : TokenText} {k : Nat}

/-- The line of a token is that of the token before it and the newlines skipped between them. -/
theorem line_succ (h : l.Fits [] bs tt) (hk : k < tt.tokens.length) :
    (tt.placeAt (k + 1)).line = (tt.placeAt k).line + (l.gap (k + 1)).count newline := by
  have hseg : l.joined.segments[k]? = some (l.segments.get ⟨k, h.length ▸ hk⟩).joined := by
    simp [joined, h.length, hk]
  rw [h.place, h.place, before_succ hseg, gap_joined]
  simp only [nil_append, Place.after, count_append]
  rw [Segment.joined, count_eq_zero_of_not_mem (newline_not_mem_unbroken _)]
  omega

theorem line_pos (h : l.Fits [] bs tt) (k : Nat) : 0 < (tt.placeAt k).line := by
  rw [h.place]
  apply Nat.succ_pos

theorem line_eq_iff (h : l.Fits [] bs tt) (hk : k < tt.tokens.length) :
    (tt.placeAt (k + 1)).line = (tt.placeAt k).line ↔ newline ∉ l.gap (k + 1) := by
  rw [h.line_succ hk, ← count_eq_zero]
  omega

theorem length_takeWhile_line (h : l.Fits [] bs tt) (hk : k < tt.tokens.length) :
    ((tt.tokens.drop (k + 1)).takeWhile fun u => u.place.line == (tt.placeAt k).line).length =
      ((l.segments.drop (k + 1)).takeWhile fun s => !s.skipped.contains newline).length := by
  induction hm : tt.tokens.length - (k + 1) generalizing k with
  | zero =>
    rw [drop_of_length_le (by omega), drop_of_length_le (by rw [h.length]; omega)]
    rfl
  | succ m ih =>
    have hnext : k + 1 < tt.tokens.length := by omega
    have hnext' : k + 1 < l.segments.length := by rwa [h.length]
    have hplace : tt.tokens[k + 1].place = tt.placeAt (k + 1) := by
      simp [TokenText.placeAt, hnext]
    have hgap : l.gap (k + 1) = l.segments[k + 1].skipped := by simp [gap, hnext']
    have hline := h.line_eq_iff hk
    rw [hgap] at hline
    rw [drop_eq_getElem_cons hnext, drop_eq_getElem_cons hnext', takeWhile_cons,
      takeWhile_cons, hplace]
    by_cases hnewline : newline ∈ l.segments[k + 1].skipped
    · have hother : (tt.placeAt (k + 1)).line ≠ (tt.placeAt k).line := by
        intro heq
        exact hline.mp heq hnewline
      simp [hother, hnewline]
    · have hsame := hline.mpr hnewline
      have hrec := ih hnext (by omega)
      rw [hsame] at hrec
      simp [hsame, hnewline, hrec]

end Layout.Fits

/-- The reader has taken the tokens before the one with number `k`. -/
structure Reader.Took (tt : TokenText) (k : Nat) (r : Reader) : Prop where
  rest : r.rest = tt.tokens.drop k
  finish : r.finish = tt.finish
  lastLine : r.lastLine = lineAfter 0 (tt.tokens.take k)

namespace Reader

variable {tt : TokenText} {k n : Nat} {r : Reader} {l : Layout} {bs : List UInt8}

theorem took_ofText (name : String) (tt : TokenText) : (ofText name tt).Took tt 0 where
  rest := rfl
  finish := rfl
  lastLine := rfl

theorem Took.advanceBy (h : r.Took tt k) (n : Nat) : (r.advanceBy n).Took tt (k + n) where
  rest := by rw [rest_advanceBy, h.rest, drop_drop]
  finish := by rw [advanceBy_eq]; exact h.finish
  lastLine := by
    rw [advanceBy_eq, h.rest, h.lastLine, take_add, lineAfter_append]

theorem Took.place_eq (h : r.Took tt k) : r.place = tt.placeAt k := by
  rw [place, h.rest, h.finish, head?_drop, TokenText.placeAt]

theorem Took.lastLine_eq (h : r.Took tt (k + 1)) (hk : k < tt.tokens.length) :
    r.lastLine = (tt.placeAt k).line := by
  rw [h.lastLine, take_add_one, lineAfter_append, TokenText.placeAt, getElem?_eq_getElem hk]
  rfl

/-- A token starts a line if a newline is skipped before it. -/
theorem Took.atLineStart_iff (h : r.Took tt (k + 1)) (hk : k < tt.tokens.length)
    (hl : l.Fits [] bs tt) : r.atLineStart = true ↔ newline ∈ l.gap (k + 1) := by
  have hpos := hl.line_pos k
  rw [atLineStart, h.place_eq, h.lastLine_eq hk, Bool.and_eq_true, bne_iff_ne, bne_iff_ne, Ne, Ne,
    hl.line_eq_iff hk, not_not]
  constructor
  · exact And.right
  · intro hmem
    exact ⟨Nat.ne_of_gt hpos, hmem⟩

/-- The rest of a line ends before the first token with a newline skipped before it. -/
theorem Took.lineLength_eq (h : r.Took tt k) (hk : k < tt.tokens.length) (hl : l.Fits [] bs tt) :
    lineLength r.rest = 1 + ((l.segments.drop (k + 1)).takeWhile fun s =>
      !s.skipped.contains newline).length := by
  have hplace : tt.tokens[k].place = tt.placeAt k := by simp [TokenText.placeAt, hk]
  rw [h.rest, drop_eq_getElem_cons hk, lineLength, hplace, hl.length_takeWhile_line hk]

end Reader

/-! ### Places of errors -/

/-- From a state in the text the reader ends in one again, or fails at the place of a token, and for
lack of progress only where less than `n` tokens are left. -/
def StaysIn (tt : TokenText) (n : Nat) (α : Type) (r : Reader) (p : Read α) : Prop :=
  ∀ k, r.Took tt k → (∀ ⦃a r'⦄, Gives p r a r' → ∃ k', r'.Took tt k') ∧
    ∀ ⦃e⦄, p.run r = .error e → ∃ k', e.place = tt.placeAt k' ∧
      (e.flaw = .stalled → tt.tokens.length - k' < n)

namespace StaysIn

variable {α : Type} {tt : TokenText} {n : Nat} {r : Reader}

/-- A step that always succeeds need only end in the text. -/
theorem of_run {p : Read α} {a : α} {r' : Reader} (hrun : p.run r = .ok (a, r'))
    (h : ∀ k, r.Took tt k → ∃ k', r'.Took tt k') : StaysIn tt n α r p := by
  intro k hr
  constructor
  · intro b s hgives
    obtain ⟨rfl, rfl⟩ : a = b ∧ r' = s := by simpa using hrun.symm.trans hgives
    exact h k hr
  · intro e herror
    cases hrun.symm.trans herror

theorem updateModule (f : Module → Module) : StaysIn tt n _ r (Read.updateModule f) :=
  of_run rfl fun k hr => ⟨k, hr.rest, hr.finish, hr.lastLine⟩

theorem literalStruct (fields : List Ty) (isPacked : Bool) :
    StaysIn tt n _ r (Read.literalStruct fields isPacked) := by
  rcases Read.run_literalStruct fields isPacked r with ⟨s, -, -, -, hrun⟩ | hrun
  · exact of_run (hrun r.rest) fun k hr => ⟨k, hr⟩
  · exact of_run (hrun r.rest) fun k hr => ⟨k, hr.rest, hr.finish, hr.lastLine⟩

theorem hereditary (tt : TokenText) (n : Nat) :
    Hereditary (fun q => ∃ k, q = tt.placeAt k) (StaysIn tt n) where
  pureAt a := of_run rfl fun k hr => ⟨k, hr⟩
  bindAt hp hf := by
    intro k hr
    obtain ⟨hends, herror⟩ := hp k hr
    constructor
    · intro b r' hgives
      obtain ⟨a, m, hfirst, hsecond⟩ := gives_bind.mp hgives
      obtain ⟨k', hm⟩ := hends hfirst
      exact (hf a m hfirst k' hm).1 hsecond
    · intro e hfails
      rcases run_bind_error hfails with hfirst | ⟨a, m, hfirst, hsecond⟩
      · exact herror hfirst
      · obtain ⟨k', hm⟩ := hends hfirst
        exact (hf a m hfirst k' hm).2 hsecond
  getAt := of_run rfl fun k hr => ⟨k, hr⟩
  placeAt hp := fun k hr => hp ⟨k, hr.place_eq⟩ k hr
  failAt hq hflaw := by
    intro k hr
    constructor
    · intro a r' hgives
      exact absurd hgives Read.not_gives_failAt
    · intro e herror
      cases herror
      obtain ⟨k', rfl⟩ := hq
      exact ⟨k', rfl, fun hstalled => absurd hstalled hflaw⟩
  takeAt m := of_run rfl fun k hr => ⟨k + m, hr.advanceBy m⟩
  literalAt fields isPacked := literalStruct fields isPacked
  updateAt _ _ := updateModule _

theorem defineStruct (d : StructDef) : StaysIn tt n _ r (Read.defineStruct d) := by
  have h := hereditary tt n
  apply h.bindAt h.getAt
  intro r s _
  dsimp only
  split
  · apply updateModule
  · split
    · split
      · apply updateModule
      · exact h.failHere (by simp)
    · exact h.pureAt _

theorem entity (tt : TokenText) (n : Nat) : Steps (StaysIn tt n) .inner Read.entity :=
  (hereditary tt n).entity_steps (fun d _ _ => defineStruct d) fun _ _ => updateModule _

end StaysIn

/-- An error is reported at the place of a token, or of the end, and never for lack of progress. -/
theorem exists_place_of_readModule_error {name text : String} {tt : TokenText} {e : ReadError}
    (h : tokenizeModule text = .ok tt) (herror : readModule name text = .error e) :
    ∃ k, e.place = tt.placeAt k ∧ e.flaw ≠ .stalled := by
  have hrounds := ((StaysIn.hereditary tt 0).repeatWhile (StaysIn.entity tt 0) trivial).holds
    trivial (Nat.lt_succ_self (Reader.ofText name tt).rest.length)
  have hstays := (hrounds 0 (Reader.took_ofText name tt)).2
  cases hrun : (Read.repeatWhile Read.entity).run (.ofText name tt) with
  | error e' =>
    simp only [readModule, h, hrun, bind, Except.bind] at herror
    obtain rfl := Except.error.inj herror
    obtain ⟨k, hplace, hstalled⟩ := hstays hrun
    exact ⟨k, hplace, fun heq => absurd (hstalled heq) (Nat.not_lt_zero _)⟩
  | ok result =>
    simp only [readModule, h, hrun, bind, Except.bind] at herror
    cases herror

/-- The layout of an accepted text has all of it, and each token at its own bytes. The place of a
token, and of the end, is the one behind the text before it if tokens had no newlines in them. Its
line falls behind by the newlines in earlier tokens, so the place is the real one exactly if there
are none. Errors have such places. Where lines start, and how far the rest of one goes, is right in
any text. -/
theorem token_places (name : String) {text : String} {tt : TokenText}
    (h : tokenizeModule text = .ok tt) :
    (layout text).text = Text.bytes text ∧
    (layout text).segments.length = tt.tokens.length ∧
    (∀ k t, tt.tokens[k]? = some t → (layout text).Scans (Text.bytes text) k t.tok) ∧
    (∀ k, tt.placeAt k = Place.after ((layout text).joined.before k)) ∧
    (∀ k, (Place.after ((layout text).before k)).line = (tt.placeAt k).line +
      (((layout text).segments.take k).flatMap Segment.piece).count Ascii.newline) ∧
    (∀ k, tt.placeAt k = Place.after ((layout text).before k) ↔
      ∀ s ∈ (layout text).segments.take k, Ascii.newline ∉ s.piece) ∧
    (∀ e, readModule name text = .error e → ∃ k, e.place = tt.placeAt k) ∧
    (∀ k < tt.tokens.length, ∀ r : Reader, r.Took tt (k + 1) →
      (r.atLineStart = true ↔ Ascii.newline ∈ (layout text).gap (k + 1))) ∧
    ∀ k < tt.tokens.length, ∀ r : Reader, r.Took tt k →
      ∃ r', Gives Read.skipLine r () r' ∧
        r'.Took tt (k + (1 + (((layout text).segments.drop (k + 1)).takeWhile fun s =>
          !s.skipped.contains Ascii.newline).length)) := by
  have hfits := layout_fits h
  have hline : ∀ k, (Place.after ((layout text).before k)).line = (tt.placeAt k).line +
      (((layout text).segments.take k).flatMap Segment.piece).count newline := by
    intro k
    rw [hfits.place, nil_append]
    have hcount := (layout text).count_before k
    simp only [Place.after]
    omega
  refine ⟨hfits.text, hfits.length, hfits.scans, hfits.place, hline, fun k => ⟨?_, ?_⟩,
    fun e he => (exists_place_of_readModule_error h he).imp fun _ => And.left,
    fun k hk r hr => hr.atLineStart_iff hk hfits, fun k hk r hr => ?_⟩
  · intro hplace s hs hmem
    have hzero := hline k
    rw [← hplace] at hzero
    have hcount : (((layout text).segments.take k).flatMap Segment.piece).count newline = 0 := by
      omega
    exact count_eq_zero.mp hcount (mem_flatMap_of_mem hs hmem)
  · intro hpieces
    rw [hfits.place, nil_append, Layout.joined_before hpieces]
  · refine ⟨r.advanceBy (Reader.lineLength r.rest), rfl, ?_⟩
    rw [hr.lineLength_eq hk hfits]
    apply hr.advanceBy

/-- A string with a newline in it, and a word on the next line. -/
def brokenText : String := "source_filename = \"a\nb\"\nfrobnicate\n"

theorem brokenText_tokens : ((tokenizeModule brokenText).toOption.any fun tt =>
    tt.tokens.length == 4 && tt.placeAt 3 == ⟨2, 1⟩) = true := by
  decide +kernel

theorem token_places_brokenText : ∃ tt, tokenizeModule brokenText = .ok tt ∧
    tt.tokens.length = 4 ∧ tt.placeAt 3 = Place.after ((layout brokenText).joined.before 3) ∧
    tt.placeAt 2 = Place.after ((layout brokenText).before 2) ∧
    ∀ r : Reader, r.Took tt 3 →
      (r.atLineStart = true ↔ Ascii.newline ∈ (layout brokenText).gap 3) := by
  obtain ⟨tt, htt, hfacts⟩ := exists_ok_of_any brokenText_tokens
  have hlength : tt.tokens.length = 4 := by
    rw [Bool.and_eq_true, beq_iff_eq] at hfacts
    exact hfacts.1
  obtain ⟨-, -, -, hplace, -, hreal, -, hstart, -⟩ := token_places "m" htt
  refine ⟨tt, htt, hlength, hplace 3, (hreal 2).mpr ?_, hstart 2 (by omega)⟩
  decide +kernel

/-- The word stands on the third line, and is taken to stand on the second. -/
theorem place_behind_broken_string : ∃ tt, tokenizeModule brokenText = .ok tt ∧
    tt.placeAt 3 = ⟨2, 1⟩ ∧ Place.after ((layout brokenText).before 3) = ⟨3, 1⟩ := by
  obtain ⟨tt, htt, hfacts⟩ := exists_ok_of_any brokenText_tokens
  rw [Bool.and_eq_true, beq_iff_eq, beq_iff_eq] at hfacts
  exact ⟨tt, htt, hfacts.2, by decide +kernel⟩

end Offload.Compiled
