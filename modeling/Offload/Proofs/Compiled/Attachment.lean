import Mathlib.Logic.Function.Basic
import Offload.Proofs.Compiled.Items
import Offload.Proofs.Compiled.Tokenize

/-!
# Debug attachments

A note such as `, !dbg !7` appended to the line on which an instruction or a terminator ends does
not change the module that is read, as long as nothing else stands on that line behind the
instruction. The notes become tokens behind the last token of their lines, and these are the places
behind the instructions.
-/

namespace Offload.Compiled

open List Ascii

/-! ### Texts with notes -/

/-- A note: a kind, such as `dbg`, and the number of what is attached. -/
structure Note where
  word : String
  number : Nat
  isWord : IsWord word
  number_lt : number < 2 ^ 63

def Note.text (note : Note) : String := ", !" ++ note.word ++ " !" ++ toString note.number

/-- What is appended to a line. -/
def noteText (notes : Nat → Option Note) (line : Nat) : String :=
  ((notes line).map Note.text).getD ""

/-- Append notes to lines, of which the first has the given number. -/
def attachFrom (notes : Nat → Option Note) : Nat → List Char → List Char
  | line, [] => (noteText notes line).toList
  | line, c :: rest =>
    if c = '\n' then (noteText notes line).toList ++ c :: attachFrom notes (line + 1) rest
    else c :: attachFrom notes line rest

/-- The text with notes appended to its lines. -/
def attach (notes : Nat → Option Note) (text : String) : String :=
  String.ofList (attachFrom notes 1 text.toList)

/-- Append notes to the lines of a text given as bytes. -/
def attachBytes (notes : Nat → Option Note) : Nat → List UInt8 → List UInt8
  | line, [] => Text.bytes (noteText notes line)
  | line, b :: rest =>
    if b = Ascii.newline then
      Text.bytes (noteText notes line) ++ b :: attachBytes notes (line + 1) rest
    else b :: attachBytes notes line rest

section

variable {notes : Nat → Option Note} {line : Nat}

/-- Bytes without a newline are kept. -/
theorem attachBytes_append {xs : List UInt8} (h : newline ∉ xs) (ys : List UInt8) :
    attachBytes notes line (xs ++ ys) = xs ++ attachBytes notes line ys := by
  induction xs with
  | nil => rfl
  | cons b xs ih =>
    rw [mem_cons, not_or] at h
    rw [cons_append, attachBytes, if_neg (Ne.symm h.1), ih h.2, cons_append]

theorem newline_not_mem_utf8EncodeChar {c : Char} (h : c ≠ '\n') :
    newline ∉ String.utf8EncodeChar c :=
  fun hmem => h (Text.eq_latin1_of_mem_utf8EncodeChar (by decide) hmem)

theorem bytes_attach (notes : Nat → Option Note) (text : String) :
    Text.bytes (attach notes text) = attachBytes notes 1 (Text.bytes text) := by
  have hfrom (cs : List Char) (line : Nat) :
      (attachFrom notes line cs).flatMap String.utf8EncodeChar =
        attachBytes notes line (cs.flatMap String.utf8EncodeChar) := by
    induction cs generalizing line with
    | nil => rfl
    | cons c cs ih =>
      by_cases hc : c = '\n'
      · have hbyte : String.utf8EncodeChar '\n' = [newline] := rfl
        rw [attachFrom, if_pos hc, hc, flatMap_append, flatMap_cons, flatMap_cons,
          hbyte, ih, singleton_append, singleton_append, attachBytes, if_pos rfl]
        rfl
      · rw [attachFrom, if_neg hc, flatMap_cons, flatMap_cons, ih,
          attachBytes_append (newline_not_mem_utf8EncodeChar hc)]
  rw [Text.bytes, attach, String.toList_ofList, hfrom, Text.bytes]

theorem noteText_of_none (h : notes line = none) : noteText notes line = "" := by
  rw [noteText, h]
  rfl

theorem noteText_of_some {note : Note} (h : notes line = some note) :
    noteText notes line = note.text := by
  rw [noteText, h]
  rfl

theorem attachBytes_newline (notes : Nat → Option Note) (line : Nat) (bs : List UInt8) :
    attachBytes notes line (newline :: bs) =
      Text.bytes (noteText notes line) ++ newline :: attachBytes notes (line + 1) bs := by
  rw [attachBytes, if_pos rfl]

theorem Note.bytes_text (note : Note) :
    Text.bytes note.text = 0x2C :: space :: 0x21 :: (Text.bytes note.word ++
      (space :: 0x21 :: Text.bytes (toString note.number))) := by
  simp only [Note.text, Text.bytes_append, append_assoc]
  rfl

theorem newline_not_mem_noteText (notes : Nat → Option Note) (line : Nat) :
    newline ∉ Text.bytes (noteText notes line) := by
  cases hnote : notes line with
  | none => simp [noteText_of_none hnote]
  | some note =>
    have hword : newline ∉ Text.bytes note.word := by
      intro hmem
      exact absurd (note.isWord.1.forall_bytes.2 _ hmem) (by decide)
    have hnumber : newline ∉ Text.bytes (toString note.number) := by
      obtain ⟨bs, hbytes, -, hdigits, -⟩ := bytes_toDigits note.number
      rw [Nat.toString_eq_ofList_toDigits, hbytes]
      intro hmem
      exact absurd (hdigits _ hmem) (by decide)
    rw [noteText_of_some hnote, note.bytes_text]
    simp only [mem_cons, mem_append, hword, hnumber, or_false, false_or]
    decide

/-- Where a note is appended, the byte before it still ends its token. -/
theorem endsToken_noteText (notes : Nat → Option Note) (line : Nat) {rest : List UInt8}
    (h : ∀ b ∈ rest.head?, endsToken b = true) :
    ∀ b ∈ (Text.bytes (noteText notes line) ++ rest).head?, endsToken b = true := by
  cases hnote : notes line with
  | none => simpa [noteText_of_none hnote] using h
  | some note =>
    rw [noteText_of_some hnote, note.bytes_text]
    rintro _ ⟨⟩
    decide

/-- Only the lines from the first one on matter. -/
theorem attachBytes_congr {notes' : Nat → Option Note} {bs : List UInt8}
    (h : ∀ l, line ≤ l → notes' l = notes l) :
    attachBytes notes' line bs = attachBytes notes line bs := by
  induction bs generalizing line with
  | nil => rw [attachBytes, attachBytes, noteText, noteText, h line le_rfl]
  | cons b bs ih =>
    have hnext : ∀ l, line + 1 ≤ l → notes' l = notes l := fun l hl => h l (by omega)
    rw [attachBytes, attachBytes, noteText, noteText, h line le_rfl, ih h, ih hnext]

end

/-! ### Lines of tokens -/

section

variable {P : List UInt8 → Prop} {place finish : Place} {bs rest : List UInt8} {ts : List Token}

theorem Lexes.line_le (h : Lexes P place bs ts finish) : place.line ≤ finish.line := by
  induction h with
  | nil => exact le_rfl
  | newline hrest ih => exact (Nat.le_succ _).trans ih
  | blank hnewline hblank hrest ih => exact ih
  | comment hbody hends hrest ih => exact ih
  | token hblank hsemicolon hscan hpiece hrest ih => exact ih

theorem Lexes.line_bounds (h : Lexes P place bs ts finish) {t : Token} (ht : t ∈ ts) :
    place.line ≤ t.place.line ∧ t.place.line ≤ finish.line := by
  induction h with
  | nil => simp at ht
  | newline hrest ih => exact ⟨(Nat.le_succ _).trans (ih ht).1, (ih ht).2⟩
  | blank hnewline hblank hrest ih => exact ih ht
  | comment hbody hends hrest ih => exact ih ht
  | token hblank hsemicolon hscan hpiece hrest ih =>
    rcases mem_cons.mp ht with rfl | ht
    · exact ⟨le_rfl, hrest.line_le⟩
    · exact ih ht

/-- Tokens of later lines come later. -/
theorem Lexes.pairwise_line (h : Lexes P place bs ts finish) :
    ts.Pairwise fun t u => t.place.line ≤ u.place.line := by
  induction h with
  | nil => exact .nil
  | newline hrest ih => exact ih
  | blank hnewline hblank hrest ih => exact ih
  | comment hbody hends hrest ih => exact ih
  | token hblank hsemicolon hscan hpiece hrest ih =>
    exact .cons (fun u hu => (hrest.line_bounds hu).1) ih

/-- A token with more behind it on other lines is not on the line where the text ends. -/
theorem Lexes.line_lt_finish (h : Lexes P place bs ts finish) {pre ahead : List Token} {t : Token}
    (hsplit : ts = pre ++ t :: ahead) (hne : ahead ≠ [])
    (hnext : ∀ u ∈ ahead.head?, u.place.line ≠ t.place.line) : t.place.line < finish.line := by
  obtain ⟨u, rest, rfl⟩ := exists_cons_of_ne_nil hne
  have horder := h.pairwise_line
  rw [hsplit, pairwise_append] at horder
  have hle : t.place.line ≤ u.place.line := (pairwise_cons.mp horder.2.1).1 u mem_cons_self
  have hbound : u.place.line ≤ finish.line := (h.line_bounds (by simp [hsplit])).2
  have := hnext u rfl
  omega

/-- If any token is on the line where the text starts, the first one is. -/
theorem Lexes.exists_head_line (h : Lexes P place bs ts finish) {t : Token} (ht : t ∈ ts)
    (hline : t.place.line = place.line) : ∃ u ∈ ts.head?, u.place.line = place.line := by
  cases ts with
  | nil => simp at ht
  | cons u ts =>
    refine ⟨u, rfl, le_antisymm ?_ (h.line_bounds mem_cons_self).1⟩
    rcases mem_cons.mp ht with rfl | ht
    · exact hline.le
    · exact hline ▸ (pairwise_cons.mp h.pairwise_line).1 t ht

theorem Lexes.of_newline (h : Lexes P place (Ascii.newline :: rest) ts finish) :
    Lexes P ⟨place.line + 1, 1⟩ rest ts finish := by
  generalize hbs : Ascii.newline :: rest = bs at h
  cases h with
  | nil => cases hbs
  | newline hrest =>
    cases hbs
    exact hrest
  | blank hnewline hblank hrest => exact absurd (List.cons.inj hbs).1.symm hnewline
  | comment hbody hends hrest => exact absurd (List.cons.inj hbs).1 (by decide)
  | token hblank hsemicolon hscan hpiece hrest =>
    rw [← (List.cons.inj hbs).1] at hblank
    exact absurd hblank (by decide)

/-! ### The tokens of a note -/

theorem Lexes.mark {b : UInt8} (hmark : isMark b = true)
    (hrest : Lexes (fun _ => True) ⟨place.line, place.column + 1⟩ rest ts finish) :
    Lexes (fun _ => True) place (b :: rest) (⟨.mark (latin1 b), place⟩ :: ts) finish := by
  obtain ⟨⟨hblank, hsemicolon, -⟩, -⟩ := (others_of_start b).1 hmark
  have hscan : scanTok b ([] ++ rest) =
      .ok (.mark (latin1 b), ([] : List UInt8).length + 1) := scanTok_of_isMark hmark rest
  exact .token hblank hsemicolon hscan trivial hrest

/-- A note on a line is tokens of that line. -/
theorem lexes_note (note : Note)
    (hrest : Lexes (fun _ => True) ⟨place.line + 1, 1⟩ rest ts finish) :
    ∃ toks, IsNote place.line toks ∧ Lexes (fun _ => True) place
      (Text.bytes note.text ++ newline :: rest) (toks ++ ts) finish := by
  obtain ⟨b, body, hword, hblank, hsemicolon, hscan⟩ := (isToken_word note.isWord).scanTok_append
  obtain ⟨c, digits, hnumber, hblank', hsemicolon', hscan'⟩ :=
    (isToken_nat note.number_lt).scanTok_append
  have hbytes : Text.bytes note.text ++ newline :: rest = 0x2C :: space :: 0x21 ::
      b :: (body ++ (space :: 0x21 :: c :: (digits ++ (newline :: rest)))) := by
    rw [note.bytes_text, hword, hnumber]
    simp
  rw [hbytes]
  refine ⟨[_, _, _, _, _], ?_, .mark (by decide) (.blank (by decide) (by decide) (.mark (by decide)
    (.token hblank hsemicolon (hscan _ (by simp; decide)) trivial (.blank (by decide) (by decide)
      (.mark (by decide) (.token hblank' hsemicolon' (hscan' _ (by simp; decide)) trivial
        (.newline hrest)))))))⟩
  refine ⟨_, _, _, rfl, rfl, rfl, rfl, ?_⟩
  simp only [forall_mem_cons, inTrailer, beq_self_eq_true, Bool.true_and]
  exact ⟨rfl, rfl, rfl, rfl, by simp⟩

end

/-! ### Notes as tokens -/

section

variable {place finish : Place} {bs : List UInt8} {ts : List Token} {notes : Nat → Option Note}

/-- There are notes only on lines that shall have one, each behind the last token of its line. -/
def NotesBehind (notes : Nat → Option Note) (ts : List Token) (f : Nat → List Token) : Prop :=
  ∀ n, f n ≠ [] → ∃ pre t ahead, ts = pre ++ t :: ahead ∧ ahead.length = n ∧
    notes t.place.line ≠ none ∧ IsNote t.place.line (f n) ∧
      ∀ u ∈ ahead.head?, u.place.line ≠ t.place.line

theorem NotesBehind.cons {f : Nat → List Token} {t : Token} (h : NotesBehind notes ts f)
    {head : List Token} (hhead : head = [] ∨ notes t.place.line ≠ none ∧
      IsNote t.place.line head ∧ ∀ u ∈ ts.head?, u.place.line ≠ t.place.line) :
    NotesBehind notes (t :: ts) (Function.update f ts.length head) := by
  intro n hn
  by_cases hlast : n = ts.length
  · subst hlast
    rw [Function.update_self] at hn ⊢
    rcases hhead with rfl | ⟨hnotes, hnote, hnext⟩
    · exact absurd rfl hn
    · exact ⟨[], t, ts, rfl, rfl, hnotes, hnote, hnext⟩
  · rw [Function.update_of_ne hlast] at hn ⊢
    obtain ⟨pre, u, ahead, rfl, hrest⟩ := h n hn
    exact ⟨t :: pre, u, ahead, rfl, hrest⟩

theorem insertNotes_update {f : Nat → List Token} {n : Nat} (head : List Token)
    (h : ts.length ≤ n) : insertNotes (Function.update f n head) ts = insertNotes f ts := by
  induction ts with
  | nil => rfl
  | cons t ts ih =>
    rw [length_cons] at h
    rw [insertNotes, insertNotes, Function.update_of_ne (by omega), ih (by omega)]

/-- The byte behind a token ends it as well when a note comes first. -/
theorem alike_attachBytes (notes : Nat → Option Note) (line : Nat) (bs : List UInt8) :
    Alike bs (attachBytes notes line bs) := by
  cases bs with
  | nil =>
    have hnil : ∀ b ∈ ([] : List UInt8).head?, endsToken b = true := by simp
    have hends := endsToken_noteText notes line hnil
    rw [append_nil] at hends
    exact .inr ⟨hnil, hends⟩
  | cons b bs =>
    by_cases hb : b = newline
    · rw [hb, attachBytes_newline]
      exact .inr ⟨by simp; decide, endsToken_noteText notes line (by simp; decide)⟩
    · rw [attachBytes, if_neg hb]
      exact .inl rfl

theorem NotesBehind.mono {notes' : Nat → Option Note} {f : Nat → List Token}
    (h : NotesBehind notes' ts f) (hle : ∀ line, notes' line ≠ none → notes line ≠ none) :
    NotesBehind notes ts f := by
  intro n hn
  obtain ⟨pre, t, ahead, hsplit, hlength, hnotes, hrest⟩ := h n hn
  exact ⟨pre, t, ahead, hsplit, hlength, hle _ hnotes, hrest⟩

/-- The notes without that of one line. -/
theorem exists_without (notes : Nat → Option Note) (line : Nat) : ∃ notes' : Nat → Option Note,
    notes' line = none ∧ (∀ l ≠ line, notes' l = notes l) ∧
      ∀ l, notes' l ≠ none → notes l ≠ none := by
  have hsame : ∀ l ≠ line, Function.update notes line none l = notes l :=
    fun l hl => Function.update_of_ne hl ..
  refine ⟨_, Function.update_self .., hsame, fun l hsome => ?_⟩
  by_cases hl : l = line
  · exact absurd (hl ▸ Function.update_self ..) hsome
  · rwa [← hsame l hl]

/-- A note before the first token would be on a line without tokens. -/
theorem Lexes.eq_nil_of_first {P : List UInt8 → Prop} (h : Lexes P place bs ts finish)
    (hlines : notes place.line ≠ none → ∃ t ∈ ts, t.place.line = place.line) {head : List Token}
    (hhead : head = [] ∨ notes place.line ≠ none ∧ IsNote place.line head ∧
      ∀ t ∈ ts.head?, t.place.line ≠ place.line) : head = [] := by
  rcases hhead with rfl | ⟨hsome, -, hfirst⟩
  · rfl
  · obtain ⟨t, ht, hline⟩ := hlines hsome
    obtain ⟨u, hu, huline⟩ := h.exists_head_line ht hline
    exact absurd huline (hfirst u hu)

/-- The tokens of a text with notes are those of the text with the notes behind the last token of
their lines. Before the first token there is a note only if that is on a later line. -/
theorem Lexes.attach (h : Lexes (Ascii.newline ∉ ·) place bs ts finish)
    (hfinish : notes finish.line = none)
    (hlines : ∀ line, place.line < line → notes line ≠ none → ∃ t ∈ ts, t.place.line = line) :
    ∃ head f, Lexes (fun _ => True) place (attachBytes notes place.line bs)
        (head ++ insertNotes f ts) finish ∧
      (head = [] ∨ notes place.line ≠ none ∧ IsNote place.line head ∧
        ∀ t ∈ ts.head?, t.place.line ≠ place.line) ∧ NotesBehind notes ts f := by
  induction h generalizing notes with
  | @nil place =>
    refine ⟨[], fun _ => [], ?_, .inl rfl, fun n hn => absurd rfl hn⟩
    rw [attachBytes, noteText_of_none hfinish, Text.bytes_empty]
    exact .nil
  | @newline place finish rest ts hrest ih =>
    obtain ⟨head, f, hlex, hhead, hf⟩ := ih hfinish fun line hline =>
      hlines line (Nat.lt_of_succ_lt hline)
    obtain rfl : head = [] := hrest.eq_nil_of_first (hlines _ (Nat.lt_succ_self _)) hhead
    rw [attachBytes_newline]
    cases hnote : notes place.line with
    | none =>
      refine ⟨[], f, ?_, .inl rfl, hf⟩
      rw [noteText_of_none hnote, Text.bytes_empty]
      exact .newline hlex
    | some note =>
      obtain ⟨toks, htoks, hlex'⟩ := lexes_note note hlex
      refine ⟨toks, f, ?_, .inr ⟨by simp, htoks, ?_⟩, hf⟩
      · rw [noteText_of_some hnote]
        exact hlex'
      · intro t ht
        have hbound := (hrest.line_bounds (mem_of_mem_head? ht)).1
        exact Nat.ne_of_gt hbound
  | @blank place finish b rest ts hnewline hblank hrest ih =>
    obtain ⟨head, f, hlex, hhead, hf⟩ := ih hfinish hlines
    refine ⟨head, f, ?_, hhead, hf⟩
    rw [attachBytes, if_neg hnewline]
    exact .blank hnewline hblank hlex
  | @comment place finish body rest ts hbody hends hrest ih =>
    have hkeep : Ascii.newline ∉ Ascii.semicolon :: body := by
      rw [mem_cons, not_or]
      exact ⟨by decide, hbody⟩
    rw [← cons_append, attachBytes_append hkeep, cons_append]
    cases rest with
    | nil =>
      cases hrest
      refine ⟨[], fun _ => [], ?_, .inl rfl, fun n hn => absurd rfl hn⟩
      rw [attachBytes, noteText_of_none hfinish, Text.bytes_empty]
      exact .comment hbody hends .nil
    | cons c rest =>
      obtain rfl := hends c rfl
      -- The note becomes part of the comment, as if the line had none.
      obtain ⟨notes', hnone, hsame, hless⟩ := exists_without notes place.line
      have hfinish' : notes' finish.line = none := by
        by_contra hsome
        exact hless _ hsome hfinish
      obtain ⟨head, f, hlex, hhead, hf⟩ := ih hfinish' fun line hline hnotes =>
        hlines line hline (hless line hnotes)
      obtain rfl : head = [] := by
        rcases hhead with rfl | ⟨hnotes, -⟩
        · rfl
        · exact absurd hnone hnotes
      have hlater : attachBytes notes' (place.line + 1) rest =
          attachBytes notes (place.line + 1) rest :=
        attachBytes_congr fun l hl => hsame l (by omega)
      rw [attachBytes_newline, noteText_of_none hnone, Text.bytes_empty, nil_append, hlater] at hlex
      refine ⟨[], f, ?_, .inl rfl, hf.mono hless⟩
      rw [attachBytes_newline, ← append_assoc]
      refine .comment ?_ (by simp) (.newline hlex.of_newline)
      rw [mem_append, not_or]
      exact ⟨hbody, newline_not_mem_noteText notes place.line⟩
  | @token place finish b body rest tok ts hblank hsemicolon hscan hpiece hrest ih =>
    obtain ⟨head, f, hlex, hhead, hf⟩ := ih hfinish fun line hline hnotes => by
      obtain ⟨t, ht, htline⟩ := hlines line hline hnotes
      rcases mem_cons.mp ht with rfl | ht
      · exact absurd htline (Nat.ne_of_lt hline)
      · exact ⟨t, ht, htline⟩
    refine ⟨[], Function.update f ts.length head, ?_, .inl rfl, hf.cons hhead⟩
    rw [← cons_append, attachBytes_append hpiece, nil_append, insertNotes,
      Function.update_self, insertNotes_update head le_rfl]
    exact .token hblank hsemicolon (scanTok_alike (alike_attachBytes notes place.line rest) hscan)
      trivial hlex

end

/-! ### Modules with notes -/

/-- The states behind the instructions and terminators of a module. -/
def itemEnds (name text : String) : List Reader :=
  match tokenizeModule text with
  | .error _ => []
  | .ok tokens => Read.moduleEnds (tokens.tokens.length + 1) (.ofText name tokens)

/-- The pieces of a text that are its tokens. -/
def pieces (text : String) : List (List UInt8) :=
  piecesFrom ((Text.bytes text).length + 1) (Text.bytes text)

section

variable {ts : List Token}

/-- Where lines are in order, no token behind the last one of a line is on that line. -/
theorem length_le_of_last {pre pre' ahead ahead' : List Token} {t t' : Token}
    (h : ts.Pairwise fun t u => t.place.line ≤ u.place.line) (hsplit : ts = pre ++ t :: ahead)
    (hsplit' : ts = pre' ++ t' :: ahead') (hline : t.place.line = t'.place.line)
    (hlast : ∀ u ∈ ahead.head?, u.place.line ≠ t.place.line) : ahead.length ≤ ahead'.length := by
  by_contra hlength
  have hsuffix : t' :: ahead' <:+ ahead := by
    have hthis : t' :: ahead' <:+ ts := ⟨pre', hsplit'.symm⟩
    have hthat : ahead <:+ ts := ⟨pre ++ [t], by simp [hsplit]⟩
    exact suffix_of_suffix_length_le hthis hthat (by simpa using Nat.lt_of_not_le hlength)
  have hmem : t' ∈ ahead := hsuffix.subset mem_cons_self
  rw [hsplit, pairwise_append] at h
  obtain ⟨hfirst, hrest⟩ := pairwise_cons.mp h.2.1
  cases ahead with
  | nil => simp at hmem
  | cons u ahead =>
    have hu := hfirst u mem_cons_self
    have hne := hlast u rfl
    rcases mem_cons.mp hmem with rfl | hmem
    · exact hne hline.symm
    · have := (pairwise_cons.mp hrest).1 t' hmem
      omega

/-- The last token before a state. -/
theorem Reader.Before.exists_last {r e : Reader} (h : r.Before e) :
    ∃ pre t, r.rest = pre ++ t :: e.rest ∧ t.place.line = e.lastLine := by
  obtain ⟨pre, hne, hpasses⟩ := h
  obtain ⟨front, t, rfl⟩ : ∃ front t, pre = front ++ [t] :=
    ⟨_, _, (dropLast_append_getLast hne).symm⟩
  refine ⟨front, t, ?_, ?_⟩
  · rw [hpasses.rest_eq, append_assoc, singleton_append]
  · rw [hpasses.lastLine_eq, lineAfter_append]
    rfl

theorem Reader.line_ne_of_atLineStart {r : Reader} (h : r.atLineStart = true) :
    ∀ t ∈ r.rest.head?, t.place.line ≠ r.lastLine := by
  intro t ht
  rw [atLineStart, place_eq, ht, Bool.and_eq_true, bne_iff_ne, bne_iff_ne] at h
  exact h.2

end

/-- Notes appended to lines on which instructions or terminators end do not change the module that
is read, if each of these is the last thing on its line and no token runs over the end of a line. -/
theorem readModule_attach {name text : String} {m : Module} {notes : Nat → Option Note}
    (hread : readModule name text = .ok m)
    (hlast : ∀ r ∈ itemEnds name text, r.atLineStart = true)
    (hpieces : ∀ piece ∈ pieces text, Ascii.newline ∉ piece)
    (hnotes : ∀ line, notes line ≠ none → ∃ r ∈ itemEnds name text, r.lastLine = line) :
    readModule name (attach notes text) = .ok m := by
  obtain ⟨⟨ts, finish⟩, r, htokens, rfl, hrounds⟩ := readModule_ok.mp hread
  have hends : itemEnds name text =
      Read.moduleEnds (ts.length + 1) (.ofText name ⟨ts, finish⟩) := by
    rw [itemEnds, htokens]
  have hlex : Lexes (Ascii.newline ∉ ·) ⟨1, 1⟩ (Text.bytes text) ts finish :=
    lexes_of_tokensFrom htokens (Nat.lt_succ_self _) hpieces
  have hlastToken : ∀ e ∈ itemEnds name text, e.rest ≠ [] ∧
      ∃ pre t, ts = pre ++ t :: e.rest ∧ t.place.line = e.lastLine := by
    intro e he
    rw [hends] at he
    obtain ⟨hbefore, hne⟩ := Read.moduleEnds_between hrounds he
    exact ⟨hne, hbefore.exists_last⟩
  have hfinish : notes finish.line = none := by
    by_contra hsome
    obtain ⟨e, he, hline⟩ := hnotes _ hsome
    obtain ⟨hne, pre, t, hsplit, htline⟩ := hlastToken e he
    have hnext := Reader.line_ne_of_atLineStart (hlast e he)
    rw [← htline] at hnext
    exact absurd (htline.trans hline) (hlex.line_lt_finish hsplit hne hnext).ne
  have hlines : ∀ line, notes line ≠ none → ∃ t ∈ ts, t.place.line = line := by
    intro line hsome
    obtain ⟨e, he, rfl⟩ := hnotes line hsome
    obtain ⟨-, pre, t, hsplit, hline⟩ := hlastToken e he
    exact ⟨t, by simp [hsplit], hline⟩
  obtain ⟨head, f, hlex', hhead, hf⟩ := hlex.attach hfinish fun line _ => hlines line
  obtain rfl : head = [] := hlex.eq_nil_of_first (hlines _) hhead
  have hat : NotesAt f (itemEnds name text) (.ofText name ⟨ts, finish⟩) r := by
    intro n _ _ hn
    obtain ⟨pre, t, ahead, hsplit, rfl, hsome, hnote, hnext⟩ := hf n hn
    obtain ⟨e, he, hline⟩ := hnotes _ hsome
    obtain ⟨-, pre', t', hsplit', hline'⟩ := hlastToken e he
    have hsame : t.place.line = t'.place.line := by rw [hline', hline]
    have hnext' := Reader.line_ne_of_atLineStart (hlast e he)
    rw [← hline'] at hnext'
    have hlength := le_antisymm
      (length_le_of_last hlex.pairwise_line hsplit hsplit' hsame hnext)
      (length_le_of_last hlex.pairwise_line hsplit' hsplit hsame.symm hnext')
    refine ⟨e, he, hlength.symm, hlast e he, ?_⟩
    rwa [hline]
  rw [hends] at hat
  refine readModule_ok.mpr ⟨⟨insertNotes f ts, finish⟩, r.noted f, ?_, rfl, ?_⟩
  · rw [tokenizeModule, bytes_attach]
    exact hlex'.tokensFrom (Nat.lt_succ_self _)
  · exact Read.rounds_entity_noted hrounds (Nat.succ_le_succ length_le_insertNotes) hat

/-- A function with an index, a switch over two lines and a comment. -/
def threeItems : String :=
  "define void @f(ptr %p) \x7b\n  %q = getelementptr i8, ptr %p, i8 1\n" ++
  "  switch i1 %c, label %a [\n  ]\na:\n  ret void ; done\n\x7d\n"

def debugNotes (line : Nat) : Option Note :=
  if h : line = 2 ∨ line = 4 ∨ line = 6 then
    some ⟨"dbg", line, by decide, by omega⟩
  else none

theorem readModule_attach_threeItems :
    attach debugNotes threeItems =
      "define void @f(ptr %p) \x7b\n  %q = getelementptr i8, ptr %p, i8 1, !dbg !2\n" ++
      "  switch i1 %c, label %a [\n  ], !dbg !4\na:\n  ret void ; done, !dbg !6\n\x7d\n" ∧
    ∃ m, readModule "m" threeItems = .ok m ∧
      readModule "m" (attach debugNotes threeItems) = .ok m := by
  have hfacts : (readModule "m" threeItems).toOption.isSome = true ∧
      (itemEnds "m" threeItems).map Reader.lastLine = [2, 4, 6] ∧
      (∀ r ∈ itemEnds "m" threeItems, r.atLineStart = true) ∧
      ∀ piece ∈ pieces threeItems, newline ∉ piece := by
    decide +kernel
  obtain ⟨hread, hlines, hlast, hpieces⟩ := hfacts
  refine ⟨by decide +kernel, ?_⟩
  cases hm : readModule "m" threeItems with
  | error e =>
    rw [hm] at hread
    cases hread
  | ok m =>
    refine ⟨m, rfl, readModule_attach hm hlast hpieces ?_⟩
    intro line hline
    have hmem : line ∈ (itemEnds "m" threeItems).map Reader.lastLine := by
      rw [hlines]
      by_contra hother
      simp only [mem_cons, not_mem_nil, or_false] at hother
      exact hline (dif_neg hother)
    exact mem_map.mp hmem

end Offload.Compiled
