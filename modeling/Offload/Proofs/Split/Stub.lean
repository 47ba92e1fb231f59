import Offload.Proofs.Split.Host
import Offload.Text.Numeral

/-!
# What a host stub returns

A stub is a piece of source text with two string literals, for the device file and the kernel. They
are read here as a compiler reads them: ends of lines become line feeds, a backslash joins a line to
the next one, and escapes inside a literal stand for other bytes. The file name is written into the
stub as it is, so the stub returns the file of the handle exactly if the name has no quote, no
backslash and no end of a line. The reason is length: an escape is longer than what it stands for.
-/

namespace Offload.Split

open Offload.Source List

variable {c : Char} {cs : List Char} {out v : List UInt8} {m : Mode}

namespace Literal

/-! ### Reading string literals -/

/-- Every end of a line is one line feed. -/
def lineEnds : List Char → List Char
  | [] => []
  | '\r' :: '\n' :: rest => '\n' :: lineEnds rest
  | c :: rest => (if c = '\r' then '\n' else c) :: lineEnds rest

/-- A backslash at the end of a line joins it to the next one. -/
def joinLines : List Char → List Char
  | [] => []
  | '\\' :: '\n' :: rest => joinLines rest
  | c :: rest => c :: joinLines rest

/-- Where a character stands: in no literal, in one, or behind a backslash in one. The characters
of the literal so far are kept as they are written. -/
inductive Place where
  | outside
  | inside (body : List Char)
  | escaped (body : List Char)

/-- What stands between the quotes of each literal; nothing if one is not closed on its line. -/
def bodiesFrom : Place → List Char → Option (List (List Char))
  | .outside, [] => some []
  | .outside, c :: rest => if c = '"' then bodiesFrom (.inside []) rest else bodiesFrom .outside rest
  | .inside body, c :: rest =>
    if c = '"' then (bodiesFrom .outside rest).map (body :: ·)
    else if c = '\\' then bodiesFrom (.escaped body) rest
    else if c = '\n' then none
    else bodiesFrom (.inside (body ++ [c])) rest
  | .escaped body, c :: rest =>
    if c = '\n' then none else bodiesFrom (.inside (body ++ ['\\', c])) rest
  | _, [] => none

/-- How far an escape has been read. -/
inductive Mode where
  | plain
  | backslash
  | octal (count value : Nat)
  | hex (value : Option Nat)
  | universal (left value : Nat)

/-- Escapes of one character, and the byte each stands for. -/
def simpleEscapes : List (Char × UInt8) :=
  "'\"?\\abfnrtv".toList.zip [0x27, 0x22, 0x3F, 0x5C, 0x07, 0x08, 0x0C, 0x0A, 0x0D, 0x09, 0x0B]

/-- A numeric escape stands for one byte. -/
def byte? (value : Nat) : Option (List UInt8) :=
  if value < 256 then some [UInt8.ofNat value] else none

def character? (value : Nat) : Option (List UInt8) :=
  if value.isValidChar then some (String.utf8EncodeChar (Char.ofNat value)) else none

/-- A character that continues no escape. -/
def stepPlain (c : Char) : Option (Mode × List UInt8) :=
  if c = '\\' then some (.backslash, [])
  else if c = '"' ∨ c = '\n' then none
  else some (.plain, String.utf8EncodeChar c)

/-- A numeric escape ends in front of a character. -/
def stepBehind (value : Nat) (c : Char) : Option (Mode × List UInt8) :=
  (byte? value).bind fun b => (stepPlain c).map fun next => (next.1, b ++ next.2)

/-- One character of a literal, and the bytes that are known with it. -/
def step : Mode → Char → Option (Mode × List UInt8)
  | .plain, c => stepPlain c
  | .backslash, c =>
    match simpleEscapes.lookup c with
    | some b => some (.plain, [b])
    | none =>
      if c = 'x' then some (.hex none, [])
      else if c = 'u' then some (.universal 4 0, [])
      else if c = 'U' then some (.universal 8 0, [])
      else (Text.Numeral.digit? 8 c).map fun d => (.octal 1 d, [])
  | .octal count value, c =>
    match Text.Numeral.digit? 8 c with
    | some d => if count < 3 then some (.octal (count + 1) (value * 8 + d), []) else stepBehind value c
    | none => stepBehind value c
  | .hex none, c => (Text.Numeral.digit? 16 c).map fun d => (.hex (some d), [])
  | .hex (some value), c =>
    match Text.Numeral.digit? 16 c with
    | some d => some (.hex (some (value * 16 + d)), [])
    | none => stepBehind value c
  | .universal left value, c =>
    (Text.Numeral.digit? 16 c).bind fun d =>
      if left ≤ 1 then (character? (value * 16 + d)).map fun bs => (.plain, bs)
      else some (.universal (left - 1) (value * 16 + d), [])

/-- What is left to say at the closing quote. -/
def finish : Mode → Option (List UInt8)
  | .plain => some []
  | .octal _ value | .hex (some value) => byte? value
  | _ => none

/-- The bytes that a literal stands for. -/
def valueFrom : Mode → List Char → Option (List UInt8)
  | m, [] => finish m
  | m, c :: rest => (step m c).bind fun next => (valueFrom next.1 rest).map (next.2 ++ ·)

/-- The values of the string literals in a piece of source text, in order. -/
def values? (text : String) : Option (List (List UInt8)) :=
  (bodiesFrom .outside (joinLines (lineEnds text.toList))).bind (·.mapM (valueFrom .plain))

/-- Characters that stand for themselves in a literal. -/
def Verbatim (c : Char) : Prop := c ≠ '"' ∧ c ≠ '\\' ∧ c ≠ '\n' ∧ c ≠ '\r'

instance : DecidablePred Verbatim := fun _ => inferInstanceAs (Decidable (_ ∧ _))

/-! ### An escape is longer than what it stands for -/

/-- The number of bytes of a text. -/
abbrev size (cs : List Char) : Nat := (cs.flatMap String.utf8EncodeChar).length

theorem length_utf8EncodeChar_pos (c : Char) : 0 < (String.utf8EncodeChar c).length := by
  rw [String.length_utf8EncodeChar]
  exact c.utf8Size_pos

theorem size_cons (c : Char) (cs : List Char) :
    size (c :: cs) = (String.utf8EncodeChar c).length + size cs := by
  simp [size]

theorem size_append (cs ds : List Char) : size (cs ++ ds) = size cs + size ds := by
  simp [size]

/-- Bytes of an escape that is not yet read to its end, for which it may still stand. -/
def Mode.credit : Mode → Nat
  | .plain | .backslash | .hex none => 0
  | .octal _ _ | .hex (some _) => 1
  | .universal left _ => 4 - left

theorem byte?_length {value : Nat} {bs : List UInt8} (h : byte? value = some bs) :
    bs.length = 1 := by
  unfold byte? at h
  split at h
  · rw [← Option.some.inj h, length_singleton]
  · cases h

theorem stepPlain_cases (h : stepPlain c = some (m, out)) :
    (m = .backslash ∧ out = []) ∨
      (m = .plain ∧ out = String.utf8EncodeChar c ∧ c ≠ '"' ∧ c ≠ '\\' ∧ c ≠ '\n') := by
  unfold stepPlain at h
  split_ifs at h with hback hends
  · simp only [Option.some.injEq, Prod.mk.injEq] at h
    exact Or.inl ⟨h.1.symm, h.2.symm⟩
  · rw [not_or] at hends
    simp only [Option.some.injEq, Prod.mk.injEq] at h
    exact Or.inr ⟨h.1.symm, h.2.symm, hends.1, hback, hends.2⟩

theorem stepPlain_credit (h : stepPlain c = some (m, out)) :
    out.length + m.credit ≤ (String.utf8EncodeChar c).length := by
  rcases stepPlain_cases h with ⟨rfl, rfl⟩ | ⟨rfl, rfl, -⟩ <;> simp [Mode.credit]

theorem stepBehind_credit {value : Nat} (h : stepBehind value c = some (m, out)) :
    out.length + m.credit ≤ 1 + (String.utf8EncodeChar c).length := by
  simp only [stepBehind, Option.bind_eq_some_iff, Option.map_eq_some_iff, Prod.mk.injEq] at h
  obtain ⟨b, hb, ⟨m', out'⟩, hplain, rfl, rfl⟩ := h
  have hcredit : out'.length + m'.credit ≤ _ := stepPlain_credit hplain
  rw [length_append, byte?_length hb, Nat.add_assoc]
  exact Nat.add_le_add_left hcredit 1

theorem character?_length {value : Nat} {bs : List UInt8} (h : character? value = some bs) :
    bs.length ≤ 4 := by
  unfold character? at h
  split at h
  · rw [← Option.some.inj h, String.length_utf8EncodeChar]
    exact Char.utf8Size_le_four _
  · cases h

/-- No character brings more bytes than it has itself. -/
theorem step_credit {m' : Mode} (h : step m c = some (m', out)) :
    out.length + m'.credit ≤ m.credit + (String.utf8EncodeChar c).length := by
  have hpos : 1 ≤ (String.utf8EncodeChar c).length := length_utf8EncodeChar_pos c
  have hsilent {next : Mode} (h : some (next, []) = some (m', out))
      (hnext : next.credit ≤ m.credit + 1) :
      out.length + m'.credit ≤ m.credit + (String.utf8EncodeChar c).length := by
    simp only [Option.some.injEq, Prod.mk.injEq] at h
    obtain ⟨rfl, rfl⟩ := h
    rw [length_nil]
    omega
  cases m with
  | plain => exact (stepPlain_credit h).trans (Nat.le_add_left _ _)
  | backslash =>
    simp only [step] at h
    split at h
    · simp only [Option.some.injEq, Prod.mk.injEq] at h
      obtain ⟨rfl, rfl⟩ := h
      simpa only [Mode.credit, length_singleton, Nat.zero_add] using hpos
    · split_ifs at h
      on_goal 4 =>
        obtain ⟨d, -, hd⟩ := Option.map_eq_some_iff.mp h
        exact hsilent (congrArg some hd) le_rfl
      all_goals exact hsilent h (Nat.zero_le _)
  | octal count value =>
    simp only [step] at h
    split at h
    · split_ifs at h
      · exact hsilent h (Nat.le_succ 1)
      · exact stepBehind_credit h
    · exact stepBehind_credit h
  | hex value =>
    cases value with
    | none =>
      obtain ⟨d, -, hd⟩ := Option.map_eq_some_iff.mp h
      exact hsilent (congrArg some hd) le_rfl
    | some value =>
      simp only [step] at h
      split at h
      · exact hsilent h (Nat.le_succ 1)
      · exact stepBehind_credit h
  | universal left value =>
    simp only [step, Option.bind_eq_some_iff] at h
    obtain ⟨d, -, h⟩ := h
    split_ifs at h
    · simp only [Option.map_eq_some_iff, Prod.mk.injEq] at h
      obtain ⟨bs, hbs, rfl, rfl⟩ := h
      have hlength := character?_length hbs
      simp only [Mode.credit]
      omega
    · refine hsilent h ?_
      simp only [Mode.credit]
      omega

theorem valueFrom_cons {rest : List Char} :
    valueFrom m (c :: rest) = some v ↔ ∃ m' out w, step m c = some (m', out) ∧
      valueFrom m' rest = some w ∧ out ++ w = v := by
  simp only [valueFrom, Option.bind_eq_some_iff, Option.map_eq_some_iff, Prod.exists]
  grind

theorem valueFrom_length (h : valueFrom m cs = some v) : v.length ≤ m.credit + size cs := by
  induction cs generalizing m v with
  | nil =>
    rw [valueFrom] at h
    unfold finish at h
    split at h
    · simp [← Option.some.inj h]
    · simp [byte?_length h, Mode.credit]
    · simp [byte?_length h, Mode.credit]
    · cases h
  | cons c rest ih =>
    obtain ⟨m', out, w, hstep, hrest, rfl⟩ := valueFrom_cons.mp h
    have hcredit := step_credit hstep
    have hle := ih hrest
    rw [length_append, size_cons]
    omega

/-- A literal has as many bytes as its value only if it has no escape. -/
theorem valueFrom_plain_length (h : valueFrom .plain cs = some v) (hlength : size cs ≤ v.length) :
    ∀ c ∈ cs, c ≠ '"' ∧ c ≠ '\\' ∧ c ≠ '\n' := by
  induction cs generalizing v with
  | nil => simp
  | cons c rest ih =>
    obtain ⟨m', out, w, hstep, hrest, rfl⟩ := valueFrom_cons.mp h
    rw [length_append, size_cons] at hlength
    rcases stepPlain_cases hstep with ⟨rfl, rfl⟩ | ⟨rfl, rfl, hc⟩
    · have hle : w.length ≤ 0 + size rest := valueFrom_length hrest
      have hpos := length_utf8EncodeChar_pos c
      rw [length_nil] at hlength
      omega
    · exact forall_mem_cons.mpr ⟨hc, ih hrest (by omega)⟩

theorem valueFrom_verbatim (h : ∀ c ∈ cs, Verbatim c) :
    valueFrom .plain cs = some (cs.flatMap String.utf8EncodeChar) := by
  induction cs with
  | nil => rfl
  | cons c rest ih =>
    obtain ⟨⟨hquote, hback, hline, -⟩, hrest⟩ := forall_mem_cons.mp h
    simp [valueFrom, step, stepPlain, hquote, hback, hline, ih hrest]

/-! ### Ends of lines -/

theorem lineEnds_quote (cs ds : List Char) :
    lineEnds (cs ++ '"' :: ds) = lineEnds cs ++ '"' :: lineEnds ds := by
  fun_induction lineEnds cs with
  | case1 => simp [lineEnds]
  | case2 rest ih => simp [lineEnds, ih]
  | case3 c rest hnot ih =>
    cases rest with
    | nil => simp [lineEnds]
    | cons d rest => simp_all [lineEnds]

theorem lineEnds_of_not_mem (h : '\r' ∉ cs) : lineEnds cs = cs := by
  fun_induction lineEnds cs with
  | case1 => rfl
  | case2 rest => simp at h
  | case3 c rest hnot ih =>
    rw [mem_cons, not_or] at h
    rw [if_neg (Ne.symm h.1), ih h.2]

theorem not_mem_lineEnds (cs : List Char) : '\r' ∉ lineEnds cs := by
  fun_induction lineEnds cs with
  | case1 => simp
  | case2 rest ih => simpa using ih
  | case3 c rest hnot ih =>
    rw [mem_cons, not_or]
    refine ⟨?_, ih⟩
    split_ifs with hc
    · decide
    · exact Ne.symm hc

theorem lineEnds_cases (cs : List Char) : lineEnds cs = cs ∨ '\n' ∈ lineEnds cs := by
  fun_induction lineEnds cs with
  | case1 => simp
  | case2 rest ih => simp
  | case3 c rest hnot ih =>
    by_cases hc : c = '\r'
    · simp [hc]
    · rcases ih with ih | ih <;> simp [hc, ih]

theorem size_lineEnds_le (cs : List Char) : size (lineEnds cs) ≤ size cs := by
  fun_induction lineEnds cs with
  | case1 => simp
  | case2 rest ih =>
    simp only [size_cons] at ih ⊢
    omega
  | case3 c rest hnot ih =>
    have hc : (String.utf8EncodeChar (if c = '\r' then '\n' else c)).length =
        (String.utf8EncodeChar c).length := by
      split_ifs with hc
      · rw [hc]
        rfl
      · rfl
    rw [size_cons, size_cons, hc]
    exact Nat.add_le_add_left ih _

theorem joinLines_quote (cs ds : List Char) :
    joinLines (cs ++ '"' :: ds) = joinLines cs ++ '"' :: joinLines ds := by
  fun_induction joinLines cs with
  | case1 => simp [joinLines]
  | case2 rest ih => simp [joinLines, ih]
  | case3 c rest hnot ih =>
    cases rest with
    | nil => simp [joinLines]
    | cons d rest => simp_all [joinLines]

theorem joinLines_of_not_mem (h : '\\' ∉ cs) : joinLines cs = cs := by
  fun_induction joinLines cs with
  | case1 => rfl
  | case2 rest => simp at h
  | case3 c rest hnot ih =>
    rw [mem_cons, not_or] at h
    rw [ih h.2]

theorem joinLines_subset (cs : List Char) : joinLines cs ⊆ cs := by
  fun_induction joinLines cs with
  | case1 => simp
  | case2 rest ih =>
    exact fun c hc => mem_cons_of_mem _ (mem_cons_of_mem _ (ih hc))
  | case3 c rest hnot ih => exact cons_subset_cons c ih

theorem joinLines_cases (cs : List Char) : joinLines cs = cs ∨ size (joinLines cs) < size cs := by
  fun_induction joinLines cs with
  | case1 => simp
  | case2 rest ih =>
    have hle : size (joinLines rest) ≤ size rest := by
      rcases ih with ih | ih
      · rw [ih]
      · exact ih.le
    have hpos := length_utf8EncodeChar_pos '\n'
    simp only [size_cons]
    omega
  | case3 c rest hnot ih =>
    rcases ih with ih | ih
    · exact Or.inl (by rw [ih])
    · refine Or.inr ?_
      rw [size_cons, size_cons]
      omega

/-- The characters that a compiler goes on with. -/
def logical (cs : List Char) : List Char := joinLines (lineEnds cs)

theorem logical_quote (cs ds : List Char) :
    logical (cs ++ '"' :: ds) = logical cs ++ '"' :: logical ds := by
  rw [logical, lineEnds_quote, joinLines_quote, logical, logical]

theorem logical_of_verbatim (h : ∀ c ∈ cs, Verbatim c) : logical cs = cs := by
  rw [logical, lineEnds_of_not_mem fun hmem => (h _ hmem).2.2.2 rfl,
    joinLines_of_not_mem fun hmem => (h _ hmem).2.1 rfl]

theorem not_mem_logical (cs : List Char) : '\r' ∉ logical cs :=
  fun h => not_mem_lineEnds cs (joinLines_subset _ h)

theorem logical_cases (cs : List Char) :
    logical cs = cs ∨ '\n' ∈ logical cs ∨ size (logical cs) < size cs := by
  have hle := size_lineEnds_le cs
  rcases joinLines_cases (lineEnds cs) with hsame | hless
  · rw [logical, hsame]
    exact (lineEnds_cases cs).imp_right Or.inl
  · exact Or.inr (Or.inr (hless.trans_le hle))

theorem size_logical_le (cs : List Char) : size (logical cs) ≤ size cs := by
  refine le_trans ?_ (size_lineEnds_le cs)
  rcases joinLines_cases (lineEnds cs) with hsame | hless
  · rw [logical, hsame]
  · exact hless.le

/-- A text that is its own value has nothing that a compiler would change. -/
theorem verbatim_of_valueFrom
    (h : valueFrom .plain (logical cs) = some (cs.flatMap String.utf8EncodeChar)) :
    ∀ c ∈ cs, Verbatim c := by
  have hlength : size cs ≤ 0 + size (logical cs) := valueFrom_length h
  have hplain := valueFrom_plain_length h (size_logical_le cs)
  rcases logical_cases cs with hsame | hline | hless
  · have hreturn := not_mem_logical cs
    rw [hsame] at hplain hreturn
    intro c hc
    obtain ⟨hquote, hback, hline⟩ := hplain c hc
    exact ⟨hquote, hback, hline, fun heq => hreturn (heq ▸ hc)⟩
  · exact absurd rfl (hplain _ hline).2.2
  · omega

/-! ### Where a literal ends -/

/-- Where a text leads from inside a literal: it ends the literal, leaves it open, or leaves it with
a backslash at the end. -/
def Continues (body cs rest : List Char) (bodies : List (List Char)) : Prop :=
  (∃ front back more, cs = front ++ '"' :: back ∧ bodies = (body ++ front) :: more) ∨
    bodiesFrom (.inside (body ++ cs)) rest = some bodies ∨
    ∃ front, cs = front ++ ['\\'] ∧ bodiesFrom (.escaped (body ++ front)) rest = some bodies

theorem Continues.cons {body rest : List Char} {bodies : List (List Char)}
    (h : Continues (body ++ [c]) cs rest bodies) : Continues body (c :: cs) rest bodies := by
  rcases h with ⟨front, back, more, rfl, rfl⟩ | hopen | ⟨front, rfl, hback⟩
  · exact Or.inl ⟨c :: front, back, more, rfl, by simp⟩
  · exact Or.inr (Or.inl (by simpa using hopen))
  · exact Or.inr (Or.inr ⟨c :: front, rfl, by simpa using hback⟩)

/-- Both places inside a literal are taken together, as each step may lead to the other. -/
theorem continues_of_bodiesFrom (cs rest : List Char) (bodies : List (List Char)) :
    (∀ body, bodiesFrom (.inside body) (cs ++ rest) = some bodies →
      Continues body cs rest bodies) ∧
    ∀ body, bodiesFrom (.escaped body) (cs ++ rest) = some bodies →
      Continues body ('\\' :: cs) rest bodies := by
  induction cs with
  | nil => exact ⟨fun body h => Or.inr (Or.inl (by simpa using h)),
      fun body h => Or.inr (Or.inr ⟨[], rfl, by simpa using h⟩)⟩
  | cons c cs ih =>
    refine ⟨fun body h => ?_, fun body h => ?_⟩
    · rw [cons_append, bodiesFrom] at h
      split_ifs at h with hquote hback hline
      · obtain ⟨more, -, rfl⟩ := Option.map_eq_some_iff.mp h
        exact Or.inl ⟨[], cs, more, by rw [hquote, nil_append], by rw [append_nil]⟩
      · exact hback ▸ ih.2 body h
      · exact (ih.1 _ h).cons
    · rw [cons_append, bodiesFrom] at h
      split_ifs at h with hline
      have hnext : Continues (body ++ ['\\'] ++ [c]) cs rest bodies := ih.1 _ (by simpa using h)
      exact hnext.cons.cons

theorem bodiesFrom_outside (h : '"' ∉ cs) (rest : List Char) :
    bodiesFrom .outside (cs ++ '"' :: rest) = bodiesFrom (.inside []) rest := by
  induction cs with
  | nil => simp [bodiesFrom]
  | cons c cs ih =>
    rw [mem_cons, not_or] at h
    rw [cons_append, bodiesFrom, if_neg (Ne.symm h.1), ih h.2]

theorem bodiesFrom_inside_verbatim (h : ∀ c ∈ cs, Verbatim c) (body rest : List Char) :
    bodiesFrom (.inside body) (cs ++ '"' :: rest) =
      (bodiesFrom .outside rest).map ((body ++ cs) :: ·) := by
  induction cs generalizing body with
  | nil => simp [bodiesFrom]
  | cons c cs ih =>
    obtain ⟨⟨hquote, hback, hline, -⟩, hcs⟩ := forall_mem_cons.mp h
    rw [cons_append, bodiesFrom, if_neg hquote, if_neg hback, if_neg hline, ih hcs]
    simp

end Literal

/-! ### The literals of a stub -/

open Literal

theorem verbatim_of_all (h : cs.all (decide <| Verbatim ·) = true) : ∀ c ∈ cs, Verbatim c :=
  fun c hc => of_decide_eq_true (all_eq_true.mp h c hc)

/-- What stands in a stub in front of the first literal, between the two and behind them. -/
def stubOpening : List Char := "\x7b return std::pair<std::string,std::string> ( ".toList

def stubBetween : List Char := " , ".toList

def stubClosing : List Char := " ); \x7d".toList

theorem verbatim_stubBetween : ∀ c ∈ stubBetween, Verbatim c := verbatim_of_all (by decide)

theorem toList_hostStub (file suffix : String) :
    (hostStub file suffix).toList = stubOpening ++ '"' :: (file.toList ++ '"' :: (stubBetween ++
      '"' :: ((kernelName suffix).toList ++ '"' :: stubClosing))) := by
  have hparts (opening between closing kernel : String)
      (hopening : opening.toList = stubOpening ++ ['"'])
      (hbetween : between.toList = '"' :: stubBetween ++ ['"'])
      (hclosing : closing.toList = '"' :: stubClosing) :
      (opening ++ file ++ between ++ kernel ++ closing).toList =
        stubOpening ++ '"' :: (file.toList ++ '"' :: (stubBetween ++
          '"' :: (kernel.toList ++ '"' :: stubClosing))) := by
    simp [hopening, hbetween, hclosing]
  exact hparts _ _ _ _ (by decide) (by decide) (by decide)

theorem verbatim_kernelName {suffix : String} (h : ∀ c ∈ suffix.toList, Verbatim c) :
    ∀ c ∈ (kernelName suffix).toList, Verbatim c := by
  have hname : ∀ c ∈ "_Kernel_".toList, Verbatim c := verbatim_of_all (by decide)
  rw [kernelName, String.toList_append]
  exact forall_mem_append.mpr ⟨hname, h⟩

theorem verbatim_of_isDigit (h : c.isDigit = true) : Verbatim c := by
  refine ⟨?_, ?_, ?_, ?_⟩
  all_goals
    rintro rfl
    simp at h

/-- The suffixes of kernels are of this form. -/
theorem verbatim_suffix (number : Nat) {digits : List Char} (h : ∀ c ∈ digits, c ∈ hexDigits) :
    ∀ c ∈ (toString number ++ "_" ++ String.ofList digits).toList, Verbatim c := by
  have hhex : ∀ c ∈ hexDigits, Verbatim c := verbatim_of_all (by decide)
  have hline : ∀ c ∈ "_".toList, Verbatim c := verbatim_of_all (by decide)
  have hnumber : ∀ c ∈ (Nat.repr number).toList, Verbatim c := by
    intro c hc
    rw [Nat.toList_repr] at hc
    exact verbatim_of_isDigit (Nat.isDigit_of_mem_toDigits (by decide) (by decide) hc)
  rw [String.toList_append, String.toList_append, String.toList_ofList (l := digits)]
  exact forall_mem_append.mpr ⟨forall_mem_append.mpr ⟨hnumber, hline⟩,
    fun c hc => hhex c (h c hc)⟩

theorem head_of_mapM {body : List Char} {bodies : List (List Char)} {vs : List (List UInt8)}
    (h : (body :: bodies).mapM (valueFrom .plain) = some (v :: vs)) :
    valueFrom .plain body = some v := by
  simp only [mapM_cons, Option.bind_eq_bind, Option.bind_eq_some_iff, Option.pure_def,
    Option.some.injEq, List.cons.injEq] at h
  obtain ⟨w, hw, _, -, rfl, -⟩ := h
  exact hw

/-- What stands in a stub behind the literal of the file. -/
def stubRest (suffix : String) : List Char :=
  stubBetween ++ '"' :: ((kernelName suffix).toList ++ '"' :: stubClosing)

section Suffix

variable {file suffix : String} (hsuffix : ∀ c ∈ suffix.toList, Verbatim c)
include hsuffix

theorem bodiesFrom_stubRest : bodiesFrom .outside (stubRest suffix) =
    some [(kernelName suffix).toList] := by
  have hlast : bodiesFrom .outside stubClosing = some [] := by decide
  rw [stubRest, bodiesFrom_outside fun hmem => (verbatim_stubBetween _ hmem).1 rfl,
    bodiesFrom_inside_verbatim (verbatim_kernelName hsuffix), hlast]
  rfl

/-- The stub is not closed in time if its first literal goes on to the second. -/
theorem bodiesFrom_escaped_stubRest (body : List Char) :
    bodiesFrom (.escaped body) ('"' :: stubRest suffix) = none := by
  have hkernel := verbatim_kernelName hsuffix
  have hlast : bodiesFrom (.inside []) stubClosing = none := by decide
  rw [bodiesFrom, if_neg (by decide), stubRest, bodiesFrom_inside_verbatim verbatim_stubBetween,
    bodiesFrom_outside fun hmem => (hkernel _ hmem).1 rfl, hlast]
  rfl

theorem values?_hostStub : values? (hostStub file suffix) =
    (bodiesFrom (.inside []) (logical file.toList ++ '"' :: stubRest suffix)).bind
      (·.mapM (valueFrom .plain)) := by
  have hopening : ∀ c ∈ stubOpening, Verbatim c := verbatim_of_all (by decide)
  have hclosing : ∀ c ∈ stubClosing, Verbatim c := verbatim_of_all (by decide)
  have hlogical : logical (hostStub file suffix).toList =
      stubOpening ++ '"' :: (logical file.toList ++ '"' :: stubRest suffix) := by
    rw [toList_hostStub, stubRest]
    simp only [logical_quote, logical_of_verbatim hopening, logical_of_verbatim verbatim_stubBetween,
      logical_of_verbatim (verbatim_kernelName hsuffix), logical_of_verbatim hclosing]
  rw [values?, ← logical, hlogical, bodiesFrom_outside fun hmem => (hopening _ hmem).1 rfl]

/-- A stub names its file exactly if every character of the name stands for itself. -/
theorem values?_hostStub_iff :
    values? (hostStub file suffix) = some [Text.bytes file, Text.bytes (kernelName suffix)] ↔
      ∀ c ∈ file.toList, Verbatim c := by
  rw [values?_hostStub hsuffix]
  constructor
  · intro h
    obtain ⟨bodies, hbodies, hvalues⟩ := Option.bind_eq_some_iff.mp h
    -- the first literal is the file's: it ends early, where it should, or at the next quote
    rcases (continues_of_bodiesFrom _ _ bodies).1 [] hbodies with
      ⟨front, back, more, heq, rfl⟩ | hopen | ⟨front, -, hback⟩
    · have hlength : size file.toList ≤ 0 + size front := valueFrom_length (head_of_mapM hvalues)
      have hlogical := size_logical_le file.toList
      have hpos := length_utf8EncodeChar_pos '"'
      rw [heq, size_append, size_cons] at hlogical
      omega
    · rw [bodiesFrom, if_pos rfl] at hopen
      obtain ⟨more, -, rfl⟩ := Option.map_eq_some_iff.mp hopen
      exact verbatim_of_valueFrom (head_of_mapM hvalues)
    · rw [bodiesFrom_escaped_stubRest hsuffix] at hback
      cases hback
  · intro hfile
    rw [logical_of_verbatim hfile, bodiesFrom_inside_verbatim hfile, bodiesFrom_stubRest hsuffix]
    simp [valueFrom_verbatim hfile, valueFrom_verbatim (verbatim_kernelName hsuffix), Text.bytes]

end Suffix

/-! ### Stubs in the host output -/

theorem part_of_flatMap {α β : Type} {f : α → List β} {l : List α} {x : α} (h : x ∈ l) :
    f x <:+: l.flatMap f := by
  rw [flatMap_def]
  exact infix_of_mem_flatten (mem_map_of_mem h)

theorem bytes_part_of_rewritten {doc : Document} {removed : List Span}
    {replaced : List (Span × String)} {r : Span × String} (hr : r ∈ replaced)
    (hstart : r.1.start ≤ doc.length) : Text.bytes r.2 <:+: doc.rewritten removed replaced := by
  have hmem : r ∈ replaced.filter fun other => other.1.start == r.1.start :=
    mem_filter.mpr ⟨hr, beq_self_eq_true _⟩
  have hoffset : r.1.start ∈ List.range (doc.length + 1) := mem_range.mpr (by omega)
  have hbytes := part_of_flatMap (f := fun other : Span × String => Text.bytes other.2) hmem
  rw [Document.rewritten]
  refine List.IsInfix.trans ?_ (part_of_flatMap hoffset)
  exact hbytes.trans (prefix_append _ _).isInfix

section Run

variable {settings : Settings} {name text : String} {decls : List Decl} {output : Output}

/-- The kernel of an accepted call, with its stub and its handle. -/
theorem exists_kernel_of_accepted {doc : Document} {kernels : List Kernel}
    (hk : kernelsFrom settings doc 0 (acceptedFrom settings [] (leavesOf true decls)) =
      some kernels) {i : Nat} {a : Accepted}
    (ha : (acceptedFrom settings [] (leavesOf true decls))[i]? = some a) :
    ∃ kernel, kernels[i]? = some kernel ∧ kernel.body = a.closure.body ∧
      kernel.hostStub = hostStub (deviceFile settings doc) kernel.suffix ∧
      (∀ c ∈ kernel.suffix.toList, Verbatim c) ∧ .replace .host kernel.body kernel.hostStub ∈
        callsFrom settings doc [] 0 (leavesOf true decls) := by
  obtain ⟨kernel, hkernel, hmade⟩ := kernelsFrom_getElem? hk ha
  obtain ⟨hbody, hstub⟩ := Accepted.kernel?_body hmade
  obtain ⟨digits, hsuffix, -, hdigits⟩ := (Accepted.carries hmade).suffix
  refine ⟨kernel, hkernel, hbody, hstub, ?_, ?_⟩
  · rw [hsuffix]
    exact verbatim_suffix _ hdigits
  · have hmem := mem_map_of_mem (f := Kernel.replacement) (mem_of_getElem? hkernel)
    rw [← replaced_callsFrom hk] at hmem
    exact mem_replaced.mp hmem

/-- An exposed stub stands in the host output. -/
theorem bytes_hostStub_part_of_host {kernels : List Kernel}
    (h : splitDecls settings (.ofText name text) decls = .ok output)
    (hk : kernelsFrom settings (.ofText name text) 0
      (acceptedFrom settings [] (leavesOf true decls)) = some kernels)
    (hsep : Separate settings (.ofText name text) decls) {stub : Span × String}
    (hstub : stub ∈ stubs (.ofText name text) kernels)
    (hexposed : exposed (expanded (.ofText name text) (hostLosses settings decls))
      (stubs (.ofText name text) kernels) stub = true) :
    Text.bytes stub.2 <:+: Text.bytes output.host := by
  obtain ⟨buffers, kernels', hreq, hk', hhost, -, -⟩ := splitDecls_ok h
  obtain rfl := Option.some.inj (hk.symm.trans hk')
  have hcalls := (hsep.hostCalls hk).stubCalls
  have hside := DualBuffer.requestAll_side hreq .host
  have hedit := (hcalls.mem_edits_iff_exposed hside hstub).mpr hexposed
  have hsound := EditBuffer.requestAll_sound hside hcalls.ordered
  have hordered : stub.1.start ≤ stub.1.stop := hsound.ordered _ hedit
  have hbounds : stub.1.stop ≤ (buffers.side .host).document.length := hsound.inBounds _ hedit
  rw [EditBuffer.requestAll_document hside] at hbounds
  rw [hcalls.bytes_result (Text.isUtf8_bytes text) hside hhost]
  exact bytes_part_of_rewritten (mem_filter.mpr ⟨hstub, hexposed⟩) (hordered.trans hbounds)

end Run

/-- Every accepted call has a handle, and a stub is asked for in the place of its closure's body; it
stands in the host output unless it is taken along with something else. Read as source, the stub
names the file and the kernel of the handle exactly if the file name has no quote, no backslash and
no end of a line. -/
theorem host_stub_names_handle_iff (settings : Settings) (name text : String) (decls : List Decl)
    (output : Output) (h : splitDecls settings (.ofText name text) decls = .ok output) :
    let doc := Document.ofText name text
    let accepted := acceptedFrom settings [] (leavesOf true decls)
    ∃ kernels : List Kernel, kernels.length = accepted.length ∧
      output.kernels.length = accepted.length ∧
      ∀ (i : Nat) (a : Accepted), accepted[i]? = some a → ∃ (kernel : Kernel) (handle : KernelHandle),
        kernels[i]? = some kernel ∧ output.kernels[i]? = some handle ∧
        handle.call = a.call.head.span ∧ handle.file = name ++ settings.deviceSuffix ∧
        .replace .host a.closure.body kernel.hostStub ∈
          callsFrom settings doc [] 0 (leavesOf true decls) ∧
        (Separate settings doc decls →
          ∀ span, withTerminator doc a.closure.body = .ok span →
            exposed (expanded doc (hostLosses settings decls)) (stubs doc kernels)
              (span, kernel.hostStub) = true →
            Text.bytes kernel.hostStub <:+: Text.bytes output.host) ∧
        (values? kernel.hostStub = some [Text.bytes handle.file, Text.bytes handle.kernel] ↔
          ∀ c ∈ (name ++ settings.deviceSuffix).toList, Verbatim c) := by
  intro doc accepted
  obtain ⟨buffers, kernels, -, hk, -, -, hhandles⟩ := splitDecls_ok h
  have hlength := length_kernelsFrom hk
  refine ⟨kernels, hlength, ?_, fun i a ha => ?_⟩
  · rw [hhandles, length_zipWith, hlength, min_self]
  · obtain ⟨kernel, hkernel, hbody, hstub, hsuffix, hreplace⟩ := exists_kernel_of_accepted hk ha
    refine ⟨kernel, a.handle settings doc kernel, hkernel, ?_, rfl, rfl, hbody ▸ hreplace, ?_, ?_⟩
    · rw [hhandles, getElem?_zipWith, ha, hkernel]
    · intro hsep span hspan hexposed
      have hmem : (span, kernel.hostStub) ∈ stubs doc kernels :=
        mem_stubs.mpr ⟨kernel, mem_of_getElem? hkernel, hbody ▸ hspan, rfl⟩
      have hpart := bytes_hostStub_part_of_host h hk hsep hmem hexposed
      exact hpart
    · rw [hstub]
      exact values?_hostStub_iff hsuffix

/-! ### A name with a backslash -/

def dispatchSettings : Settings :=
  { marker := "a", dispatchFunction := "p", dispatchHeader := "P.h", dispatchArity := 1 }

def dispatchText : String := "f()\x7bp([](T x)\x7bx;\x7d);\x7d"

/-- A function with one dispatch call. -/
def dispatchDecls : List Decl :=
  [.function ⟨"f", [], ⟨0, 1⟩, .file ⟨0, 20⟩, none, [], [], false,
    some (.mk (.file ⟨3, 20⟩) [nestedCall ⟨4, 18⟩ ⟨6, 17⟩ ⟨13, 17⟩ "x" []])⟩]

theorem splitDecls_dispatch :
    ∃ output, splitDecls dispatchSettings (.ofText "a\\n" dispatchText) dispatchDecls =
      .ok output :=
  splitDecls_isOk rfl (by decide +kernel)
    (result_isOk_of_sorted (by decide +kernel) (by decide +kernel))
    (result_isOk_of_sorted (by decide +kernel) (by decide +kernel))

theorem accepted_dispatch : ∃ a,
    (acceptedFrom dispatchSettings [] (leavesOf true dispatchDecls))[0]? = some a ∧
      a.closure.body = .file ⟨13, 17⟩ := by
  have hbody : (acceptedFrom dispatchSettings [] (leavesOf true dispatchDecls))[0]?.map
      (·.closure.body) = some (.file ⟨13, 17⟩) := by decide +kernel
  exact Option.map_eq_some_iff.mp hbody

/-- The stub of the call does not name the handle's file. -/
theorem host_stub_names_handle_iff_dispatch : ∃ (output : Output) (kernel : Kernel)
    (handle : KernelHandle),
    splitDecls dispatchSettings (.ofText "a\\n" dispatchText) dispatchDecls = .ok output ∧
      output.kernels[0]? = some handle ∧
      ¬ values? kernel.hostStub = some [Text.bytes handle.file, Text.bytes handle.kernel] := by
  obtain ⟨output, h⟩ := splitDecls_dispatch
  obtain ⟨a, ha, -⟩ := accepted_dispatch
  obtain ⟨kernels, -, -, hall⟩ := host_stub_names_handle_iff _ _ _ _ _ h
  obtain ⟨kernel, handle, -, hhandle, -, -, -, -, hiff⟩ := hall 0 a ha
  have hmem : '\\' ∈ ("a\\n" ++ dispatchSettings.deviceSuffix).toList := by
    rw [String.toList_append]
    exact mem_append_left _ (by decide)
  exact ⟨output, kernel, handle, h, hhandle, fun hread => (hiff.mp hread '\\' hmem).2.1 rfl⟩

/-- The handle's file is `a\n.cl`, with a backslash and an `n`, and the stub returns a name with a
line feed in their place. -/
theorem backslash_read_as_line_feed : ∃ (output : Output) (handle : KernelHandle)
    (stub : String),
    splitDecls dispatchSettings (.ofText "a\\n" dispatchText) dispatchDecls = .ok output ∧
      output.kernels[0]? = some handle ∧ handle.file = "a\\n.cl" ∧
      .replace .host (.file ⟨13, 17⟩) stub ∈ callsFrom dispatchSettings
        (.ofText "a\\n" dispatchText) [] 0 (leavesOf true dispatchDecls) ∧
      values? stub = some [Text.bytes "a\n.cl", Text.bytes handle.kernel] := by
  obtain ⟨output, h⟩ := splitDecls_dispatch
  obtain ⟨a, ha, hplace⟩ := accepted_dispatch
  obtain ⟨buffers, kernels, -, hk, -, -, hhandles⟩ := splitDecls_ok h
  obtain ⟨kernel, hkernel, hbody, hstub, hsuffix, hreplace⟩ := exists_kernel_of_accepted hk ha
  refine ⟨output, a.handle dispatchSettings (.ofText "a\\n" dispatchText) kernel, kernel.hostStub,
    h, ?_, rfl, hplace ▸ hbody ▸ hreplace, ?_⟩
  · rw [hhandles, getElem?_zipWith, ha, hkernel]
  · have hfile : logical "a\\n.cl".toList = ['a', '\\', 'n', '.', 'c', 'l'] := by decide
    have hbodies : bodiesFrom (.inside []) (['a', '\\', 'n', '.', 'c', 'l'] ++
        '"' :: stubRest kernel.suffix) =
          some [['a', '\\', 'n', '.', 'c', 'l'], (kernelName kernel.suffix).toList] := by
      simp [bodiesFrom, bodiesFrom_stubRest hsuffix]
    have hvalue : valueFrom .plain ['a', '\\', 'n', '.', 'c', 'l'] =
        some (Text.bytes "a\n.cl") := by decide
    rw [hstub, values?_hostStub hsuffix,
      show deviceFile dispatchSettings (.ofText "a\\n" dispatchText) = "a\\n.cl" from rfl, hfile,
      hbodies, Option.bind_some, mapM_cons, hvalue, mapM_cons,
      valueFrom_verbatim (verbatim_kernelName hsuffix)]
    rfl

end Offload.Split
