import Offload.Proofs.Source.Cover
import Offload.Proofs.Source.Directive

/-!
# Macro expansion

Expansion is described without a bound on its depth: a token either stays, or the macro it names is
opened and the tokens of the body are expanded in its place. A macro is not opened while it is
open, so the macros that can still be opened become fewer and every token has an expansion.

What preprocessing makes of a document follows from this token by token. A macro is live at a token
if, of the directive lines before it that define or undefine the name, the last one defines it.
-/

namespace Offload.Source

open List

variable {doc : Document} {body line raw : List Token} {macros : MacroTable} {h i : Nat}
  {name : String} {t : Token}

namespace MacroTable

/-! ### Opening macros -/

/-- What tokens expand to while the macros in `active` are open. Each token that is left comes with
the macros that were open when it was met. -/
inductive Expands (live : String → List Token → Prop) (site : Span) :
    List String → List Token → List (List String × Token) → Prop
  | nil {active : List String} : Expands live site active [] []
  | left {active : List String} {t : Token} {ts : List Token} {out : List (List String × Token)}
    (hleft : ∀ name body, t.lexeme = .ident name → live name body → name ∈ active)
    (hrest : Expands live site active ts out) :
    Expands live site active (t :: ts) ((active, t) :: out)
  | opened {active : List String} {t : Token} {ts body : List Token} {name : String}
    {inside out : List (List String × Token)} (hname : t.lexeme = .ident name)
    (hlive : live name body) (hactive : name ∉ active)
    (hinside : Expands live site (name :: active) (body.map (placed site)) inside)
    (hrest : Expands live site active ts out) : Expands live site active (t :: ts) (inside ++ out)

namespace Expands

variable {live : String → List Token → Prop} {site : Span} {active : List String}
  {ts us : List Token} {out out' : List (List String × Token)}

theorem append (h : Expands live site active ts out) (h' : Expands live site active us out') :
    Expands live site active (ts ++ us) (out ++ out') := by
  induction h with
  | nil => exact h'
  | left hleft _ ih => exact .left hleft (ih h')
  | opened hname hlive hactive hinside _ _ ih =>
    rw [append_assoc]
    exact .opened hname hlive hactive hinside (ih h')

/-- A token is left only if it names no live macro, or one that is open. -/
theorem mem_active (h : Expands live site active ts out) :
    ∀ o ∈ out, ∀ name body, o.2.lexeme = .ident name → live name body → name ∈ o.1 := by
  induction h with
  | nil => simp
  | left hleft _ ih => exact forall_mem_cons.mpr ⟨hleft, ih⟩
  | opened _ _ _ _ _ ihinside ih => exact forall_mem_append.mpr ⟨ihinside, ih⟩

/-- What holds of the tokens and of every body token in its place holds of all that is left. -/
theorem forall_left {p : Token → Prop} (h : Expands live site active ts out)
    (hts : ∀ t ∈ ts, p t) (hbody : ∀ name body, live name body → ∀ v ∈ body, p (placed site v)) :
    ∀ o ∈ out, p o.2 := by
  induction h with
  | nil => simp
  | left _ _ ih =>
    obtain ⟨ht, hts⟩ := forall_mem_cons.mp hts
    exact forall_mem_cons.mpr ⟨ht, ih hts⟩
  | opened _ hlive _ _ _ ihinside ih =>
    obtain ⟨-, hts⟩ := forall_mem_cons.mp hts
    refine forall_mem_append.mpr ⟨ihinside ?_, ih hts⟩
    intro t ht
    obtain ⟨v, hv, rfl⟩ := mem_map.mp ht
    exact hbody _ _ hlive v hv

/-- Only body tokens are left of a macro that is opened. -/
theorem forall_left_of_live {p : Token → Prop} (h : Expands live site [] [t] out)
    (hname : t.lexeme = .ident name) (hlive : live name body)
    (hbody : ∀ name body, live name body → ∀ v ∈ body, p (placed site v)) : ∀ o ∈ out, p o.2 := by
  cases h with
  | left hleft _ => exact absurd (hleft name body hname hlive) not_mem_nil
  | opened _ hopened _ hinside hrest =>
    cases hrest
    rw [append_nil]
    refine hinside.forall_left ?_ hbody
    intro t ht
    obtain ⟨v, hv, rfl⟩ := mem_map.mp ht
    exact hbody _ _ hopened v hv

/-- Tokens that expand one by one expand together. -/
theorem exists_flatMap {f : Token → List Token} (ts : List Token)
    (h : ∀ t ∈ ts, ∃ out, Expands live site active [t] out ∧ out.map Prod.snd = f t) :
    ∃ out, Expands live site active ts out ∧ out.map Prod.snd = ts.flatMap f := by
  induction ts with
  | nil => exact ⟨[], .nil, rfl⟩
  | cons t ts ih =>
    obtain ⟨⟨first, hfirst, heq⟩, h⟩ := forall_mem_cons.mp h
    obtain ⟨out, hout, heqs⟩ := ih h
    refine ⟨first ++ out, hfirst.append hout, ?_⟩
    rw [map_append, heq, heqs, flatMap_cons]

end Expands

/-- The macros that can still be opened. -/
def closed (macros : MacroTable) (active : List String) : MacroTable :=
  macros.filter fun m => !active.contains m.1

theorem mem_of_body? (h : macros.body? name = some body) : (name, body) ∈ macros := by
  obtain ⟨front, back, rfl, -⟩ := lookup_eq_some_iff.mp h
  exact mem_append_right _ mem_cons_self

/-- Opening a macro takes it from those that can still be opened. -/
theorem length_closed_lt {active : List String} (h : macros.body? name = some body)
    (hactive : name ∉ active) :
    (closed macros (name :: active)).length < (closed macros active).length := by
  have hfilter : closed macros (name :: active) =
      (closed macros active).filter fun m => decide (m.1 ≠ name) := by
    rw [closed, closed, filter_filter]
    refine filter_congr fun m _ => ?_
    simp
  rw [hfilter, length_filter_lt_length_iff_exists]
  refine ⟨(name, body), ?_, by simp⟩
  exact mem_filter.mpr ⟨mem_of_body? h, by simpa using hactive⟩

/-- As many levels as there are macros to open are enough for the whole expansion. -/
theorem exists_expands (site : Span) {fuel : Nat} {active : List String}
    (hfuel : (closed macros active).length < fuel) (t : Token) :
    ∃ out, Expands (fun name body => macros.body? name = some body) site active [t] out ∧
      out.map Prod.snd = expand macros site fuel active t := by
  induction fuel generalizing active t with
  | zero => exact absurd hfuel (Nat.not_lt_zero _)
  | succ fuel ih =>
    rw [expand]
    split
    · rename_i name hname
      split_ifs with hactive
      · refine ⟨[(active, t)], .left ?_ .nil, rfl⟩
        intro name' body hname' _
        rw [hname, Lexeme.ident.injEq] at hname'
        rw [← hname']
        exact contains_iff_mem.mp hactive
      · split
        · rename_i hnone
          refine ⟨[(active, t)], .left ?_ .nil, rfl⟩
          intro name' body hname' hlive
          rw [hname, Lexeme.ident.injEq] at hname'
          rw [← hname', hnone] at hlive
          cases hlive
        · rename_i body hbody
          have hopen : name ∉ active := by simpa using hactive
          have hless := length_closed_lt hbody hopen
          obtain ⟨inside, hinside, heq⟩ := Expands.exists_flatMap
            (f := fun u => expand macros site fuel (name :: active) u)
            (body.map (placed site)) fun u _ => ih (by omega) u
          refine ⟨inside ++ [], .opened hname hbody hopen hinside .nil, ?_⟩
          rw [append_nil, heq, flatMap_map]
    · rename_i hident
      refine ⟨[(active, t)], .left ?_ .nil, rfl⟩
      intro name body hname _
      exact absurd hname (hident name)

/-! ### What a use of a macro leaves behind -/

@[simp] theorem length_markFirst (atLineStart : Bool) (ts : List Token) :
    (markFirst atLineStart ts).length = ts.length := by
  cases ts <;> rfl

@[simp] theorem length_markLast (ts : List Token) : (markLast ts).length = ts.length := by
  fun_induction markLast ts <;> simp_all

theorem getElem?_markFirst (atLineStart : Bool) (ts : List Token) (j : Nat) :
    (markFirst atLineStart ts)[j]? = ts[j]?.map fun o =>
      { o with atLineStart := if j = 0 then atLineStart else o.atLineStart } := by
  cases ts with
  | nil => rfl
  | cons t rest => cases j <;> simp [markFirst]

theorem getElem?_markLast (ts : List Token) (j : Nat) : (markLast ts)[j]? = ts[j]?.map fun o =>
      { o with position := if j + 1 = ts.length then .expansionEnd else o.position } := by
  induction ts generalizing j with
  | nil => rfl
  | cons t rest ih =>
    cases rest with
    | nil => cases j <;> simp [markLast]
    | cons u rest =>
      rw [markLast]
      · cases j with
        | zero => simp
        | succ j =>
          rw [getElem?_cons_succ, ih j]
          simp
      · simp

/-- Token number `j` of the `count` tokens that stand in for the macro name `t`. The macros in
`active` were open when it was met. -/
structure StandsIn (live : String → List Token → Prop) (t : Token) (count j : Nat)
    (active : List String) (u : Token) : Prop where
  span : u.span = t.span
  spelled : ∃ name body, live name body ∧
    ∃ v ∈ body, u.lexeme = v.lexeme ∧ u.spelled = some v.span
  position : u.position = if j + 1 = count then .expansionEnd else .expansion
  lineStart : u.atLineStart = true → j = 0 ∧ t.atLineStart = true
  left : ∀ name body, u.lexeme = .ident name → live name body → name ∈ active

/-- The tokens that stand in for a macro name are what it expands to, but for the marks at both
ends. -/
def Replaces (live : String → List Token → Prop) (t : Token) (part : List Token) : Prop :=
  ∃ out, Expands live t.span [] [t] out ∧ out.length = part.length ∧
    ∀ j u, part[j]? = some u → ∃ active o, out[j]? = some (active, o) ∧
      u = { o with atLineStart := u.atLineStart, position := u.position } ∧
      StandsIn live t part.length j active u

theorem replaces_contribution (hname : t.lexeme = .ident name)
    (hbody : macros.body? name = some body)
    (hspelled : ∀ name body, macros.body? name = some body → ∀ v ∈ body, v.spelled = none) :
    Replaces (fun name body => macros.body? name = some body) t (macros.contribution t) := by
  have hfuel : (closed macros []).length < macros.length + 1 :=
    Nat.lt_succ_of_le (length_filter_le _ _)
  obtain ⟨out, hout, heq⟩ := exists_expands t.span hfuel t
  have hplaced := hout.forall_left_of_live (p := fun u => u.span = t.span ∧
    u.atLineStart = false ∧ u.position = .expansion ∧ ∃ name body, macros.body? name = some body ∧
      ∃ v ∈ body, u.lexeme = v.lexeme ∧ u.spelled = some v.span) hname hbody
    fun name body hbody v hv =>
      ⟨rfl, rfl, rfl, name, body, hbody, v, hv, rfl,
        by simp [placed, hspelled name body hbody v hv]⟩
  have hcontribution : macros.contribution t =
      markLast (markFirst t.atLineStart (out.map Prod.snd)) := by
    simp only [contribution, hname, hbody, heq]
  have hlength : out.length = (macros.contribution t).length := by
    rw [hcontribution, length_markLast, length_markFirst, length_map]
  refine ⟨out, hout, hlength, fun j u hu => ?_⟩
  rw [hcontribution, getElem?_markLast, getElem?_markFirst, getElem?_map, Option.map_map,
    Option.map_map] at hu
  obtain ⟨⟨active, o⟩, ho, rfl⟩ := Option.map_eq_some_iff.mp hu
  obtain ⟨hspan, (hstart : o.atLineStart = false), (hposition : o.position = .expansion),
    hspelled⟩ := hplaced _ (mem_of_getElem? ho)
  refine ⟨active, o, ho, rfl, hspan, hspelled, ?_, ?_, ?_⟩
  · simp [← hlength, hposition]
  · intro h
    by_cases hj : j = 0
    · exact ⟨hj, by simpa [hj] using h⟩
    · simp [hj, hstart] at h
  · exact hout.mem_active _ (mem_of_getElem? ho)

end MacroTable

/-! ### Directive lines -/

/-- The object-like macro that a directive line defines, `#` not counted. -/
def definition? : List Token → Option (String × List Token)
  | word :: target :: body =>
    if word.lexeme.spelling == "define" && !isFunctionLike target body then
      target.lexeme.ident?.map (·, body)
    else none
  | _ => none

/-- The name that a directive line undefines; a line without a name undefines the empty one. -/
def undefinition? : List Token → Option String
  | word :: operands =>
    if word.lexeme.spelling == "undef" then
      some ((operands.head?.bind (·.lexeme.ident?)).getD "")
    else none
  | [] => none

/-- The line defines or undefines the name. -/
def ChangesMacro (line : List Token) (name : String) : Prop :=
  (definition? line).map Prod.fst = some name ∨ undefinition? line = some name

/-- Token `h` is a `#` at the start of its line. -/
def StartsDirective (raw : List Token) (h : Nat) : Prop :=
  ∃ t ∈ raw[h]?, t.lexeme = .symbol .hash ∧ t.atLineStart = true

/-- The tokens behind token `h` on its line. -/
def lineAfter (raw : List Token) (h : Nat) : List Token :=
  (raw.drop (h + 1)).takeWhile continuesLine

/-- Token `i` is the `#` of a directive or stands behind it on its line. -/
def OnDirective (raw : List Token) (i : Nat) : Prop :=
  ∃ h ≤ i, StartsDirective raw h ∧ i ≤ h + (lineAfter raw h).length

/-- Of the directives before token `i` that define or undefine the name, the last one defines it
with the given body. -/
def LiveAt (raw : List Token) (i : Nat) (name : String) (body : List Token) : Prop :=
  ∃ h < i, StartsDirective raw h ∧ definition? (lineAfter raw h) = some (name, body) ∧
    ∀ k < i, h < k → StartsDirective raw k → ¬ ChangesMacro (lineAfter raw k) name

instance (line : List Token) (name : String) : Decidable (ChangesMacro line name) :=
  inferInstanceAs (Decidable (_ ∨ _))

instance (raw : List Token) (h : Nat) : Decidable (StartsDirective raw h) :=
  inferInstanceAs (Decidable (∃ t ∈ raw[h]?, t.lexeme = .symbol .hash ∧ t.atLineStart = true))

instance (raw : List Token) (i : Nat) : Decidable (OnDirective raw i) :=
  inferInstanceAs (Decidable (∃ h ≤ i, _))

instance (raw : List Token) (i : Nat) (name : String) (body : List Token) :
    Decidable (LiveAt raw i name body) :=
  inferInstanceAs (Decidable (∃ h < i, _))

namespace MacroTable

theorem body?_undefine (macros : MacroTable) (name n : String) :
    (macros.undefine name).body? n = if n = name then none else macros.body? n := by
  unfold undefine body?
  induction macros with
  | nil => simp
  | cons m rest ih =>
    by_cases hm : m.1 = name
    · rw [filter_cons_of_neg (by simp [hm]), ih, lookup_cons]
      by_cases hn : n = name
      · rw [if_pos hn, if_pos hn]
      · rw [if_neg hn, if_neg hn, beq_false_of_ne (hm ▸ hn)]
    · rw [filter_cons_of_pos (by simp [hm]), lookup_cons, lookup_cons, ih]
      by_cases hn : n = name
      · rw [if_pos hn, if_pos hn, beq_false_of_ne (hn ▸ Ne.symm hm)]
      · rw [if_neg hn, if_neg hn]

theorem body?_define (macros : MacroTable) (name n : String) (body : List Token) :
    (macros.define name body).body? n = if n = name then some body else macros.body? n := by
  have hrest := body?_undefine macros name n
  unfold undefine body? at hrest
  unfold define body?
  rw [lookup_cons, hrest]
  by_cases hn : n = name
  · rw [if_pos hn, if_pos hn, beq_iff_eq.mpr hn]
  · rw [if_neg hn, if_neg hn, beq_false_of_ne hn]

/-- The table that a directive line leaves behind. -/
def afterLine (macros : MacroTable) (line : List Token) : MacroTable :=
  match definition? line, undefinition? line with
  | some (name, body), _ => macros.define name body
  | none, some name => macros.undefine name
  | none, none => macros

theorem undefinition?_of_definition? (h : definition? line = some (name, body)) :
    undefinition? line = none := by
  unfold definition? at h
  split at h
  · rename_i word target rest
    split_ifs at h with hdefine
    have hword : word.lexeme.spelling = "define" := by
      simpa using (Bool.and_eq_true_iff.mp hdefine).1
    simp [undefinition?, hword]
  · cases h

/-- A line sets the names that it changes and leaves all others. -/
theorem body?_afterLine {n : String} {b : List Token} :
    (macros.afterLine line).body? n = some b ↔
      definition? line = some (n, b) ∨ ¬ ChangesMacro line n ∧ macros.body? n = some b := by
  unfold afterLine ChangesMacro
  cases hdef : definition? line with
  | some d =>
    obtain ⟨name, body⟩ := d
    rw [undefinition?_of_definition? hdef]
    simp only [body?_define]
    by_cases hn : n = name
    · simp [hn]
    · simp [hn, Ne.symm hn]
  | none =>
    cases hundef : undefinition? line with
    | some name =>
      simp only [body?_undefine]
      by_cases hn : n = name
      · simp [hn]
      · simp [hn, Ne.symm hn]
    | none => simp

end MacroTable

/-- A directive line is carried out unless the file name of an include cannot be cut out. -/
theorem directiveEffect_macros (macros : MacroTable) {hash : Token}
    (hinclude : ∃ r, includeKind doc hash.span.start line.tail = .ok r) :
    ∃ effect, directiveEffect doc macros hash line = .ok effect ∧
      effect.macros = macros.afterLine line := by
  unfold directiveEffect
  cases line with
  | nil => exact ⟨_, rfl, rfl⟩
  | cons word operands =>
    obtain ⟨⟨kind, problems⟩, hkind⟩ := hinclude
    rw [tail_cons] at hkind
    have hoperands : word.lexeme.spelling ≠ "define" → definition? (word :: operands) = none := by
      intro hne
      cases operands <;> simp [definition?, hne]
    simp only
    split_ifs with hinc hdefine hundef
    · have hword : word.lexeme.spelling ≠ "define" ∧ word.lexeme.spelling ≠ "undef" := by
        simp only [Bool.or_eq_true, beq_iff_eq] at hinc
        constructor <;> rintro h <;> simp [h] at hinc
      refine ⟨_, by rw [hkind]; rfl, ?_⟩
      simp [MacroTable.afterLine, hoperands hword.1, undefinition?, hword.2]
    · simp only [beq_iff_eq] at hdefine
      cases operands with
      | nil => exact ⟨_, rfl, by simp [MacroTable.afterLine, definition?, undefinition?, hdefine]⟩
      | cons target body =>
        simp only
        split
        · rename_i name hname
          refine ⟨_, rfl, ?_⟩
          cases hlike : isFunctionLike target body <;>
            simp [MacroTable.afterLine, definition?, undefinition?, hdefine, hlike, hname,
              Lexeme.ident?]
        · rename_i hident
          refine ⟨_, rfl, ?_⟩
          have hnone : target.lexeme.ident? = none := by
            unfold Lexeme.ident?
            split
            · rename_i name hname
              exact absurd hname (hident name)
            · rfl
          simp [MacroTable.afterLine, definition?, undefinition?, hdefine, hnone]
    · simp only [beq_iff_eq] at hdefine hundef
      exact ⟨_, rfl, by simp [MacroTable.afterLine, hoperands hdefine, undefinition?, hundef]⟩
    · simp only [beq_iff_eq] at hdefine hundef
      exact ⟨_, rfl, by simp [MacroTable.afterLine, hoperands hdefine, undefinition?, hundef]⟩

/-! ### Tokens of the file -/

/-- A token as it is scanned: nothing else spells it, and a symbol is its own text. -/
structure Token.Written (t : Token) (doc : Document) : Prop where
  spelled : t.spelled = none
  symbol : ∀ x, t.lexeme = .symbol x →
    t.span.stop = t.span.start + (Text.bytes x.spelling).length ∧
      Text.bytes x.spelling <+: doc.bytes.drop t.span.start

theorem scanToken_symbol {b : UInt8} {tail : List UInt8} {r : Scanned} {x : Symbol}
    (h : scanToken b tail = .ok r) (hx : r.lexeme = .symbol x) :
    r.length = (Text.bytes x.spelling).length ∧ Text.bytes x.spelling <+: b :: tail := by
  rcases scanToken_ok h with
    hstring | ⟨bs, after, -, -, -, rfl⟩ | ⟨bs, after, -, -, -, rfl⟩ | ⟨-, rfl⟩ | hp
  · obtain ⟨s, hs⟩ := (scanString?_sound hstring).2
    rw [hs] at hx
    cases hx
  · cases hx
  · cases hx
  · unfold scanCharacter at hx
    simp only at hx
    split_ifs at hx
    cases hx
  · obtain ⟨s, -, hfront, rfl⟩ := scanPunctuator?_some hp
    have hspelling : x.spelling = s := by
      have hs := punctuator_spelling s
      rwa [show punctuator s = .symbol x from hx] at hs
    rw [hspelling]
    exact ⟨rfl, hfront⟩

theorem Scan.written_step {s : Scan} (hs : s.rest = doc.bytes.drop s.offset) {step : Step}
    (hstep : s.step = .ok step) : step.token.Written doc := by
  rcases hm : Source.skip .code s.offset s.lineStart s.rest with ⟨m, found⟩
  have hwithin := (Scan.skip_on hm).2.2 _ hs
  rcases Scan.step_ok hstep hm with ⟨-, rfl⟩ | ⟨b, tail, r, hcons, hr, rfl⟩
  · exact ⟨rfl, by simp⟩
  · refine ⟨rfl, fun x hx => ?_⟩
    obtain ⟨hlength, hfront⟩ := scanToken_symbol hr hx
    rw [← hcons, hwithin] at hfront
    exact ⟨by rw [hlength], hfront⟩

theorem Scan.Runs.written {s : Scan} {found : List Diagnostic} (h : s.Runs raw found)
    (hs : s.rest = doc.bytes.drop s.offset) : ∀ t ∈ raw, t.Written doc :=
  (h.holds (I := fun s => s.rest = doc.bytes.drop s.offset) (R := fun _ _ => True) hs
    (List.Subset.refl _) fun hs hstep _ => ⟨Scan.written_step hs hstep, fun hne =>
      ⟨(Scan.stepsOn hs hstep).rest hne, fun _ _ => trivial⟩⟩).1

theorem Token.Written.byte {x : Symbol} {b : UInt8} (h : t.Written doc) (hx : t.lexeme = .symbol x)
    (hb : Text.bytes x.spelling = [b]) :
    t.span.stop = t.span.start + 1 ∧ doc.bytes[t.span.start]? = some b := by
  obtain ⟨hstop, hfront⟩ := h.symbol x hx
  rw [hb] at hstop hfront
  refine ⟨hstop, ?_⟩
  rw [← head?_drop]
  obtain ⟨rest, hrest⟩ := hfront
  rw [← hrest]
  rfl

/-- The name between angle brackets can be cut out of the text. -/
theorem includeKind_isOk (start : Nat) {operands : List Token} (hutf : Text.IsUtf8 doc.bytes)
    (hwritten : ∀ t ∈ operands, t.Written doc) (hpairs : operands.Pairwise Token.Before) :
    ∃ r, includeKind doc start operands = .ok r := by
  unfold includeKind
  cases operands with
  | nil => exact ⟨_, rfl⟩
  | cons first rest =>
    simp only
    split
    · exact ⟨_, rfl⟩
    · rename_i hless
      split
      · exact ⟨_, rfl⟩
      · rename_i close hclose
        have hmem := mem_of_find?_eq_some hclose
        have hgreater : close.lexeme = .symbol .greater := by
          simpa using find?_some hclose
        obtain ⟨hstop, hopen⟩ := (hwritten first mem_cons_self).byte hless
          (b := 0x3C) (by decide)
        obtain ⟨-, hend⟩ := (hwritten close (mem_cons_of_mem _ hmem)).byte hgreater
          (b := 0x3E) (by decide)
        have hle := ((pairwise_cons.mp hpairs).1 close hmem).le
        have hslice := Text.slice_eq_some_iff.mpr ⟨⟨hle,
          Nat.le_of_lt (List.getElem?_eq_some_iff.mp hend).1,
          hstop ▸ (hutf.isBoundary_of_ascii hopen (by decide)).2,
          (hutf.isBoundary_of_ascii hend (by decide)).1⟩, rfl⟩
        exact ⟨_, by rw [Document.slice, hslice]; rfl⟩
    · exact ⟨_, rfl⟩

/-! ### One token after the other -/

/-- What token `i` of the file adds to the tokens of the program: nothing on a directive line,
itself if it names no live macro, and otherwise what the macro expands to. -/
structure Contributes (raw : List Token) (i : Nat) (t : Token) (part : List Token) : Prop where
  skipped : OnDirective raw i → part = []
  kept : ¬ OnDirective raw i → (∀ name body, t.lexeme = .ident name → ¬ LiveAt raw i name body) →
    part = [t]
  replaced : ¬ OnDirective raw i → ∀ name body, t.lexeme = .ident name →
    LiveAt raw i name body → MacroTable.Replaces (LiveAt raw i) t part

theorem mem_of_definition? (hdef : definition? (lineAfter raw h) = some (name, body)) {v : Token}
    (hv : v ∈ body) : v ∈ lineAfter raw h := by
  unfold definition? at hdef
  split at hdef
  · rename_i word target rest heq
    split_ifs at hdef
    obtain ⟨n, -, hpair⟩ := Option.map_eq_some_iff.mp hdef
    obtain ⟨rfl, rfl⟩ := Prod.mk.inj hpair
    rw [heq]
    exact mem_cons_of_mem _ (mem_cons_of_mem _ hv)
  · cases hdef

theorem getElem?_lineAfter {j : Nat} (ht : (lineAfter raw h)[j]? = some t) :
    raw[h + 1 + j]? = some t ∧ continuesLine t = true := by
  refine ⟨?_, mem_takeWhile_imp (mem_of_getElem? ht)⟩
  obtain ⟨rest, hrest⟩ : lineAfter raw h <+: raw.drop (h + 1) := takeWhile_prefix _
  rw [← getElem?_drop, ← hrest, getElem?_append_left (List.getElem?_eq_some_iff.mp ht).1]
  exact ht

/-- What stands behind token `h` on its line goes on the line. -/
theorem continuesLine_of_le {k : Nat} (hk : h < k) (hle : k ≤ h + (lineAfter raw h).length)
    (ht : raw[k]? = some t) : continuesLine t = true := by
  obtain ⟨j, rfl⟩ := Nat.exists_eq_add_of_lt hk
  obtain ⟨hget, hcontinues⟩ := getElem?_lineAfter
    (getElem?_eq_getElem (l := lineAfter raw h) (i := j) (by omega))
  rw [Nat.add_right_comm, ht] at hget
  rwa [Option.some.inj hget]

theorem lineAfter_sublist (raw : List Token) (h : Nat) : lineAfter raw h <+ raw :=
  (takeWhile_sublist _).trans (drop_sublist _ _)

theorem mem_of_mem_lineAfter {v : Token} (hv : v ∈ lineAfter raw h) : v ∈ raw :=
  (lineAfter_sublist raw h).subset hv

theorem length_lineAfter_le (hi : i < raw.length) :
    i + 1 + (lineAfter raw i).length ≤ raw.length := by
  have hle := (takeWhile_sublist (l := raw.drop (i + 1)) continuesLine).length_le
  rw [length_drop] at hle
  unfold lineAfter
  omega

/-- No directive starts behind the `#` of another on its line. -/
theorem not_startsDirective {k : Nat} (hk : h < k) (hle : k ≤ h + (lineAfter raw h).length) :
    ¬ StartsDirective raw k := by
  rintro ⟨t, ht, -, hstart⟩
  have hcontinues := continuesLine_of_le hk hle ht
  simp [continuesLine, hstart] at hcontinues

/-- No directive line that starts before token `i` goes on at it. -/
def LinesEnd (raw : List Token) (i : Nat) : Prop :=
  ∀ h < i, StartsDirective raw h → h + (lineAfter raw h).length < i

namespace LinesEnd

@[simp]
theorem zero : LinesEnd raw 0 := fun _ hlt => absurd hlt (Nat.not_lt_zero _)

theorem not_onDirective (hends : LinesEnd raw i) (hi : ¬ StartsDirective raw i) :
    ¬ OnDirective raw i := by
  rintro ⟨h, hle, hstarts, hlt⟩
  rcases Nat.eq_or_lt_of_le hle with rfl | hless
  · exact hi hstarts
  · have := hends h hless hstarts
    omega

theorem succ (hends : LinesEnd raw i) (hi : ¬ StartsDirective raw i) : LinesEnd raw (i + 1) := by
  intro h hlt hstarts
  rcases Nat.eq_or_lt_of_le (Nat.le_of_lt_succ hlt) with rfl | hless
  · exact absurd hstarts hi
  · have := hends h hless hstarts
    omega

theorem behindLine (hends : LinesEnd raw i) : LinesEnd raw (i + 1 + (lineAfter raw i).length) := by
  intro h hlt hstarts
  rcases Nat.lt_trichotomy h i with hless | rfl | hgt
  · have := hends h hless hstarts
    omega
  · omega
  · exact absurd hstarts (not_startsDirective hgt (by omega))

end LinesEnd

/-- A token that starts no directive changes no macro. -/
theorem liveAt_succ (hi : ¬ StartsDirective raw i) (name : String) (body : List Token) :
    LiveAt raw (i + 1) name body ↔ LiveAt raw i name body := by
  constructor
  · rintro ⟨h, hlt, hstarts, hdef, hlast⟩
    have hne : h ≠ i := by
      rintro rfl
      exact hi hstarts
    exact ⟨h, by omega, hstarts, hdef, fun k hki hk => hlast k (by omega) hk⟩
  · rintro ⟨h, hlt, hstarts, hdef, hlast⟩
    refine ⟨h, by omega, hstarts, hdef, fun k hki hk hstarts' => ?_⟩
    have hne : k ≠ i := by
      rintro rfl
      exact hi hstarts'
    exact hlast k (by omega) hk hstarts'

/-- Behind a directive line the macros are those before it, but for what the line changes. -/
theorem liveAt_lineAfter (hi : StartsDirective raw i) (name : String) (body : List Token) :
    LiveAt raw (i + 1 + (lineAfter raw i).length) name body ↔
      definition? (lineAfter raw i) = some (name, body) ∨
        ¬ ChangesMacro (lineAfter raw i) name ∧ LiveAt raw i name body := by
  constructor
  · rintro ⟨h, hlt, hstarts, hdef, hlast⟩
    rcases Nat.lt_trichotomy h i with hlti | rfl | hgt
    · exact .inr ⟨hlast i (by omega) hlti hi, h, hlti, hstarts, hdef,
        fun k hki hk => hlast k (by omega) hk⟩
    · exact .inl hdef
    · exact absurd hstarts (not_startsDirective hgt (by omega))
  · rintro (hdef | ⟨hchanges, h, hlt, hstarts, hdef, hlast⟩)
    · exact ⟨i, by omega, hi, hdef, fun k hki hk hstarts =>
        absurd hstarts (not_startsDirective hk (by omega))⟩
    · refine ⟨h, by omega, hstarts, hdef, fun k hki hk hstarts' => ?_⟩
      rcases Nat.lt_trichotomy k i with hlti | rfl | hgt
      · exact hlast k hlti hk hstarts'
      · exact hchanges
      · exact absurd hstarts' (not_startsDirective hgt (by omega))

/-- A token off the directive lines makes the contribution that the live macros call for. -/
theorem contributes_contribution
    (hlive : ∀ name body, macros.body? name = some body ↔ LiveAt raw i name body)
    (hspelled : ∀ t ∈ raw, t.spelled = none) (hoff : ¬ OnDirective raw i) :
    Contributes raw i t (macros.contribution t) := by
  have hsame : (fun name body => macros.body? name = some body) = LiveAt raw i := by
    funext name body
    exact propext (hlive name body)
  refine ⟨fun h => absurd h hoff, fun _ hnone => ?_, fun _ name body hname hbody => ?_⟩
  · unfold MacroTable.contribution
    split
    · rename_i name hname
      cases hbody : macros.body? name with
      | none => rfl
      | some body => exact absurd ((hlive name body).mp hbody) (hnone name body hname)
    · rfl
  · rw [← hsame]
    refine MacroTable.replaces_contribution hname ((hlive name body).mpr hbody) ?_
    intro name body hbody v hv
    obtain ⟨h, -, -, hdef, -⟩ := (hlive name body).mp hbody
    exact hspelled v (mem_of_mem_lineAfter (mem_of_definition? hdef hv))

/-- Tokens of the program that come, part by part, from the tokens of the file from `i` on. -/
structure Parted (raw : List Token) (i : Nat) (tokens : List Token) (parts : List (List Token)) :
    Prop where
  tokens_eq : tokens = parts.flatten
  length_eq : parts.length = raw.length - i
  contributes : ∀ j t part, raw[i + j]? = some t → parts[j]? = some part →
    Contributes raw (i + j) t part

namespace Parted

variable {raw tokens part : List Token} {parts : List (List Token)} {i : Nat} {t : Token}

theorem nil (hi : raw.length ≤ i) : Parted raw i [] [] where
  tokens_eq := rfl
  length_eq := by
    rw [length_nil]
    omega
  contributes := by simp

theorem cons (h : Parted raw (i + 1) tokens parts) (ht : raw[i]? = some t)
    (hpart : Contributes raw i t part) : Parted raw i (part ++ tokens) (part :: parts) where
  tokens_eq := by rw [h.tokens_eq, flatten_cons]
  length_eq := by
    have hi := (List.getElem?_eq_some_iff.mp ht).1
    rw [length_cons, h.length_eq]
    omega
  contributes j u p hu hp := by
    cases j with
    | zero =>
      rw [Nat.add_zero, ht] at hu
      obtain rfl := Option.some.inj hu
      obtain rfl : part = p := by simpa using hp
      exact hpart
    | succ j =>
      rw [show i + (j + 1) = i + 1 + j by omega] at hu ⊢
      exact h.contributes j u p hu (by simpa using hp)

/-- Tokens on a directive line contribute nothing. -/
theorem skip {n : Nat} (h : Parted raw (i + n) tokens parts) (hn : i + n ≤ raw.length)
    (hon : ∀ j < n, OnDirective raw (i + j)) : ∃ parts', Parted raw i tokens parts' := by
  induction n generalizing i with
  | zero => exact ⟨parts, h⟩
  | succ n ih =>
    rw [show i + (n + 1) = i + 1 + n by omega] at h hn
    have hrest : ∀ j < n, OnDirective raw (i + 1 + j) := by
      intro j hj
      have hnext := hon (j + 1) (by omega)
      rwa [show i + (j + 1) = i + 1 + j by omega] at hnext
    obtain ⟨parts', hparts⟩ := ih h hn hrest
    have hline : OnDirective raw i := hon 0 (Nat.succ_pos n)
    exact ⟨_, hparts.cons (getElem?_eq_getElem (by omega))
      ⟨fun _ => rfl, fun hoff => absurd hline hoff, fun hoff => absurd hline hoff⟩⟩

end Parted

theorem dropWhile_continuesLine (raw : List Token) (i : Nat) :
    (raw.drop (i + 1)).dropWhile continuesLine = raw.drop (i + 1 + (lineAfter raw i).length) :=
  calc (raw.drop (i + 1)).dropWhile continuesLine
    _ = (lineAfter raw i ++ (raw.drop (i + 1)).dropWhile continuesLine).drop
        (lineAfter raw i).length := drop_left.symm
    _ = (raw.drop (i + 1)).drop (lineAfter raw i).length := by
        rw [lineAfter, takeWhile_append_dropWhile]
    _ = raw.drop (i + 1 + (lineAfter raw i).length) := drop_drop

/-- Preprocessing from token `i` on, with the macros that are live there. Every token in turn makes
its contribution; a directive takes its whole line. -/
theorem preprocessFrom_parted {doc : Document} {raw : List Token} (hutf : Text.IsUtf8 doc.bytes)
    (hwritten : ∀ t ∈ raw, t.Written doc) (hpairs : raw.Pairwise Token.Before) {fuel i : Nat}
    {macros : MacroTable} (hfuel : raw.length - i ≤ fuel)
    (hlive : ∀ name body, macros.body? name = some body ↔ LiveAt raw i name body)
    (hends : LinesEnd raw i) :
    ∃ pp parts, preprocessFrom doc fuel macros (raw.drop i) = .ok pp ∧
      Parted raw i pp.tokens parts := by
  induction fuel generalizing i macros with
  | zero =>
    rw [drop_eq_nil_of_le (by omega), preprocessFrom]
    exact ⟨_, [], rfl, .nil (by omega)⟩
  | succ fuel ih =>
    rcases Nat.lt_or_ge i raw.length with hi | hi
    · obtain ⟨t, ht⟩ : ∃ t, raw[i]? = some t := ⟨_, getElem?_eq_getElem hi⟩
      have hdrop : raw.drop i = t :: raw.drop (i + 1) := by
        rw [drop_eq_getElem_cons hi, (List.getElem?_eq_some_iff.mp ht).2]
      rw [hdrop, preprocessFrom]
      split_ifs with hhash
      · have hstarts : StartsDirective raw i := ⟨t, ht, by simpa using hhash⟩
        have hlength := length_lineAfter_le hi
        have hkind := includeKind_isOk t.span.start hutf
          (fun u hu => hwritten u (mem_of_mem_lineAfter (mem_of_mem_tail hu)))
          (hpairs.sublist ((tail_sublist _).trans (lineAfter_sublist raw i)))
        obtain ⟨effect, heffect, hmacros⟩ := directiveEffect_macros macros hkind
        have hbehind : ∀ name body, effect.macros.body? name = some body ↔
            LiveAt raw (i + 1 + (lineAfter raw i).length) name body := by
          intro name body
          rw [hmacros, MacroTable.body?_afterLine, hlive, liveAt_lineAfter hstarts]
        obtain ⟨after, parts, hafter, hparted⟩ := ih (by omega) hbehind hends.behindLine
        obtain ⟨parts', hparts'⟩ := Parted.skip (n := 1 + (lineAfter raw i).length)
          (by rwa [← Nat.add_assoc]) (by omega)
          fun j hj => ⟨i, by omega, hstarts, by omega⟩
        rw [dropWhile_continuesLine, ← lineAfter, heffect]
        simp only [bind, Except.bind, hafter]
        exact ⟨_, parts', rfl, hparts'⟩
      · have hstarts : ¬ StartsDirective raw i := by
          rintro ⟨u, hu, hlexeme, hstart⟩
          rw [ht] at hu
          obtain rfl := Option.some.inj hu
          simp [hlexeme, hstart] at hhash
        obtain ⟨after, parts, hafter, hparted⟩ := @ih (i + 1) macros (by omega)
          (fun name body => (hlive name body).trans (liveAt_succ hstarts name body).symm)
          (hends.succ hstarts)
        rw [hafter]
        exact ⟨_, _, rfl, hparted.cons ht (contributes_contribution hlive
          (fun t ht => (hwritten t ht).spelled) (hends.not_onDirective hstarts))⟩
    · rw [drop_eq_nil_of_le hi, preprocessFrom]
      exact ⟨_, [], rfl, .nil hi⟩

/-! ### The tokens of the program -/

/-- A token of the program is the token of the file, or stands for it as part of a macro. -/
theorem Contributes.of_mem {part : List Token} (h : Contributes raw i t part) {u : Token}
    (hu : u ∈ part) :
    u = t ∨ u.span = t.span ∧ ∃ k, ∃ v ∈ lineAfter raw k, u.lexeme = v.lexeme := by
  by_cases hon : OnDirective raw i
  · rw [h.skipped hon] at hu
    exact absurd hu not_mem_nil
  by_cases hlive : ∃ name body, t.lexeme = .ident name ∧ LiveAt raw i name body
  · obtain ⟨name, body, hname, hbody⟩ := hlive
    obtain ⟨out, -, -, hstands⟩ := h.replaced hon name body hname hbody
    obtain ⟨j, hj⟩ := mem_iff_getElem?.mp hu
    obtain ⟨active, o, -, -, hstand⟩ := hstands j u hj
    obtain ⟨name, body, ⟨k, -, -, hdef, -⟩, v, hv, hlexeme, -⟩ := hstand.spelled
    exact .inr ⟨hstand.span, k, v, mem_of_definition? hdef hv, hlexeme⟩
  · have hnone : ∀ name body, t.lexeme = .ident name → ¬ LiveAt raw i name body :=
      fun name body hname hbody => hlive ⟨name, body, hname, hbody⟩
    rw [h.kept hon hnone, mem_singleton] at hu
    exact .inl hu

/-- What a token contributes stands in its place, and is the end of the file only if the token
is. -/
theorem Contributes.span_eq {part : List Token} (h : Contributes raw i t part) {u : Token}
    (hu : u ∈ part) : u.span = t.span ∧ (u.lexeme = .eof → u = t) := by
  rcases h.of_mem hu with rfl | ⟨hspan, k, v, hv, hlexeme⟩
  · exact ⟨rfl, fun _ => rfl⟩
  · refine ⟨hspan, fun heof => ?_⟩
    have hcontinues : continuesLine v = true := mem_takeWhile_imp hv
    simp [continuesLine, Token.isEof, ← hlexeme, heof] at hcontinues

theorem OnDirective.ne_eof (h : OnDirective raw i) (ht : raw[i]? = some t) : t.lexeme ≠ .eof := by
  obtain ⟨k, hle, ⟨hash, hget, hlexeme, -⟩, hlt⟩ := h
  rcases Nat.eq_or_lt_of_le hle with rfl | hless
  · rw [ht] at hget
    rw [Option.some.inj hget, hlexeme]
    simp
  · have hcontinues := continuesLine_of_le hless hlt ht
    intro heof
    simp [continuesLine, Token.isEof, heof] at hcontinues

namespace Parted

variable {doc : Document} {raw tokens : List Token} {parts : List (List Token)}

theorem exists_getElem? (h : Parted raw 0 tokens parts) {part : List Token}
    (hpart : parts[i]? = some part) : ∃ t, raw[i]? = some t ∧ Contributes raw i t part := by
  have hi : i < raw.length := by
    have := (List.getElem?_eq_some_iff.mp hpart).1
    have := h.length_eq
    omega
  have ht := getElem?_eq_getElem hi
  have hcontributes := h.contributes i raw[i] part (by rwa [Nat.zero_add]) hpart
  rw [Nat.zero_add] at hcontributes
  exact ⟨raw[i], ht, hcontributes⟩

/-- Places never go back along the tokens of the program. -/
theorem pairwise (h : Parted raw 0 tokens parts) (htokens : Tokenized doc raw) :
    tokens.Pairwise fun t u => t.span.start ≤ u.span.start ∧ t.span.stop ≤ u.span.stop := by
  rw [h.tokens_eq, pairwise_flatten]
  constructor
  · intro part hpart
    obtain ⟨i, hi⟩ := mem_iff_getElem?.mp hpart
    obtain ⟨t, -, hcontributes⟩ := h.exists_getElem? hi
    refine pairwise_of_forall_mem_list fun u hu v hv => ?_
    rw [(hcontributes.span_eq hu).1, (hcontributes.span_eq hv).1]
    exact ⟨le_rfl, le_rfl⟩
  · rw [pairwise_iff_getElem]
    intro i j hi hj hij u hu v hv
    obtain ⟨t, ht, hcontributes⟩ := h.exists_getElem? (getElem?_eq_getElem hi)
    obtain ⟨t', ht', hcontributes'⟩ := h.exists_getElem? (getElem?_eq_getElem hj)
    rw [(hcontributes.span_eq hu).1, (hcontributes'.span_eq hv).1]
    have hle := htokens.stop_le_start hij ht ht'
    have hordered := (htokens.stands t (mem_of_getElem? ht)).ordered
    have hordered' := (htokens.stands t' (mem_of_getElem? ht')).ordered
    omega

/-- The end of the file is the last token of the program and no other. -/
theorem ended (h : Parted raw 0 tokens parts) (htokens : Tokenized doc raw) :
    ∃ front eof, tokens = front ++ [eof] ∧ eof.lexeme = .eof ∧ ∀ t ∈ front, t.lexeme ≠ .eof := by
  obtain ⟨eof, hlast, heof⟩ := htokens.ended
  obtain ⟨ts, rfl⟩ := getLast?_eq_some_iff.mp hlast
  have hlength := h.length_eq
  rw [length_append, length_singleton, Nat.sub_zero] at hlength
  rcases eq_nil_or_concat' parts with rfl | ⟨init, last, rfl⟩
  · cases hlength
  obtain hinit : init.length = ts.length := by simpa using hlength
  have hget : (ts ++ [eof])[init.length]? = some eof := by simp [hinit]
  have hlastPart : (init ++ [last])[init.length]? = some last := by simp
  obtain ⟨t, ht, hcontributes⟩ := h.exists_getElem? hlastPart
  rw [hget] at ht
  obtain rfl := Option.some.inj ht
  have hpart : last = [eof] := hcontributes.kept (fun hon => hon.ne_eof hget heof) (by simp [heof])
  refine ⟨init.flatten, eof, ?_, heof, fun t ht hteof => ?_⟩
  · rw [h.tokens_eq, hpart, flatten_append]
    rfl
  · obtain ⟨part, hmem, ht⟩ := mem_flatten.mp ht
    obtain ⟨i, hi⟩ := mem_iff_getElem?.mp hmem
    have hlt := (List.getElem?_eq_some_iff.mp hi).1
    have hpart' : (init ++ [last])[i]? = some part := by rwa [getElem?_append_left hlt]
    obtain ⟨u, hu, hcontributes'⟩ := h.exists_getElem? hpart'
    obtain rfl := (hcontributes'.span_eq ht).2 hteof
    obtain ⟨next, hnext⟩ : ∃ next, (ts ++ [eof])[i + 1]? = some next :=
      ⟨_, getElem?_eq_getElem (by simp; omega)⟩
    exact (htokens.resumes_getElem? hu hnext).notEof hteof

end Parted

/-- Whatever the directives of a document define, preprocessing comes to an end. The tokens of the
program are what the tokens of the file contribute, one after the other; their places never go
back, and the end of the file stands at the end and nowhere else. -/
theorem preprocess_in_parts {name text : String} {raw : List Token} {found : List Diagnostic}
    (h : tokenize (.ofText name text) = .ok (raw, found)) :
    ∃ (pp : Preprocessed) (parts : List (List Token)),
      preprocess (.ofText name text) raw = .ok pp ∧
      pp.tokens = parts.flatten ∧ parts.length = raw.length ∧
      (∀ i t part, raw[i]? = some t → parts[i]? = some part → Contributes raw i t part) ∧
      (pp.tokens.Pairwise fun t u => t.span.start ≤ u.span.start ∧ t.span.stop ≤ u.span.stop) ∧
      ∃ front eof, pp.tokens = front ++ [eof] ∧ eof.lexeme = .eof ∧
        ∀ t ∈ front, t.lexeme ≠ .eof := by
  have htokens := tokenized_of_tokenize h
  have hempty : ∀ name body, MacroTable.body? [] name = some body ↔ LiveAt raw 0 name body := by
    simp [MacroTable.body?, LiveAt]
  obtain ⟨pp, parts, hpp, hparted⟩ := @preprocessFrom_parted _ raw
    (Text.isUtf8_bytes text) ((Scan.runs_of_tokens h).written rfl) htokens.pairwise raw.length 0 []
    (by omega) hempty (by simp)
  refine ⟨pp, parts, hpp, hparted.tokens_eq, hparted.length_eq, fun i t part ht hpart => ?_,
    hparted.pairwise htokens, hparted.ended htokens⟩
  have hcontributes := hparted.contributes i t part (by rwa [Nat.zero_add]) hpart
  rwa [Nat.zero_add] at hcontributes

/-- Two macros that name each other, and a use of one of them at the start of a line. -/
def mutualMacros : String := "#define A B A\n#define B A\nA;"

/-- Its tokens. -/
def mutualTokens : List Token :=
  [⟨.symbol .hash, ⟨0, 1⟩, true, .file, none⟩, ⟨.ident "define", ⟨1, 7⟩, false, .file, none⟩,
    ⟨.ident "A", ⟨8, 9⟩, false, .file, none⟩, ⟨.ident "B", ⟨10, 11⟩, false, .file, none⟩,
    ⟨.ident "A", ⟨12, 13⟩, false, .file, none⟩, ⟨.symbol .hash, ⟨14, 15⟩, true, .file, none⟩,
    ⟨.ident "define", ⟨15, 21⟩, false, .file, none⟩, ⟨.ident "B", ⟨22, 23⟩, false, .file, none⟩,
    ⟨.ident "A", ⟨24, 25⟩, false, .file, none⟩, ⟨.ident "A", ⟨26, 27⟩, true, .file, none⟩,
    ⟨.symbol .semicolon, ⟨27, 28⟩, false, .file, none⟩, ⟨.eof, ⟨28, 28⟩, false, .file, none⟩]

/-- The use is replaced by what the two macros leave of each other. -/
theorem preprocess_in_parts_mutual :
    tokenize (.ofText "a" mutualMacros) = .ok (mutualTokens, []) ∧
      ∃ pp, preprocess (.ofText "a" mutualMacros) mutualTokens = .ok pp ∧
        ∃ part, part <:+: pp.tokens ∧
          MacroTable.Replaces (LiveAt mutualTokens 9) ⟨.ident "A", ⟨26, 27⟩, true, .file, none⟩
            part := by
  have htokenize : tokenize (.ofText "a" mutualMacros) = .ok (mutualTokens, []) := by
    decide +kernel
  have hoff : ¬ OnDirective mutualTokens 9 := by decide +kernel
  have hlive : LiveAt mutualTokens 9 "A" [⟨.ident "B", ⟨10, 11⟩, false, .file, none⟩,
      ⟨.ident "A", ⟨12, 13⟩, false, .file, none⟩] := by decide +kernel
  obtain ⟨pp, parts, hpp, htokens, hlength, hparts, -⟩ := preprocess_in_parts htokenize
  obtain ⟨part, hpart⟩ : ∃ part, parts[9]? = some part :=
    ⟨_, getElem?_eq_getElem (hlength ▸ by decide)⟩
  refine ⟨htokenize, pp, hpp, part, ?_, (hparts 9 _ part rfl hpart).replaced hoff "A" _ rfl hlive⟩
  rw [htokens]
  exact infix_of_mem_flatten (mem_of_getElem? hpart)

end Offload.Source
