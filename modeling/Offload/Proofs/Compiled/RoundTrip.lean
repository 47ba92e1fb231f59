import Offload.Proofs.Compiled.Reader
import Offload.Proofs.Compiled.Tokenize

/-!
# Reading typed constants back

A type and a value of it, written one after the other, are cut into tokens and read as the same type
and value. The text of either is described by its tokens in between: writing spells them, and
reading takes exactly them, whatever follows.
-/

namespace Offload.Compiled

open List

/-- A type that can be written: its names need no quotes, and the lengths of its arrays are 64-bit
integers. -/
def Ty.Writable : Ty → Prop
  | ptr pointee => pointee.Writable
  | array length element => length < 2 ^ 63 ∧ element.Writable
  | struct name => IsName name
  | _ => True

mutual

/-- A value that reads as itself at the type: an integer only where it is not taken for a truth
value or a floating-point number. -/
def Value.Canonical : Ty → Value → Prop
  | _, var name => IsName name
  | _, symbol name => IsName name
  | t, int v => t.isFloat = false ∧ t ≠ .int .w1 ∧ -2 ^ 63 ≤ v ∧ v < 2 ^ 63
  | _, float _ => False
  | _, array items => Value.CanonicalItems items
  | _, struct items => Value.CanonicalItems items
  | _, _ => True

def Value.CanonicalItems : List (Ty × Value) → Prop
  | [] => True
  | (t, v) :: rest => t.Writable ∧ v.Canonical t ∧ Value.CanonicalItems rest

end

/-- The tokens of a type. -/
def Ty.toks : Ty → List Tok
  | ptr void => [.word "ptr"]
  | ptr pointee => pointee.toks ++ [.mark '*']
  | array length element =>
    .mark '[' :: .int length :: .word "x" :: (element.toks ++ [.mark ']'])
  | struct name => [.value name]
  | t => [.word t.render]

mutual

/-- The tokens of a value. -/
def Value.toks : Value → List Tok
  | var name => [.value name]
  | symbol name => [.symbol name]
  | int v => [.int v]
  | array items => .mark '[' :: (Value.itemToks items ++ [.mark ']'])
  | struct items => .mark '\x7b' :: (Value.itemToks items ++ [.mark '\x7d'])
  | v => [.word v.render]

def Value.itemToks : List (Ty × Value) → List Tok
  | [] => []
  | [(t, v)] => t.toks ++ v.toks
  | (t, v) :: rest => t.toks ++ v.toks ++ .mark ',' :: Value.itemToks rest

end

/-! ### Writing spells the tokens -/

/-- The bytes are cut into the tokens, wherever they stand. -/
def Spells (bs : List UInt8) (toks : List Tok) : Prop :=
  ∀ place, ∃ ts finish, Lexes (fun _ => True) place bs ts finish ∧ ts.map Token.tok = toks

theorem spells_nil : Spells [] [] := by
  intro place
  exact ⟨[], place, .nil, rfl⟩

section

variable {rest : List UInt8} {more : List Tok} {tok : Tok} {b : UInt8}

theorem Spells.blank (h : Spells rest more) : Spells (Ascii.space :: rest) more := by
  intro place
  obtain ⟨ts, finish, hlexes, htoks⟩ := h ⟨place.line, place.column + 1⟩
  exact ⟨ts, finish, .blank (by decide) (by decide) hlexes, htoks⟩

theorem Spells.token (h : Spells rest more) (body : List UInt8)
    (hblank : Ascii.isBlank b = false) (hsemicolon : b ≠ Ascii.semicolon)
    (hscan : scanTok b (body ++ rest) = .ok (tok, body.length + 1)) :
    Spells (b :: (body ++ rest)) (tok :: more) := by
  intro place
  obtain ⟨ts, finish, hlexes, htoks⟩ := h ⟨place.line, place.column + (body.length + 1)⟩
  exact ⟨_, finish, .token hblank hsemicolon hscan trivial hlexes, by rw [map_cons, htoks]⟩

theorem Spells.mark (h : Spells rest more) (hmark : isMark b = true) :
    Spells (b :: rest) (.mark (Ascii.latin1 b) :: more) := by
  obtain ⟨⟨hblank, hsemicolon, -⟩, -⟩ := (others_of_start b).1 hmark
  exact h.token [] hblank hsemicolon (scanTok_of_isMark hmark _)

theorem IsToken.spells {w : String} (h : IsToken w tok) (hrest : Spells rest more)
    (hends : ∀ b ∈ rest.head?, endsToken b = true) :
    Spells (Text.bytes w ++ rest) (tok :: more) := by
  obtain ⟨b, body, hw, hblank, hsemicolon, hscan⟩ := h.scanTok_append
  rw [hw, cons_append]
  exact hrest.token body hblank hsemicolon (hscan rest hends)

end

theorem endsToken_head {rest : List UInt8} (h : endsToken b = true) :
    ∀ c ∈ (b :: rest).head?, endsToken c = true := by
  simpa using h

/-- A pointer is written with a star, but for the untyped one. -/
theorem Ty.render_ptr {pointee : Ty} (h : pointee ≠ .void) :
    (Ty.ptr pointee).render = pointee.render ++ "*" ∧
      (Ty.ptr pointee).toks = pointee.toks ++ [.mark '*'] := by
  cases pointee <;> first | exact absurd rfl h | exact ⟨rfl, rfl⟩

theorem Ty.toks_pos (t : Ty) : 0 < t.toks.length := by
  fun_cases Ty.toks t <;> simp

/-- The text of a type spells its tokens. -/
theorem Ty.spells_render {t : Ty} (h : t.Writable) {rest : List UInt8} {more : List Tok}
    (hrest : Spells rest more) (hends : ∀ b ∈ rest.head?, endsToken b = true) :
    Spells (Text.bytes t.render ++ rest) (t.toks ++ more) := by
  induction t generalizing rest more with
  | void | float | double => exact (isToken_word (by decide)).spells hrest hends
  | int w => exact (isToken_word (by cases w <;> decide)).spells hrest hends
  | ptr pointee ih =>
    by_cases hvoid : pointee = .void
    · subst hvoid
      exact (isToken_word (w := "ptr") (by decide)).spells hrest hends
    · obtain ⟨hrender, htoks⟩ := Ty.render_ptr hvoid
      rw [hrender, htoks, Text.bytes_append, append_assoc, append_assoc]
      exact ih h (hrest.mark (b := 0x2A) (by decide)) (endsToken_head (by decide))
  | array length element ih =>
    obtain ⟨hlength, helement⟩ := h
    have hclose := ih helement (hrest.mark (b := 0x5D) (by decide)) (endsToken_head (by decide))
    have htimes := (isToken_word (w := "x") (by decide)).spells hclose.blank
      (endsToken_head (by decide))
    have hcount := (isToken_nat hlength).spells htimes.blank (endsToken_head (by decide))
    simp only [Ty.render, Ty.toks, Text.bytes_append, append_assoc, cons_append, nil_append]
    exact hcount.mark (b := 0x5B) (by decide)
  | struct name => exact (isToken_value h).spells hrest hends

mutual

/-- The text of a value spells its tokens. -/
theorem Value.spells_render {t : Ty} : ∀ {v : Value}, v.Canonical t →
    ∀ {rest : List UInt8} {more : List Tok}, Spells rest more →
      (∀ b ∈ rest.head?, endsToken b = true) → Spells (Text.bytes v.render ++ rest) (v.toks ++ more)
  | .var name, h, rest, more, hrest, hends => (isToken_value h).spells hrest hends
  | .symbol name, h, rest, more, hrest, hends => (isToken_symbol h).spells hrest hends
  | .int v, h, rest, more, hrest, hends => (isToken_int h.2.2.1 h.2.2.2).spells hrest hends
  | .float v, h, rest, more, hrest, hends => h.elim
  | .bool b, h, rest, more, hrest, hends =>
    (isToken_word (by cases b <;> decide)).spells hrest hends
  | .null, h, rest, more, hrest, hends => (isToken_word (by decide)).spells hrest hends
  | .undef, h, rest, more, hrest, hends => (isToken_word (by decide)).spells hrest hends
  | .zero, h, rest, more, hrest, hends => (isToken_word (by decide)).spells hrest hends
  | .array items, h, rest, more, hrest, hends => by
    have hitems := Value.spells_renderItems h (hrest.mark (b := 0x5D) (by decide))
      (endsToken_head (by decide))
    simp only [Value.render, Value.toks, Text.bytes_append, append_assoc, cons_append, nil_append]
    exact hitems.mark (b := 0x5B) (by decide)
  | .struct items, h, rest, more, hrest, hends => by
    have hitems := Value.spells_renderItems h (hrest.mark (b := 0x7D) (by decide)).blank
      (endsToken_head (by decide))
    simp only [Value.render, Value.toks, Text.bytes_append, append_assoc, cons_append, nil_append]
    exact hitems.blank.mark (b := 0x7B) (by decide)

theorem Value.spells_renderItems : ∀ {items : List (Ty × Value)}, Value.CanonicalItems items →
    ∀ {rest : List UInt8} {more : List Tok}, Spells rest more →
      (∀ b ∈ rest.head?, endsToken b = true) →
        Spells (Text.bytes (Value.renderItems items) ++ rest) (Value.itemToks items ++ more)
  | [], _, rest, more, hrest, _ => hrest
  | [(t, v)], h, rest, more, hrest, hends => by
    have hvalue := (Value.spells_render h.2.1 hrest hends).blank
    simp only [Value.renderItems, Value.itemToks, Text.bytes_append, append_assoc]
    exact t.spells_render h.1 hvalue (endsToken_head (by decide))
  | (t, v) :: next :: items, h, rest, more, hrest, hends => by
    have hitems := (Value.spells_renderItems h.2.2 hrest hends).blank.mark (b := 0x2C) (by decide)
    have hvalue := (Value.spells_render h.2.1 hitems (endsToken_head (by decide))).blank
    simp only [Value.renderItems, Value.itemToks, Text.bytes_append, append_assoc]
    exact t.spells_render h.1 hvalue (endsToken_head (by decide))

end

/-! ### Reading takes the tokens -/

/-- The tokens that are left, without their places. -/
def Reader.toks (r : Reader) : List Tok := r.rest.map Token.tok

namespace Reader

variable {r : Reader} {t : Tok} {toks more : List Tok}

theorem peek_of_toks (h : r.toks = t :: more) : r.peek = t := by
  obtain ⟨u, rest, hrest, rfl, -⟩ := map_eq_cons_iff.mp h
  exact peek_of_cons hrest

theorem toks_advanceBy (n : Nat) (r : Reader) : (r.advanceBy n).toks = r.toks.drop n := by
  rw [toks, toks, rest_advanceBy, map_drop]

theorem advanceBy_succ (n : Nat) (r : Reader) : r.advanceBy (n + 1) = (r.advanceBy n).advance :=
  advanceBy_add n 1 r

theorem toks_advance (h : r.toks = t :: more) : r.advance.toks = more := by
  rw [toks, rest_advance, map_tail, ← toks, h, tail_cons]

theorem toks_advanceBy_length (h : r.toks = toks ++ more) :
    (r.advanceBy toks.length).toks = more := by
  rw [toks_advanceBy, h, drop_left]

theorem length_rest (h : r.toks = toks) : r.rest.length = toks.length := by
  rw [← h, Reader.toks, length_map]

end Reader

namespace Read

variable {r r' : Reader} {t a : Ty} {n fuel : Nat} {more : List Tok}

theorem gives_pointers_stop (h : r.toks = tok :: more) (hstar : tok ≠ .mark '*')
    (hspace : tok ≠ .word "addrspace") : Gives (pointers (n + 1) t) r t r := by
  simp only [pointers, gives_bind, gives_atWord, gives_peekAt]
  refine ⟨_, _, ⟨rfl, rfl⟩, _, _, ⟨rfl, rfl⟩, ?_⟩
  simp [Reader.peek_of_toks h, hstar, hspace]

theorem gives_pointers_star (hstar : r.peek = .mark '*')
    (h : Gives (pointers n (.ptr t)) r.advance a r') : Gives (pointers (n + 1) t) r a r' := by
  simp only [pointers, gives_bind, gives_atWord, gives_peekAt]
  refine ⟨_, _, ⟨rfl, rfl⟩, _, _, ⟨rfl, rfl⟩, ?_⟩
  simp [hstar, h]

theorem gives_pointersAfter :
    Gives (pointersAfter t) r a r' ↔ Gives (pointers (r.rest.length + 1) t) r a r' := by
  simp [pointersAfter]

theorem gives_arrayLength {length : Nat} (h : r.peek = .int length) :
    Gives arrayLength r length r.advance := by
  simp [arrayLength, h]

/-- There is always enough fuel for the stars behind a type. -/
theorem exists_pointers {m : Reader} (h : m.toks = more) :
    ∃ n, more.length < n ∧
      ∀ {t a r'}, Gives (pointers n t) m a r' → Gives (pointersAfter t) m a r' := by
  refine ⟨m.rest.length + 1, ?_, gives_pointersAfter.mpr⟩
  rw [Reader.length_rest h]
  exact Nat.lt_succ_self _

/-- A token that names a type is read as that type, stars aside. -/
theorem gives_typeWithin_single (ht : t ∈ [.void, .float, .double, .untypedPtr] ∨
      (∃ w, t = .int w) ∨ ∃ name, t = .struct name)
    (hfuel : t.toks.length ≤ fuel) (h : r.toks = t.toks ++ more) :
    ∃ n, more.length < n ∧ ∀ a r', Gives (pointers n t) (r.advanceBy t.toks.length) a r' →
      Gives (typeWithin fuel) r a r' := by
  simp only [mem_cons, not_mem_nil, or_false] at ht
  rcases ht with (rfl | rfl | rfl | rfl) | ⟨w, rfl⟩ | ⟨name, rfl⟩
  on_goal 5 => cases w
  all_goals
    obtain ⟨fuel, rfl⟩ := exists_eq_succ hfuel
    obtain ⟨n, hn, hafter⟩ := exists_pointers (Reader.toks_advance h)
    refine ⟨n, hn, fun a r' hgives => ?_⟩
    rw [typeWithin, gives_bind]
    refine ⟨_, _, gives_peek.mpr ⟨rfl, rfl⟩, ?_⟩
    rw [Reader.peek_of_toks h]
    exact gives_bind.mpr ⟨(), _, gives_advance.mpr rfl, hafter hgives⟩

/-- A type is read up to its last token; stars that follow are read on to it. -/
theorem gives_typeWithin (hfuel : t.toks.length ≤ fuel) (h : r.toks = t.toks ++ more) :
    ∃ n, more.length < n ∧ ∀ a r', Gives (pointers n t) (r.advanceBy t.toks.length) a r' →
      Gives (typeWithin fuel) r a r' := by
  induction t generalizing fuel r more with
  | void | float | double => exact gives_typeWithin_single (.inl (by simp)) hfuel h
  | int w => exact gives_typeWithin_single (.inr (.inl ⟨w, rfl⟩)) hfuel h
  | ptr pointee ih =>
    by_cases hvoid : pointee = .void
    · subst hvoid
      exact gives_typeWithin_single (.inl (by simp [Ty.untypedPtr])) hfuel h
    · rw [(Ty.render_ptr hvoid).2] at hfuel h ⊢
      rw [append_assoc, singleton_append] at h
      rw [length_append, length_singleton] at hfuel ⊢
      have hless : pointee.toks.length ≤ fuel := by omega
      obtain ⟨n, hn, hread⟩ := ih hless h
      rw [length_cons] at hn
      obtain ⟨n, rfl⟩ := exists_eq_succ hn
      refine ⟨n, Nat.lt_of_succ_lt_succ hn, fun a r' hgives => hread a r' ?_⟩
      rw [Reader.advanceBy_succ] at hgives
      exact gives_pointers_star (Reader.peek_of_toks (Reader.toks_advanceBy_length h)) hgives
  | array length element ih =>
    obtain ⟨fuel, rfl⟩ := exists_eq_succ hfuel
    simp only [Ty.toks, cons_append, append_assoc, nil_append, length_cons,
      length_append, length_nil, Nat.zero_add] at h hfuel ⊢
    have hlength := Reader.toks_advance h
    have htimes := Reader.toks_advance hlength
    have helement := Reader.toks_advance htimes
    have hless : element.toks.length ≤ fuel := by omega
    obtain ⟨k, hk, hread⟩ := ih hless helement
    have hclose := Reader.toks_advanceBy_length helement
    obtain ⟨n, hn, hafter⟩ := exists_pointers (Reader.toks_advance hclose)
    refine ⟨n, hn, fun a r' hgives => ?_⟩
    rw [typeWithin, gives_bind]
    refine ⟨_, _, gives_peek.mpr ⟨rfl, rfl⟩, ?_⟩
    rw [Reader.peek_of_toks h]
    obtain ⟨k, rfl⟩ := exists_eq_succ hk
    simp only [gives_bind]
    have hstop : Gives (pointers (k + 1) element) _ element _ :=
      gives_pointers_stop hclose (by decide) (by decide)
    refine ⟨(), _, gives_advance.mpr rfl, _, _, gives_arrayLength (Reader.peek_of_toks hlength), (),
      _, gives_expectWord.mpr ⟨Reader.peek_of_toks htimes, rfl⟩, _, _, hread element _ hstop, (), _,
      gives_expectMark.mpr ⟨Reader.peek_of_toks hclose, rfl⟩, hafter ?_⟩
    rw [← Reader.advanceBy_succ]
    exact hgives
  | struct name => exact gives_typeWithin_single (.inr (.inr ⟨name, rfl⟩)) hfuel h

/-- A token that a value can start with. -/
def startsValue : Tok → Bool
  | .value _ | .symbol _ | .int _ => true
  | .word w => ["true", "false", "null", "undef", "zeroinitializer"].contains w
  | .mark c => c == '[' || c == '\x7b'
  | _ => false

theorem exists_startsValue {v : Value} (h : v.Canonical t) :
    ∃ tok rest, v.toks = tok :: rest ∧ startsValue tok = true := by
  cases v with
  | float v => exact h.elim
  | bool b => cases b <;> exact ⟨_, _, rfl, rfl⟩
  | _ => exact ⟨_, _, rfl, rfl⟩

/-- The token after a type that ends it. -/
theorem gives_type (h : r.toks = t.toks ++ tok :: more) (hstar : tok ≠ .mark '*')
    (hspace : tok ≠ .word "addrspace") : Gives type r t (r.advanceBy t.toks.length) := by
  have hlength := Reader.length_rest h
  rw [length_append] at hlength
  have hless : t.toks.length ≤ 2 * r.rest.length + 2 := by omega
  obtain ⟨n, hn, hread⟩ := gives_typeWithin hless h
  obtain ⟨n, rfl⟩ := exists_eq_succ hn
  have hstop := gives_pointers_stop (t := t) (n := n) (Reader.toks_advanceBy_length h) hstar hspace
  simpa [type, nesting] using hread _ _ hstop

theorem not_attribute (h : startsValue tok = true) :
    isWordIn groupAttributes tok = false ∧ isWordIn valueAttributes tok = false ∧
      tok ≠ .word "align" ∧ tok ≠ .word "addrspace" ∧ tok ≠ .mark '*' := by
  cases tok with
  | word w =>
    simp only [startsValue, contains_eq_mem, mem_cons, not_mem_nil, or_false,
      decide_eq_true_eq] at h
    rcases h with rfl | rfl | rfl | rfl | rfl <;> decide
  | mark c =>
    simp only [startsValue, Bool.or_eq_true, beq_iff_eq] at h
    rcases h with rfl | rfl <;> decide
  | _ => simp_all [startsValue, isWordIn]

theorem gives_repeatWhile_done {step : Read Bool} (h : Gives step r false r') :
    Gives (repeatWhile step) r () r' := by
  simp only [repeatWhile, repeatWhile.rounds, gives_bind, gives_get]
  exact ⟨_, _, ⟨rfl, rfl⟩, false, r', h, by simp⟩

/-- No attribute stands before a value. -/
theorem gives_skipValueAttributes (h : r.toks = tok :: more)
    (hstarts : startsValue tok = true) : Gives skipValueAttributes r () r := by
  obtain ⟨hgroup, hvalue, halign, -⟩ := not_attribute hstarts
  have hpeek := Reader.peek_of_toks h
  apply gives_repeatWhile_done
  simp [hpeek, hgroup, hvalue, halign]

theorem gives_typedWithin {v : Value} (hv : v.Canonical t)
    (hfuel : 3 * (t.toks.length + v.toks.length) ≤ fuel) (h : r.toks = t.toks ++ (v.toks ++ more))
    (hvalue : ∀ {k : Nat} {m : Reader}, 3 * v.toks.length ≤ k → m.toks = v.toks ++ more →
      Gives (valueWithin k t) m v (m.advanceBy v.toks.length)) :
    Gives (typedWithin fuel) r (t, v) (r.advanceBy (t.toks.length + v.toks.length)) := by
  have hpos := t.toks_pos
  obtain ⟨fuel, rfl⟩ : ∃ k, fuel = k + 1 := ⟨fuel - 1, by omega⟩
  obtain ⟨tok, rest, htoks, hstarts⟩ := exists_startsValue hv
  obtain ⟨-, -, -, hspace, hstar⟩ := not_attribute hstarts
  have hnext := Reader.toks_advanceBy_length h
  have htype : Gives type r t (r.advanceBy t.toks.length) := by
    rw [htoks, cons_append] at h
    exact gives_type h hstar hspace
  have hskip : Gives skipValueAttributes (r.advanceBy t.toks.length) ()
      (r.advanceBy t.toks.length) := by
    rw [htoks, cons_append] at hnext
    exact gives_skipValueAttributes hnext hstarts
  rw [Reader.advanceBy_add]
  simp only [typedWithin, gives_bind]
  exact ⟨_, _, htype, (), _, hskip, _, _, hvalue (by omega) hnext, gives_pure.mpr ⟨rfl, rfl⟩⟩

theorem gives_valueWithin_simple {v : Value} (h : r.toks = tok :: more)
    (hfuel : 3 * 1 ≤ fuel) (hsimple : simpleValue? t tok = some v) :
    Gives (valueWithin fuel t) r v r.advance := by
  obtain ⟨fuel, rfl⟩ := exists_eq_succ hfuel
  simp only [valueWithin, gives_bind]
  refine ⟨_, _, gives_peek.mpr ⟨rfl, rfl⟩, ?_⟩
  rw [Reader.peek_of_toks h, hsimple]
  simp

theorem exists_typeToks (t : Ty) :
    ∃ tok rest, t.toks = tok :: rest ∧ tok ≠ .mark ']' ∧ tok ≠ .mark '\x7d' := by
  induction t with
  | ptr pointee ih =>
    by_cases hvoid : pointee = .void
    · subst hvoid
      exact ⟨_, _, rfl, by decide, by decide⟩
    · obtain ⟨tok, rest, htoks, hne⟩ := ih
      exact ⟨tok, _, by rw [(Ty.render_ptr hvoid).2, htoks, cons_append], hne⟩
  | array length element ih => exact ⟨_, _, rfl, by decide, by decide⟩
  | _ => exact ⟨_, _, rfl, by simp, by simp⟩

theorem exists_itemToks (t : Ty) (v : Value) (items : List (Ty × Value)) :
    ∃ tok rest, Value.itemToks ((t, v) :: items) = tok :: rest ∧ tok ≠ .mark ']' ∧
      tok ≠ .mark '\x7d' := by
  obtain ⟨tok, rest, htoks, hne⟩ := exists_typeToks t
  cases items with
  | nil => exact ⟨tok, rest ++ v.toks, by rw [Value.itemToks, htoks, cons_append], hne⟩
  | cons next items =>
    exact ⟨tok, rest ++ v.toks ++ .mark ',' :: Value.itemToks (next :: items),
      by simp only [Value.itemToks, htoks, cons_append], hne⟩

/-- A list of items is empty, or it starts with a type. -/
theorem gives_itemsWithin {items : List (Ty × Value)} {close : Char}
    (hclose : close = ']' ∨ close = '\x7d')
    (h : r.toks = Value.itemToks items ++ .mark close :: more)
    (hfuel : 3 * (Value.itemToks items).length + 1 ≤ fuel)
    (hitems : ∀ {fuel n : Nat} {m : Reader}, items ≠ [] → 3 * (Value.itemToks items).length ≤ fuel →
      m.rest.length < n → m.toks = Value.itemToks items ++ .mark close :: more →
      Gives (listUntil.items close (typedWithin fuel) n) m items
        (m.advanceBy ((Value.itemToks items).length + 1))) :
    Gives (itemsWithin fuel close) r items (r.advanceBy ((Value.itemToks items).length + 1)) := by
  obtain ⟨fuel, rfl⟩ := exists_eq_succ hfuel
  simp only [itemsWithin, gives_bind]
  cases items with
  | nil =>
    refine ⟨true, _, gives_eatMark.mpr (.inl ⟨Reader.peek_of_toks h, rfl, rfl⟩), ?_⟩
    rw [if_pos rfl]
    exact gives_pure.mpr ⟨rfl, rfl⟩
  | cons item items =>
    obtain ⟨tok, rest, htoks, hbracket, hbrace⟩ := exists_itemToks item.1 item.2 items
    have hpeek : r.peek = tok := by
      rw [htoks] at h
      exact Reader.peek_of_toks h
    have hne : r.peek ≠ .mark close := by
      rw [hpeek]
      rcases hclose with rfl | rfl
      · exact hbracket
      · exact hbrace
    refine ⟨false, _, gives_eatMark.mpr (.inr ⟨hne, rfl, rfl⟩), ?_⟩
    rw [if_neg Bool.false_ne_true]
    simp only [listUntil, gives_bind, gives_get]
    exact ⟨_, _, ⟨rfl, rfl⟩, hitems (by simp) (by omega) (Nat.lt_succ_self _) h⟩

mutual

/-- A value is read from its tokens, whatever follows them. -/
theorem gives_valueWithin : ∀ {v : Value} {t : Ty} {fuel : Nat} {r : Reader} {more : List Tok},
    v.Canonical t → 3 * v.toks.length ≤ fuel → r.toks = v.toks ++ more →
      Gives (valueWithin fuel t) r v (r.advanceBy v.toks.length)
  | .var name, t, fuel, r, more, _, hfuel, hr => gives_valueWithin_simple hr hfuel rfl
  | .symbol name, t, fuel, r, more, _, hfuel, hr => gives_valueWithin_simple hr hfuel rfl
  | .int v, t, fuel, r, more, hv, hfuel, hr =>
    gives_valueWithin_simple hr hfuel (by simp [simpleValue?, integerAt, hv.1, hv.2.1])
  | .float v, t, fuel, r, more, hv, hfuel, hr => hv.elim
  | .bool b, t, fuel, r, more, _, hfuel, hr =>
    gives_valueWithin_simple hr hfuel (by cases b <;> rfl)
  | .null, t, fuel, r, more, _, hfuel, hr => gives_valueWithin_simple hr hfuel rfl
  | .undef, t, fuel, r, more, _, hfuel, hr => gives_valueWithin_simple hr hfuel rfl
  | .zero, t, fuel, r, more, _, hfuel, hr => gives_valueWithin_simple hr hfuel rfl
  | .array items, t, fuel, r, more, hv, hfuel, hr => by
    obtain ⟨fuel, rfl⟩ := exists_eq_succ hfuel
    simp only [Value.toks, cons_append, append_assoc, nil_append, length_cons,
      length_append, length_nil, Nat.zero_add] at hr hfuel ⊢
    have hitems : Gives (itemsWithin fuel ']') r.advance items _ :=
      gives_itemsWithin (.inl rfl) (Reader.toks_advance hr) (by omega)
        fun hne hk hn hm => gives_items (.inl rfl) hv hne hk hn hm
    simp only [valueWithin, gives_bind]
    refine ⟨_, _, gives_peek.mpr ⟨rfl, rfl⟩, ?_⟩
    rw [Reader.peek_of_toks hr]
    simp only [simpleValue?, gives_bind]
    exact ⟨(), _, gives_advance.mpr rfl, _, _, hitems, gives_pure.mpr ⟨rfl, rfl⟩⟩
  | .struct items, t, fuel, r, more, hv, hfuel, hr => by
    obtain ⟨fuel, rfl⟩ := exists_eq_succ hfuel
    simp only [Value.toks, cons_append, append_assoc, nil_append, length_cons,
      length_append, length_nil, Nat.zero_add] at hr hfuel ⊢
    have hitems : Gives (itemsWithin fuel '\x7d') r.advance items _ :=
      gives_itemsWithin (.inr rfl) (Reader.toks_advance hr) (by omega)
        fun hne hk hn hm => gives_items (.inr rfl) hv hne hk hn hm
    simp only [valueWithin, gives_bind]
    refine ⟨_, _, gives_peek.mpr ⟨rfl, rfl⟩, ?_⟩
    rw [Reader.peek_of_toks hr]
    simp only [simpleValue?, gives_bind]
    exact ⟨(), _, gives_advance.mpr rfl, _, _, hitems, gives_pure.mpr ⟨rfl, rfl⟩⟩

/-- Items are read up to the mark behind them. -/
theorem gives_items : ∀ {items : List (Ty × Value)} {close : Char} {fuel n : Nat} {r : Reader}
    {more : List Tok}, close = ']' ∨ close = '\x7d' → Value.CanonicalItems items → items ≠ [] →
      3 * (Value.itemToks items).length ≤ fuel → r.rest.length < n →
      r.toks = Value.itemToks items ++ .mark close :: more →
      Gives (listUntil.items close (typedWithin fuel) n) r items
        (r.advanceBy ((Value.itemToks items).length + 1))
  | [], _, _, _, _, _, _, _, hne, _, _, _ => absurd rfl hne
  | [(t, v)], close, fuel, n, r, more, _, hc, _, hfuel, hn, hr => by
    obtain ⟨n, rfl⟩ := exists_eq_succ hn
    simp only [Value.itemToks, append_assoc, length_append] at hr hfuel ⊢
    have hitem := gives_typedWithin hc.2.1 hfuel hr fun hk hm => gives_valueWithin hc.2.1 hk hm
    have hclose := Reader.toks_advanceBy_length (Reader.toks_advanceBy_length hr)
    rw [← Reader.advanceBy_add] at hclose
    rw [Reader.advanceBy_succ]
    simp only [listUntil.items, gives_bind]
    refine ⟨_, _, hitem, true, _,
      gives_eatMark.mpr (.inl ⟨Reader.peek_of_toks hclose, rfl, rfl⟩), ?_⟩
    rw [if_pos rfl]
    exact gives_pure.mpr ⟨rfl, rfl⟩
  | (t, v) :: next :: items, close, fuel, n, r, more, hends, hc, _, hfuel, hn, hr => by
    obtain ⟨n, rfl⟩ := exists_eq_succ hn
    have hlength := Reader.length_rest hr
    simp only [Value.itemToks, append_assoc, cons_append, length_append,
      length_cons] at hr hfuel hlength ⊢
    have hless : 3 * (t.toks.length + v.toks.length) ≤ fuel := by omega
    have hitem := gives_typedWithin hc.2.1 hless hr fun hk hm => gives_valueWithin hc.2.1 hk hm
    have hcomma := Reader.toks_advanceBy_length (Reader.toks_advanceBy_length hr)
    rw [← Reader.advanceBy_add] at hcomma
    have hnext := Reader.toks_advance hcomma
    have hleft := Reader.length_rest hnext
    simp only [length_append, length_cons] at hleft
    have hless' : 3 * (Value.itemToks (next :: items)).length ≤ fuel := by omega
    have hothers := gives_items (n := n) hends hc.2.2 (by simp) hless' (by omega) hnext
    have hne : Tok.mark ',' ≠ .mark close := by
      rcases hends with rfl | rfl <;> decide
    simp only [listUntil.items, gives_bind]
    refine ⟨_, _, hitem, false, _, gives_eatMark.mpr (.inr ⟨?_, rfl, rfl⟩), ?_⟩
    · rwa [Reader.peek_of_toks hcomma]
    rw [if_neg Bool.false_ne_true]
    simp only [gives_bind]
    refine ⟨(), _, gives_expectMark.mpr ⟨Reader.peek_of_toks hcomma, rfl⟩, _, _, hothers,
      gives_pure.mpr ⟨rfl, ?_⟩⟩
    rw [Nat.add_assoc, Nat.add_assoc, ← Nat.add_assoc, Reader.advanceBy_add]
    rfl

end

/-- Reading undoes writing: the text of a type and of a value that is canonical at it is cut into
tokens, and wherever these tokens stand, reading a typed value takes them and no others and gives
the same type and value. -/
theorem typedValue_undoes_render {t : Ty} {v : Value} (ht : t.Writable) (hv : v.Canonical t) :
    ∃ text, tokenizeModule (t.render ++ " " ++ v.render) = .ok text ∧
      ∀ (r : Reader) (more : List Token), r.rest = text.tokens ++ more →
        Gives typedValue r (t, v) (r.advanceBy text.tokens.length) ∧
          (r.advanceBy text.tokens.length).rest = more := by
  have hvalue := (Value.spells_render hv spells_nil (by simp)).blank
  obtain ⟨ts, finish, hlexes, htoks⟩ :=
    t.spells_render ht hvalue (endsToken_head (by decide)) ⟨1, 1⟩
  rw [append_nil] at hlexes htoks
  have hbytes : Text.bytes (t.render ++ " " ++ v.render) =
      Text.bytes t.render ++ Ascii.space :: Text.bytes v.render := by
    rw [Text.bytes_append, Text.bytes_append, append_assoc]
    rfl
  refine ⟨⟨ts, finish⟩, ?_, fun r more hrest => ⟨?_, ?_⟩⟩
  · rw [tokenizeModule, hbytes]
    exact hlexes.tokensFrom (Nat.lt_succ_self _)
  · have hr : r.toks = t.toks ++ (v.toks ++ more.map Token.tok) := by
      rw [Reader.toks, hrest, map_append, htoks, append_assoc]
    have hlength : ts.length = t.toks.length + v.toks.length := by
      rw [← length_map (f := Token.tok), htoks, length_append]
    have hless : 3 * (t.toks.length + v.toks.length) ≤ 3 * r.rest.length + 3 := by
      rw [hrest, length_append, hlength]
      omega
    rw [hlength]
    simp only [typedValue, gives_bind, gives_get]
    exact ⟨_, _, ⟨rfl, rfl⟩, gives_typedWithin hv hless hr fun hk hm => gives_valueWithin hv hk hm⟩
  · rw [Reader.rest_advanceBy, hrest, drop_left]

/-- A struct with an integer at the end of its range, pointers of both kinds and an array. -/
def mixedStruct : Value :=
  .struct [(.int .w64, .int (-9223372036854775808)),
    (.ptr (.array 2 (.ptr .void)), .symbol "g-x"),
    (.array 1 (.ptr (.int .w8)), .array [(.ptr (.int .w8), .null)]), (.int .w1, .bool true)]

theorem typedValue_undoes_render_mixed :
    (Ty.struct "S.1").Writable ∧ mixedStruct.Canonical (.struct "S.1") ∧
      ∃ text, tokenizeModule ("%S.1 \x7b i64 -9223372036854775808, [2 x ptr]* @g-x, " ++
          "[1 x i8*] [i8* null], i1 true \x7d") = .ok text ∧
        Gives typedValue (.ofText "m" text) (.struct "S.1", mixedStruct)
          (Reader.advanceBy text.tokens.length (.ofText "m" text)) := by
  have ht : (Ty.struct "S.1").Writable := (by decide : IsName "S.1")
  have hg : IsName "g-x" := by decide
  have hv : mixedStruct.Canonical (.struct "S.1") := by
    simp [mixedStruct, Value.Canonical, Value.CanonicalItems, Ty.Writable, Ty.isFloat, hg]
  obtain ⟨text, htext, hread⟩ := typedValue_undoes_render ht hv
  exact ⟨ht, hv, text, htext, (hread (.ofText "m" text) [] (append_nil _).symm).1⟩

end Read

end Offload.Compiled
