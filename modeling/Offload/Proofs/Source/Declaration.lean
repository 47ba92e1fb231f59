import Offload.Proofs.Source.Statement
import Offload.Source.Declaration

/-!
# Declarations in the token stream

Declarations stand one after the other: each starts where the ones before it have ended, and the
cursor is outside of all parentheses there. A function reaches from its first token to its last
one, with a template head before it if it has one; a linkage specification starts with two tokens
of its own, ahead of all that it holds.
-/

namespace Offload.Source

open List

namespace TokenStream

variable {ts : TokenStream} {i j start stop fuel : Nat}

/-! ### The head of a record -/

theorem find?_le {p : Lexeme → Bool} {k : Nat} (hstart : start ≤ k) (hstop : k < stop)
    (hp : p (ts.lexeme k) = true) : ∃ x, ts.find? start stop p = some x ∧ start ≤ x ∧ x ≤ k := by
  have hmem : k ∈ List.range' start (stop - start) := by
    rw [mem_range'_1]
    omega
  obtain ⟨x, hx⟩ : ∃ x, ts.find? start stop p = some x := by
    rw [← Option.isSome_iff_exists, find?, find?_isSome]
    exact ⟨k, hmem, hp⟩
  refine ⟨x, hx, ?_⟩
  have hxmem := mem_range'_1.mp (mem_of_find?_eq_some hx)
  refine ⟨hxmem.1, ?_⟩
  by_contra hlt
  -- All that stands before the first hit fails the test.
  obtain ⟨-, before, after, heq, hbefore⟩ := find?_eq_some_iff_append.mp hx
  have hsorted : (List.range' start (stop - start)).Pairwise (· < ·) := pairwise_lt_range'
  rw [heq] at hmem hsorted
  rcases mem_append.mp hmem with hk | hk
  · simpa [hp] using hbefore k hk
  · rcases mem_cons.mp hk with rfl | hk
    · omega
    · have := (pairwise_cons.mp (pairwise_append.mp hsorted).2.1).1 k hk
      omega

/-- A brace at `brace`, and no parenthesis on the way there. -/
structure BraceAhead (ts : TokenStream) (i brace : Nat) : Prop where
  le : i ≤ brace
  opens : ts.lexeme brace = .symbol .openBrace
  lt_size : brace < ts.size
  free : ∀ k, i ≤ k → k < brace → ts.lexeme k ≠ .symbol .openParen

theorem exists_braceAhead (h : ts.recordBodyFrom fuel i = true) :
    ∃ brace, BraceAhead ts i brace := by
  induction fuel generalizing i with
  | zero => cases h
  | succ fuel ih =>
    rw [recordBodyFrom] at h
    by_cases hlast : ts.atEnd i = true
    · rw [if_pos hlast] at h
      cases h
    rw [if_neg hlast] at h
    split at h
    · rename_i hbrace
      have hlt : i < ts.size := by
        simp only [atEnd, decide_eq_true_eq] at hlast
        omega
      exact ⟨i, le_rfl, hbrace, hlt, fun k hi hk => by omega⟩
    · cases h
    · cases h
    · cases h
    · cases h
    · rename_i hne _ _
      obtain ⟨brace, hahead⟩ := ih h
      refine ⟨brace, (Nat.le_succ i).trans hahead.le, hahead.opens, hahead.lt_size, ?_⟩
      intro k hi hk
      rcases Nat.eq_or_lt_of_le hi with rfl | hlt
      · exact hne
      · exact hahead.free k hlt hk

namespace BraceAhead

variable {brace : Nat}

theorem lexeme_ne (h : BraceAhead ts i brace) : ts.lexeme i ≠ .symbol .openParen := by
  rcases Nat.eq_or_lt_of_le h.le with rfl | hlt
  · rw [h.opens]
    simp
  · exact h.free i le_rfl hlt

theorem passes (h : BraceAhead ts i brace) (hij : i ≤ j) (hj : j ≤ brace) : Passes ts i j :=
  .of_forall_ne hij fun k hi hk => h.free k hi (hk.trans_le hj)

theorem mono (h : BraceAhead ts i brace) (hij : i ≤ j) (hj : j ≤ brace) : BraceAhead ts j brace :=
  ⟨hj, h.opens, h.lt_size, fun k hk => h.free k (hij.trans hk)⟩

/-- The next token when the brace is not reached yet. -/
theorem succ (h : BraceAhead ts i brace) (hne : ts.lexeme i ≠ .symbol .openBrace) :
    BraceAhead ts (i + 1) brace := by
  refine h.mono (Nat.le_succ i) (Nat.lt_of_le_of_ne h.le ?_)
  rintro rfl
  exact hne h.opens

end BraceAhead

end TokenStream

open TokenStream

/-- Heads of templates between two places, and what is known of the first of them. -/
structure HeadsAt (ts : TokenStream) (start next : Nat) (first : Option Nat)
    (r : Option (Option Nat)) : Prop where
  passes : Passes ts start next
  moves : r = none → start < next
  known : ∀ template, r = some template →
    template = first ∨ first = none ∧ template = some start ∧ ts.lexeme start = .ident "template"

/-! ### Declarations in order -/

/-- Where a function stands: its template head, if it has one, its first token and its last one. -/
structure Place where
  head : Nat
  first : Nat
  last : Nat

/-- The function stands at the place. -/
structure FunctionAt (ts : TokenStream) (f : FunctionDecl) (p : Place) : Prop where
  opening : Passes ts p.head p.first
  inner : Passes ts p.first (p.last + 1)
  le : p.first ≤ p.last
  lt_size : p.last + 1 < ts.size
  starts : ts.lexeme p.head ≠ .symbol .semicolon ∧ ts.lexeme p.first ≠ .symbol .semicolon
  range : ts.rangeBetween p.first p.last = .ok f.range
  template : ∀ range, f.templateRange = some range → ts.rangeBetween p.head p.last = .ok range
  calls : ∀ body, f.body = some body → ∀ c ∈ body.calls, CallAt ts c

/-- Declarations that stand in order between `c` and `c'`. -/
inductive Laid (ts : TokenStream) : Nat → Nat → List Decl → Prop
  | nil {c c' : Nat} (h : Passes ts c c') : Laid ts c c' []
  | function {c c' : Nat} {p : Place} {f : FunctionDecl} {rest : List Decl}
    (h : Passes ts c p.head) (hf : FunctionAt ts f p)
    (hrest : Laid ts (p.last + 1) c' rest) : Laid ts c c' (.function f :: rest)
  | linkage {c c' m p last : Nat} {language : String} {span : Span} {decls rest : List Decl}
    (h : Passes ts c p) (hspecifier : ts.lexeme p = .ident "extern")
    (hlanguage : ts.lexeme (p + 1) = .str language) (hspan : ts.spanBetween p last = .ok span)
    (hdecls : Laid ts (p + 2) m decls) (hrest : Laid ts m c' rest) :
    Laid ts c c' (.linkage language span decls :: rest)
  | record {c c' m : Nat} {keyword : String} {name : Option String} {span : Span}
    {members rest : List Decl} (hmembers : Laid ts c m members) (hrest : Laid ts m c' rest) :
    Laid ts c c' (.record keyword name span members :: rest)
  | scope {c c' m : Nat} {name : Option String} {span : Span} {decls rest : List Decl}
    (hdecls : Laid ts c m decls) (hrest : Laid ts m c' rest) :
    Laid ts c c' (.scope name span decls :: rest)
  | usingNamespace {c c' : Nat} {path : List String} {span : Span} {rest : List Decl}
    (hrest : Laid ts c c' rest) : Laid ts c c' (.usingNamespace path span :: rest)
  | other {c c' : Nat} {span : Span} {rest : List Decl} (hrest : Laid ts c c' rest) :
    Laid ts c c' (.other span :: rest)

namespace Laid

variable {ts : TokenStream} {c c' m : Nat} {ds ds' : List Decl}

theorem before (h : Laid ts c c' ds) (hpass : Passes ts m c) : Laid ts m c' ds := by
  induction h with
  | nil h => exact .nil (hpass.trans h)
  | function h hf hrest _ => exact .function (hpass.trans h) hf hrest
  | linkage h hspecifier hlanguage hspan hdecls hrest _ _ =>
    exact .linkage (hpass.trans h) hspecifier hlanguage hspan hdecls hrest
  | record hmembers hrest ih _ => exact .record (ih hpass) hrest
  | scope hdecls hrest ih _ => exact .scope (ih hpass) hrest
  | usingNamespace _ ih => exact .usingNamespace (ih hpass)
  | other _ ih => exact .other (ih hpass)

theorem append (h : Laid ts c m ds) (h' : Laid ts m c' ds') : Laid ts c c' (ds ++ ds') := by
  induction h with
  | nil h => exact h'.before h
  | function h hf _ ih => exact .function h hf (ih h')
  | linkage h hspecifier hlanguage hspan hdecls _ _ ih =>
    exact .linkage h hspecifier hlanguage hspan hdecls (ih h')
  | record hmembers _ _ ih => exact .record hmembers (ih h')
  | scope hdecls _ _ ih => exact .scope hdecls (ih h')
  | usingNamespace _ ih => exact .usingNamespace (ih h')
  | other _ ih => exact .other (ih h')

theorem after (h : Laid ts c m ds) (hpass : Passes ts m c') : Laid ts c c' ds := by
  have hnil : Laid ts m c' [] := .nil hpass
  have := h.append hnil
  rwa [append_nil] at this

end Laid

/-- A function from `first` to `last`, with its body if it has one; parsing goes on at `next`. -/
structure BodyAt (ts : TokenStream) (first : Nat) (body : Option Block) (last next : Nat) :
    Prop where
  passes : Passes ts first (last + 1)
  le : first ≤ last
  lt_size : last + 1 < ts.size
  calls : ∀ block, body = some block → ∀ c ∈ block.calls, CallAt ts c
  after : Passes ts (last + 1) next

/-- A function found from `first` on, with or without a template head at `c`. -/
theorem BodyAt.laid {ts : TokenStream} {f : FunctionDecl} {c c' first last : Nat}
    {template : Option Nat} (h : BodyAt ts first f.body last c') (hc : Passes ts c first)
    (htemplate : ∀ t, template = some t → t = c ∧ ts.lexeme t ≠ .symbol .semicolon)
    (hfirst : ts.lexeme first ≠ .symbol .semicolon)
    (hrange : ts.rangeBetween first last = .ok f.range)
    (hranges : ∀ r, f.templateRange = some r →
      ∃ p, template = some p ∧ ts.rangeBetween p last = .ok r) : Laid ts c c' [.function f] := by
  cases template with
  | none =>
    refine .function (p := ⟨first, first, last⟩) hc ⟨.refl ts first, h.passes, h.le, h.lt_size,
      ⟨hfirst, hfirst⟩, hrange, ?_, h.calls⟩ (.nil h.after)
    intro r hr
    obtain ⟨p, hp, -⟩ := hranges r hr
    cases hp
  | some t =>
    obtain ⟨rfl, ht⟩ := htemplate t rfl
    refine .function (p := ⟨t, first, last⟩) (.refl ts _) ⟨hc, h.passes, h.le, h.lt_size,
      ⟨ht, hfirst⟩, hrange, ?_, h.calls⟩ (.nil h.after)
    intro r hr
    obtain ⟨p, hp, hr⟩ := hranges r hr
    obtain rfl := Option.some.inj hp
    exact hr

end Offload.Source
