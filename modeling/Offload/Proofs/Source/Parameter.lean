import Offload.Proofs.Source.Fault
import Offload.Proofs.Source.Spelling

/-!
# Types of parameters

The type of a parameter is the text of its lexemes without the default argument and without the
name. The name stands at the end, or before the brackets of an array; the two parts of the type are
written side by side.
-/

namespace Offload.Source.TokenStream

variable {ts : TokenStream} {a b i j : Nat}

/-- The lexemes of `[i, j)`. -/
def part (ts : TokenStream) (i j : Nat) : List Lexeme := (ts.lexemes.drop i).take (j - i)

/-- Where the name of a parameter in `[a, stop)` ends, if there is one: before the brackets of an
array. -/
def nameEnd (ts : TokenStream) (a stop : Nat) : Nat :=
  if ts.lexeme (stop - 1) == .symbol .closeBracket then
    (ts.find? a stop (· == .symbol .openBracket)).getD (stop - 1)
  else stop

/-- What ends there is a name and no part of the type. -/
def isNamed (ts : TokenStream) (a stop : Nat) : Bool :=
  (ts.lexeme (stop - 1)).ident?.any fun name =>
    a + 2 ≤ stop && !typeKeywords.contains name && name != "const" && name != "volatile" &&
      ts.lexeme (stop - 2) != .symbol .colonColon

/-- The lexemes of the type of a parameter that ends at `stop` and whose name ends at `last`. -/
def partsFor (ts : TokenStream) (a last stop : Nat) : List Lexeme × List Lexeme :=
  if ts.isNamed a last then (ts.part a (last - 1), ts.part last stop) else (ts.part a stop, [])

/-- The lexemes of a parameter's type, before its name and behind it. -/
def typeParts (ts : TokenStream) (a b : Nat) : List Lexeme × List Lexeme :=
  let stop := (ts.find? a b (· == .symbol .equal)).getD b
  ts.partsFor a (ts.nameEnd a stop) stop

/-- All lexemes of a parameter's type. -/
def typeLexemes (ts : TokenStream) (a b : Nat) : List Lexeme :=
  (ts.typeParts a b).1 ++ (ts.typeParts a b).2

theorem renderSlice_ok {s : String} (h : ts.renderSlice i j = .ok s) :
    s = String.ofList (spell (ts.part i j)) := by
  unfold renderSlice slice at h
  split_ifs at h
  · obtain rfl := Except.ok.inj h
    rw [render_eq, part, lexemes, List.map_take, List.map_drop]
  · cases h

theorem spell_part_self : String.ofList (spell (ts.part i i)) = "" := by
  rw [part, Nat.sub_self, List.take_zero]
  rfl

theorem type_of_paramName {last stop : Nat} {suffix : String} {span : Span} {p : Param}
    (hsuffix : suffix = String.ofList (spell (ts.part last stop)))
    (h : (match ts.lexeme (last - 1) with
      | .ident name =>
        if a + 2 ≤ last && !typeKeywords.contains name && name != "const" && name != "volatile" &&
            ts.lexeme (last - 2) != Lexeme.symbol .colonColon then do
          return (⟨some name, (← ts.renderSlice a (last - 1)) ++ suffix, span⟩ : Param)
        else do
          return ⟨none, ← ts.renderSlice a stop, span⟩
      | _ => do return ⟨none, ← ts.renderSlice a stop, span⟩) = .ok p) :
    p.type = String.ofList (spell (ts.partsFor a last stop).1) ++
      String.ofList (spell (ts.partsFor a last stop).2) := by
  -- Without a name all lexemes belong to the type.
  have hwhole : (do return (⟨none, ← ts.renderSlice a stop, span⟩ : Param)) = Except.ok p →
      p.type = String.ofList (spell (ts.part a stop)) ++ String.ofList (spell []) := by
    intro hp
    obtain ⟨s, hs, hp⟩ := except_bind_ok.mp hp
    obtain rfl := Except.ok.inj hp
    rw [← renderSlice_ok hs]
    exact String.append_empty.symm
  unfold partsFor isNamed
  split at h
  · rename_i name hname
    rw [hname, Lexeme.ident?, Option.any_some]
    split_ifs at h ⊢ with hcond
    · obtain ⟨s, hs, h⟩ := except_bind_ok.mp h
      obtain rfl := Except.ok.inj h
      rw [renderSlice_ok hs, hsuffix]
    · exact hwhole h
  · rename_i hname
    have hnone : (ts.lexeme (last - 1)).ident? = none := by
      cases hl : ts.lexeme (last - 1) with
      | ident name => exact absurd hl (hname name)
      | _ => rfl
    rw [hnone, Option.any_none, if_neg (by simp)]
    exact hwhole h

theorem type_of_param {p : Param} (h : ts.param a b = .ok p) :
    p.type = String.ofList (spell (ts.typeParts a b).1) ++
      String.ofList (spell (ts.typeParts a b).2) := by
  unfold param at h
  unfold typeParts
  simp only at h ⊢
  generalize (ts.find? a b (· == .symbol .equal)).getD b = stop at h ⊢
  obtain ⟨span, -, h⟩ := except_bind_ok.mp h
  unfold nameEnd
  by_cases harray : (ts.lexeme (stop - 1) == .symbol .closeBracket) = true
  · rw [if_pos harray] at h ⊢
    obtain ⟨s, hs, h⟩ := except_bind_ok.mp h
    exact type_of_paramName (renderSlice_ok hs) h
  · rw [if_neg harray] at h ⊢
    exact type_of_paramName spell_part_self.symm h

theorem lexeme_nameEnd {stop : Nat} (h : ts.nameEnd a stop < stop) :
    (ts.lexeme (ts.nameEnd a stop)).isWord = false := by
  unfold nameEnd at h ⊢
  split_ifs at h ⊢ with harray
  · cases hfind : ts.find? a stop (· == .symbol .openBracket) with
    | none =>
      rw [Option.getD_none, beq_iff_eq.mp harray]
      rfl
    | some k =>
      obtain ⟨-, -, hbracket⟩ := find?_bounds hfind
      rw [Option.getD_some, beq_iff_eq.mp hbracket]
      rfl
  · exact absurd h (Nat.lt_irrefl _)

/-- Behind the name stand the brackets of an array. -/
theorem head?_typeParts : ∀ l ∈ (ts.typeParts a b).2.head?, l.isWord = false := by
  unfold typeParts partsFor
  simp only
  generalize (ts.find? a b (· == .symbol .equal)).getD b = stop
  split
  · intro l hl
    simp only [part, List.head?_take, List.head?_drop] at hl
    split_ifs at hl with hzero
    · cases hl
    · obtain ⟨hlt, hget⟩ := List.getElem?_eq_some_iff.mp hl
      rw [← hget, ← (lexeme_of_drop (List.drop_eq_getElem_cons hlt)).1]
      exact lexeme_nameEnd (by omega)
  · simp

theorem typeLexemes_subset : ts.typeLexemes a b ⊆ ts.lexemes := by
  intro l h
  have hpart : ∀ {i j : Nat}, ts.part i j ⊆ ts.lexemes := fun hl =>
    List.mem_of_mem_drop (List.mem_of_mem_take hl)
  unfold typeLexemes typeParts partsFor at h
  simp only at h
  split at h
  · exact (List.mem_append.mp h).elim (fun hl => hpart hl) fun hl => hpart hl
  · rw [List.append_nil] at h
    exact hpart h

end Offload.Source.TokenStream
