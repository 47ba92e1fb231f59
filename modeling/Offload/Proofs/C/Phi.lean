import Offload.C.Function
import Offload.Proofs.C.Operand
import Offload.Proofs.Compiled.Verify
import Mathlib.Data.List.Dedup
import Mathlib.Data.List.Induction
import Mathlib.Logic.Function.Basic

/-!
# Phis on an edge

The phis of a block all change at once when control enters it. The source changes one variable at a
time: on the edge each phi's temporary takes the incoming operand, and at the head of the block each
phi takes its temporary. No assignment of the first round reads a temporary and none of the second
writes one, so the two rounds together are the simultaneous assignment, whatever the phis read.
-/

namespace Offload.Compiled

/-- The phi that an instruction is, by name. -/
def Instruction.phiDest? : Instruction → Option String
  | .phi dest .. => some dest
  | _ => none

/-- The allocation that an instruction is, by name. -/
def Instruction.slotDest? : Instruction → Option String
  | .alloca dest _ => some dest
  | _ => none

namespace Function

/-- Names that some instruction reads. -/
def reads (f : Function) : List String :=
  f.instructions.flatMap fun i => i.operands.filterMap Value.varName?

/-- What is defined, and what is read without a definition. -/
def values (f : Function) : List String :=
  f.definitions ++ f.reads.dedup.filter fun name => !f.definitions.contains name

end Function

/-- A label for each way out of a block, in the order of the text. -/
def Terminator.targets : Terminator → List String
  | .jump target => [target]
  | .branch _ onTrue onFalse => [onTrue, onFalse]
  | .switch _ _ default cases => cases.map (·.2) ++ [default]
  | .ret _ | .unreachable => []

end Offload.Compiled

namespace Offload.C

open Offload.Compiled List

variable {b : BasicBlock} {i : Instruction} {incoming : List (Value × String)} {x : String}

/-- The identifiers generated for the values, phi temporaries and allocation slots of a function. -/
def namesOf (f : Function) : List String :=
  f.values.map localName ++ (f.instructions.filterMap Instruction.phiDest?).map phiName ++
    (f.instructions.filterMap Instruction.slotDest?).map slotName

def Exit.edges : Exit → List Edge
  | .jump e => [e]
  | .branch _ onTrue onFalse => [onTrue, onFalse]
  | .switch _ cases default => cases.map (·.2) ++ [default]
  | .ret _ | .trap _ => []

/-! ### Assignments to variables -/

abbrev Store (V : Type) := String → V

/-- A meaning of expressions over the values of variables. -/
structure Reading (V : Type) where
  eval : Store V → Expr → V
  eval_ident : ∀ (σ : Store V) (x : String), eval σ (.ident x) = σ x
  eval_constant : ∀ e : Expr, e.isConstant → ∀ σ σ' : Store V, eval σ e = eval σ' e

namespace Reading

variable {V : Type} (R : Reading V) {σ : Store V} {cs : List (String × Expr)} {T : List String}

def assign (σ : Store V) (c : String × Expr) : Store V := Function.update σ c.1 (R.eval σ c.2)

/-- Assignments one after the other. -/
def assignAll (σ : Store V) (cs : List (String × Expr)) : Store V := cs.foldl R.assign σ

/-- Run statements that assign variables; there is no result if one of them does something else. -/
def run : Store V → List Statement → Option (Store V)
  | σ, [] => some σ
  | σ, .assign (.ident x) e :: rest => run (R.assign σ (x, e)) rest
  | _, _ => none

/-- The expression's value does not depend on the given variables. -/
def Ignores (T : List String) (e : Expr) : Prop :=
  ∀ σ σ' : Store V, (∀ x, x ∉ T → σ x = σ' x) → R.eval σ e = R.eval σ' e

theorem ignores_ident (hx : x ∉ T) : R.Ignores T (.ident x) := by
  intro σ σ' h
  rw [R.eval_ident, R.eval_ident]
  exact h x hx

theorem ignores_constant {e : Expr} (he : e.isConstant) : R.Ignores T e :=
  fun σ σ' _ => R.eval_constant e he σ σ'

theorem assignAll_of_notMem (hx : x ∉ cs.map Prod.fst) : R.assignAll σ cs x = σ x := by
  induction cs using List.reverseRecOn with
  | nil => rfl
  | append_singleton cs c ih =>
    rw [map_append, mem_append, not_or] at hx
    have hne : x ≠ c.1 := by simpa using hx.2
    rw [assignAll, foldl_append, foldl_cons, foldl_nil, assign, Function.update_of_ne hne]
    exact ih hx.1

/-- Assignments that read none of the variables they write act as if made at once. -/
theorem assignAll_of_mem (hT : ∀ c ∈ cs, c.1 ∈ T) (hi : ∀ c ∈ cs, R.Ignores T c.2) {e : Expr}
    (hx : (x, e) ∈ cs) (hsame : ∀ e', (x, e') ∈ cs → R.eval σ e' = R.eval σ e) :
    R.assignAll σ cs x = R.eval σ e := by
  induction cs using List.reverseRecOn with
  | nil => simp at hx
  | append_singleton cs c ih =>
    have hTc : ∀ c' ∈ cs, c'.1 ∈ T := fun c' h => hT c' (mem_append_left _ h)
    rw [assignAll, foldl_append, foldl_cons, foldl_nil, assign]
    by_cases hc : x = c.1
    · -- The last assignment decides, and it sees what it reads as it was before the first one.
      have hbefore : ∀ y, y ∉ T → R.assignAll σ cs y = σ y := by
        intro y hy
        refine R.assignAll_of_notMem fun hmem => ?_
        obtain ⟨c', hc', rfl⟩ := mem_map.mp hmem
        exact hy (hTc c' hc')
      subst hc
      rw [Function.update_self]
      have hlast : R.eval (R.assignAll σ cs) c.2 = R.eval σ c.2 := hi c (by simp) _ _ hbefore
      exact hlast.trans (hsame c.2 (by simp))
    · rw [Function.update_of_ne hc]
      have hmem : (x, e) ∈ cs := by
        rcases mem_append.mp hx with h | h
        · exact h
        · exact absurd (congrArg Prod.fst (mem_singleton.mp h)) hc
      exact ih hTc (fun c' h => hi c' (mem_append_left _ h)) hmem
        fun e' h => hsame e' (mem_append_left _ h)

theorem run_assigns (σ : Store V) (cs : List (String × Expr)) :
    R.run σ (cs.map fun c => .assign (.ident c.1) c.2) = some (R.assignAll σ cs) := by
  induction cs generalizing σ with
  | nil => rfl
  | cons c cs ih => exact ih (R.assign σ c)

end Reading

namespace Reading

variable {V : Type} (R : Reading V) {t : Ty}

/-- The value of an operand of a type. -/
def operand? (σ : Store V) (v : Value) (t : Ty) : Option V := (operandExpr? v t).map (R.eval σ)

@[simp] theorem operand?_var (σ : Store V) (name : String) (t : Ty) :
    R.operand? σ (.var name) t = some (σ (localName name)) := by
  simp [operand?, operandExpr?, R.eval_ident]

theorem ignores_operand {T : List String} {v : Value} {e : Expr}
    (h : operandExpr? v t = some e) (hT : ∀ name, v = .var name → localName name ∉ T) :
    R.Ignores T e := by
  rcases operandExpr?_cases h with ⟨name, rfl, rfl⟩ | hconst
  · exact R.ignores_ident (hT name rfl)
  · exact R.ignores_constant hconst

end Reading

/-! ### What is written for an edge -/

section

variable {w : Writer} {f : Function} {n n' : Needs} {label dest name : String}

/-- The assignments on a way from the labelled block into a block: one for each entry that a phi of
that block has for the label. -/
structure CopiesInto (label : String) (b : BasicBlock) (cs : List (String × Expr)) : Prop where
  of_mem : ∀ c ∈ cs, ∃ dest t incoming v, .phi dest t incoming ∈ b.instructions ∧
    (v, label) ∈ incoming ∧ c.1 = phiName dest ∧ operandExpr? v t = some c.2
  exists_mem : ∀ {dest t incoming v}, .phi dest t incoming ∈ b.instructions →
    (v, label) ∈ incoming → ∃ e, (phiName dest, e) ∈ cs ∧ operandExpr? v t = some e

theorem gives_phiCopies {cs : List (String × Expr)}
    (h : Gives (w.phiCopies label (.phi dest t incoming)) n cs n') :
    List.Forall₂ (fun entry c => c.1 = phiName dest ∧ operandExpr? entry.1 t = some c.2)
      (incoming.filter fun entry => entry.2 == label) cs := by
  refine (gives_mapM h).imp ?_
  rintro entry c ⟨m, m', hc⟩
  simp only [gives_bind, gives_pure] at hc
  obtain ⟨e, m₁, he, rfl, -⟩ := hc
  exact ⟨rfl, gives_value he⟩

theorem gives_phiCopies_of_mem {cs : List (String × Expr)} (h : Gives (w.phiCopies label i) n cs n')
    {c : String × Expr} (hc : c ∈ cs) :
    ∃ dest t incoming v, i = .phi dest t incoming ∧ (v, label) ∈ incoming ∧
      c.1 = phiName dest ∧ operandExpr? v t = some c.2 := by
  cases i with
  | phi dest t incoming =>
    obtain ⟨⟨v, source⟩, hentry, hname, he⟩ := mem_of_forall₂_right (gives_phiCopies h) hc
    obtain ⟨hmem, hsource⟩ := mem_filter.mp hentry
    obtain rfl : source = label := by simpa using hsource
    exact ⟨dest, t, incoming, v, rfl, hmem, hname, he⟩
  | _ =>
    rw [(gives_pure.mp h).1] at hc
    simp at hc

theorem gives_edge {target : String} {e : Edge} (h : Gives (w.edge f label target) n e n') :
    ∃ b, f.block? target = some b ∧ e.target = blockName target ∧ CopiesInto label b e.copies := by
  unfold Writer.edge at h
  split at h
  · exact absurd h not_gives_throw
  · rename_i b hb
    simp only [gives_bind, gives_pure] at h
    obtain ⟨css, m, hcss, rfl, -⟩ := h
    have hrel := gives_mapM hcss
    refine ⟨b, hb, rfl, ?_, ?_⟩
    · intro c hc
      obtain ⟨cs, hcs, hc⟩ := mem_flatten.mp hc
      obtain ⟨i, hi, m, m', hgives⟩ := mem_of_forall₂_right hrel hcs
      obtain ⟨dest, t, incoming, v, rfl, hentry, hname, he⟩ := gives_phiCopies_of_mem hgives hc
      exact ⟨dest, t, incoming, v, hi, hentry, hname, he⟩
    · intro dest t incoming v hphi hentry
      obtain ⟨cs, hcs, m, m', hgives⟩ := mem_of_forall₂ hrel hphi
      have hfiltered : (v, label) ∈ incoming.filter fun entry => entry.2 == label :=
        mem_filter.mpr ⟨hentry, by simp⟩
      obtain ⟨⟨x, e⟩, hc, rfl, he⟩ := mem_of_forall₂ (gives_phiCopies hgives) hfiltered
      exact ⟨e, mem_flatten.mpr ⟨cs, hcs, hc⟩, he⟩

/-- Each way out of a block is written as an edge of its own. -/
theorem gives_exit {t : Terminator} {x : Exit} (h : Gives (w.exit f label t) n x n') :
    List.Forall₂ (fun target e => ∃ m m', Gives (w.edge f label target) m e m')
      t.targets x.edges := by
  cases t with
  | ret result =>
    cases result with
    | none =>
      rw [(gives_pure.mp h).1]
      exact .nil
    | some result =>
      simp only [Writer.exit, gives_bind, gives_pure] at h
      obtain ⟨e, m, -, rfl, -⟩ := h
      exact .nil
  | jump target =>
    simp only [Writer.exit, gives_bind, gives_pure] at h
    obtain ⟨e, m, he, rfl, -⟩ := h
    exact .cons ⟨_, _, he⟩ .nil
  | branch condition onTrue onFalse =>
    simp only [Writer.exit, gives_bind, gives_pure] at h
    obtain ⟨c, m, -, e, m₁, he, e', m₂, he', rfl, -⟩ := h
    exact .cons ⟨_, _, he⟩ (.cons ⟨_, _, he'⟩ .nil)
  | switch type value default cases =>
    simp only [Writer.exit, gives_bind, gives_pure] at h
    obtain ⟨v, m, -, written, m₁, hcases, e, m₂, he, rfl, -⟩ := h
    refine rel_append ?_ (.cons ⟨_, _, he⟩ .nil)
    rw [List.forall₂_map_left_iff, List.forall₂_map_right_iff]
    refine (gives_mapM hcases).imp ?_
    rintro c d ⟨m, m', hcd⟩
    simp only [gives_bind, gives_pure] at hcd
    obtain ⟨v, k, -, e, k', he, rfl, -⟩ := hcd
    exact ⟨_, _, he⟩
  | unreachable =>
    simp only [Writer.exit] at h
    split at h
    · simp only [gives_bind, gives_modify, gives_pure] at h
      obtain ⟨-, m, -, rfl, -⟩ := h
      exact .nil
    · rw [(gives_pure.mp h).1]
      exact .nil

/-- The phis of a block by name. -/
def phisOf (b : BasicBlock) : List String := b.instructions.filterMap Instruction.phiDest?

theorem mem_phisOf : dest ∈ phisOf b ↔ ∃ t incoming, .phi dest t incoming ∈ b.instructions := by
  unfold phisOf
  rw [mem_filterMap]
  constructor
  · rintro ⟨i, hi, hdest⟩
    cases i <;> cases hdest
    exact ⟨_, _, hi⟩
  · rintro ⟨t, incoming, hi⟩
    exact ⟨_, hi, rfl⟩

/-- The assignments of the phis from their temporaries. -/
def movesOf (b : BasicBlock) : List (String × Expr) :=
  (phisOf b).map fun dest => (localName dest, .ident (phiName dest))

theorem filterMap_phiMove? (b : BasicBlock) :
    b.instructions.filterMap Writer.phiMove? =
      (movesOf b).map fun c => .assign (.ident c.1) c.2 := by
  unfold movesOf phisOf
  rw [map_map, map_filterMap]
  refine filterMap_congr fun i _ => ?_
  cases i <;> rfl

theorem gives_block {s : Scope} {written : Block} (h : Gives (w.block s f b) n written n') :
    written.label = blockName b.label ∧
      written.statements.take (phisOf b).length =
        (movesOf b).map (fun c => .assign (.ident c.1) c.2) ∧
      ∃ t m m', b.terminator = some t ∧ Gives (w.exit f b.label t) m written.exit m' := by
  simp only [Writer.block, gives_bind] at h
  obtain ⟨statements, m, -, h⟩ := h
  split at h
  · exact absurd h not_gives_throw
  · rename_i t ht
    simp only [gives_bind, gives_pure] at h
    obtain ⟨x, m', hx, rfl, -⟩ := h
    refine ⟨rfl, ?_, t, m, m', ht, hx⟩
    change (List.filterMap Writer.phiMove? b.instructions ++ _).take _ = _
    rw [filterMap_phiMove?, take_left']
    simp [movesOf]

theorem gives_function {m : Module} {fd : FunctionDefinition} (h : Gives (w.function m f) n fd n') :
    List.Forall₂ (fun b written => ∃ k k', Gives (w.block (w.scopeOf m f) f b) k written k')
      f.blocks fd.blocks := by
  simp only [Writer.function, gives_bind, gives_pure] at h
  obtain ⟨prototype, k₁, -, locals, k₂, -, blocks, k₃, hblocks, rfl, -⟩ := h
  exact gives_mapM hblocks

/-! ### Names that do not clash -/

theorem mem_values_of_mem_reads (h : name ∈ f.reads) : name ∈ f.values := by
  unfold Function.values
  rw [mem_append, mem_filter, mem_dedup]
  by_cases hdef : name ∈ f.definitions
  · exact .inl hdef
  · exact .inr ⟨h, by simpa using hdef⟩

theorem mem_instructions (hb : b ∈ f.blocks) (hi : i ∈ b.instructions) : i ∈ f.instructions :=
  mem_flatMap.mpr ⟨b, hb, hi⟩

theorem mem_values_of_dest? (hi : i ∈ f.instructions) (h : i.dest? = some name) :
    name ∈ f.values := by
  refine mem_append_left _ (mem_append_right _ ?_)
  exact mem_filterMap.mpr ⟨i, hi, h⟩

theorem mem_values_of_incoming
    (hi : .phi dest t incoming ∈ f.instructions) (h : (.var name, label) ∈ incoming) :
    name ∈ f.values := by
  refine mem_values_of_mem_reads (mem_flatMap.mpr ⟨_, hi, ?_⟩)
  refine mem_filterMap.mpr ⟨.var name, ?_, rfl⟩
  exact mem_map.mpr ⟨(.var name, label), h, rfl⟩

theorem eq_of_dest?_eq {is : List Instruction} (hn : (is.filterMap Instruction.dest?).Nodup)
    {j : Instruction} (hi : i ∈ is) (hj : j ∈ is) (hid : i.dest? = some dest)
    (hjd : j.dest? = some dest) : i = j := by
  induction is with
  | nil => simp at hi
  | cons k is ih =>
    rw [filterMap_cons] at hn
    -- A later instruction with the destination of the first one would repeat it.
    have hlater : k.dest? = some dest → ∀ i' ∈ is, i'.dest? ≠ some dest := by
      intro hk i' hi' hd
      rw [hk] at hn
      exact (nodup_cons.mp hn).1 (mem_filterMap.mpr ⟨i', hi', hd⟩)
    have hrest : (is.filterMap Instruction.dest?).Nodup := by
      split at hn
      · exact hn
      · exact (nodup_cons.mp hn).2
    rcases mem_cons.mp hi with hik | hi' <;> rcases mem_cons.mp hj with hjk | hj'
    · rw [hik, hjk]
    · exact absurd hjd (hlater (hik ▸ hid) j hj')
    · exact absurd hid (hlater (hjk ▸ hjd) i hi')
    · exact ih hrest hi' hj'

/-- What follows for the phis of one block from distinct names. -/
structure PhisApart (f : Function) (b : BasicBlock) : Prop where
  unique : ∀ {dest t t' incoming incoming'}, .phi dest t incoming ∈ b.instructions →
    .phi dest t' incoming' ∈ b.instructions → t' = t ∧ incoming' = incoming
  phiName_inj : ∀ dest ∈ phisOf b, ∀ dest' ∈ phisOf b,
    phiName dest = phiName dest' → dest = dest'
  localName_inj : ∀ dest ∈ phisOf b, ∀ dest' ∈ phisOf b,
    localName dest = localName dest' → dest = dest'
  localName_ne : ∀ name ∈ f.values, ∀ dest ∈ phisOf b, localName name ≠ phiName dest

theorem phisApart_of_nodup (hn : (namesOf f).Nodup) (hb : b ∈ f.blocks) : PhisApart f b := by
  unfold namesOf at hn
  obtain ⟨hn, -, -⟩ := nodup_append.mp hn
  obtain ⟨hvalues, htemps, hne⟩ := nodup_append.mp hn
  have hphi : ∀ dest ∈ phisOf b, dest ∈ f.instructions.filterMap Instruction.phiDest? := by
    intro dest hdest
    obtain ⟨i, hi, hid⟩ := mem_filterMap.mp hdest
    exact mem_filterMap.mpr ⟨i, mem_instructions hb hi, hid⟩
  have hdef : ∀ dest ∈ phisOf b, dest ∈ f.values := by
    intro dest hdest
    obtain ⟨t, incoming, hi⟩ := mem_phisOf.mp hdest
    exact mem_values_of_dest? (mem_instructions hb hi) rfl
  constructor
  · intro dest t t' incoming incoming' hi hi'
    have hdefs : f.definitions.Nodup := (nodup_append.mp (List.Nodup.of_map _ hvalues)).1
    have hdests : (f.instructions.filterMap Instruction.dest?).Nodup := (nodup_append.mp hdefs).2.1
    have heq := eq_of_dest?_eq hdests (mem_instructions hb hi') (mem_instructions hb hi) rfl rfl
    cases heq
    exact ⟨rfl, rfl⟩
  · intro dest hdest dest' hdest' h
    exact inj_on_of_nodup_map htemps (hphi dest hdest) (hphi dest' hdest') h
  · intro dest hdest dest' hdest' h
    exact inj_on_of_nodup_map hvalues (hdef dest hdest) (hdef dest' hdest') h
  · intro name hname dest hdest
    exact hne _ (mem_map_of_mem hname) _ (mem_map_of_mem (hphi dest hdest))

/-! ### The two rounds -/

variable {V : Type} {R : Reading V} {b : BasicBlock} {cs : List (String × Expr)}

/-- After the copies each temporary holds its phi's operand, as it was before them. -/
theorem assignAll_copies (hb : b ∈ f.blocks) (ha : PhisApart f b) (hc : CopiesInto label b cs)
  {v : Value} (hphi : .phi dest t incoming ∈ b.instructions)
    (hv : (v, label) ∈ incoming) (hsame : ∀ v', (v', label) ∈ incoming → v' = v) (σ : Store V) :
    some (R.assignAll σ cs (phiName dest)) = R.operand? σ v t := by
  have hT : ∀ c ∈ cs, c.1 ∈ (phisOf b).map phiName := by
    intro c h
    obtain ⟨dest', t', incoming', v', hphi', -, hname, -⟩ := hc.of_mem c h
    rw [hname]
    exact mem_map_of_mem (mem_phisOf.mpr ⟨t', incoming', hphi'⟩)
  have hi : ∀ c ∈ cs, R.Ignores ((phisOf b).map phiName) c.2 := by
    intro c h
    obtain ⟨dest', t', incoming', v', hphi', hv', -, he⟩ := hc.of_mem c h
    refine R.ignores_operand he ?_
    rintro name rfl hmem
    obtain ⟨dest'', hdest'', heq⟩ := mem_map.mp hmem
    have hname := mem_values_of_incoming (mem_instructions hb hphi') hv'
    exact ha.localName_ne name hname dest'' hdest'' heq.symm
  obtain ⟨e, hmem, he⟩ := hc.exists_mem hphi hv
  have hall : ∀ e', (phiName dest, e') ∈ cs → R.eval σ e' = R.eval σ e := by
    intro e' h
    obtain ⟨dest', t', incoming', v', hphi', hv', hname, he'⟩ := hc.of_mem _ h
    obtain rfl : dest = dest' :=
      ha.phiName_inj _ (mem_phisOf.mpr ⟨_, _, hphi⟩) _ (mem_phisOf.mpr ⟨_, _, hphi'⟩) hname
    obtain ⟨rfl, rfl⟩ := ha.unique hphi hphi'
    obtain rfl := hsame v' hv'
    rw [he] at he'
    rw [Option.some.inj he']
  rw [R.assignAll_of_mem hT hi hmem hall, Reading.operand?, he]
  rfl

/-- After the moves each phi holds what its temporary holds before them. -/
theorem assignAll_moves (hb : b ∈ f.blocks) (ha : PhisApart f b)
    (hdest : dest ∈ phisOf b) (σ : Store V) :
    R.assignAll σ (movesOf b) (localName dest) = σ (phiName dest) := by
  have hdef : ∀ name ∈ phisOf b, name ∈ f.values := by
    intro name hname
    obtain ⟨t, incoming, hi⟩ := mem_phisOf.mp hname
    exact mem_values_of_dest? (mem_instructions hb hi) rfl
  have hT : ∀ c ∈ movesOf b, c.1 ∈ (phisOf b).map localName := by
    intro c hc
    obtain ⟨dest', hdest', rfl⟩ := mem_map.mp hc
    exact mem_map_of_mem hdest'
  have hi : ∀ c ∈ movesOf b, R.Ignores ((phisOf b).map localName) c.2 := by
    intro c hc
    obtain ⟨dest', hdest', rfl⟩ := mem_map.mp hc
    refine R.ignores_ident fun hmem => ?_
    obtain ⟨name, hname, heq⟩ := mem_map.mp hmem
    exact ha.localName_ne name (hdef name hname) dest' hdest' heq
  have hmem : (localName dest, .ident (phiName dest)) ∈ movesOf b := mem_map.mpr ⟨dest, hdest, rfl⟩
  have hall : ∀ e, (localName dest, e) ∈ movesOf b →
      R.eval σ e = R.eval σ (.ident (phiName dest)) := by
    intro e he
    obtain ⟨dest', hdest', heq⟩ := mem_map.mp he
    obtain ⟨hname, rfl⟩ := Prod.mk.inj heq
    rw [ha.localName_inj dest' hdest' dest hdest hname]
  rw [R.assignAll_of_mem hT hi hmem hall, R.eval_ident]

/-- Neither round touches anything but the phis and their temporaries. -/
theorem assignAll_frame (hc : CopiesInto label b cs)
    (hx : ∀ dest ∈ phisOf b, x ≠ localName dest ∧ x ≠ phiName dest) (σ : Store V) :
    R.assignAll (R.assignAll σ cs) (movesOf b) x = σ x := by
  have hmoves : x ∉ (movesOf b).map Prod.fst := by
    intro hmem
    obtain ⟨c, hc, rfl⟩ := mem_map.mp hmem
    obtain ⟨dest, hdest, rfl⟩ := mem_map.mp hc
    exact (hx dest hdest).1 rfl
  have hcopies : x ∉ cs.map Prod.fst := by
    intro hmem
    obtain ⟨c, hcs, rfl⟩ := mem_map.mp hmem
    obtain ⟨dest, t, incoming, v, hphi, -, hname, -⟩ := hc.of_mem c hcs
    exact (hx dest (mem_phisOf.mpr ⟨t, incoming, hphi⟩)).2 hname
  rw [R.assignAll_of_notMem hmoves, R.assignAll_of_notMem hcopies]

end

/-- Taking an edge into a block gives all phis of the block at once the values that their operands
had before, and changes nothing else but the phis' temporaries. The edge is the one written for a
target of a terminator; what runs are its copies, then the first statements of the block it leads
to. -/
theorem phis_take_operands_at_once {V : Type} (R : Reading V) (w : Writer) (m : Module)
    (f : Function) {n n' : Needs} {fd : FunctionDefinition}
    (hwritten : Gives (w.function m f) n fd n') (hnames : (namesOf f).Nodup)
    {i : Nat} {p : BasicBlock} (hp : f.blocks[i]? = some p)
    {t : Terminator} (ht : p.terminator = some t)
    {k : Nat} {target : String} (htarget : t.targets[k]? = some target)
    {b : BasicBlock} (hb : f.block? target = some b)
    (hphis : ∀ dest type incoming, .phi dest type incoming ∈ b.instructions →
      ∃ v, (v, p.label) ∈ incoming ∧ ∀ v', (v', p.label) ∈ incoming → v' = v) :
    ∃ source ∈ fd.blocks[i]?, ∃ entered ∈ fd.blocks, ∃ e ∈ source.exit.edges[k]?,
      e.target = entered.label ∧
      ∀ σ : Store V, ∃ σ' : Store V,
        R.run (R.assignAll σ e.copies) (entered.statements.take (phisOf b).length) = some σ' ∧
        (∀ dest type incoming v, .phi dest type incoming ∈ b.instructions →
          (v, p.label) ∈ incoming → some (σ' (localName dest)) = R.operand? σ v type) ∧
        ∀ x, (∀ dest ∈ phisOf b, x ≠ localName dest ∧ x ≠ phiName dest) → σ' x = σ x := by
  have hblocks := gives_function hwritten
  have hbmem : b ∈ f.blocks := mem_of_find?_eq_some hb
  have hlabel : b.label = target := by simpa using find?_some hb
  obtain ⟨source, hsource, m₁, m₁', hgsource⟩ := getElem?_of_forall₂ hblocks hp
  obtain ⟨entered, hentered, m₂, m₂', hgentered⟩ := mem_of_forall₂ hblocks hbmem
  obtain ⟨-, -, t', m₃, m₃', ht', hexit⟩ := gives_block hgsource
  obtain ⟨hname, hmoves, -⟩ := gives_block hgentered
  obtain rfl : t = t' := Option.some.inj (ht.symm.trans ht')
  obtain ⟨e, he, m₄, m₄', hedge⟩ := getElem?_of_forall₂ (gives_exit hexit) htarget
  obtain ⟨b', hb', hetarget, hcopies⟩ := gives_edge hedge
  obtain rfl : b = b' := Option.some.inj (hb.symm.trans hb')
  have hapart := phisApart_of_nodup hnames hbmem
  refine ⟨source, hsource, entered, hentered, e, he, by rw [hetarget, hname, hlabel], ?_⟩
  intro σ
  refine ⟨R.assignAll (R.assignAll σ e.copies) (movesOf b), ?_, ?_, ?_⟩
  · rw [hmoves, R.run_assigns]
  · intro dest type incoming v hphi hv
    have hsame : ∀ v', (v', p.label) ∈ incoming → v' = v := by
      obtain ⟨v₀, -, hall⟩ := hphis dest type incoming hphi
      intro v' hv'
      rw [hall v' hv', hall v hv]
    rw [assignAll_moves hbmem hapart (mem_phisOf.mpr ⟨type, incoming, hphi⟩)]
    exact assignAll_copies hbmem hapart hcopies hphi hv hsame σ
  · intro x hx
    exact assignAll_frame hcopies hx σ

/-- A loop whose two phis read each other: `x` and `y` swap in each round. -/
def swapLoop : Function where
  name := "swap"
  linkage := .external
  result := .void
  params := []
  isVariadic := false
  blocks := [
    ⟨"entry", [], some (.jump "loop")⟩,
    ⟨"loop",
      [.phi "x" (.int .w32) [(.int 1, "entry"), (.var "y", "loop")],
        .phi "y" (.int .w32) [(.int 2, "entry"), (.var "x", "loop")]],
      some (.branch (.bool true) "loop" "exit")⟩,
    ⟨"exit", [], some (.ret none)⟩]

/-- Integer variables and literals; anything else counts as zero. -/
def Reading.integers : Reading Int where
  eval σ
    | .ident x => σ x
    | .int v _ => v
    | _ => 0
  eval_ident _ _ := rfl
  eval_constant e he σ σ' := by cases e <;> first | rfl | cases he

theorem phis_take_operands_at_once_swap :
    ∃ fd n', Gives (hostWriter.function ⟨"m", none, none, [], [], [swapLoop]⟩ swapLoop) {} fd n' ∧
      (namesOf swapLoop).Nodup ∧
      ∃ source ∈ fd.blocks[1]?, ∃ entered ∈ fd.blocks, ∃ e ∈ source.exit.edges[0]?,
        e.target = entered.label ∧
        ∀ σ : Store Int, ∃ σ' : Store Int,
          Reading.integers.run (Reading.integers.assignAll σ e.copies)
            (entered.statements.take 2) = some σ' ∧
          σ' (localName "x") = σ (localName "y") ∧ σ' (localName "y") = σ (localName "x") := by
  have hnames : (namesOf swapLoop).Nodup := by decide +kernel
  obtain ⟨fd, n', hwritten⟩ : ∃ fd n',
      Gives (hostWriter.function ⟨"m", none, none, [], [], [swapLoop]⟩ swapLoop) {} fd n' :=
    ⟨_, _, rfl⟩
  refine ⟨fd, n', hwritten, hnames, ?_⟩
  obtain ⟨source, hsource, entered, hentered, e, he, htarget, hrun⟩ :=
    phis_take_operands_at_once Reading.integers hostWriter
      ⟨"m", none, none, [], [], [swapLoop]⟩ swapLoop hwritten hnames
      (i := 1) rfl rfl (k := 0) rfl rfl (by
        intro dest type incoming hphi
        simp only [mem_cons, Instruction.phi.injEq, not_mem_nil, or_false] at hphi
        rcases hphi with ⟨rfl, rfl, rfl⟩ | ⟨rfl, rfl, rfl⟩
        · exact ⟨.var "y", by simp, by simp⟩
        · exact ⟨.var "x", by simp, by simp⟩)
  refine ⟨source, hsource, entered, hentered, e, he, htarget, fun σ => ?_⟩
  obtain ⟨σ', hσ', hphi, -⟩ := hrun σ
  have hx := hphi "x" (.int .w32) _ (.var "y") (.head _) (.tail _ (.head _))
  have hy := hphi "y" (.int .w32) _ (.var "x") (.tail _ (.head _)) (.tail _ (.head _))
  rw [Reading.operand?_var] at hx hy
  exact ⟨σ', hσ', Option.some.inj hx, Option.some.inj hy⟩

end Offload.C
