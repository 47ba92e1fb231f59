import Offload.Proofs.C.Phi
import Offload.Proofs.Compiled.Reachable

/-!
# Temporaries that an edge leaves alone

On the way from one block into another, the temporaries of those phis are assigned that have an
entry for the first block. A verified module names known blocks in the entries of a phi, but need
not name all that lead to it: where an entry is missing, the phi takes what its temporary held
before.
-/

namespace Offload.Compiled

/-- The ways out of a block go to its successors. -/
theorem Terminator.mem_targets_iff {t : Terminator} {label : String} :
    label ∈ t.targets ↔ label ∈ t.successors := by
  have hfold : ∀ (cases : List (Int × String)) (out : List String),
      label ∈ cases.foldl (fun out c => if out.contains c.2 then out else out ++ [c.2]) out ↔
        label ∈ out ∨ label ∈ cases.map (·.2) := by
    intro cases
    induction cases with
    | nil => simp
    | cons c cases ih =>
      intro out
      rw [List.foldl_cons, ih, List.map_cons, List.mem_cons]
      by_cases hc : c.2 ∈ out
      · rw [if_pos (by simpa using hc)]
        constructor
        · rintro (h | h)
          · exact .inl h
          · exact .inr (.inr h)
        · rintro (h | rfl | h)
          · exact .inl h
          · exact .inl hc
          · exact .inr h
      · rw [if_neg (by simpa using hc), List.mem_append, List.mem_singleton, or_assoc]
  cases t with
  | switch type value default cases =>
    rw [targets, successors, hfold, List.mem_append, or_comm]
  | _ => rfl

/-- The phi of the given name has an incoming value for a label. -/
def BasicBlock.HasEntry (b : BasicBlock) (dest label : String) : Prop :=
  ∃ type incoming v, .phi dest type incoming ∈ b.instructions ∧ (v, label) ∈ incoming

end Offload.Compiled

namespace Offload.C

open Offload.Compiled List

section

variable {f : Function} {b : BasicBlock} {label : String} {cs : List (String × Expr)}

/-- What an edge assigns are the temporaries of phis with an entry for it. -/
theorem CopiesInto.mem_assigned (hc : CopiesInto label b cs) {x : String} :
    x ∈ cs.map Prod.fst ↔ ∃ dest, b.HasEntry dest label ∧ x = phiName dest := by
  constructor
  · intro hx
    obtain ⟨c, hmem, rfl⟩ := mem_map.mp hx
    obtain ⟨dest, t, incoming, v, hphi, hv, hname, -⟩ := hc.of_mem c hmem
    exact ⟨dest, ⟨t, incoming, v, hphi, hv⟩, hname⟩
  · rintro ⟨dest, ⟨t, incoming, v, hphi, hv⟩, rfl⟩
    obtain ⟨e, hmem, -⟩ := hc.exists_mem hphi hv
    exact mem_map.mpr ⟨_, hmem, rfl⟩

/-- A phi without an entry for the edge takes what its temporary held before. -/
theorem assignAll_without_entry {V : Type} {R : Reading V} (hb : b ∈ f.blocks)
    (ha : PhisApart f b) (hc : CopiesInto label b cs) {dest : String} (hdest : dest ∈ phisOf b)
    (hentry : ¬ b.HasEntry dest label) (σ : Store V) :
    R.assignAll (R.assignAll σ cs) (movesOf b) (localName dest) = σ (phiName dest) := by
  rw [assignAll_moves hb ha hdest]
  apply R.assignAll_of_notMem
  rw [hc.mem_assigned]
  rintro ⟨dest', hentry', hname⟩
  have hdest' : dest' ∈ phisOf b := by
    obtain ⟨t, incoming, -, hphi, -⟩ := hentry'
    exact mem_phisOf.mpr ⟨t, incoming, hphi⟩
  rw [ha.phiName_inj dest hdest dest' hdest' hname] at hentry
  exact hentry hentry'

end

/-- In a verified module the entries of a phi name blocks of its function, and every way from block
`p` into block `b` assigns just the temporaries of those phis of `b` that have an entry for `p`.
If the function's identifiers are distinct, a phi of `b` without one holds afterwards what its
temporary held before the way was taken. -/
theorem temporary_assigned_iff_entry {V : Type} (R : Reading V) (w : Writer) {m : Module}
    (hm : verify m = .ok ()) {f : Function} (hf : f ∈ m.functions) {n n' : Needs}
    {fd : FunctionDefinition} (hwritten : Gives (w.function m f) n fd n')
    {i j : Nat} {p b : BasicBlock} (hp : f.blocks[i]? = some p) (hb : f.blocks[j]? = some b)
    {t : Terminator} (ht : p.terminator = some t) (hsuccessor : b.label ∈ t.successors) :
    (∀ dest label, b.HasEntry dest label → ∃ q ∈ f.blocks, q.label = label) ∧
    ∃ source ∈ fd.blocks[i]?, ∃ entered ∈ fd.blocks[j]?,
      (∃ k : Nat, t.targets[k]? = some b.label) ∧
      ∀ k : Nat, t.targets[k]? = some b.label → ∃ e ∈ source.exit.edges[k]?,
        e.target = entered.label ∧
        (∀ x, x ∈ e.copies.map Prod.fst ↔
          ∃ dest, b.HasEntry dest p.label ∧ x = phiName dest) ∧
        ((namesOf f).Nodup → ∀ σ : Store V, ∃ σ' : Store V,
          R.run (R.assignAll σ e.copies) (entered.statements.take (phisOf b).length) = some σ' ∧
          ∀ dest ∈ phisOf b, ¬ b.HasEntry dest p.label →
            σ' (localName dest) = σ (phiName dest)) := by
  have hbmem : b ∈ f.blocks := mem_of_getElem? hb
  have hdefined : f.isDeclaration = false := by
    simpa [Function.isDeclaration] using ne_nil_of_mem hbmem
  obtain ⟨hlabels, -, hblocks, -⟩ :=
    Verify.checkFunction_ok.mp ((verify_ok.mp hm).2.2 f hf hdefined)
  have hblock : f.block? b.label = some b := Function.block?_of_mem hlabels hbmem
  refine ⟨?_, ?_⟩
  · rintro dest label ⟨type, incoming, v, hphi, hv⟩
    have hcheck := (Verify.checkBlock_ok.mp (hblocks b hbmem)).1 _ hphi
    exact mem_map.mp (Verify.checkInstruction_phi hcheck _ hv)
  · have hwrittenBlocks := gives_function hwritten
    obtain ⟨source, hsource, m₁, m₁', hgsource⟩ := getElem?_of_forall₂ hwrittenBlocks hp
    obtain ⟨entered, hentered, m₂, m₂', hgentered⟩ := getElem?_of_forall₂ hwrittenBlocks hb
    obtain ⟨-, -, t', m₃, m₃', ht', hexit⟩ := gives_block hgsource
    obtain ⟨hname, hmoves, -⟩ := gives_block hgentered
    obtain rfl : t = t' := Option.some.inj (ht.symm.trans ht')
    refine ⟨source, hsource, entered, hentered,
      mem_iff_getElem?.mp (Terminator.mem_targets_iff.mpr hsuccessor), ?_⟩
    intro k hk
    obtain ⟨e, he, m₄, m₄', hedge⟩ := getElem?_of_forall₂ (gives_exit hexit) hk
    obtain ⟨b', hb', hetarget, hcopies⟩ := gives_edge hedge
    obtain rfl : b = b' := Option.some.inj (hblock.symm.trans hb')
    refine ⟨e, he, by rw [hetarget, hname], fun x => hcopies.mem_assigned, ?_⟩
    intro hnames σ
    refine ⟨R.assignAll (R.assignAll σ e.copies) (movesOf b), ?_, ?_⟩
    · rw [hmoves, R.run_assigns]
    · intro dest hdest hentry
      exact assignAll_without_entry hbmem (phisApart_of_nodup hnames hbmem) hcopies hdest hentry σ

/-- A phi with a value for one of the two ways into its block. -/
def lopsidedJoin : BasicBlock :=
  ⟨"join", [.phi "v" (.int .w32) [(.int 1, "left")]], some (.ret (some (.int .w32, .var "v")))⟩

def lopsided : Function where
  name := "f"
  linkage := .external
  result := .int .w32
  params := [⟨"c", .int .w1⟩]
  isVariadic := false
  blocks := [
    ⟨"entry", [], some (.branch (.var "c") "left" "join")⟩,
    ⟨"left", [], some (.jump "join")⟩,
    lopsidedJoin]

theorem lopsidedJoin_hasEntry {label : String} (h : lopsidedJoin.HasEntry "v" label) :
    label = "left" := by
  obtain ⟨type, incoming, v, hphi, hv⟩ := h
  simp only [lopsidedJoin, mem_singleton, Instruction.phi.injEq, true_and] at hphi
  obtain ⟨rfl, rfl⟩ := hphi
  simp only [mem_singleton, Prod.mk.injEq] at hv
  exact hv.2

theorem temporary_assigned_iff_entry_lopsided :
    verify ⟨"m", none, none, [], [], [lopsided]⟩ = .ok () ∧
    ∃ fd n', Gives (hostWriter.function ⟨"m", none, none, [], [], [lopsided]⟩ lopsided) {} fd n' ∧
      (namesOf lopsided).Nodup ∧
      ∃ source ∈ fd.blocks[0]?, ∃ entered ∈ fd.blocks[2]?, ∃ e ∈ source.exit.edges[1]?,
        e.target = entered.label ∧
        ∀ σ : Store Int, ∃ σ' : Store Int,
          Reading.integers.run (Reading.integers.assignAll σ e.copies)
            (entered.statements.take 1) = some σ' ∧
          σ' (localName "v") = σ (phiName "v") := by
  have hm : verify ⟨"m", none, none, [], [], [lopsided]⟩ = .ok () := rfl
  have hnames : (namesOf lopsided).Nodup := by decide +kernel
  obtain ⟨fd, n', hwritten⟩ : ∃ fd n',
      Gives (hostWriter.function ⟨"m", none, none, [], [], [lopsided]⟩ lopsided) {} fd n' :=
    ⟨_, _, rfl⟩
  obtain ⟨-, source, hsource, entered, hentered, -, hedges⟩ :=
    temporary_assigned_iff_entry Reading.integers hostWriter hm (mem_singleton_self _)
      hwritten (i := 0) (j := 2) (b := lopsidedJoin) rfl rfl rfl (by decide +kernel)
  obtain ⟨e, he, htarget, -, hstale⟩ := hedges 1 rfl
  refine ⟨hm, fd, n', hwritten, hnames, source, hsource, entered, hentered, e, he, htarget, ?_⟩
  intro σ
  obtain ⟨σ', hrun, hσ'⟩ := hstale hnames σ
  refine ⟨σ', hrun, hσ' "v" (.head _) fun hentry => ?_⟩
  have hlabel := lopsidedJoin_hasEntry hentry
  revert hlabel
  decide +kernel

/-- The way from the first block into the join assigns nothing. -/
theorem lopsided_temporary_left_unassigned :
    verify ⟨"m", none, none, [], [], [lopsided]⟩ = .ok () ∧
    (∃ p ∈ lopsided.blocks, ∃ t ∈ p.terminator, lopsidedJoin.label ∈ t.successors ∧
      ∃ dest ∈ phisOf lopsidedJoin, ¬ lopsidedJoin.HasEntry dest p.label) ∧
    ∃ fd n', Gives (hostWriter.function ⟨"m", none, none, [], [], [lopsided]⟩ lopsided) {} fd n' ∧
      ∃ source ∈ fd.blocks[0]?, ∃ e ∈ source.exit.edges[1]?,
        e.target = blockName "join" ∧ e.copies.map Prod.fst = [] := by
  refine ⟨rfl, ⟨_, .head _, _, rfl, by decide +kernel, "v", .head _, fun hentry => ?_⟩,
    _, _, rfl, _, rfl, _, rfl, rfl, rfl⟩
  have hlabel := lopsidedJoin_hasEntry hentry
  revert hlabel
  decide +kernel

end Offload.C
