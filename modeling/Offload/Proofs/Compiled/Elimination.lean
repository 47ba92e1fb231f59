import Offload.Proofs.Compiled.Reachable
import Offload.Proofs.Compiled.Verify
import Mathlib.Data.List.Flatten

/-!
# Verification without the unreachable blocks

Dropping the unreachable blocks of a verified module keeps every check but one: a value may have had
its definition in a dropped block and still be read in a block that stays. Names stay distinct, as
fewer are left, and labels stay known, as control can get to all that are named.
-/

namespace Offload.Compiled

open List

namespace Verify

/-! ### Checks of what is left -/

/-- The check passes, or it finds one of the given values undefined. -/
def PassesBut (P : String → Prop) (r : Except FunctionFlaw Unit) : Prop :=
  r = .ok () ∨ ∃ name, P name ∧ r = .error (.undefinedValue name)

section

variable {P Q : String → Prop} {x y : Except FunctionFlaw Unit}

theorem PassesBut.mono (h : PassesBut P x) (hPQ : ∀ name, P name → Q name) : PassesBut Q x := by
  rcases h with h | ⟨name, hname, h⟩
  · exact .inl h
  · exact .inr ⟨name, hPQ name hname, h⟩

theorem PassesBut.seq (hx : PassesBut P x) (hy : PassesBut P y) :
    PassesBut P (x >>= fun _ => y) := by
  rcases hx with rfl | ⟨name, hname, rfl⟩
  · exact hy
  · exact .inr ⟨name, hname, rfl⟩

theorem passesBut_reportFirst {α : Type} {check : α → Except FunctionFlaw Unit} {items : List α}
    (h : ∀ a ∈ items, PassesBut P (check a)) : PassesBut P (reportFirst check items) := by
  induction items with
  | nil => exact .inl rfl
  | cons a items ih =>
    rw [forall_mem_cons] at h
    exact h.1.seq (ih h.2)

end

/-- The modules have the same symbols, and functions that are called alike. -/
structure Agrees (m m' : Module) : Prop where
  isSymbol : ∀ name, isSymbol m' name = isSymbol m name
  checkCall : ∀ callee args, checkCall m' callee args = checkCall m callee args

section

variable {m m' : Module} {labels labels' defined defined' : List String} {result : Ty}
  {keep : String → Bool}

mutual

theorem Agrees.missingSymbol (ha : Agrees m m') : ∀ v, missingSymbol m' v = missingSymbol m v
  | .symbol name => by simp only [Verify.missingSymbol, ha.isSymbol]
  | .array items => by simpa only [Verify.missingSymbol] using ha.missingInItems items
  | .struct items => by simpa only [Verify.missingSymbol] using ha.missingInItems items
  | .var _ | .int _ | .float _ | .bool _ | .null | .undef | .zero => by
    simp only [Verify.missingSymbol]

theorem Agrees.missingInItems (ha : Agrees m m') :
    ∀ items, missingInItems m' items = missingInItems m items
  | [] => by simp only [Verify.missingInItems]
  | (_, v) :: rest => by
    simp only [Verify.missingInItems, ha.missingSymbol v, ha.missingInItems rest]

end

theorem Agrees.checkGlobal (ha : Agrees m m') (g : Global) :
    checkGlobal m' g = checkGlobal m g := by
  have hinit : g.init.bind (Verify.missingSymbol m') = g.init.bind (Verify.missingSymbol m) := by
    cases g.init with
    | none => rfl
    | some v => exact ha.missingSymbol v
  rw [Verify.checkGlobal, Verify.checkGlobal, hinit]

theorem Agrees.checkValue (ha : Agrees m m') {v : Value} (h : checkValue m defined v = .ok ()) :
    PassesBut (fun name => v = .var name ∧ name ∉ defined') (checkValue m' defined' v) := by
  cases v with
  | var name =>
    by_cases hname : name ∈ defined'
    · exact .inl (checkValue_var.mpr hname)
    · exact .inr ⟨name, ⟨rfl, hname⟩, by simp [Verify.checkValue, hname]⟩
  | _ =>
    left
    rw [← h]
    simp only [Verify.checkValue, ha.missingSymbol]

theorem operands_keepEntries {i : Instruction} : (i.keepEntries keep).operands ⊆ i.operands := by
  cases i with
  | phi dest t incoming => exact map_subset _ (filter_subset_self _)
  | _ => exact List.Subset.refl _

theorem Agrees.checkInstruction (ha : Agrees m m')
    (hlabels : ∀ label ∈ labels, keep label = true → label ∈ labels') {i : Instruction}
    (h : checkInstruction m labels defined i = .ok ()) :
    PassesBut (fun name => .var name ∈ (i.keepEntries keep).operands ∧ name ∉ defined')
      (checkInstruction m' labels' defined' (i.keepEntries keep)) := by
  have hrest := h
  unfold Verify.checkInstruction at hrest ⊢
  obtain ⟨-, hrest⟩ := except_seq_ok.mp hrest
  refine PassesBut.seq (passesBut_reportFirst fun v hv => ?_) (.inl ?_)
  · refine (ha.checkValue (checkInstruction_operands h v (operands_keepEntries hv))).mono ?_
    rintro name ⟨rfl, hname⟩
    exact ⟨hv, hname⟩
  · cases i with
    | call dest t callee args =>
      simp only [Instruction.keepEntries]
      rw [ha.checkCall]
      exact hrest
    | phi dest t incoming =>
      have hfind : (incoming.filter fun e => keep e.2).find? (fun e => !labels'.contains e.2) =
          none := by
        rw [find?_eq_none]
        intro e he
        obtain ⟨he, hkeep⟩ := mem_filter.mp he
        simpa using hlabels e.2 (checkInstruction_phi h e he) hkeep
      simp only [Instruction.keepEntries, hfind]
    | _ => exact hrest

theorem Agrees.checkTerminator (ha : Agrees m m') {label : String} {t : Terminator}
    (h : checkTerminator m labels defined result label t = .ok ())
    (hlabels : ∀ target ∈ t.successors, target ∈ labels') :
    PassesBut (fun name => .var name ∈ t.operands ∧ name ∉ defined')
      (checkTerminator m' labels' defined' result label t) := by
  have hvalue : ∀ v ∈ t.operands, PassesBut (fun name => .var name ∈ t.operands ∧ name ∉ defined')
      (Verify.checkValue m' defined' v) := by
    intro v hv
    refine (ha.checkValue (checkTerminator_operands h v hv)).mono ?_
    rintro name ⟨rfl, hname⟩
    exact ⟨hv, hname⟩
  unfold Verify.checkTerminator at h ⊢
  obtain ⟨-, h⟩ := except_seq_ok.mp h
  refine PassesBut.seq (.inl (reportFirst_ok.mpr fun target ht => ?_)) ?_
  · simp [checkSuccessor, hlabels target ht]
  · cases t with
    | ret r =>
      cases r with
      | none => exact .inl h
      | some r =>
        obtain ⟨found, v⟩ := r
        by_cases htype : found = result
        · simpa [htype] using hvalue v (by simp [Terminator.operands])
        · simp [htype] at h
    | jump target => exact .inl h
    | branch condition onTrue onFalse => exact hvalue condition (by simp [Terminator.operands])
    | switch type v default cases => exact hvalue v (by simp [Terminator.operands])
    | unreachable => exact .inl h

theorem Agrees.checkBlock (ha : Agrees m m')
    (hlabels : ∀ label ∈ labels, keep label = true → label ∈ labels') {b : BasicBlock}
    (h : checkBlock m labels defined result b = .ok ())
    (hsuccessors : ∀ target ∈ b.successors, target ∈ labels') :
    PassesBut (fun name => .var name ∈ (b.keepEntries keep).operands ∧ name ∉ defined')
      (checkBlock m' labels' defined' result (b.keepEntries keep)) := by
  obtain ⟨hinstructions, t, ht, hterminator⟩ := checkBlock_ok.mp h
  unfold Verify.checkBlock
  refine PassesBut.seq (passesBut_reportFirst fun i' hi' => ?_) ?_
  · obtain ⟨i, hi, rfl⟩ := mem_map.mp hi'
    refine (ha.checkInstruction hlabels (hinstructions i hi)).mono ?_
    rintro name ⟨hv, hname⟩
    exact ⟨mem_append_left _ (mem_flatMap.mpr ⟨_, hi', hv⟩), hname⟩
  · rw [BasicBlock.terminator_keepEntries, ht]
    rw [BasicBlock.successors, ht] at hsuccessors
    refine (ha.checkTerminator hterminator hsuccessors).mono ?_
    rintro name ⟨hv, hname⟩
    refine ⟨mem_append_right _ ?_, hname⟩
    rw [BasicBlock.terminator_keepEntries, ht]
    exact hv

end

end Verify

/-! ### Functions -/

namespace Function

variable {f : Function} {name : String}

theorem isDeclaration_dropUnreachable (f : Function) :
    f.dropUnreachable.isDeclaration = f.isDeclaration := by
  have hhead := f.head?_blocks_dropUnreachable
  unfold isDeclaration
  cases hb : f.blocks with
  | nil => simp [dropUnreachable, hb]
  | cons entry rest =>
    rw [hb] at hhead
    cases hd : f.dropUnreachable.blocks with
    | nil => simp [hd] at hhead
    | cons => rfl

theorem dest?_keepEntries (keep : String → Bool) (i : Instruction) :
    (i.keepEntries keep).dest? = i.dest? := by
  cases i <;> rfl

/-- A name that a block of the function defines. -/
theorem mem_dests :
    name ∈ f.instructions.filterMap Instruction.dest? ↔
      ∃ b ∈ f.blocks, ∃ i ∈ b.instructions, i.dest? = some name := by
  simp only [instructions, mem_filterMap, mem_flatMap]
  constructor
  · rintro ⟨i, ⟨b, hb, hi⟩, hdest⟩
    exact ⟨b, hb, i, hi, hdest⟩
  · rintro ⟨b, hb, i, hi, hdest⟩
    exact ⟨i, ⟨b, hb, hi⟩, hdest⟩

theorem mem_dests_dropUnreachable (hlabels : (f.blocks.map (·.label)).Nodup) :
    name ∈ f.dropUnreachable.instructions.filterMap Instruction.dest? ↔
      ∃ b ∈ f.blocks, f.Reaches b.label ∧ ∃ i ∈ b.instructions, i.dest? = some name := by
  rw [mem_dests]
  constructor
  · rintro ⟨b', hb', i', hi', hdest⟩
    obtain ⟨b, hb, hreach, rfl⟩ := (mem_blocks_dropUnreachable hlabels).mp hb'
    obtain ⟨i, hi, rfl⟩ := mem_map.mp hi'
    exact ⟨b, hb, hreach, i, hi, by rw [← hdest, dest?_keepEntries]⟩
  · rintro ⟨b, hb, hreach, i, hi, hdest⟩
    refine ⟨_, (mem_blocks_dropUnreachable hlabels).mpr ⟨b, hb, hreach, rfl⟩,
      i.keepEntries f.reachable.contains, mem_map_of_mem hi, ?_⟩
    rw [dest?_keepEntries, hdest]

theorem definitions_dropUnreachable_sublist (f : Function) :
    f.dropUnreachable.definitions.Sublist f.definitions := by
  have hdests : ∀ b : BasicBlock,
      (b.keepEntries f.reachable.contains).instructions.filterMap Instruction.dest? =
        b.instructions.filterMap Instruction.dest? := by
    intro b
    rw [BasicBlock.keepEntries, filterMap_map]
    exact filterMap_congr fun i _ => dest?_keepEntries _ i
  unfold definitions instructions
  rw [dropUnreachable_eq]
  refine List.Sublist.append (List.Sublist.refl _) ?_
  rw [filterMap_flatMap, filterMap_flatMap, flatMap_map]
  simp only [hdests]
  exact filter_sublist.flatMap _

/-- Distinct names are defined in one block only. -/
theorem eq_of_defines (hdefinitions : f.definitions.Nodup) {b d : BasicBlock} (hb : b ∈ f.blocks)
    (hd : d ∈ f.blocks) {i j : Instruction} (hi : i ∈ b.instructions)
    (hj : j ∈ d.instructions) (hiname : i.dest? = some name) (hjname : j.dest? = some name) :
    b = d := by
  have hdests := (nodup_append.mp hdefinitions).2.1
  rw [instructions, filterMap_flatMap, nodup_flatMap] at hdests
  have hib : name ∈ b.instructions.filterMap Instruction.dest? := mem_filterMap.mpr ⟨i, hi, hiname⟩
  have hjd : name ∈ d.instructions.filterMap Instruction.dest? := mem_filterMap.mpr ⟨j, hj, hjname⟩
  rcases eq_or_rel_of_pairwise hdests.2 hb hd with h | h | h
  · exact h
  · exact absurd hjd (h hib)
  · exact absurd hib (h hjd)

/-- A block that stays reads a value that a dropped block defines. -/
def ReadsDropped (f : Function) (name : String) : Prop :=
  (∃ b ∈ f.dropUnreachable.blocks, .var name ∈ b.operands) ∧
    ∃ d ∈ f.blocks, ¬ f.Reaches d.label ∧ ∃ i ∈ d.instructions, i.dest? = some name

theorem operands_keepEntries_subset (keep : String → Bool) (b : BasicBlock) :
    (b.keepEntries keep).operands ⊆ b.operands := by
  intro v hv
  rcases mem_append.mp hv with hv | hv
  · obtain ⟨i', hi', hv⟩ := mem_flatMap.mp hv
    obtain ⟨i, hi, rfl⟩ := mem_map.mp hi'
    exact mem_append_left _
      (mem_flatMap.mpr ⟨i, hi, Verify.operands_keepEntries hv⟩)
  · exact mem_append_right _ hv

theorem readsDropped_of_undefined {m : Module} (h : Verify.checkFunction m f = .ok ())
    {b : BasicBlock} (hb : b ∈ f.blocks) (hreach : f.Reaches b.label)
    (hread : .var name ∈ (b.keepEntries f.reachable.contains).operands)
    (hundefined : name ∉ f.dropUnreachable.definitions) : f.ReadsDropped name := by
  obtain ⟨hlabels, -, hblocks, -⟩ := Verify.checkFunction_ok.mp h
  refine ⟨⟨_, (mem_blocks_dropUnreachable hlabels).mpr ⟨b, hb, hreach, rfl⟩, hread⟩, ?_⟩
  have hdefined := Verify.mem_of_checkBlock (hblocks b hb) (operands_keepEntries_subset _ b hread)
  rw [definitions, mem_append, not_or, mem_dests_dropUnreachable hlabels] at hundefined
  rcases mem_append.mp hdefined with hparam | hdest
  · exact absurd hparam hundefined.1
  · obtain ⟨d, hd, i, hi, hdest⟩ := mem_dests.mp hdest
    exact ⟨d, hd, fun hdreach => hundefined.2 ⟨d, hd, hdreach, i, hi, hdest⟩, i, hi, hdest⟩

theorem ReadsDropped.undefined (h : f.ReadsDropped name)
    (hlabels : (f.blocks.map (·.label)).Nodup) (hdefinitions : f.definitions.Nodup) :
    name ∉ f.dropUnreachable.definitions := by
  obtain ⟨-, d, hd, hunreached, i, hi, hdest⟩ := h
  rw [definitions, mem_append, mem_dests_dropUnreachable hlabels]
  rintro (hparam | ⟨b, hb, hreach, j, hj, hjdest⟩)
  · have hne := (nodup_append.mp hdefinitions).2.2 name hparam name
      (mem_dests.mpr ⟨d, hd, i, hi, hdest⟩)
    exact hne rfl
  · rw [eq_of_defines hdefinitions hb hd hj hi hjdest hdest] at hreach
    exact hunreached hreach

end Function

namespace Verify

variable {m m' : Module} {f : Function}

theorem Agrees.checkFunction (ha : Agrees m m') (h : checkFunction m f = .ok ()) :
    PassesBut f.ReadsDropped (checkFunction m' f.dropUnreachable) := by
  obtain ⟨hlabels, hdefinitions, hblocks, hentry⟩ := checkFunction_ok.mp h
  have hkept : ∀ label ∈ f.blocks.map (·.label), f.Reaches label →
      label ∈ f.dropUnreachable.blocks.map (·.label) := by
    intro label hl hreach
    obtain ⟨b, hb, rfl⟩ := mem_map.mp hl
    exact mem_map.mpr
      ⟨_, (Function.mem_blocks_dropUnreachable hlabels).mpr ⟨b, hb, hreach, rfl⟩, rfl⟩
  unfold Verify.checkFunction
  refine PassesBut.seq (.inl (checkNames_ok.mpr ⟨f.labels_dropUnreachable_sublist.nodup hlabels,
    f.definitions_dropUnreachable_sublist.nodup hdefinitions⟩)) ?_
  refine PassesBut.seq (passesBut_reportFirst fun b' hb' => ?_) (.inl (checkEntry_ok.mpr ?_))
  · obtain ⟨b, hb, hreach, rfl⟩ := (Function.mem_blocks_dropUnreachable hlabels).mp hb'
    obtain ⟨-, t, ht, hterminator⟩ := checkBlock_ok.mp (hblocks b hb)
    refine (ha.checkBlock ?_ (hblocks b hb) ?_).mono ?_
    · intro label hl hkeep
      rw [contains_iff_mem, Function.mem_reachable_iff hlabels] at hkeep
      exact hkept label hl hkeep
    · intro target htarget
      refine hkept target ?_ (.step hb hreach htarget)
      rw [BasicBlock.successors, ht] at htarget
      exact checkTerminator_successors hterminator target htarget
    · rintro name ⟨hread, hundefined⟩
      exact Function.readsDropped_of_undefined h hb hreach hread hundefined
  · intro b' hb' i' hi'
    rw [Function.head?_blocks_dropUnreachable] at hb'
    obtain ⟨b, hb, rfl⟩ := Option.map_eq_some_iff.mp hb'
    obtain ⟨i, hi, rfl⟩ := mem_map.mp hi'
    have hphi := checkEntry_ok.mp hentry b hb i hi
    cases i <;> exact hphi

end Verify

/-! ### Modules -/

namespace Module

theorem symbols_dropUnreachable (m : Module) : m.dropUnreachable.symbols = m.symbols := by
  simp [symbols, dropUnreachable, Function.dropUnreachable]

theorem function?_dropUnreachable (m : Module) (name : String) :
    m.dropUnreachable.function? name = (m.function? name).map (·.dropUnreachable) := by
  rw [function?, dropUnreachable, find?_map]
  rfl

theorem agrees_dropUnreachable (m : Module) : Verify.Agrees m m.dropUnreachable := by
  constructor
  · intro name
    rw [Verify.isSymbol, Verify.isSymbol, function?_dropUnreachable, Option.isSome_map]
    rfl
  · intro callee args
    rw [Verify.checkCall, Verify.checkCall, function?_dropUnreachable]
    cases m.function? callee <;> rfl

/-- Dropping the unreachable blocks of a verified module gives a verified module exactly if no block
that stays reads a value that a dropped block defines. Otherwise such a value is what verification
reports as undefined: no other check can fail. -/
theorem verify_dropUnreachable_iff (m : Module) (hm : verify m = .ok ()) :
    (verify m.dropUnreachable = .ok () ↔
      ∀ f ∈ m.functions, ∀ name, ¬ f.ReadsDropped name) ∧
    ∀ e, verify m.dropUnreachable = .error e →
      ∃ f ∈ m.functions, ∃ name, f.ReadsDropped name ∧
        e = .function f.name (.undefinedValue name) := by
  obtain ⟨hsymbols, hglobals, hfunctions⟩ := verify_ok.mp hm
  have ha := m.agrees_dropUnreachable
  have hglobals' : ∀ g ∈ m.dropUnreachable.globals,
      Verify.checkGlobal m.dropUnreachable g = .ok () := by
    intro g hg
    rw [ha.checkGlobal]
    exact hglobals g hg
  have herror : ∀ e, verify m.dropUnreachable = .error e →
      ∃ f ∈ m.functions, ∃ name, f.ReadsDropped name ∧
        e = .function f.name (.undefinedValue name) := by
    intro e he
    obtain ⟨f', hf', hdefined, flaw, hflaw, rfl⟩ :=
      verify_error he (by rwa [symbols_dropUnreachable]) hglobals'
    obtain ⟨f, hf, rfl⟩ := mem_map.mp hf'
    rw [Function.isDeclaration_dropUnreachable] at hdefined
    rcases ha.checkFunction (hfunctions f hf hdefined) with hok | ⟨name, hname, herr⟩
    · rw [hok] at hflaw
      cases hflaw
    · rw [herr] at hflaw
      cases hflaw
      exact ⟨f, hf, name, hname, rfl⟩
  refine ⟨⟨?_, ?_⟩, herror⟩
  · intro hok f hf name hreads
    obtain ⟨-, -, hfunctions'⟩ := verify_ok.mp hok
    have hdefined : f.isDeclaration = false := by
      obtain ⟨-, d, hd, -⟩ := hreads
      simpa [Function.isDeclaration] using ne_nil_of_mem hd
    obtain ⟨hlabels, hdefinitions, -, -⟩ := Verify.checkFunction_ok.mp (hfunctions f hf hdefined)
    have hok' := hfunctions' f.dropUnreachable (mem_map_of_mem hf)
      (by rwa [Function.isDeclaration_dropUnreachable])
    obtain ⟨-, -, hblocks, -⟩ := Verify.checkFunction_ok.mp hok'
    obtain ⟨b, hb, hread⟩ := hreads.1
    exact hreads.undefined hlabels hdefinitions (Verify.mem_of_checkBlock (hblocks b hb) hread)
  · intro hnone
    cases hverify : verify m.dropUnreachable with
    | ok u => rfl
    | error e =>
      obtain ⟨f, hf, name, hreads, -⟩ := herror e hverify
      exact absurd hreads (hnone f hf name)

/-- The value of the dropped block is read along the dropped entry only. -/
theorem verify_dropUnreachable_iff_count :
    verify ⟨"m", none, none, [], [], [Function.count]⟩ = .ok () ∧
      (¬ Function.count.ReadsDropped "s") ∧
      verify (dropUnreachable ⟨"m", none, none, [], [], [Function.count]⟩) = .ok () := by
  have hm : verify ⟨"m", none, none, [], [], [Function.count]⟩ = .ok () := rfl
  have hdropped : verify (dropUnreachable ⟨"m", none, none, [], [], [Function.count]⟩) = .ok () :=
    rfl
  have hiff := (verify_dropUnreachable_iff _ hm).1
  exact ⟨hm, hiff.mp hdropped Function.count (by simp) "s", hdropped⟩

/-- A function that returns a value from a block that control never gets to. -/
def strandedRead : Module where
  name := "m"
  functions := [{
    name := "f"
    linkage := .external
    result := .int .w32
    params := []
    isVariadic := false
    blocks := [
      ⟨"entry", [], some (.ret (some (.int .w32, .var "x")))⟩,
      ⟨"dead", [.binary "x" .add (.int .w32) (.int 1) (.int 2)], some (.jump "dead")⟩] }]

theorem strandedRead_not_verified_after_drop :
    verify strandedRead = .ok () ∧
      verify strandedRead.dropUnreachable = .error (.function "f" (.undefinedValue "x")) :=
  ⟨rfl, rfl⟩

end Module

end Offload.Compiled
