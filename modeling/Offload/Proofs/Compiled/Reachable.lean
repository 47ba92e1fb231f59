import Offload.Compiled.Reachable
import Offload.Compiled.Verify
import Mathlib.Data.List.Chain
import Mathlib.Data.List.Nodup

/-!
# Reachable blocks

The search for labels ends before its bound is used up, and it finds the labels that control can
reach from the first block. So the blocks that stay are the reachable ones, and control that runs
through them sees no difference: what is dropped of a phi comes from blocks that it never leaves.
-/

namespace Offload.Compiled

open List

/-- Labels that control can go to from the end of the block. -/
def BasicBlock.successors (b : BasicBlock) : List String :=
  (b.terminator.map (·.successors)).getD []

namespace Function

variable {f : Function} {label : String} {b : BasicBlock}

/-- A label that control can get to from the first block. -/
inductive Reaches (f : Function) : String → Prop
  | entry {b : BasicBlock} : f.blocks.head? = some b → Reaches f b.label
  | step {b : BasicBlock} {target : String} :
    b ∈ f.blocks → Reaches f b.label → target ∈ b.successors → Reaches f target

theorem block?_mem (h : f.block? label = some b) : b ∈ f.blocks ∧ b.label = label :=
  ⟨mem_of_find?_eq_some h, by simpa using find?_some h⟩

theorem block?_of_mem (hlabels : (f.blocks.map (·.label)).Nodup)
    (hb : b ∈ f.blocks) : f.block? b.label = some b := by
  cases h : f.block? b.label with
  | none =>
    have hne := find?_eq_none.mp h b hb
    simp at hne
  | some b' =>
    obtain ⟨hb', hlabel⟩ := block?_mem h
    rw [inj_on_of_nodup_map hlabels hb' hb hlabel]

theorem successorsOf_of_block? (h : f.block? label = some b) :
    f.successorsOf label = b.successors := by
  rw [successorsOf, h, BasicBlock.successors]
  cases ht : b.terminator <;> simp [ht]

theorem successorsOf_of_none (h : f.block? label = none) : f.successorsOf label = [] := by
  rw [successorsOf, h]
  rfl

theorem Reaches.of_successorsOf {label target : String} (h : f.Reaches label)
    (ht : target ∈ f.successorsOf label) : f.Reaches target := by
  cases hb : f.block? label with
  | none =>
    rw [successorsOf_of_none hb] at ht
    simp at ht
  | some b =>
    rw [successorsOf_of_block? hb] at ht
    obtain ⟨hmem, rfl⟩ := block?_mem hb
    exact .step hmem h ht

/-! ### The search -/

/-- The search from the labels seen and those still to visit ends with the labels found. -/
inductive Searches (f : Function) : List String → List String → List String → Prop
  | done {seen : List String} : Searches f seen [] seen
  | again {seen work found : List String} {label : String} :
    label ∈ seen → Searches f seen work found → Searches f seen (label :: work) found
  | expand {seen work found : List String} {label : String} :
    label ∉ seen → Searches f (label :: seen) (f.successorsOf label ++ work) found →
      Searches f seen (label :: work) found

namespace Searches

variable {seen work found : List String}

theorem seen_subset (h : f.Searches seen work found) : seen ⊆ found := by
  induction h with
  | done => exact List.Subset.refl _
  | again _ _ ih => exact ih
  | expand _ _ ih => exact List.Subset.trans (subset_cons_self _ _) ih

theorem work_subset (h : f.Searches seen work found) : work ⊆ found := by
  induction h with
  | done => exact nil_subset _
  | again hmem hrest ih => exact cons_subset.mpr ⟨hrest.seen_subset hmem, ih⟩
  | expand _ hrest ih =>
    exact cons_subset.mpr ⟨hrest.seen_subset mem_cons_self,
      List.Subset.trans (subset_append_right _ _) ih⟩

theorem reaches (h : f.Searches seen work found) (hseen : ∀ label ∈ seen, f.Reaches label)
    (hwork : ∀ label ∈ work, f.Reaches label) : ∀ label ∈ found, f.Reaches label := by
  induction h with
  | done => exact hseen
  | again _ _ ih => exact ih hseen fun label hl => hwork label (mem_cons_of_mem _ hl)
  | expand _ _ ih =>
    rw [forall_mem_cons] at hwork
    obtain ⟨hlabel, hwork⟩ := hwork
    apply ih
    · exact forall_mem_cons.mpr ⟨hlabel, hseen⟩
    · intro target ht
      rcases mem_append.mp ht with ht | ht
      · exact hlabel.of_successorsOf ht
      · exact hwork target ht

/-- A label is seen together with its successors or has put them among those to visit, so that at
the end nothing leads out of the labels found. -/
theorem closed (h : f.Searches seen work found)
    (hseen : ∀ label ∈ seen, f.successorsOf label ⊆ seen ++ work) :
    ∀ label ∈ found, f.successorsOf label ⊆ found := by
  induction h with
  | done => simpa using hseen
  | again hmem _ ih =>
    apply ih
    intro label hl target ht
    have := hseen label hl ht
    simp only [mem_append, mem_cons] at this ⊢
    rcases this with h | rfl | h
    · exact .inl h
    · exact .inl hmem
    · exact .inr h
  | expand _ _ ih =>
    apply ih
    intro label hl target ht
    simp only [mem_append, mem_cons]
    rcases mem_cons.mp hl with rfl | hl
    · exact .inr (.inl ht)
    · have := hseen label hl ht
      simp only [mem_append, mem_cons] at this
      tauto

end Searches

/-- Number of branch targets in blocks that have not been seen. -/
def unexpanded (f : Function) (seen : List String) : Nat :=
  ((f.blocks.filter fun b => !seen.contains b.label).flatMap (·.successors)).length

/-- A label that is expanded takes its branch targets from those left. -/
theorem unexpanded_cons {seen : List String} (h : label ∉ seen) :
    (f.successorsOf label).length + f.unexpanded (label :: seen) ≤ f.unexpanded seen := by
  have hfind : (f.successorsOf label).length =
      ((f.blocks.find? (·.label == label)).map (·.successors.length)).getD 0 := by
    cases hb : f.block? label with
    | none =>
      rw [successorsOf_of_none hb]
      rw [block?] at hb
      simp [hb]
    | some b =>
      rw [successorsOf_of_block? hb]
      rw [block?] at hb
      simp [hb]
  rw [hfind, unexpanded, unexpanded]
  generalize f.blocks = blocks
  induction blocks with
  | nil => simp
  | cons b blocks ih =>
    by_cases hlabel : b.label = label
    · subst hlabel
      rw [find?_cons_of_pos (by simp), filter_cons_of_neg (by simp),
        filter_cons_of_pos (by simpa using h), flatMap_cons, length_append]
      exact Nat.add_le_add_left ((Nat.le_add_left _ _).trans ih) _
    · rw [find?_cons_of_neg (by simpa using hlabel)]
      by_cases hb : b.label ∈ seen
      · rw [filter_cons_of_neg (by simp [hb]), filter_cons_of_neg (by simp [hb])]
        exact ih
      · rw [filter_cons_of_pos (by simp [hlabel, hb]), filter_cons_of_pos (by simp [hb]),
          flatMap_cons, flatMap_cons, length_append, length_append]
        omega

theorem searches_visit {fuel : Nat} {seen work : List String}
    (h : work.length + f.unexpanded seen < fuel) :
    f.Searches seen work (f.visit fuel seen work) := by
  induction fuel generalizing seen work with
  | zero => omega
  | succ fuel ih =>
    cases work with
    | nil => exact .done
    | cons label work =>
      rw [length_cons] at h
      by_cases hlabel : label ∈ seen
      · rw [visit, if_pos (by simpa using hlabel)]
        exact .again hlabel (ih (by omega))
      · have hle := unexpanded_cons (f := f) hlabel
        rw [visit, if_neg (by simpa using hlabel)]
        refine .expand hlabel (ih ?_)
        rw [length_append]
        omega

theorem searches_reachable (f : Function) :
    f.Searches [] (f.blocks.head?.map (·.label)).toList f.reachable := by
  apply searches_visit
  have htotal : f.unexpanded [] + 2 = f.visits := by simp [unexpanded, visits]; rfl
  have hlength : (f.blocks.head?.map (·.label)).toList.length ≤ 1 := by
    cases f.blocks.head? <;> simp
  omega

theorem reaches_of_mem_reachable (h : label ∈ f.reachable) : f.Reaches label := by
  refine f.searches_reachable.reaches (by simp) ?_ label h
  intro label hl
  obtain ⟨b, hb, rfl⟩ := Option.map_eq_some_iff.mp (Option.mem_toList.mp hl)
  exact .entry hb

theorem mem_reachable_of_reaches (hlabels : (f.blocks.map (·.label)).Nodup)
    (h : f.Reaches label) : label ∈ f.reachable := by
  induction h with
  | entry hb => exact f.searches_reachable.work_subset (by simp [hb])
  | step hb _ ht ih =>
    rw [← successorsOf_of_block? (block?_of_mem hlabels hb)] at ht
    exact f.searches_reachable.closed (by simp) _ ih ht

theorem mem_reachable_iff (hlabels : (f.blocks.map (·.label)).Nodup) :
    label ∈ f.reachable ↔ f.Reaches label :=
  ⟨reaches_of_mem_reachable, mem_reachable_of_reaches hlabels⟩

end Function

/-! ### What stays -/

/-- The instruction with only those phi entries whose label is kept. -/
def Instruction.keepEntries (keep : String → Bool) : Instruction → Instruction
  | .phi dest t incoming => .phi dest t (incoming.filter fun e => keep e.2)
  | i => i

def BasicBlock.keepEntries (keep : String → Bool) (b : BasicBlock) : BasicBlock :=
  { b with instructions := b.instructions.map (·.keepEntries keep) }

@[simp] theorem BasicBlock.terminator_keepEntries (keep : String → Bool) (b : BasicBlock) :
    (b.keepEntries keep).terminator = b.terminator := rfl

theorem BasicBlock.keepEntries_keepEntries (keep : String → Bool) (b : BasicBlock) :
    (b.keepEntries keep).keepEntries keep = b.keepEntries keep := by
  simp only [keepEntries, map_map, mk.injEq, true_and, and_true]
  refine map_congr_left fun i _ => ?_
  cases i <;> simp [Instruction.keepEntries]

/-- The instruction is the same for control that comes from the given label: a phi may lose entries
of other labels. -/
inductive Instruction.SameFrom (source : Option String) : Instruction → Instruction → Prop
  | phi {dest : String} {t : Ty} {incoming kept : List (Value × String)} :
    (∀ label ∈ source, (kept.filter fun e => e.2 == label) =
      incoming.filter fun e => e.2 == label) →
    SameFrom source (.phi dest t incoming) (.phi dest t kept)
  | other {i : Instruction} : Verify.isPhi i = false → SameFrom source i i

/-- The block is the same for control that comes from the given label. -/
structure BasicBlock.SameFrom (source : Option String) (b b' : BasicBlock) : Prop where
  label : b'.label = b.label
  terminator : b'.terminator = b.terminator
  instructions : List.Forall₂ (Instruction.SameFrom source) b.instructions b'.instructions

theorem BasicBlock.sameFrom_keepEntries {source : Option String} {keep : String → Bool}
    (hkeep : ∀ label ∈ source, keep label = true) (b : BasicBlock) :
    b.SameFrom source (b.keepEntries keep) := by
  refine ⟨rfl, rfl, ?_⟩
  rw [keepEntries, List.forall₂_map_right_iff, List.forall₂_same]
  intro i _
  cases i with
  | phi dest t incoming =>
    refine .phi fun label hl => ?_
    rw [filter_filter]
    refine filter_congr fun e _ => ?_
    by_cases he : e.2 = label
    · simp [he, hkeep label hl]
    · simp [he]
  | _ => exact .other rfl

namespace Function

variable {f : Function}

theorem dropUnreachable_eq (f : Function) : f.dropUnreachable = { f with
      blocks := (f.blocks.filter fun b => f.reachable.contains b.label).map
        (·.keepEntries f.reachable.contains) } := by
  rw [dropUnreachable]
  refine congrArg (fun blocks => { f with blocks := blocks }) ?_
  refine map_congr_left fun b _ => ?_
  rw [BasicBlock.keepEntries]
  refine congrArg (fun is => { b with instructions := is }) ?_
  refine map_congr_left fun i _ => ?_
  cases i <;> rfl

theorem mem_blocks_dropUnreachable (hlabels : (f.blocks.map (·.label)).Nodup) {b' : BasicBlock} :
    b' ∈ f.dropUnreachable.blocks ↔
      ∃ b ∈ f.blocks, f.Reaches b.label ∧ b.keepEntries f.reachable.contains = b' := by
  rw [dropUnreachable_eq]
  simp [mem_reachable_iff hlabels, and_assoc]

theorem labels_dropUnreachable_sublist (f : Function) :
    (f.dropUnreachable.blocks.map (·.label)).Sublist (f.blocks.map (·.label)) := by
  rw [dropUnreachable_eq, map_map]
  exact (filter_sublist).map _

/-- The first block stays the first one. -/
theorem head?_blocks_dropUnreachable (f : Function) :
    f.dropUnreachable.blocks.head? = f.blocks.head?.map (·.keepEntries f.reachable.contains) := by
  cases hb : f.blocks with
  | nil => simp [dropUnreachable, hb]
  | cons entry rest =>
    have hentry : entry.label ∈ f.reachable := f.searches_reachable.work_subset (by simp [hb])
    rw [dropUnreachable_eq, hb]
    simp [hentry]

theorem reaches_dropUnreachable_iff (hlabels : (f.blocks.map (·.label)).Nodup) :
    f.dropUnreachable.Reaches label ↔ f.Reaches label := by
  constructor
  · intro h
    induction h with
    | entry hb =>
      rw [head?_blocks_dropUnreachable] at hb
      obtain ⟨b, hentry, rfl⟩ := Option.map_eq_some_iff.mp hb
      exact Reaches.entry (b := b) hentry
    | step hb _ ht ih =>
      obtain ⟨b, hmem, -, rfl⟩ := (mem_blocks_dropUnreachable hlabels).mp hb
      exact Reaches.step (b := b) hmem ih ht
  · intro h
    induction h with
    | @entry b hb =>
      refine .entry (b := b.keepEntries f.reachable.contains) ?_
      rw [head?_blocks_dropUnreachable, hb]
      rfl
    | @step b target hb hreach ht ih =>
      refine .step (b := b.keepEntries f.reachable.contains) ?_ ih ht
      exact (mem_blocks_dropUnreachable hlabels).mpr ⟨b, hb, hreach, rfl⟩

theorem contains_reachable_dropUnreachable (hlabels : (f.blocks.map (·.label)).Nodup) :
    f.dropUnreachable.reachable.contains = f.reachable.contains := by
  funext label
  have hkept := f.labels_dropUnreachable_sublist.nodup hlabels
  rw [Bool.eq_iff_iff, contains_iff_mem, contains_iff_mem, mem_reachable_iff hkept,
    mem_reachable_iff hlabels, reaches_dropUnreachable_iff hlabels]

theorem dropUnreachable_dropUnreachable (hlabels : (f.blocks.map (·.label)).Nodup) :
    f.dropUnreachable.dropUnreachable = f.dropUnreachable := by
  rw [dropUnreachable_eq f.dropUnreachable, contains_reachable_dropUnreachable hlabels]
  rw [dropUnreachable_eq f]
  refine congrArg (fun blocks => { f with blocks := blocks }) ?_
  have hall : ∀ b ∈ (f.blocks.filter fun b => f.reachable.contains b.label).map
      (·.keepEntries f.reachable.contains), f.reachable.contains b.label = true := by
    intro b' hb'
    obtain ⟨b, hb, rfl⟩ := mem_map.mp hb'
    exact (mem_filter.mp hb).2
  rw [filter_eq_self.mpr hall, map_map]
  exact map_congr_left fun b _ => b.keepEntries_keepEntries _

/-- Control can go from one block to another. -/
def Goes (f : Function) (p b : BasicBlock) : Prop := b ∈ f.blocks ∧ b.label ∈ p.successors

/-- Blocks that control can run through from the first one on. -/
structure IsPath (f : Function) (path : List BasicBlock) : Prop where
  head : path.head? = f.blocks.head?
  goes : path.IsChain f.Goes

theorem reaches_of_isChain {p : BasicBlock} {path : List BasicBlock}
    (h : (p :: path).IsChain f.Goes) (hp : p ∈ f.blocks) (hreach : f.Reaches p.label) :
    ∀ b ∈ p :: path, b ∈ f.blocks ∧ f.Reaches b.label := by
  induction path generalizing p with
  | nil => simpa using ⟨hp, hreach⟩
  | cons b path ih =>
    obtain ⟨⟨hb, hsucc⟩, hrest⟩ := isChain_cons_cons.mp h
    rw [forall_mem_cons]
    exact ⟨⟨hp, hreach⟩, ih hrest hb (.step hp hreach hsucc)⟩

theorem IsPath.reaches {path : List BasicBlock} (h : f.IsPath path) :
    ∀ b ∈ path, b ∈ f.blocks ∧ f.Reaches b.label := by
  cases path with
  | nil => simp
  | cons p path =>
    have hp : f.blocks.head? = some p := h.head.symm
    exact reaches_of_isChain h.goes (mem_of_mem_head? hp) (.entry hp)

/-- The search for reachable labels ends with exactly the labels that control can get to from the
first block. What is left of the function are the blocks of these labels, in their order and
without the phi entries of other labels. Control that runs from the first block stays in these
blocks and finds in each what it found before, and there is nothing left to drop. -/
theorem dropUnreachable_keeps_exactly_reachable (f : Function) {entry : BasicBlock}
    {rest : List BasicBlock} (hblocks : f.blocks = entry :: rest)
    (hlabels : (f.blocks.map (·.label)).Nodup) :
    f.Searches [] [entry.label] f.reachable ∧
      (∀ label, label ∈ f.reachable ↔ f.Reaches label) ∧
      f.dropUnreachable = { f with
        blocks := (f.blocks.filter fun b => f.reachable.contains b.label).map
          (·.keepEntries f.reachable.contains) } ∧
      (∀ before b after, f.IsPath (before ++ b :: after) →
        ∃ b' ∈ f.dropUnreachable.blocks, b.SameFrom (before.getLast?.map (·.label)) b') ∧
      f.dropUnreachable.dropUnreachable = f.dropUnreachable := by
  refine ⟨?_, fun label => mem_reachable_iff hlabels, f.dropUnreachable_eq, ?_,
    dropUnreachable_dropUnreachable hlabels⟩
  · have h := f.searches_reachable
    rw [hblocks] at h
    exact h
  · intro before b after hpath
    obtain ⟨hb, hreach⟩ := hpath.reaches b (by simp)
    refine ⟨b.keepEntries f.reachable.contains,
      (mem_blocks_dropUnreachable hlabels).mpr ⟨b, hb, hreach, rfl⟩,
      BasicBlock.sameFrom_keepEntries ?_ b⟩
    intro label hl
    obtain ⟨p, hp, rfl⟩ := Option.map_eq_some_iff.mp hl
    have hmem : p ∈ before ++ b :: after := mem_append_left _ (mem_of_getLast? hp)
    rw [contains_iff_mem, mem_reachable_iff hlabels]
    exact (hpath.reaches p hmem).2

/-- A loop with a way into it that control never takes. -/
def countLoop : BasicBlock :=
  ⟨"loop",
    [.phi "i" (.int .w32) [(.int 0, "entry"), (.var "s", "stray"), (.var "j", "loop")],
      .binary "j" .add (.int .w32) (.var "i") (.int 1)],
    some (.switch (.int .w32) (.var "j") "loop" [(7, "exit"), (8, "exit")])⟩

def countEntry : BasicBlock := ⟨"entry", [], some (.jump "loop")⟩

def count : Function where
  name := "count"
  linkage := .external
  result := .int .w32
  params := [⟨"n", .int .w32⟩]
  isVariadic := false
  blocks := [
    countEntry,
    ⟨"stray", [.binary "s" .add (.int .w32) (.var "n") (.int 1)],
      some (.branch (.bool true) "loop" "stray")⟩,
    countLoop,
    ⟨"exit", [], some (.ret (some (.int .w32, .var "i")))⟩]

theorem dropUnreachable_keeps_exactly_reachable_count :
    (count.blocks.map (·.label)).Nodup ∧ ¬ count.Reaches "stray" ∧
      count.dropUnreachable.blocks.map (·.label) = ["entry", "loop", "exit"] ∧
      count.IsPath [countEntry, countLoop, countLoop] ∧
      ∃ b' ∈ count.dropUnreachable.blocks, countLoop.SameFrom (some "loop") b' := by
  have hlabels : (count.blocks.map (·.label)).Nodup := by decide +kernel
  have hloop : countLoop ∈ count.blocks := .tail _ (.tail _ (.head _))
  have hisPath : count.IsPath [countEntry, countLoop, countLoop] := by
    refine ⟨rfl, ?_⟩
    rw [isChain_cons_cons, isChain_pair]
    exact ⟨⟨hloop, by decide +kernel⟩, hloop, by decide +kernel⟩
  obtain ⟨-, hreach, hblocks, hpath, -⟩ := dropUnreachable_keeps_exactly_reachable count rfl hlabels
  refine ⟨hlabels, ?_, ?_, hisPath, hpath [countEntry, countLoop] countLoop [] hisPath⟩
  · rw [← hreach]
    decide +kernel
  · rw [hblocks]
    decide +kernel

end Function

end Offload.Compiled
