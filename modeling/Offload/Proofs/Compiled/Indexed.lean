import Offload.Compiled.Reachable
import Offload.Proofs.Compiled.Stable

/-!
# Index paths of a module

The reader follows the indices of an address with the struct types that it knows by then. Struct
types are added later, and one that was declared without fields may still get some, but a member
that has been found stays as it is. So the path leads to the same type in the module that is read.
-/

namespace Offload.Compiled

open List

/-! ### Members of struct types -/

/-- The type of a member of a struct type. -/
def fieldType? (structs : List StructDef) (name : String) (i : Nat) : Option Ty :=
  (structs.find? (·.name == name)).bind fun d => d.fields[i]?

/-- A type declared without fields has none. -/
def OpaqueBare (structs : List StructDef) : Prop :=
  ∀ d ∈ structs, d.isOpaque = true → d.fields = []

/-- Every member of the first list's types is one of the second's. -/
def MembersStay (structs structs' : List StructDef) : Prop :=
  ∀ ⦃name i t⦄, fieldType? structs name i = some t → fieldType? structs' name i = some t

section

variable {structs structs' : List StructDef} {d : StructDef} {i : Nat} {source t : Ty}
  {path : List (Ty × Value)}

theorem membersStay_append (added : List StructDef) : MembersStay structs (structs ++ added) := by
  intro name i t h
  obtain ⟨d, hfind, hfield⟩ := Option.bind_eq_some_iff.mp h
  simp [fieldType?, find?_append, hfind, hfield]

theorem OpaqueBare.append (h : OpaqueBare structs) (hd : d.isOpaque = true → d.fields = []) :
    OpaqueBare (structs ++ [d]) := by
  intro e he
  rcases mem_append.mp he with he | he
  · exact h e he
  · rw [mem_singleton.mp he]
    exact hd

theorem OpaqueBare.set (h : OpaqueBare structs) (hd : d.isOpaque = true → d.fields = []) :
    OpaqueBare (structs.set i d) := by
  intro e he
  rcases mem_or_eq_of_mem_set he with he | rfl
  · exact h e he
  · exact hd

/-- A type without members can be replaced by one of the same name. -/
theorem membersStay_set {known : StructDef} (hi : structs[i]? = some known)
    (hname : known.name = d.name) (hbare : known.fields = []) :
    MembersStay structs (structs.set i d) := by
  induction structs generalizing i with
  | nil => simp at hi
  | cons e structs ih =>
    intro name j t h
    cases i with
    | zero =>
      obtain rfl : e = known := by simpa using hi
      by_cases hn : e.name = name
      · simp [fieldType?, hn, hbare] at h
      · simpa [fieldType?, hn, ← hname] using h
    | succ i =>
      by_cases hn : e.name = name
      · simpa [fieldType?, hn] using h
      · have hstay := @ih i (by simpa using hi) name j t (by simpa [fieldType?, hn] using h)
        simpa [fieldType?, hn] using hstay

/-! ### Paths -/

theorem stepInto_mono (h : MembersStay structs structs') {index : Ty × Value}
    (hstep : indexedType.stepInto structs source index = some t) :
    indexedType.stepInto structs' source index = some t := by
  obtain ⟨u, v⟩ := index
  cases source with
  | array n element => exact hstep
  | struct name =>
    cases v with
    | int i =>
      by_cases hneg : i < 0
      · simp [indexedType.stepInto, hneg] at hstep
      · have hfield := @h name i.toNat t
        simp only [indexedType.stepInto, if_neg hneg] at hstep ⊢
        exact hfield hstep
    | _ => cases hstep
  | _ => cases hstep

theorem indexedType_mono (h : MembersStay structs structs')
    (hpath : indexedType structs source path = some t) :
    indexedType structs' source path = some t := by
  unfold indexedType at hpath ⊢
  generalize path.drop 1 = steps at hpath
  induction steps generalizing source with
  | nil => exact hpath
  | cons index steps ih =>
    obtain ⟨u, hstep, hrest⟩ := Option.bind_eq_some_iff.mp hpath
    exact Option.bind_eq_some_iff.mpr ⟨u, stepInto_mono h hstep, ih hrest⟩

end

/-! ### What a reading keeps -/

/-- Functions are the same, and every member that was found is still there. -/
structure MembersKept (r r' : Reader) : Prop where
  functions : r'.module.functions = r.module.functions
  bare : OpaqueBare r.module.structs → OpaqueBare r'.module.structs
  members : OpaqueBare r.module.structs → MembersStay r.module.structs r'.module.structs

namespace MembersKept

theorem of_structs_eq {r r' : Reader} (hstructs : r'.module.structs = r.module.structs)
    (hfunctions : r'.module.functions = r.module.functions) : MembersKept r r' := by
  refine ⟨hfunctions, ?_, ?_⟩
  · rw [hstructs]
    exact id
  · rw [hstructs]
    exact fun _ _ _ _ h => h

theorem of_structs_append {r r' : Reader} {d : StructDef} (hd : d.isOpaque = true → d.fields = [])
    (hstructs : r'.module.structs = r.module.structs ++ [d])
    (hfunctions : r'.module.functions = r.module.functions) : MembersKept r r' := by
  refine ⟨hfunctions, fun hbare => ?_, fun _ => ?_⟩
  · rw [hstructs]
    exact hbare.append hd
  · rw [hstructs]
    exact membersStay_append _

theorem literalStruct (fields : List Ty) (isPacked : Bool) :
    Keeps MembersKept (Read.literalStruct fields isPacked) := by
  intro r t r' h
  rcases Read.run_literalStruct fields isPacked r with ⟨s, -, -, -, hrun⟩ | hrun
  · cases (hrun r.rest).symm.trans h
    exact of_structs_eq rfl rfl
  · cases (hrun r.rest).symm.trans h
    exact of_structs_append (by simp) rfl rfl

theorem defineStruct (d : StructDef) (hd : d.isOpaque = true → d.fields = []) :
    Keeps MembersKept (Read.defineStruct d) := by
  intro r u r' h
  simp only [Read.defineStruct, gives_bind, gives_get] at h
  obtain ⟨_, _, ⟨rfl, rfl⟩, h⟩ := h
  split at h
  · obtain rfl := gives_modify.mp h
    exact of_structs_append hd rfl rfl
  · rename_i i hi
    split at h
    · rename_i known hknown
      split at h
      · rename_i hopaque
        obtain rfl := gives_modify.mp h
        have hmem := mem_of_getElem? hknown
        obtain ⟨hlt, hname, -⟩ := findIdx?_eq_some_iff_getElem.mp hi
        have hname : known.name = d.name := by
          rw [getElem?_eq_getElem hlt] at hknown
          simpa [Option.some.inj hknown] using hname
        exact ⟨rfl, fun hbare => hbare.set hd,
          fun hbare => membersStay_set hknown hname (hbare known hmem hopaque)⟩
      · exact absurd h Read.not_gives_fail
    · obtain ⟨-, rfl⟩ := gives_pure.mp h
      exact of_structs_eq rfl rfl

theorem stable : Stable MembersKept where
  trans h₁ h₂ :=
    ⟨h₂.functions.trans h₁.functions, fun hbare => h₂.bare (h₁.bare hbare),
      fun hbare _ _ _ hfield => h₂.members (h₁.bare hbare) (h₁.members hbare hfield)⟩
  still hstructs hfunctions _ := of_structs_eq hstructs hfunctions
  literal := literalStruct

end MembersKept

/-! ### Instructions as read -/

/-- The result of an address is a pointer to the type that its indices lead to. -/
def Instruction.WellIndexed (structs : List StructDef) : Instruction → Prop
  | .elementPtr _ source _ path result => (indexedType structs source path).map .ptr = some result
  | _ => True

theorem Instruction.WellIndexed.mono {structs structs' : List StructDef} {i : Instruction}
    (h : i.WellIndexed structs) (hstay : MembersStay structs structs') :
    i.WellIndexed structs' := by
  cases i with
  | elementPtr dest source base path result =>
    obtain ⟨t, hpath, rfl⟩ := Option.map_eq_some_iff.mp h
    simp [WellIndexed, indexedType_mono hstay hpath]
  | _ => trivial

/-- Whenever the reader succeeds, its result and the state after it are related. -/
def Yields {α : Type} (P : α → Reader → Prop) (p : Read α) : Prop :=
  ∀ ⦃r a r'⦄, Gives p r a r' → P a r'

namespace Yields

variable {α β : Type} {P : β → Reader → Prop} {p : Read α} {f : α → Read β} {b : β}

theorem pure (h : ∀ r, P b r) : Yields P (Pure.pure b : Read β) := by
  intro r a r' hgives
  obtain ⟨rfl, -⟩ := gives_pure.mp hgives
  exact h _

/-- Only the last step counts. -/
theorem after (hf : ∀ a, Yields P (f a)) : Yields P (p >>= f) := by
  intro r b r' hgives
  obtain ⟨a, m, -, hsecond⟩ := gives_bind.mp hgives
  exact hf a hsecond

theorem fail {flaw : ReadFlaw} : Yields P (Read.fail flaw : Read β) :=
  fun _ _ _ hgives => absurd hgives Read.not_gives_fail

theorem ite {c : Prop} [Decidable c] {p q : Read β} (hp : Yields P p) (hq : Yields P q) :
    Yields P (if c then p else q) := by
  split_ifs
  · exact hp
  · exact hq

theorem when {c : Prop} [Decidable c] {p : Read Unit} {f : Unit → Read β}
    (hf : ∀ u, Yields P (f u)) : Yields P (if c then p >>= f else f ()) :=
  ite (after hf) (hf ())

end Yields

namespace Read

open Yields

theorem wellIndexed_elementPtr (dest : Option String) :
    Yields (fun i r => i.WellIndexed r.module.structs) (elementPtr dest) := by
  refine after fun _ => after fun base => after fun _ => after fun path => ?_
  intro r i r' h
  simp only [gives_bind, gives_get] at h
  obtain ⟨_, _, ⟨rfl, rfl⟩, h⟩ := h
  split at h
  · exact absurd h not_gives_fail
  · rename_i element helement
    simp only [gives_bind, gives_pure] at h
    obtain ⟨name, m, hname, rfl, rfl⟩ := h
    cases dest with
    | none => exact absurd hname not_gives_fail
    | some _ =>
      obtain ⟨-, rfl⟩ := gives_pure.mp hname
      simp [Instruction.WellIndexed, helement]

/-- Of the other instructions nothing is asked. -/
theorem wellIndexed_named {dest : Option String} {opcode : String} {f : String → Instruction}
    (hf : ∀ name structs, (f name).WellIndexed structs) :
    Yields (fun i? r => ∀ i ∈ i?, i.WellIndexed r.module.structs)
      (return some (f (← named dest opcode)) : Read (Option Instruction)) :=
  after fun name => .pure fun r i hi => by
    obtain rfl := Option.some.inj hi
    exact hf name r.module.structs

theorem wellIndexed_call (dest : Option String) :
    Yields (fun i? r => ∀ i ∈ i?, i.WellIndexed r.module.structs) (call dest) := by
  refine after fun _ => after fun _ => after fun _ => after fun _ => after fun _ =>
    when fun _ => after fun t => ?_
  cases t
  case value name => exact fun _ _ _ h => by simp at h
  all_goals
    refine after fun _ => .ite ?_ ?_
    · exact after fun _ => after fun _ => .pure (by simp)
    · exact after fun _ => after fun _ => when fun _ => .pure (by simp [Instruction.WellIndexed])

theorem wellIndexed_operation (dest : Option String) (opcode : String) (start : Place) :
    Yields (fun i? r => ∀ i ∈ i?, i.WellIndexed r.module.structs)
      (operation dest opcode start) := by
  unfold operation
  split
  · exact after fun _ => after fun _ => wellIndexed_named fun _ _ => trivial
  split
  · exact after fun _ => after fun _ => after fun _ => after fun _ =>
      wellIndexed_named fun _ _ => trivial
  split
  case h_1 => exact after fun _ => after fun _ => wellIndexed_named fun _ _ => trivial
  case h_2 =>
    refine after fun _ => after fun w => ?_
    split
    · exact .fail
    · exact after fun _ => wellIndexed_named fun _ _ => trivial
  case h_3 =>
    refine after fun _ => after fun w => ?_
    split
    · exact .fail
    · exact after fun _ => wellIndexed_named fun _ _ => trivial
  case h_4 => exact after fun _ => wellIndexed_named fun _ _ => trivial
  case h_5 => exact after fun _ => after fun _ => wellIndexed_named fun _ _ => trivial
  case h_6 =>
    exact after fun _ => after fun _ => after fun _ => after fun _ =>
      .pure (by simp [Instruction.WellIndexed])
  case h_7 =>
    intro r i? r' h
    simp only [gives_bind, gives_pure] at h
    obtain ⟨i, m, hi, rfl, rfl⟩ := h
    simpa using wellIndexed_elementPtr dest hi
  case h_8 => exact wellIndexed_call dest
  case h_9 =>
    exact after fun _ => after fun _ => after fun _ => after fun _ => after fun _ => after fun _ =>
      wellIndexed_named fun _ _ => trivial
  case h_10 =>
    exact after fun _ => after fun _ => after fun _ => after fun _ =>
      wellIndexed_named fun _ _ => trivial
  case h_11 => exact fun _ _ _ h => absurd h not_gives_failAt

theorem wellIndexed_instruction :
    Yields (fun i? r => ∀ i ∈ i?, i.WellIndexed r.module.structs) instruction :=
  after fun _ => after fun _ => after fun _ => after fun _ => wellIndexed_operation _ _ _

end Read

/-! ### Blocks as read -/

/-- The blocks are well indexed by the struct types that are known in a state. -/
structure BlocksIndexed (blocks : List BasicBlock) (r : Reader) : Prop where
  bare : OpaqueBare r.module.structs
  indexed : ∀ b ∈ blocks, ∀ i ∈ b.instructions, i.WellIndexed r.module.structs

namespace BlocksIndexed

variable {blocks blocks' : List BasicBlock} {r r' : Reader}

theorem keep (h : BlocksIndexed blocks r) (hkept : MembersKept r r') : BlocksIndexed blocks r' :=
  ⟨hkept.bare h.bare, fun b hb i hi => (h.indexed b hb i hi).mono (hkept.members h.bare)⟩

theorem sub (h : BlocksIndexed blocks r) (hsub : blocks' ⊆ blocks) : BlocksIndexed blocks' r :=
  ⟨h.bare, fun b hb => h.indexed b (hsub hb)⟩

theorem append (h : BlocksIndexed blocks r) (h' : BlocksIndexed blocks' r) :
    BlocksIndexed (blocks ++ blocks') r := by
  refine ⟨h.bare, fun b hb => ?_⟩
  rcases mem_append.mp hb with hb | hb
  · exact h.indexed b hb
  · exact h'.indexed b hb

theorem cons {b : BasicBlock} (h : BlocksIndexed [b] r) (h' : BlocksIndexed blocks r) :
    BlocksIndexed (b :: blocks) r := h.append h'

end BlocksIndexed

namespace Read

open MembersKept (stable)

variable {r r' : Reader}

theorem blocksIndexed_blockItem {block block' : BasicBlock} (h : BlocksIndexed [block] r)
    (hgives : Gives (blockItem block) r block' r') : BlocksIndexed [block'] r' := by
  have hkept := h.keep (stable.keeps.blockItem.keeps trivial hgives)
  simp only [blockItem] at hgives
  split at hgives
  · simp at hgives
  rw [gives_bind] at hgives
  obtain ⟨t, m, -, hgives⟩ := hgives
  split at hgives
  · obtain ⟨rfl, -⟩ := gives_pure.mp hgives
    refine ⟨hkept.bare, fun b hb i hi => ?_⟩
    rw [mem_singleton.mp hb] at hi
    exact hkept.indexed block (by simp) i hi
  · rw [gives_bind] at hgives
    obtain ⟨i?, m', hinstruction, hgives⟩ := hgives
    split at hgives
    · rename_i i
      obtain ⟨rfl, rfl⟩ := gives_pure.mp hgives
      refine ⟨hkept.bare, fun b hb j hj => ?_⟩
      rw [mem_singleton.mp hb] at hj
      rcases mem_append.mp hj with hj | hj
      · exact hkept.indexed block (by simp) j hj
      · rw [mem_singleton.mp hj]
        exact wellIndexed_instruction hinstruction i rfl
    · obtain ⟨rfl, -⟩ := gives_pure.mp hgives
      exact hkept

theorem blocksIndexed_bodyFrom {fuel : Nat} {body body' : Body} (h : BlocksIndexed body.blocks r)
    (hgives : Gives (bodyFrom fuel body) r body' r') : BlocksIndexed body'.blocks r' := by
  induction fuel generalizing body r with
  | zero => exact absurd hgives not_gives_fail
  | succ fuel ih =>
    rw [bodyFrom, gives_bind] at hgives
    obtain ⟨t, m, hpeek, hgives⟩ := hgives
    obtain ⟨ht, rfl⟩ := gives_peek.mp hpeek
    split at hgives
    · simp only [gives_bind, gives_pure] at hgives
      obtain ⟨_, m', hadvance, rfl, rfl⟩ := hgives
      exact h.keep (stable.keeps.advance.keeps trivial hadvance)
    · exact absurd hgives not_gives_unexpected
    · rw [gives_bind] at hgives
      obtain ⟨_, m', hadvance, hrest⟩ := hgives
      have hkept := h.keep (stable.keeps.advance.keeps trivial hadvance)
      refine ih (.cons ⟨hkept.bare, ?_⟩ hkept) hrest
      simp
    · rw [gives_bind] at hgives
      obtain ⟨_, m', hskip, hrest⟩ := hgives
      exact ih (h.keep ((stable.keeps.skipLine (H := (· = .mark '#')) (by simp)).keeps
        ht.symm hskip)) hrest
    · simp only [gives_bind] at hgives
      obtain ⟨block, m₁, hitem, _, m₂, hskip, hrest⟩ := hgives
      have hcurrent : BlocksIndexed [body.current.1] m ∧ BlocksIndexed body.current.2.1 m := by
        unfold Body.current
        split
        · exact ⟨⟨h.bare, by simp⟩, ⟨h.bare, by simp⟩⟩
        · rename_i block done heq
          rw [heq] at h
          exact ⟨h.sub (by simp), h.sub (by simp)⟩
      have hdone := hcurrent.2.keep (stable.keeps.blockItem.keeps trivial hitem)
      have hblock := blocksIndexed_blockItem hcurrent.1 hitem
      exact ih ((hblock.cons hdone).keep (stable.keeps.skipTrailers.keeps trivial hskip)) hrest

end Read

/-- New labels leave addresses alone. -/
theorem BasicBlock.wellIndexed_renameLabel {structs : List StructDef} {b : BasicBlock}
    (h : ∀ i ∈ b.instructions, i.WellIndexed structs) (source target : String) :
    ∀ i ∈ (b.renameLabel source target).instructions, i.WellIndexed structs := by
  intro i hi
  obtain ⟨j, hj, rfl⟩ := mem_map.mp hi
  cases j with
  | phi dest t entries => trivial
  | _ => exact h _ hj

namespace Read

open MembersKept (stable)

variable {r r' : Reader}

theorem blocksIndexed_body {implicitEntry : String} {blocks : List BasicBlock}
    (hbare : OpaqueBare r.module.structs) (hgives : Gives (body implicitEntry) r blocks r') :
    BlocksIndexed blocks r' := by
  simp only [body, gives_bind, gives_get] at hgives
  obtain ⟨_, _, hexpect, _, m₁, ⟨-, rfl⟩, body', m₂, hbody, hgives⟩ := hgives
  have hstart : BlocksIndexed [] m₁ :=
    BlocksIndexed.keep ⟨hbare, by simp⟩ (stable.keeps.expectMark.keeps trivial hexpect)
  have hread : BlocksIndexed body'.blocks.reverse m₂ :=
    (blocksIndexed_bodyFrom hstart hbody).sub fun b hb => mem_reverse.mp hb
  split at hgives
  · simp at hgives
  split at hgives
  · obtain ⟨rfl, rfl⟩ := gives_pure.mp hgives
    refine ⟨hread.bare, fun b hb => ?_⟩
    obtain ⟨b, hmem, rfl⟩ := mem_map.mp hb
    exact BasicBlock.wellIndexed_renameLabel (hread.indexed b hmem) _ _
  · obtain ⟨rfl, rfl⟩ := gives_pure.mp hgives
    exact hread

/-! ### Modules as read -/

/-- Every function read so far is well indexed. -/
def FunctionsIndexed (r : Reader) : Prop :=
  BlocksIndexed (r.module.functions.flatMap (·.blocks)) r

theorem FunctionsIndexed.keep (h : FunctionsIndexed r) (hkept : MembersKept r r') :
    FunctionsIndexed r' := by
  unfold FunctionsIndexed
  rw [hkept.functions]
  exact BlocksIndexed.keep h hkept

theorem FunctionsIndexed.addFunction {f : Function} {u : Unit} (h : FunctionsIndexed r)
    (hf : BlocksIndexed f.blocks r) (hgives : Gives (addFunction f) r u r') :
    FunctionsIndexed r' := by
  obtain rfl := gives_modify.mp hgives
  unfold FunctionsIndexed
  simp only [flatMap_append, flatMap_singleton]
  exact ⟨h.bare, (h.append hf).indexed⟩

theorem functionsIndexed_declaration {u : Unit} (h : FunctionsIndexed r)
    (hgives : Gives declaration r u r') : FunctionsIndexed r' := by
  simp only [declaration, gives_bind] at hgives
  obtain ⟨_, m₁, hlinkage, f, m₂, hsignature, hgives⟩ := hgives
  have hkept := (h.keep (stable.keeps.linkage.keeps trivial hlinkage)).keep
    (stable.keeps.signature.keeps trivial hsignature)
  split at hgives
  · refine hkept.addFunction ⟨hkept.bare, ?_⟩ hgives
    simp only [signature, gives_bind, gives_pure] at hsignature
    obtain ⟨_, _, -, _, _, -, _, _, -, _, _, -, _, _, -, rfl, -⟩ := hsignature
    simp
  · obtain ⟨-, rfl⟩ := gives_pure.mp hgives
    exact hkept

theorem functionsIndexed_definition {u : Unit} (h : FunctionsIndexed r)
    (hgives : Gives definition r u r') : FunctionsIndexed r' := by
  simp only [definition, gives_bind] at hgives
  obtain ⟨_, m₁, hlinkage, f, m₂, hsignature, blocks, m₃, hbody, hadd⟩ := hgives
  have hkept := (h.keep (stable.keeps.linkage.keeps trivial hlinkage)).keep
    (stable.keeps.signature.keeps trivial hsignature)
  have hblocks := blocksIndexed_body hkept.bare hbody
  exact (hkept.keep (stable.keeps.body.keeps trivial hbody)).addFunction hblocks hadd

theorem functionsIndexed_entity {b : Bool} (h : FunctionsIndexed r)
    (hgives : Gives entity r b r') : FunctionsIndexed r' := by
  by_cases hdeclare : r.peek = .word "declare"
  · rw [entity, gives_peek_bind, hdeclare] at hgives
    simp only [gives_bind, gives_pure] at hgives
    obtain ⟨_, m₁, hadvance, _, m₂, hdeclaration, -, rfl⟩ := hgives
    exact functionsIndexed_declaration (h.keep (stable.keeps.advance.keeps trivial hadvance))
      hdeclaration
  by_cases hdefine : r.peek = .word "define"
  · rw [entity, gives_peek_bind, hdefine] at hgives
    simp only [gives_bind, gives_pure] at hgives
    obtain ⟨_, m₁, hadvance, _, m₂, hdefinition, -, rfl⟩ := hgives
    exact functionsIndexed_definition (h.keep (stable.keeps.advance.keeps trivial hadvance))
      hdefinition
  have hother := stable.keeps.entity (n := r.rest.length)
    (H := fun t => t ≠ .word "declare" ∧ t ≠ .word "define")
    (fun _ _ => MembersKept.defineStruct) (by simp)
  exact h.keep (hother.keeps ⟨hdeclare, hdefine⟩ hgives)

theorem functionsIndexed_rounds {fuel : Nat} {u : Unit} (h : FunctionsIndexed r)
    (hgives : Gives (repeatWhile.rounds entity fuel) r u r') : FunctionsIndexed r' := by
  induction fuel generalizing r with
  | zero => exact absurd hgives not_gives_fail
  | succ fuel ih =>
    rw [repeatWhile.rounds, gives_bind] at hgives
    obtain ⟨more, m, hentity, hgives⟩ := hgives
    have hm := functionsIndexed_entity h hentity
    split at hgives
    · exact ih hm hgives
    · obtain ⟨-, rfl⟩ := gives_pure.mp hgives
      exact hm

end Read

/-- Every address of a module points to the type that its indices lead to. -/
def Module.WellIndexed (m : Module) : Prop :=
  ∀ f ∈ m.functions, ∀ i ∈ f.instructions, i.WellIndexed m.structs

theorem wellIndexed_of_readModule {name text : String} {m : Module}
    (h : readModule name text = .ok m) : m.WellIndexed := by
  intro f hf i hi
  obtain ⟨tokens, r, -, rfl, hrounds⟩ := readModule_ok.mp h
  have hstart : Read.FunctionsIndexed (.ofText name tokens) :=
    ⟨by simp [OpaqueBare, Reader.ofText], by simp [Reader.ofText]⟩
  have hread := Read.functionsIndexed_rounds hstart hrounds
  obtain ⟨b, hb, hi⟩ := mem_flatMap.mp hi
  exact hread.indexed b (mem_flatMap.mpr ⟨f, hf, hb⟩) i hi

theorem Module.WellIndexed.dropUnreachable {m : Module} (h : m.WellIndexed) :
    m.dropUnreachable.WellIndexed := by
  intro f' hf' i' hi'
  obtain ⟨f, hf, rfl⟩ := mem_map.mp hf'
  obtain ⟨b', hb', hi'⟩ := mem_flatMap.mp hi'
  obtain ⟨b, hb, rfl⟩ := mem_map.mp hb'
  obtain ⟨i, hi, rfl⟩ := mem_map.mp hi'
  have hwell := h f hf i (mem_flatMap.mpr ⟨b, mem_of_mem_filter hb, hi⟩)
  cases i with
  | phi dest t incoming => trivial
  | _ => exact hwell

end Offload.Compiled
