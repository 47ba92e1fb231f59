import Offload.Proofs.Pipeline.Session

/-!
# How far a session has come

The stage of a session counts the steps that have succeeded, and those are the first steps of the
one order in which they can succeed. What a step leaves in the session stays there, so the stage
also tells what the session holds: the triple, the options and the machine are there when a later
step asks for them.
-/

namespace Offload.Pipeline

open Offload.Compiled
open Offload.Target

variable {settings : CodegenSettings} {s t : Session}

/-- The number of steps that lead to a stage. -/
def Stage.rank : Stage → Nat
  | uninitialized => 0
  | targetsRegistered => 1
  | passesRegistered => 2
  | tripleResolved => 3
  | optionsConfigured => 4
  | machineCreated => 5
  | pipelineBuilt => 6
  | ran => 7
  | done => 8

/-- A step leads from its stage to the next one. -/
theorem Step.rank_after (step : Step) : step.after.rank = step.before.rank + 1 := by
  cases step <;> rfl

theorem Step.rank_stageAfter {steps : List Step} (h : steps <+: Step.all) :
    (stageAfter steps).rank = steps.length := by
  have hall : ∀ steps ∈ Step.all.inits, (stageAfter steps).rank = steps.length := by decide
  exact hall steps ((List.mem_inits _ _).mpr h)

/-! ### What passes leave alone -/

theorem Pass.run_triple {p : Pass} {work work' : Work} (h : p.run work = .ok work') :
    work'.module.triple = work.module.triple := by
  cases p with
  | libraryInfo | dataLayout | kernelInfo | dropUnreachable =>
    obtain rfl := Except.ok.inj h
    rfl
  | verify =>
    rw [run] at h
    split at h
    · obtain rfl := Except.ok.inj h
      rfl
    · cases h
  | emit =>
    rw [run] at h
    split at h
    · obtain rfl := Except.ok.inj h
      rfl
    · cases h

theorem runPasses_triple (ps : List Pass) (work : Work) :
    (runPasses ps work).2.module.triple = work.module.triple := by
  induction ps generalizing work with
  | nil => rfl
  | cons p rest ih =>
    rw [runPasses]
    split
    · rename_i next hrun
      rw [ih next, Pass.run_triple hrun]
    · rfl

namespace Session

/-! ### What a session holds -/

/-- What a session that has come to a stage holds. -/
structure Equipped (settings : CodegenSettings) (stage : Stage) (s : Session) : Prop where
  same : s.settings = settings
  triple : Stage.tripleResolved.rank ≤ stage.rank →
    ∃ t, s.triple = some t ∧ s.work.module.triple = some t.render
  options : Stage.optionsConfigured.rank ≤ stage.rank →
    ∃ o, s.options = some o ∧ (settings.options.softFloat = true → o.floatAbi = .soft)
  machine : Stage.machineCreated.rank ≤ stage.rank → ∃ machine, s.machine = some machine

theorem equipped_start (settings : CodegenSettings) (m : Module) :
    Equipped settings .uninitialized (start settings m) where
  same := rfl
  triple h := absurd h (by decide)
  options h := absurd h (by decide)
  machine h := absurd h (by decide)

theorem floatAbi_targetOptions {o : CodegenOptions} (h : o.softFloat = true) :
    (targetOptions o).floatAbi = .soft := by
  simp [targetOptions, h]

theorem buildPipeline_ok (h : s.buildPipeline = .ok t) :
    ∃ passes, t = { s with pipeline := passes } := by
  unfold buildPipeline at h
  split at h
  · rename_i machine triple _ _
    cases hq : machine.emissionPasses s.settings.fileType s.settings.options.disableVerify with
    | error e => simp [hq, bind, Except.bind] at h
    | ok emission =>
      simp only [hq, bind, Except.bind, pure, Except.pure, Except.ok.injEq] at h
      exact ⟨_, h.symm⟩
  · cases h

/-- A step that succeeds adds what its next stage asks for, and keeps what the session held. -/
theorem Equipped.perform {step : Step} {text : Option String} (hs : Equipped settings step.before s)
    (h : s.perform step = (.ok text, t)) : Equipped settings step.after t := by
  obtain ⟨hsame, htriple, hoptions, hmachine⟩ := hs
  cases step with
  | initializeTargets | initializePasses =>
    obtain ⟨-, rfl⟩ := Prod.mk.inj h
    exact ⟨hsame, fun h => absurd h (by decide), fun h => absurd h (by decide),
      fun h => absurd h (by decide)⟩
  | resolveTriple =>
    obtain ⟨triple, rfl⟩ := resolveTriple_ok ((perform_ok h).1 rfl)
    exact ⟨hsame, fun _ => ⟨triple, rfl, rfl⟩, fun h => absurd h (by decide),
      fun h => absurd h (by decide)⟩
  | configureOptions =>
    obtain ⟨-, rfl⟩ := Prod.mk.inj h
    refine ⟨hsame, fun _ => htriple le_rfl, fun _ => ⟨_, rfl, ?_⟩, fun h => absurd h (by decide)⟩
    rw [hsame]
    exact floatAbi_targetOptions
  | createMachine =>
    obtain ⟨machine, rfl⟩ := createMachine_ok ((perform_ok h).2.1 rfl)
    exact ⟨hsame, fun _ => htriple (by decide), fun _ => hoptions le_rfl, fun _ => ⟨machine, rfl⟩⟩
  | buildPipeline =>
    obtain ⟨passes, rfl⟩ := buildPipeline_ok ((perform_ok h).2.2 rfl)
    exact ⟨hsame, fun _ => htriple (by decide), fun _ => hoptions (by decide),
      fun _ => hmachine le_rfl⟩
  | run =>
    obtain ⟨-, rfl⟩ := Prod.mk.inj h
    refine ⟨hsame, fun _ => ?_, fun _ => hoptions (by decide), fun _ => hmachine (by decide)⟩
    obtain ⟨triple, htriple, hmodule⟩ := htriple (by decide)
    exact ⟨triple, htriple, (runPasses_triple s.pipeline s.work).trans hmodule⟩
  | finish =>
    obtain ⟨-, rfl⟩ := Prod.mk.inj h
    exact ⟨hsame, fun _ => htriple (by decide), fun _ => hoptions (by decide),
      fun _ => hmachine (by decide)⟩

theorem stage_of_error {s' : Session} {step : Step} {e : BackendError}
    (h : s.take step = (.error e, s')) : s'.stage = s.stage := by
  by_cases hrun : step = .run ∧ s.stage = .pipelineBuilt
  · obtain ⟨rfl, hstage⟩ := hrun
    rw [take_run hstage] at h
    split at h
    · simp at h
    · obtain ⟨-, rfl⟩ := Prod.mk.inj h
      rfl
  · rw [take_error (not_and_or.mp hrun) h]

/-- One step keeps the session equipped for its stage, whether it succeeds or not. A run that
fails has changed the module, but not its triple. -/
theorem Equipped.take (hs : Equipped settings s.stage s) (step : Step) :
    Equipped settings (s.take step).2.stage (s.take step).2 := by
  rcases ht : s.take step with ⟨e | text, s'⟩
  · by_cases hrun : step = .run ∧ s.stage = .pipelineBuilt
    · obtain ⟨rfl, hstage⟩ := hrun
      have hwork := runPasses_triple s.pipeline s.work
      rw [take_run hstage] at ht
      split at ht
      · simp at ht
      · rename_i e' work hpasses
        obtain ⟨-, rfl⟩ := Prod.mk.inj ht
        rw [hpasses] at hwork
        refine ⟨hs.same, fun h => ?_, hs.options, hs.machine⟩
        obtain ⟨triple, htriple, hmodule⟩ := hs.triple h
        exact ⟨triple, htriple, hwork.trans hmodule⟩
    · rw [take_error (not_and_or.mp hrun) ht]
      exact hs
  · obtain ⟨hstage, t, hperform, rfl⟩ := take_ok_iff.mp ht
    rw [hstage] at hs
    obtain ⟨hsame, htriple, hoptions, hmachine⟩ := hs.perform hperform
    exact ⟨hsame, htriple, hoptions, hmachine⟩

theorem equipped_afterSteps (settings : CodegenSettings) (m : Module) (steps : List Step) :
    Equipped settings ((start settings m).afterSteps steps).stage
      ((start settings m).afterSteps steps) := by
  induction steps using List.reverseRecOn with
  | nil => exact equipped_start settings m
  | append_singleton steps step ih =>
    rw [afterSteps_concat]
    exact ih.take step

/-! ### The steps that succeed -/

/-- The steps of a list that succeed when all are taken in turn. -/
def succeeded : List Step → Session → List Step
  | [], _ => []
  | step :: rest, s =>
    match s.take step with
    | (.ok _, s') => step :: succeeded rest s'
    | (.error _, s') => succeeded rest s'

/-- Wherever the first steps of the order have led, the steps that succeed from there on go on in
that order. -/
theorem succeeded_in_order {before : List Step} (hbefore : before <+: Step.all)
    (hstage : s.stage = Step.stageAfter before) (steps : List Step) :
    before ++ s.succeeded steps <+: Step.all ∧
      (s.afterSteps steps).stage = Step.stageAfter (before ++ s.succeeded steps) := by
  induction steps generalizing s before with
  | nil =>
    rw [succeeded, List.append_nil]
    exact ⟨hbefore, hstage⟩
  | cons step rest ih =>
    have hafter : s.afterSteps (step :: rest) = (s.take step).2.afterSteps rest := rfl
    rw [hafter, succeeded]
    rcases ht : s.take step with ⟨e | text, s'⟩
    · exact ih hbefore ((stage_of_error ht).trans hstage)
    · obtain ⟨hown, t, -, rfl⟩ := take_ok_iff.mp ht
      have hnext := Step.prefix_concat hbefore (hstage.symm.trans hown)
      rw [List.append_cons]
      exact ih hnext (Step.stageAfter_concat before step).symm

/-! ### Nothing is missing in a step's own stage -/

theorem createMachine_not_outOfOrder (hs : Equipped settings .optionsConfigured s) (step : Step)
    (stage : Stage) : s.createMachine ≠ .error (.outOfOrder step stage) := by
  obtain ⟨triple, htriple, -⟩ := hs.triple (by decide)
  obtain ⟨options, hoptions, -⟩ := hs.options le_rfl
  intro h
  simp only [createMachine, htriple, hoptions] at h
  unfold lookupTarget at h
  split at h
  · cases h
  · cases h

theorem buildPipeline_not_outOfOrder (hs : Equipped settings .machineCreated s) (step : Step)
    (stage : Stage) : s.buildPipeline ≠ .error (.outOfOrder step stage) := by
  obtain ⟨triple, htriple, -⟩ := hs.triple (by decide)
  obtain ⟨machine, hmachine⟩ := hs.machine le_rfl
  intro h
  simp only [buildPipeline, htriple, hmachine] at h
  unfold Machine.emissionPasses at h
  split_ifs at h <;> cases h

/-- After any steps: the ones that have succeeded are the first of the one order, as many as the
stage counts, and the session holds what its stage asks for. The next step succeeds only in its own
stage and moves the stage on by one; a failure keeps the stage. The two steps that look for what
earlier ones have left find it. -/
theorem stage_counts_steps (settings : CodegenSettings) (m : Module) (steps : List Step)
    (s : Session) (h : s = (start settings m).afterSteps steps) :
    (start settings m).succeeded steps = Step.all.take s.stage.rank ∧
      (s.stage = .done ↔ (start settings m).succeeded steps = Step.all) ∧
      Equipped settings s.stage s ∧
      (∀ step text s', s.take step = (.ok text, s') →
        s.stage = step.before ∧ s'.stage = step.after ∧ s'.stage.rank = s.stage.rank + 1) ∧
      (∀ step e s', s.take step = (.error e, s') → s'.stage = s.stage) ∧
      (s.stage = .optionsConfigured →
        ∀ step stage, s.createMachine ≠ .error (.outOfOrder step stage)) ∧
      (s.stage = .machineCreated →
        ∀ step stage, s.buildPipeline ≠ .error (.outOfOrder step stage)) := by
  obtain ⟨hsome, hstage⟩ := succeeded_in_order (s := start settings m) List.nil_prefix rfl steps
  rw [List.nil_append, ← h] at hstage
  rw [List.nil_append] at hsome
  have hequipped := equipped_afterSteps settings m steps
  rw [← h] at hequipped
  have htake : (start settings m).succeeded steps = Step.all.take s.stage.rank := by
    rw [hstage, Step.rank_stageAfter hsome]
    exact List.prefix_iff_eq_take.mp hsome
  refine ⟨htake, ⟨?_, ?_⟩, hequipped, ?_, fun _ _ _ => stage_of_error, ?_, ?_⟩
  · intro hdone
    rw [htake, hdone]
    rfl
  · intro hall
    rw [hstage, hall]
    rfl
  · intro step text s' htext
    obtain ⟨hown, t, -, rfl⟩ := take_ok_iff.mp htext
    exact ⟨hown, rfl, by rw [hown]; exact step.rank_after⟩
  · intro hown
    rw [hown] at hequipped
    exact createMachine_not_outOfOrder hequipped
  · intro hown
    rw [hown] at hequipped
    exact buildPipeline_not_outOfOrder hequipped

/-- Steps with one out of order, one repeated and a run whose verification fails. -/
def straySteps : List Step :=
  [.run, .initializeTargets, .initializeTargets, .initializePasses, .resolveTriple,
    .configureOptions, .createMachine, .buildPipeline, .run]

theorem stage_counts_steps_stray :
    ((start {} resultlessModule).afterSteps straySteps).stage = .pipelineBuilt ∧
      (start {} resultlessModule).succeeded straySteps = Step.all.take 6 ∧
      ∃ triple, ((start {} resultlessModule).afterSteps straySteps).work.module.triple =
        some (Triple.render triple) := by
  obtain ⟨hsucceeded, -, hequipped, -⟩ := stage_counts_steps {} resultlessModule straySteps _ rfl
  obtain ⟨triple, -, hmodule⟩ := hequipped.triple (by decide)
  exact ⟨rfl, hsucceeded, triple, hmodule⟩

end Session

end Offload.Pipeline
