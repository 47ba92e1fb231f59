import Mathlib.Tactic
import Offload.Pipeline.Session

/-!
# The text that a session hands over

Steps may be taken in any order and taken again after a failure. Up to the run of the pipeline a
failed step leaves no trace, so the session stays where the steps taken in order lead. A failed run
is different: it uses the pipeline up and keeps the stage, so that a second run has nothing to do
and succeeds. The text handed over then is empty.
-/

namespace Offload.Pipeline

open Offload.Compiled List
open Offload.Target

variable {e : BackendError} {steps : List Step} {text : Option String} {s s' : Session}
  {step : Step}

namespace Pass

/-- The pass leaves the text as it is. -/
def isSilent : Pass → Bool
  | emit .. => false
  | _ => true

theorem run_output {p : Pass} (hp : p.isSilent = true) {work work' : Work}
    (h : p.run work = .ok work') : work'.output = work.output := by
  cases p with
  | emit => simp [isSilent] at hp
  | verify =>
    simp only [run] at h
    split at h
    · cases h
      rfl
    · cases h
  | _ =>
    simp only [run, Except.ok.injEq] at h
    subst h
    rfl

end Pass

/-- A pipeline that writes in its last pass at most has written nothing when it fails. -/
theorem runPasses_error_output {ps : List Pass} (hps : ∀ p ∈ ps.dropLast, p.isSilent = true)
    {work work' : Work} (h : runPasses ps work = (.error e, work')) :
    work'.output = work.output := by
  induction ps generalizing work with
  | nil => simp [runPasses] at h
  | cons p rest ih =>
    rw [runPasses] at h
    split at h
    · rename_i next hrun
      cases rest with
      | nil => simp [runPasses] at h
      | cons q rest =>
        have hp : p.isSilent = true := hps p (by simp)
        have hrest : ∀ p ∈ (q :: rest).dropLast, p.isSilent = true := by
          intro r hr
          exact hps r (by simp [hr])
        rw [ih hrest h, Pass.run_output hp hrun]
    · cases h
      rfl

/-- The stage that steps taken in order lead to. -/
def Step.stageAfter (steps : List Step) : Stage :=
  (steps.getLast?.map Step.after).getD .uninitialized

theorem Step.stageAfter_concat (steps : List Step) (step : Step) :
    stageAfter (steps ++ [step]) = step.after := by
  simp [stageAfter]

/-- Only one step can be taken in the stage that some first steps lead to. -/
theorem Step.prefix_concat (h : steps <+: Step.all) (hs : stageAfter steps = step.before) :
    steps ++ [step] <+: Step.all := by
  have hall : ∀ steps ∈ Step.all.inits, ∀ step ∈ Step.all,
      stageAfter steps = step.before → steps ++ [step] ∈ Step.all.inits := by decide
  have hstep : step ∈ Step.all := by cases step <;> decide
  exact (mem_inits _ _).mp (hall steps ((mem_inits _ _).mpr h) step hstep hs)

namespace Session

/-- The session that a list of steps leaves behind, whatever each of them answers. -/
def afterSteps (steps : List Step) (s : Session) : Session :=
  steps.foldl (fun s step => (s.take step).2) s

theorem afterSteps_concat (steps : List Step) (step : Step) (s : Session) :
    s.afterSteps (steps ++ [step]) = ((s.afterSteps steps).take step).2 := by
  simp [afterSteps]

/-! ### One step -/

theorem take_of_ne (h : s.stage ≠ step.before) :
    s.take step = (.error (.outOfOrder step s.stage), s) := if_neg h

theorem take_ok_iff :
    s.take step = (.ok text, s') ↔
      s.stage = step.before ∧
        ∃ t, s.perform step = (.ok text, t) ∧ s' = { t with stage := step.after } := by
  unfold take
  split_ifs with h
  · rcases hp : s.perform step with ⟨_ | _, t⟩ <;> simp [h, eq_comm]
  · simp [h]

/-- A step that fails leaves the session as it was, unless it is the run of the pipeline. -/
theorem perform_error (hr : step ≠ .run) (h : s.perform step = (.error e, s')) : s' = s := by
  cases step with
  | initializeTargets | initializePasses | configureOptions | finish => simp [perform] at h
  | run => exact absurd rfl hr
  | resolveTriple | createMachine | buildPipeline =>
    simp only [perform] at h
    split at h
    · simp at h
    · exact (Prod.mk.inj h).2.symm

/-- The steps that can fail succeed where what they do succeeds. -/
theorem perform_ok (h : s.perform step = (.ok text, s')) :
    (step = .resolveTriple → s.resolveTriple = .ok s') ∧
      (step = .createMachine → s.createMachine = .ok s') ∧
        (step = .buildPipeline → s.buildPipeline = .ok s') := by
  refine ⟨?_, ?_, ?_⟩
  all_goals
    rintro rfl
    simp only [perform] at h
    split at h
    · rename_i t ht
      rw [ht, (Prod.mk.inj h).2]
    · simp at h

theorem resolveTriple_ok (h : s.resolveTriple = .ok s') : ∃ triple, s' = { s with
      triple := some triple
      work := { s.work with module := { s.work.module with triple := some triple.render } } } := by
  unfold resolveTriple at h
  cases hq : s.requestedTriple with
  | error e => simp [hq, bind, Except.bind] at h
  | ok triple =>
    simp only [hq, bind, Except.bind, pure, Except.pure, Except.ok.injEq] at h
    exact ⟨triple, h.symm⟩

theorem createMachine_ok (h : s.createMachine = .ok s') :
    ∃ machine, s' = { s with machine := some machine } := by
  unfold createMachine at h
  cases hq : lookupTarget s.settings.backend with
  | error e => simp [hq, bind, Except.bind] at h
  | ok target =>
    simp only [hq, bind, Except.bind] at h
    split at h
    · obtain rfl := Except.ok.inj h
      exact ⟨_, rfl⟩
    · cases h

theorem take_error (hr : step ≠ .run ∨ s.stage ≠ .pipelineBuilt)
    (h : s.take step = (.error e, s')) : s' = s := by
  unfold take at h
  split_ifs at h with hs
  · have hstep : step ≠ .run := by
      rintro rfl
      exact hr.elim (· rfl) (· hs)
    rcases hp : s.perform step with ⟨_ | _, t⟩
    · rw [hp] at h
      obtain ⟨-, rfl⟩ := Prod.mk.inj h
      exact perform_error hstep hp
    · simp [hp] at h
  · exact (Prod.mk.inj h).2.symm

theorem take_run (hs : s.stage = .pipelineBuilt) :
    s.take .run =
      match runPasses s.pipeline s.work with
      | (.ok (), work) => (.ok none, { s with pipeline := [], work := work, stage := .ran })
      | (.error e, work) => (.error e, { s with pipeline := [], work := work }) := by
  rcases hp : runPasses s.pipeline s.work with ⟨_ | _, work⟩ <;>
    simp [take, Step.before, Step.after, hs, perform, runPipeline, hp, Except.map]

/-! ### Steps in order -/

theorem takeAll_concat (h : s.takeAll steps = .ok (text, s')) (step : Step) :
    s.takeAll (steps ++ [step]) =
      match s'.take step with
      | (.ok text, t) => .ok (text, t)
      | (.error e, _) => .error e := by
  unfold takeAll at h ⊢
  rw [foldlM_append, h]
  rcases ht : s'.take step with ⟨_ | _, t⟩ <;> simp [bind, Except.bind, ht, pure, Except.pure]

theorem takeAll_append_error (h : s.takeAll steps = .error e) (rest : List Step) :
    s.takeAll (steps ++ rest) = .error e := by
  unfold takeAll at h ⊢
  rw [foldlM_append, h]
  rfl

theorem takeAll_concat_ok (h : s.takeAll (steps ++ [step]) = .ok (text, s')) :
    ∃ text₀ s₀, s.takeAll steps = .ok (text₀, s₀) ∧ s₀.take step = (.ok text, s') := by
  cases hp : s.takeAll steps with
  | error e => simp [takeAll_append_error hp] at h
  | ok r =>
    rw [takeAll_concat hp] at h
    refine ⟨r.1, r.2, rfl, ?_⟩
    rcases ht : r.2.take step with ⟨_ | _, t⟩ <;> simp_all

/-- Before the pipeline is run: nothing is written, and only the last pass will write. -/
structure Fresh (s : Session) : Prop where
  output : s.work.output = ""
  silent : ∀ p ∈ s.pipeline.dropLast, p.isSilent = true

theorem fresh_start (settings : CodegenSettings) (m : Module) : (start settings m).Fresh :=
  ⟨rfl, by simp [start]⟩

theorem emissionPasses_silent {machine : Machine} {fileType : FileType} {disableVerify : Bool}
    {ps : List Pass} (h : machine.emissionPasses fileType disableVerify = .ok ps) :
    ps ≠ [] ∧ ∀ p ∈ ps.dropLast, p.isSilent = true := by
  unfold Machine.emissionPasses at h
  split_ifs at h
  · cases h
    simp [Pass.isSilent]
  · cases h
    simp [Pass.isSilent]

theorem analysisPasses_silent (machine : Machine) :
    ∀ p ∈ machine.analysisPasses, p.isSilent = true := by
  unfold Machine.analysisPasses
  split <;> simp [Pass.isSilent]

theorem Fresh.buildPipeline (hs : s.Fresh) (h : s.buildPipeline = .ok s') : s'.Fresh := by
  unfold Session.buildPipeline at h
  split at h
  · rename_i machine triple _ _
    cases he : machine.emissionPasses s.settings.fileType s.settings.options.disableVerify with
    | error e => simp [he, bind, Except.bind] at h
    | ok emission =>
      simp only [he, bind, Except.bind, pure, Except.pure, Except.ok.injEq] at h
      subst h
      obtain ⟨hne, hsilent⟩ := emissionPasses_silent he
      refine ⟨hs.output, ?_⟩
      intro p hp
      simp only [dropLast_append_of_ne_nil hne, mem_append, mem_cons] at hp
      rcases hp with ((rfl | hp) | hp) | hp
      · rfl
      · exact analysisPasses_silent machine p hp
      · rcases hp with rfl | hp
        · rfl
        · simp at hp
      · exact hsilent p hp
  · cases h

theorem Fresh.perform (hs : s.Fresh) (hr : step ≠ .run) (hf : step ≠ .finish)
    (h : s.perform step = (.ok text, s')) : s'.Fresh := by
  cases step with
  | run => exact absurd rfl hr
  | finish => exact absurd rfl hf
  | initializeTargets | initializePasses =>
    obtain ⟨-, rfl⟩ := Prod.mk.inj h
    exact hs
  | configureOptions =>
    obtain ⟨-, rfl⟩ := Prod.mk.inj h
    exact ⟨hs.output, hs.silent⟩
  | resolveTriple =>
    obtain ⟨triple, rfl⟩ := resolveTriple_ok ((perform_ok h).1 rfl)
    exact ⟨hs.output, hs.silent⟩
  | createMachine =>
    obtain ⟨machine, rfl⟩ := createMachine_ok ((perform_ok h).2.1 rfl)
    exact ⟨hs.output, hs.silent⟩
  | buildPipeline => exact hs.buildPipeline ((perform_ok h).2.2 rfl)

/-! ### Any steps -/

section

variable (settings : CodegenSettings) (m : Module)

/-- The session is where steps taken in order lead. -/
def OnTrack (s : Session) : Prop :=
  ∃ steps, steps <+: Step.all ∧ ∃ text, (start settings m).takeAll steps = .ok (text, s)

/-- Regeneration fails with `e` in a pass, and the session has nothing left to run or to write. -/
structure Spoiled (e : BackendError) (s : Session) : Prop where
  regenerate_eq : regenerate settings m = .error e
  stage : s.stage = .pipelineBuilt ∨ s.stage = .ran ∨ s.stage = .done
  pipeline : s.pipeline = []
  output : s.work.output = ""

variable {settings m}

theorem takeAll_stage (h : (start settings m).takeAll steps = .ok (text, s)) :
    s.stage = Step.stageAfter steps := by
  rcases eq_nil_or_concat' steps with rfl | ⟨steps, step, rfl⟩
  · cases h
    rfl
  · obtain ⟨text₀, s₀, -, ht⟩ := takeAll_concat_ok h
    obtain ⟨-, t, -, rfl⟩ := take_ok_iff.mp ht
    rw [Step.stageAfter_concat]

theorem takeAll_fresh (h : (start settings m).takeAll steps = .ok (text, s)) (hr : .run ∉ steps)
    (hf : .finish ∉ steps) : s.Fresh := by
  induction steps using List.reverseRecOn generalizing text s with
  | nil =>
    cases h
    exact fresh_start settings m
  | append_singleton steps step ih =>
    obtain ⟨text₀, s₀, hs₀, ht⟩ := takeAll_concat_ok h
    obtain ⟨-, t, hperform, rfl⟩ := take_ok_iff.mp ht
    have hfresh : s₀.Fresh := ih hs₀ (by simp_all) (by simp_all)
    obtain ⟨ho, hsilent⟩ :=
      hfresh.perform (by rintro rfl; simp at hr) (by rintro rfl; simp at hf) hperform
    exact ⟨ho, hsilent⟩

theorem onTrack_start : OnTrack settings m (start settings m) := ⟨[], nil_prefix, none, rfl⟩

/-- A successful step keeps the session on track. -/
theorem OnTrack.take_ok (hs : OnTrack settings m s) (h : s.take step = (.ok text, s')) :
    OnTrack settings m s' := by
  obtain ⟨steps, hprefix, text₀, hsteps⟩ := hs
  have hstage : Step.stageAfter steps = step.before := by
    rw [← takeAll_stage hsteps]
    exact (take_ok_iff.mp h).1
  refine ⟨steps ++ [step], Step.prefix_concat hprefix hstage, text, ?_⟩
  rw [takeAll_concat hsteps, h]

/-- The steps that lead to a built pipeline. -/
theorem prefix_of_stage_pipelineBuilt (h : steps <+: Step.all)
    (hs : Step.stageAfter steps = .pipelineBuilt) : Step.all = steps ++ [.run, .finish] := by
  have hall : ∀ steps ∈ Step.all.inits, Step.stageAfter steps = .pipelineBuilt →
      Step.all = steps ++ [.run, .finish] := by decide
  exact hall steps ((mem_inits _ _).mpr h) hs

/-- The first run that fails spoils the session. -/
theorem OnTrack.take_run_error (hs : OnTrack settings m s) (hstage : s.stage = .pipelineBuilt)
    (h : s.take .run = (.error e, s')) : Spoiled settings m e s' := by
  obtain ⟨steps, hprefix, text, hsteps⟩ := hs
  have hall := prefix_of_stage_pipelineBuilt hprefix (takeAll_stage hsteps ▸ hstage)
  have hfresh : s.Fresh := by
    have hmem : ∀ steps ∈ Step.all.inits, Step.all = steps ++ [.run, .finish] →
        .run ∉ steps ∧ .finish ∉ steps := by decide
    obtain ⟨hr, hf⟩ := hmem steps ((mem_inits _ _).mpr hprefix) hall
    exact takeAll_fresh hsteps hr hf
  rw [take_run hstage] at h
  split at h
  · simp at h
  · rename_i e' work hrun
    obtain ⟨he, rfl⟩ := Prod.mk.inj h
    cases he
    refine ⟨?_, Or.inl hstage, rfl, ?_⟩
    · have herror : (start settings m).takeAll (steps ++ [.run]) = .error e := by
        rw [takeAll_concat hsteps, take_run hstage, hrun]
      have := takeAll_append_error herror [.finish]
      rw [append_assoc, singleton_append, ← hall] at this
      simp [regenerate, this, bind, Except.bind]
    · rw [← hfresh.output]
      exact runPasses_error_output hfresh.silent hrun

/-- Nothing that is done to a spoiled session mends it. -/
theorem Spoiled.take (hs : Spoiled settings m e s) (step : Step) :
    Spoiled settings m e (s.take step).2 := by
  by_cases hstage : s.stage = step.before
  · rcases hs.stage with h | h | h
    · have hstep : step = .run := by cases step <;> simp_all [Step.before]
      subst hstep
      rw [take_run h, hs.pipeline]
      exact ⟨hs.regenerate_eq, by simp [runPasses], rfl, hs.output⟩
    · have hstep : step = .finish := by cases step <;> simp_all [Step.before]
      subst hstep
      simp only [Session.take, hstage, if_true, perform, takeOutput]
      exact ⟨hs.regenerate_eq, by simp [Step.after], hs.pipeline, rfl⟩
    · cases step <;> simp_all [Step.before]
  · rw [take_of_ne hstage]
    exact hs

/-- In one of the steps the pipeline was run and a pass failed with `e`. -/
def PassFailed (s : Session) (steps : List Step) (e : BackendError) : Prop :=
  ∃ before after, steps = before ++ .run :: after ∧
    (s.afterSteps before).stage = .pipelineBuilt ∧
      ((s.afterSteps before).take .run).1 = .error e

theorem passFailed_concat_iff :
    s.PassFailed (steps ++ [step]) e ↔
      s.PassFailed steps e ∨
        step = .run ∧ (s.afterSteps steps).stage = .pipelineBuilt ∧
          ((s.afterSteps steps).take .run).1 = .error e := by
  constructor
  · rintro ⟨before, after, heq, hstage, herror⟩
    rcases eq_nil_or_concat' after with rfl | ⟨after, last, rfl⟩
    · obtain ⟨rfl, hstep⟩ := append_inj' heq rfl
      exact Or.inr ⟨by simpa using hstep, hstage, herror⟩
    · refine Or.inl ⟨before, after, ?_, hstage, herror⟩
      rw [← cons_append, ← append_assoc] at heq
      exact (append_inj' heq rfl).1
  · rintro (⟨before, after, rfl, h⟩ | ⟨rfl, h⟩)
    · exact ⟨before, after ++ [step], by simp, h⟩
    · exact ⟨steps, [], rfl, h⟩

/-- After any steps a session is on track as long as no pass has failed, and spoiled from
then on. -/
theorem afterSteps_invariant (settings : CodegenSettings) (m : Module) (steps : List Step) :
    (∀ e, (start settings m).PassFailed steps e →
        Spoiled settings m e ((start settings m).afterSteps steps)) ∧
      ((∀ e, ¬ (start settings m).PassFailed steps e) →
        OnTrack settings m ((start settings m).afterSteps steps)) := by
  induction steps using List.reverseRecOn with
  | nil => exact ⟨fun e ⟨_, _, h, _⟩ => by simp at h, fun _ => onTrack_start⟩
  | append_singleton steps step ih =>
    obtain ⟨hspoiled, htrack⟩ := ih
    rw [afterSteps_concat]
    constructor
    · intro e he
      rcases passFailed_concat_iff.mp he with he | ⟨rfl, hstage, herror⟩
      · exact (hspoiled e he).take step
      · have hnone : ∀ e', ¬ (start settings m).PassFailed steps e' := by
          intro e' he'
          rw [take_run hstage, (hspoiled e' he').pipeline] at herror
          simp [runPasses] at herror
        exact (htrack hnone).take_run_error hstage (Prod.ext herror rfl)
    · intro hnone
      have hs := htrack fun e he => hnone e (passFailed_concat_iff.mpr (Or.inl he))
      rcases ht : ((start settings m).afterSteps steps).take step with ⟨e | text, t⟩
      · have hr : step ≠ .run ∨ ((start settings m).afterSteps steps).stage ≠ .pipelineBuilt := by
          by_contra hcon
          push Not at hcon
          obtain ⟨rfl, hstage⟩ := hcon
          exact hnone e (passFailed_concat_iff.mpr (Or.inr ⟨rfl, hstage, by rw [ht]⟩))
        rw [take_error hr ht]
        exact hs
      · exact hs.take_ok ht

/-- What a session on track hands over is the text of regenerating in one go. -/
theorem OnTrack.finish_text {text : String} (hs : OnTrack settings m s)
    (h : s.take .finish = (.ok (some text), s')) : regenerate settings m = .ok text := by
  obtain ⟨steps, hprefix, text₀, hsteps⟩ := hs
  have hstage : Step.stageAfter steps = .ran := by
    rw [← takeAll_stage hsteps]
    exact (take_ok_iff.mp h).1
  have hall : ∀ steps ∈ Step.all.inits, Step.stageAfter steps = .ran →
      Step.all = steps ++ [.finish] := by decide
  simp only [regenerate, hall steps ((mem_inits _ _).mpr hprefix) hstage, takeAll_concat hsteps, h]
  rfl

theorem Spoiled.finish_text {text : String} (hs : Spoiled settings m e s)
    (h : s.take .finish = (.ok (some text), s')) : text = "" := by
  obtain ⟨-, t, hperform, -⟩ := take_ok_iff.mp h
  obtain ⟨htext, -⟩ := Prod.mk.inj hperform
  rw [← hs.output]
  exact (Option.some.inj (Except.ok.inj htext)).symm

/-- A text handed over after any steps is the one of regenerating in one go exactly if no pass has
failed on the way. After a failed pass regeneration fails with the same error, and the text handed
over is empty. -/
theorem finish_agrees_iff_no_pass_failed (settings : CodegenSettings) (m : Module)
    (steps : List Step) (text : String)
    (h : (((start settings m).afterSteps steps).take .finish).1 = .ok (some text)) :
    (regenerate settings m = .ok text ↔ ∀ e, ¬ (start settings m).PassFailed steps e) ∧
      ∀ e, (start settings m).PassFailed steps e →
        regenerate settings m = .error e ∧ text = "" := by
  obtain ⟨hspoiled, htrack⟩ := afterSteps_invariant settings m steps
  have hfinish : ((start settings m).afterSteps steps).take .finish =
      (.ok (some text), (((start settings m).afterSteps steps).take .finish).2) := Prod.ext h rfl
  refine ⟨⟨?_, fun hnone => (htrack hnone).finish_text hfinish⟩, ?_⟩
  · intro hok e he
    rw [(hspoiled e he).regenerate_eq] at hok
    cases hok
  · intro e he
    exact ⟨(hspoiled e he).regenerate_eq, (hspoiled e he).finish_text hfinish⟩

end

/-- One function with a result that returns without one, so that verification fails. -/
def resultlessModule : Module where
  name := "m"
  functions := [⟨"f", .external, .int .w32, [], false, [⟨"entry", [], some (.ret none)⟩]⟩]

/-- All steps, with the run taken twice. -/
def retriedSteps : List Step :=
  [.initializeTargets, .initializePasses, .resolveTriple, .configureOptions, .createMachine,
    .buildPipeline, .run, .run]

/-- What verification finds in the module. -/
def resultlessError : BackendError := .verify (.function "f" (.missingResult (.int .w32)))

theorem passFailed_retriedSteps :
    (start {} resultlessModule).PassFailed retriedSteps resultlessError :=
  ⟨[.initializeTargets, .initializePasses, .resolveTriple, .configureOptions, .createMachine,
    .buildPipeline], [.run], rfl, rfl, rfl⟩

/-- The second run turns a failure into the success of an empty text. -/
theorem finish_disagrees_after_retried_run :
    (((start {} resultlessModule).afterSteps retriedSteps).take .finish).1 = .ok (some "") ∧
      regenerate {} resultlessModule ≠ .ok "" := by
  have h : regenerate {} resultlessModule = .error resultlessError := rfl
  refine ⟨rfl, ?_⟩
  rw [h]
  simp

theorem finish_agrees_iff_no_pass_failed_retried :
    (((start {} resultlessModule).afterSteps retriedSteps).take .finish).1 = .ok (some "") ∧
      (start {} resultlessModule).PassFailed retriedSteps resultlessError ∧
        regenerate {} resultlessModule = .error resultlessError :=
  ⟨rfl, passFailed_retriedSteps,
    ((finish_agrees_iff_no_pass_failed {} resultlessModule retriedSteps "" rfl).2
      resultlessError passFailed_retriedSteps).1⟩

end Session

end Offload.Pipeline
