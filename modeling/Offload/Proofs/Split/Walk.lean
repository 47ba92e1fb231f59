import Offload.Proofs.Edit.Dual
import Offload.Proofs.Split.Restriction
import Offload.Split.Document

/-!
# What a walk does

A walk that succeeds makes a list of edits that can be told from the declarations alone. The
declarations are first laid out in the order in which they are visited; each of them then asks for
edits of both sides, given the using directives before it and the number of kernels so far.
-/

namespace Offload.Split

open Offload.Source List

/-! ### Runs -/

namespace Run

variable {α β : Type} {x : Run α} {f : α → Run β} {a : α} {s m : State}
  {calls more : List DualBuffer.Call} {post post' : α → State → Prop} {goal : β → State → Prop}

/-- The run makes a list of edits. If it succeeds so do all of them, and something is known of its
value and the new state; if it ends at an edit that is refused, then the list is refused. -/
structure Does (x : Run α) (s : State) (calls : List DualBuffer.Call) (post : α → State → Prop) :
    Prop where
  ok : ∀ {a s'}, x.run.run s = (.ok a, s') →
    s.buffers.requestAll calls = .ok s'.buffers ∧ post a s'
  refused : ∀ {e s'}, x.run.run s = (.error (.edit e), s') →
    s.buffers.requestAll calls = .error (.refused e)

theorem does_of_run (hrun : x.run.run s = (.ok a, m)) (hbuffers : m.buffers = s.buffers)
    (h : post a m) : Does x s [] post where
  ok heq := by
    cases hrun.symm.trans heq
    exact ⟨hbuffers ▸ rfl, h⟩
  refused heq := by cases hrun.symm.trans heq

theorem does_pure (h : post a s) : Does (pure a) s [] post := does_of_run rfl rfl h

theorem does_throw {e : SplitError} (h : ∀ x, e ≠ .edit x) :
    Does (throw e : Run α) s calls post where
  ok heq := by cases heq
  refused heq := by
    cases heq
    exact absurd rfl (h _)

theorem Does.mono (h : Does x s calls post) (hpost : ∀ {a s'}, post a s' → post' a s') :
    Does x s calls post' :=
  ⟨fun hrun => (h.ok hrun).imp_right hpost, h.refused⟩

theorem Does.bind (hx : Does x s calls post) (hf : ∀ {a m}, post a m → Does (f a) m more goal) :
    Does (x >>= f) s (calls ++ more) goal := by
  have happend : s.buffers.requestAll (calls ++ more) =
      s.buffers.requestAll calls >>= (·.requestAll more) := foldlM_append ..
  rcases hrun : x.run.run s with ⟨e | a, m⟩
  · have heq : (x >>= f).run.run s = (.error e, m) := by
      rw [ExceptT.run_bind, StateT.run_bind, hrun]
      rfl
    refine ⟨fun h => ?_, fun h => ?_⟩ <;> cases heq.symm.trans h
    rw [happend, hx.refused hrun]
    rfl
  · have heq : (x >>= f).run.run s = (f a).run.run m := by
      rw [ExceptT.run_bind, StateT.run_bind, hrun]
      rfl
    obtain ⟨hcalls, ha⟩ := hx.ok hrun
    refine ⟨fun h => ?_, fun h => ?_⟩ <;> rw [happend, hcalls]
    · exact (hf ha).ok (heq.symm.trans h)
    · exact (hf ha).refused (heq.symm.trans h)

/-- After a step that edits nothing. -/
theorem Does.after (hrun : x.run.run s = (.ok a, m)) (hbuffers : m.buffers = s.buffers)
    (h : Does (f a) m calls goal) : Does (x >>= f) s calls goal := by
  have hx : Does x s [] fun b n => b = a ∧ n = m := does_of_run hrun hbuffers ⟨rfl, rfl⟩
  refine hx.bind ?_
  rintro _ _ ⟨rfl, rfl⟩
  exact h

end Run

/-! ### Declarations in visiting order -/

/-- What a walk acts on. -/
inductive Leaf where
  | directive (d : Directive)
  | function (f : FunctionDecl)
  | usingNamespace (path : List String)

mutual

/-- The declarations that a walk acts on, in the order of the text. Using directives count at file
scope only, and a linkage specification does not leave it. -/
def leavesOf (fileScope : Bool) : List Decl → List Leaf
  | [] => []
  | d :: rest => leavesOfDecl fileScope d ++ leavesOf fileScope rest

def leavesOfDecl (fileScope : Bool) : Decl → List Leaf
  | .directive d => [.directive d]
  | .function f => [.function f]
  | .record _ _ _ members => leavesOf false members
  | .scope _ _ decls => leavesOf false decls
  | .linkage _ _ decls => leavesOf fileScope decls
  | .usingNamespace path _ => if fileScope then [.usingNamespace path] else []
  | .other _ => []

end

namespace Leaf

/-- The function declared, if it is one. -/
def function? : Leaf → Option FunctionDecl
  | .function f => some f
  | _ => none

/-- The using directive, if it is one. -/
def using? : Leaf → Option (List String)
  | .usingNamespace path => some path
  | _ => none

end Leaf

mutual

theorem filterMap_leavesOf (fileScope : Bool) (decls : List Decl) :
    (leavesOf fileScope decls).filterMap Leaf.function? = functionsOf decls := by
  match decls with
  | [] => rfl
  | d :: rest =>
    rw [leavesOf, functionsOf, filterMap_append, filterMap_leavesOfDecl fileScope d,
      filterMap_leavesOf fileScope rest]

theorem filterMap_leavesOfDecl (fileScope : Bool) (d : Decl) :
    (leavesOfDecl fileScope d).filterMap Leaf.function? = d.functions := by
  match d with
  | .directive d | .function f | .other _ => rfl
  | .record _ _ _ members => exact filterMap_leavesOf false members
  | .scope _ _ decls => exact filterMap_leavesOf false decls
  | .linkage _ _ decls => exact filterMap_leavesOf fileScope decls
  | .usingNamespace path _ => cases fileScope <;> rfl

end

variable (settings : Settings)

def visitLeaf : Leaf → Run Unit
  | .directive d => visitDirective settings d
  | .function f => visitFunction settings f
  | .usingNamespace path => modify fun s => { s with usings := s.usings ++ [path] }

mutual

/-- A walk visits the leaves one after the other. -/
theorem visitDecls_eq_forM (fileScope : Bool) (decls : List Decl) :
    visitDecls settings fileScope decls = (leavesOf fileScope decls).forM (visitLeaf settings) := by
  match decls with
  | [] => rfl
  | d :: rest =>
    rw [visitDecls, leavesOf, visitDecl_eq_forM fileScope d, visitDecls_eq_forM fileScope rest]
    exact (forM_append ..).symm

theorem visitDecl_eq_forM (fileScope : Bool) (d : Decl) :
    visitDecl settings fileScope d = (leavesOfDecl fileScope d).forM (visitLeaf settings) := by
  match d with
  | .directive d => simp [visitDecl, leavesOfDecl, visitLeaf]
  | .function f => simp [visitDecl, leavesOfDecl, visitLeaf]
  | .record _ _ _ members => exact visitDecls_eq_forM false members
  | .scope _ _ decls => exact visitDecls_eq_forM false decls
  | .linkage _ _ decls => exact visitDecls_eq_forM fileScope decls
  | .usingNamespace path _ => cases fileScope <;> simp [visitDecl, leavesOfDecl, visitLeaf]
  | .other _ => rfl

end

/-! ### Kernels -/

/-- The closure for which a dispatch call is accepted: its last argument, if that is a lambda that
can be described. -/
def closure? (call : Call) : Option Closure :=
  call.args.getLast?.bind fun last => last.lambda?.bind fun lambda =>
    (Closure.ofLambda lambda).toOption

/-- A dispatch call and its closure. -/
structure Accepted where
  call : Call
  closure : Closure

def accepted? (call : Call) : Option Accepted := (closure? call).map (⟨call, ·⟩)

variable (doc : Document)

namespace Accepted

/-- The kernel of a call under its number. There is none for a closure without exactly one
parameter or with a body that is no slice of the document; a run ends there. -/
def kernel? (number : Nat) (a : Accepted) : Option Kernel :=
  match a.closure.params, doc.slice a.closure.body.span with
  | [param], .ok body =>
    let suffix := kernelSuffix number (hashInput (a.closure.byRef.map (·.name))
      (a.closure.byValue.map (·.name)) a.closure.params body)
    some {
      suffix := suffix
      body := a.closure.body
      deviceText := deviceText suffix param (Text.ofBytes body)
      hostStub := hostStub (deviceFile settings doc) suffix }
  | _, _ => none

def handle (a : Accepted) (kernel : Kernel) : KernelHandle :=
  ⟨deviceFile settings doc, kernelName kernel.suffix, a.call.head.span⟩

end Accepted

/-- The kernels of accepted calls, numbered on from `count`. -/
def kernelsFrom : Nat → List Accepted → Option (List Kernel)
  | _, [] => some []
  | count, a :: rest =>
    match a.kernel? settings doc (count + 1), kernelsFrom (count + 1) rest with
    | some kernel, some kernels => some (kernel :: kernels)
    | _, _ => none

variable {settings doc} {ks : List Kernel} {count : Nat} {call : Call}

theorem kernelsFrom_cons_iff {a : Accepted} {rest : List Accepted} :
    kernelsFrom settings doc count (a :: rest) = some ks ↔
      ∃ kernel kernels, a.kernel? settings doc (count + 1) = some kernel ∧
        kernelsFrom settings doc (count + 1) rest = some kernels ∧ ks = kernel :: kernels := by
  rw [kernelsFrom]
  cases a.kernel? settings doc (count + 1) <;>
    cases kernelsFrom settings doc (count + 1) rest <;> simp [eq_comm]

theorem kernelsFrom_append_iff {as more : List Accepted} :
    kernelsFrom settings doc count (as ++ more) = some ks ↔
      ∃ before after, kernelsFrom settings doc count as = some before ∧
        kernelsFrom settings doc (count + as.length) more = some after ∧ ks = before ++ after := by
  induction as generalizing count ks with
  | nil => simp [kernelsFrom]
  | cons a rest ih =>
    have hcount : count + (a :: rest).length = count + 1 + rest.length := by
      rw [length_cons]
      omega
    simp only [cons_append, kernelsFrom_cons_iff, ih, hcount]
    constructor
    · rintro ⟨kernel, _, hk, ⟨before, after, hbefore, hafter, rfl⟩, rfl⟩
      exact ⟨kernel :: before, after, ⟨kernel, before, hk, hbefore, rfl⟩, hafter, rfl⟩
    · rintro ⟨_, after, ⟨kernel, before, hk, hbefore, rfl⟩, hafter, rfl⟩
      exact ⟨kernel, before ++ after, hk, ⟨before, after, hbefore, hafter, rfl⟩, rfl⟩

theorem length_kernelsFrom {as : List Accepted}
    (h : kernelsFrom settings doc count as = some ks) : ks.length = as.length := by
  induction as generalizing count ks with
  | nil =>
    obtain rfl := Option.some.inj h
    rfl
  | cons a rest ih =>
    obtain ⟨kernel, kernels, -, hrest, rfl⟩ := kernelsFrom_cons_iff.mp h
    rw [length_cons, length_cons, ih hrest]

/-- Naming a kernel edits nothing. It either reports the call and changes nothing else, or counts an
accepted call. -/
theorem does_synthesize (settings : Settings) (call : Call) (s : State) :
    (synthesize settings call).Does s [] fun r s' =>
      (∃ ds, s' = { s with diagnostics := ds } ∧ r = none ∧ accepted? call = none) ∨
      ∃ ds a kernel, s' = { s with counter := s.counter + 1, diagnostics := ds } ∧
        r = some kernel ∧ accepted? call = some a ∧ a.call = call ∧
        a.kernel? settings s.buffers.document (s.counter + 1) = some kernel := by
  unfold synthesize
  refine .after rfl rfl ?_
  simp only
  split_ifs
  · exact Run.does_throw (by simp)
  split
  · exact Run.does_throw (by simp)
  rename_i last hlast
  split
  · rename_i hlambda
    exact .after rfl rfl (Run.does_pure (.inl ⟨_, rfl, rfl,
      by simp [accepted?, closure?, hlast, hlambda]⟩))
  rename_i lambda hlambda
  split
  · rename_i d hclosure
    exact .after rfl rfl (Run.does_pure (.inl ⟨_, rfl, rfl,
      by simp [accepted?, closure?, hlast, hlambda, hclosure, Except.toOption]⟩))
  rename_i closure hclosure
  split
  · rename_i param hparam
    refine .after rfl rfl ?_
    split
    · exact Run.does_throw (by simp)
    · rename_i body hbody
      refine .after rfl rfl (Run.does_pure (.inr ⟨_, ⟨call, closure⟩, _, rfl, rfl, ?_, rfl, ?_⟩))
      · simp [accepted?, closure?, hlast, hlambda, hclosure, Except.toOption]
      · simp [Accepted.kernel?, hparam, hbody]
  · exact Run.does_throw (by simp)

/-! ### Edits asked for by the declarations -/

/-- A function's own range, and for a template the one with its head. -/
def functionRanges (f : FunctionDecl) : List SourceRange := f.range :: f.templateRange.toList

variable (settings doc)

/-- What the device loses because of what a function is. -/
def lostOnDevice (f : FunctionDecl) : List SourceRange :=
  if f.isEntryPoint then [f.range]
  else if restrictedTo settings.marker "cpu" f then functionRanges f
  else []

/-- What the host loses because of what a function is. -/
def lostOnHost (f : FunctionDecl) : List SourceRange :=
  if !f.isEntryPoint && restrictedTo settings.marker "gpu" f then functionRanges f else []

/-- The include of the dispatch header. -/
def headerRanges (d : Directive) : List SourceRange :=
  match d.kind with
  | .include_ file _ span =>
    if lastComponent file == settings.dispatchHeader then [.file span] else []
  | _ => []

/-- The dispatch calls in a function's body, given the using directives before it. -/
def dispatched (usings : List (List String)) (f : FunctionDecl) : List Call :=
  (f.body.elim [] Block.calls).filter (isDispatch settings usings)

def removals (side : Side) (ranges : List SourceRange) : List DualBuffer.Call :=
  ranges.map (.remove side)

/-- The edits that write a kernel, with `count` kernels before it. -/
def Kernel.edits (count : Nat) (kernel : Kernel) : List DualBuffer.Call :=
  (if count = 0 then [.append .device forwardDeclarations] else []) ++
    [.append .device kernel.deviceText, .replace .host kernel.body kernel.hostStub]

/-- The edits for an accepted call, with `count` kernels before it. -/
def kernelCalls (count : Nat) (a : Accepted) : List DualBuffer.Call :=
  (a.kernel? settings doc (count + 1)).elim [] (Kernel.edits count)

/-- The edits for the dispatch calls of a function. -/
def dispatchCalls (f : FunctionDecl) : Nat → List Call → List DualBuffer.Call
  | _, [] => []
  | count, call :: rest =>
    removals .device (functionRanges f) ++
      match accepted? call with
      | none => dispatchCalls f count rest
      | some a => kernelCalls settings doc count a ++ dispatchCalls f (count + 1) rest

namespace Leaf

def accepted (usings : List (List String)) : Leaf → List Accepted
  | .function f => (dispatched settings usings f).filterMap accepted?
  | _ => []

def calls (usings : List (List String)) (count : Nat) : Leaf → List DualBuffer.Call
  | .directive d => removals .device (headerRanges settings d)
  | .function f =>
    removals .device (lostOnDevice settings f) ++ removals .host (lostOnHost settings f) ++
      dispatchCalls settings doc f count (dispatched settings usings f)
  | .usingNamespace _ => []

end Leaf

/-- The calls accepted on a walk, in the order of the walk. -/
def acceptedFrom (usings : List (List String)) : List Leaf → List Accepted
  | [] => []
  | l :: rest => l.accepted settings usings ++ acceptedFrom (usings ++ l.using?.toList) rest

/-- The edits of a walk. -/
def callsFrom (usings : List (List String)) (count : Nat) : List Leaf → List DualBuffer.Call
  | [] => []
  | l :: rest =>
    l.calls settings doc usings count ++
      callsFrom (usings ++ l.using?.toList) (count + (l.accepted settings usings).length) rest

variable {settings doc}

/-! ### The edits of a walk -/

/-- What a part of a walk does besides its edits: the accepted calls are numbered on and get their
handles, and the using directives are added. -/
structure Progress (settings : Settings) (s : State) (accepted : List Accepted)
    (usings : List (List String)) (s' : State) : Prop where
  document : s'.buffers.document = s.buffers.document
  named : ∃ kernels, kernelsFrom settings s.buffers.document s.counter accepted = some kernels ∧
    s'.kernels = s.kernels ++
      List.zipWith (Accepted.handle settings s.buffers.document) accepted kernels
  counter : s'.counter = s.counter + accepted.length
  usings : s'.usings = s.usings ++ usings

namespace Progress

variable {s m s' : State} {as bs : List Accepted} {us vs : List (List String)}

/-- Nothing but edits and reports. -/
theorem edited {b : DualBuffer} (h : b.document = s.buffers.document) (ds : List Diagnostic) :
    Progress settings s [] [] { s with buffers := b, diagnostics := ds } :=
  ⟨h, ⟨[], rfl, by simp⟩, rfl, by simp⟩

theorem refl (s : State) : Progress settings s [] [] s := .edited rfl s.diagnostics

theorem counted (h : Progress settings s as us s') (hs : s.counter = s.kernels.length) :
    s'.counter = s'.kernels.length := by
  obtain ⟨kernels, hk, hkernels⟩ := h.named
  simp [h.counter, hkernels, hs, length_kernelsFrom hk]

theorem trans (h : Progress settings s as us m) (h' : Progress settings m bs vs s') :
    Progress settings s (as ++ bs) (us ++ vs) s' where
  document := h'.document.trans h.document
  named := by
    obtain ⟨ks, hks, hkernels⟩ := h.named
    obtain ⟨ks', hks', hkernels'⟩ := h'.named
    rw [h.document, h.counter] at hks'
    refine ⟨ks ++ ks', kernelsFrom_append_iff.mpr ⟨ks, ks', hks, hks', rfl⟩, ?_⟩
    rw [hkernels', hkernels, h.document, append_assoc, zipWith_append (length_kernelsFrom hks).symm]
  counter := by rw [h'.counter, h.counter, length_append, Nat.add_assoc]
  usings := by rw [h'.usings, h.usings, append_assoc]

end Progress

section Visits

variable (settings) {s : State} (f : FunctionDecl)

theorem does_request (c : DualBuffer.Call) (s : State) :
    (Run.edit (·.request c)).Does s [c] fun _ s' => Progress settings s [] [] s' := by
  refine .after rfl rfl ?_
  simp only
  have hsingle := DualBuffer.requestAll_singleton s.buffers c
  cases hreq : s.buffers.request c with
  | ok b =>
    refine ⟨fun hrun => ?_, fun hrun => ?_⟩ <;> cases hrun
    exact ⟨hsingle.trans hreq, .edited (DualBuffer.request_document hreq) _⟩
  | error failure =>
    refine ⟨fun hrun => ?_, fun hrun => ?_⟩
    · cases hrun
    · cases failure <;> cases hrun
      exact hsingle.trans hreq

theorem does_remove (side : Side) (range : SourceRange) (s : State) :
    (Run.remove side range).Does s (removals side [range]) fun _ s' => Progress settings s [] [] s' :=
  does_request settings (.remove side range) s

theorem does_removeFunction (side : Side) (s : State) :
    (removeFunction side f).Does s (removals side (functionRanges f)) fun _ s' =>
      Progress settings s [] [] s' := by
  refine (does_remove settings side f.range s).bind fun hfirst => ?_
  cases f.templateRange with
  | none => exact Run.does_pure hfirst
  | some range => exact (does_remove settings side range _).mono hfirst.trans

theorem does_apply (call : Call) (kernel : Kernel) (s : State) :
    (apply settings call kernel).Does s
      [.append .device kernel.deviceText, .replace .host kernel.body kernel.hostStub]
      fun handle s' => Progress settings s [] [] s' ∧ handle =
        ⟨deviceFile settings s.buffers.document, kernelName kernel.suffix, call.head.span⟩ := by
  refine (does_request settings (.append _ _) s).bind fun hfirst => ?_
  refine (does_request settings (.replace _ _ _) _).bind fun hsecond => ?_
  have hboth := hfirst.trans hsecond
  exact .after rfl rfl (Run.does_pure ⟨hboth, by rw [hboth.document]⟩)

/-- Writing a kernel that was just named, with the accessors ahead of the first one. -/
theorem does_kernel {a : Accepted} {kernel : Kernel} (ds : List Diagnostic)
    (hcount : s.counter = s.kernels.length)
    (hk : a.kernel? settings s.buffers.document (s.counter + 1) = some kernel) :
    (do
      if (← get).kernels.isEmpty then
        Run.append .device forwardDeclarations
      let handle ← apply settings a.call kernel
      modify fun s => { s with kernels := s.kernels ++ [handle] } : Run Unit).Does
        { s with counter := s.counter + 1, diagnostics := ds }
        (kernelCalls settings s.buffers.document s.counter a)
        fun _ s' => Progress settings s [a] [] s' := by
  have hwrite : ∀ {m}, Progress settings { s with counter := s.counter + 1, diagnostics := ds }
      [] [] m → (do
        let handle ← apply settings a.call kernel
        modify fun s => { s with kernels := s.kernels ++ [handle] } : Run Unit).Does m
        [.append .device kernel.deviceText, .replace .host kernel.body kernel.hostStub]
        fun _ s' => Progress settings s [a] [] s' := by
    intro m hahead
    refine (does_apply settings a.call kernel m).bind ?_
    rintro _ n ⟨hwrite, rfl⟩
    have hboth := hahead.trans hwrite
    obtain ⟨kernels, -, hkernels⟩ := hboth.named
    refine Run.does_of_run rfl rfl ⟨hboth.document, ⟨[kernel], by simp [kernelsFrom, hk], ?_⟩,
      hboth.counter, hboth.usings⟩
    simp [hkernels, hahead.document, Accepted.handle]
  have hfirst : s.counter = 0 ↔ s.kernels.isEmpty = true := by
    rw [hcount, isEmpty_iff_length_eq_zero]
  rw [kernelCalls, hk, Option.elim_some, Kernel.edits]
  refine .after rfl rfl ?_
  simp only [hfirst]
  split_ifs
  · exact (does_request settings (.append _ _) _).bind hwrite
  · exact hwrite (.refl _)

theorem does_visitDispatch (call : Call) (hcount : s.counter = s.kernels.length) :
    (visitDispatch settings f call).Does s (removals .device (functionRanges f) ++
        (accepted? call).toList.flatMap (kernelCalls settings s.buffers.document s.counter))
      fun _ s' => Progress settings s (accepted? call).toList [] s' := by
  refine (does_removeFunction settings f .device s).bind fun {_ m} hfirst => ?_
  have hcounter : m.counter = s.counter := hfirst.counter
  refine (does_synthesize settings call m).bind ?_
  rintro r n (⟨ds, rfl, rfl, hnone⟩ | ⟨ds, a, kernel, rfl, rfl, hsome, rfl, hk⟩)
  · rw [hnone]
    exact Run.does_pure (hfirst.trans (.edited rfl ds))
  · have hsecond := does_kernel settings ds (hfirst.counted hcount) hk
    rw [hsome, ← hfirst.document, ← hcounter]
    simpa using hsecond.mono hfirst.trans

theorem does_forM_visitDispatch (calls : List Call) (hcount : s.counter = s.kernels.length) :
    (calls.forM (visitDispatch settings f)).Does s
      (dispatchCalls settings s.buffers.document f s.counter calls)
      fun _ s' => Progress settings s (calls.filterMap accepted?) [] s' := by
  induction calls generalizing s with
  | nil => exact Run.does_pure (.refl s)
  | cons call rest ih =>
    have hboth := (does_visitDispatch settings f call hcount).bind fun {_ m} hfirst => by
      have hsecond := ih (hfirst.counted hcount)
      rw [hfirst.document, hfirst.counter] at hsecond
      exact hsecond.mono hfirst.trans
    cases ha : accepted? call with
    | none => simpa [dispatchCalls, ha] using hboth
    | some a => simpa [dispatchCalls, ha] using hboth

theorem does_visitDirective (d : Directive) : (visitDirective settings d).Does s
    (removals .device (headerRanges settings d)) fun _ s' => Progress settings s [] [] s' := by
  unfold visitDirective headerRanges
  cases d.kind with
  | include_ file angled span =>
    simp only
    split_ifs
    · exact does_remove settings .device (.file span) s
    · exact Run.does_pure (.refl s)
  | _ => exact Run.does_pure (.refl s)

@[simp] theorem removals_nil (side : Side) : removals side [] = [] := rfl

/-- A visit looks at what a function is, and then at its body. -/
theorem does_restriction {rest : Unit → Run Unit} {calls : List DualBuffer.Call}
    {post : Unit → State → Prop}
    (hrest : ∀ {m}, Progress settings s [] [] m → (rest ()).Does m calls post) :
    (if f.isEntryPoint = true then Run.remove .device f.range >>= rest
      else do
        Run.report (restriction f settings.marker).2
        if (restriction f settings.marker).1.hostOnly = true then
          removeFunction .device f >>= rest
        else if (restriction f settings.marker).1.deviceOnly = true then
          removeFunction .host f >>= rest
        else rest () : Run Unit).Does s (removals .device (lostOnDevice settings f) ++
          removals .host (lostOnHost settings f) ++ calls) post := by
  rw [(only_restriction _ _).1, (only_restriction _ _).2]
  have hexclusive := restrictedTo_exclusive settings.marker f
  split_ifs with hentry hhost hdevice
  · simpa [lostOnDevice, lostOnHost, hentry] using (does_remove settings .device f.range s).bind hrest
  all_goals refine .after rfl rfl ?_
  · simpa [lostOnDevice, lostOnHost, hentry, hhost, hexclusive hhost] using
      (does_removeFunction settings f .device _).bind fun h => hrest (.trans (.edited rfl _) h)
  · simpa [lostOnDevice, lostOnHost, hentry, hhost, hdevice] using
      (does_removeFunction settings f .host _).bind fun h => hrest (.trans (.edited rfl _) h)
  · simpa [lostOnDevice, lostOnHost, hentry, hhost, hdevice] using hrest (.edited rfl _)

theorem does_visitFunction (hcount : s.counter = s.kernels.length) :
    (visitFunction settings f).Does s
      ((Leaf.function f).calls settings s.buffers.document s.usings s.counter)
      fun _ s' => Progress settings s ((Leaf.function f).accepted settings s.usings) [] s' := by
  simp only [Leaf.calls, Leaf.accepted, dispatched]
  refine does_restriction settings f fun {m} hfirst => ?_
  have hcounter : m.counter = s.counter := hfirst.counter
  cases f.body with
  | none => exact Run.does_pure hfirst
  | some body =>
    refine .after rfl rfl ?_
    have hsecond := does_forM_visitDispatch settings f
      (body.calls.filter (isDispatch settings m.usings)) (hfirst.counted hcount)
    rw [hfirst.document, hcounter] at hsecond
    have husings : m.usings = s.usings := by simpa using hfirst.usings
    rw [husings] at hsecond ⊢
    exact hsecond.mono hfirst.trans

/-- One step of a walk. -/
theorem does_visitLeaf (l : Leaf) (hcount : s.counter = s.kernels.length) :
    (visitLeaf settings l).Does s (l.calls settings s.buffers.document s.usings s.counter)
      fun _ s' => Progress settings s (l.accepted settings s.usings) l.using?.toList s' := by
  cases l with
  | directive d => exact does_visitDirective settings d
  | function f => exact does_visitFunction settings f hcount
  | usingNamespace path =>
    exact Run.does_of_run rfl rfl ⟨rfl, ⟨[], rfl, by simp [Leaf.accepted]⟩, rfl, rfl⟩

/-- A walk makes the edits and names the kernels that its declarations ask for. -/
theorem does_forM_visitLeaf (leaves : List Leaf) (hcount : s.counter = s.kernels.length) :
    (leaves.forM (visitLeaf settings)).Does s
      (callsFrom settings s.buffers.document s.usings s.counter leaves)
      fun _ s' => Progress settings s (acceptedFrom settings s.usings leaves)
        (leaves.flatMap (·.using?.toList)) s' := by
  induction leaves generalizing s with
  | nil => exact Run.does_pure (.refl s)
  | cons l rest ih =>
    refine (does_visitLeaf settings l hcount).bind fun {_ m} hfirst => ?_
    have hsecond := ih (hfirst.counted hcount)
    rw [hfirst.document, hfirst.counter, hfirst.usings] at hsecond
    exact hsecond.mono hfirst.trans

end Visits

variable {decls : List Decl}

theorem does_visitDecls (settings : Settings) (doc : Document) (decls : List Decl) :
    (visitDecls settings true decls).Does (.ofDocument doc)
      (callsFrom settings doc [] 0 (leavesOf true decls))
      fun _ s' => Progress settings (.ofDocument doc)
        (acceptedFrom settings [] (leavesOf true decls))
        ((leavesOf true decls).flatMap (·.using?.toList)) s' := by
  rw [visitDecls_eq_forM]
  exact does_forM_visitLeaf settings (leavesOf true decls) rfl

/-- The outputs of a document are the results of the edits that its declarations ask for. -/
theorem splitDecls_ok {output : Output}
    (h : splitDecls settings doc decls = .ok output) :
    ∃ buffers kernels, (DualBuffer.ofDocument doc).requestAll
          (callsFrom settings doc [] 0 (leavesOf true decls)) = .ok buffers ∧
        kernelsFrom settings doc 0 (acceptedFrom settings [] (leavesOf true decls)) =
          some kernels ∧
        buffers.host.result = .ok output.host ∧ buffers.device.result = .ok output.device ∧
        output.kernels = List.zipWith (Accepted.handle settings doc)
          (acceptedFrom settings [] (leavesOf true decls)) kernels := by
  unfold splitDecls at h
  split at h
  · cases h
  · rename_i s hrun
    obtain ⟨hbuffers, hwalk⟩ := (does_visitDecls settings doc decls).ok hrun
    obtain ⟨kernels, hk, hkernels⟩ := hwalk.named
    split at h
    · rename_i host device hhost hdevice
      obtain rfl := Except.ok.inj h
      exact ⟨s.buffers, kernels, hbuffers, hk, hhost, hdevice, hkernels⟩
    · cases h
    · cases h

end Offload.Split
