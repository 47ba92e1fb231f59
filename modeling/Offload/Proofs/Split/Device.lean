import Offload.Proofs.Split.Walk

/-!
# The device output

The device gets the document without everything that belongs to the host, followed by the kernels.
Which ranges it loses can be read off the declarations; removals repeat and nest, but only their
union matters.
-/

namespace Offload.Split

open Offload.Source List

variable {a : Accepted} {c : DualBuffer.Call} {f : FunctionDecl} {usings : List (List String)}
  {calls : List Call} {kernels : List Kernel} {leaves : List Leaf} {count : Nat}

section Losses

variable (settings : Settings)

/-- The ranges that the device loses because of one declaration. A function that dispatches goes
whole. -/
def Leaf.deviceLosses (usings : List (List String)) : Leaf → List SourceRange
  | .directive d => headerRanges settings d
  | .function f =>
    lostOnDevice settings f ++
      if (dispatched settings usings f).isEmpty then [] else functionRanges f
  | .usingNamespace _ => []

/-- The ranges that the device loses, given the using directives so far. -/
def deviceLossesFrom (usings : List (List String)) : List Leaf → List SourceRange
  | [] => []
  | l :: rest => l.deviceLosses settings usings ++ deviceLossesFrom (usings ++ l.using?.toList) rest

end Losses

/-- What follows the document on the device. -/
def kernelSection (kernels : List Kernel) : String :=
  if kernels.isEmpty then "" else forwardDeclarations ++ String.join (kernels.map (·.deviceText))

variable {settings : Settings} {doc : Document}

/-! ### Removals on the device -/

theorem mem_removals {side : Side} {ranges : List SourceRange} :
    c ∈ removals side ranges ↔ ∃ range ∈ ranges, c = .remove side range := by
  simp [removals, eq_comm]

theorem mem_kernelCalls (h : c ∈ kernelCalls settings doc count a) :
    (∃ text, c = .append .device text) ∨
      ∃ kernel, a.kernel? settings doc (count + 1) = some kernel ∧
        c = .replace .host kernel.body kernel.hostStub := by
  unfold kernelCalls at h
  cases hk : a.kernel? settings doc (count + 1) with
  | none => simp [hk] at h
  | some kernel =>
    rw [hk, Option.elim_some, Kernel.edits, mem_append] at h
    rcases h with h | h
    · split_ifs at h
      · exact Or.inl ⟨_, mem_singleton.mp h⟩
      · simp at h
    · simp only [mem_cons, not_mem_nil, or_false] at h
      rcases h with rfl | rfl
      · exact Or.inl ⟨_, rfl⟩
      · exact Or.inr ⟨kernel, rfl, rfl⟩

/-- On the device a function with dispatch calls is removed, and texts are put at the end. -/
theorem mem_dispatchCalls_device (hc : c.side = .device)
    (h : c ∈ dispatchCalls settings doc f count calls) :
    calls ≠ [] ∧ (∃ range ∈ functionRanges f, c = .remove .device range) ∨
      ∃ text, c = .append .device text := by
  induction calls generalizing count with
  | nil => simp [dispatchCalls] at h
  | cons call rest ih =>
    rw [dispatchCalls, mem_append] at h
    rcases h with h | h
    · exact Or.inl ⟨by simp, mem_removals.mp h⟩
    · have hrest : ∀ n, c ∈ dispatchCalls settings doc f n rest →
          call :: rest ≠ [] ∧ (∃ range ∈ functionRanges f, c = .remove .device range) ∨
            ∃ text, c = .append .device text := by
        intro n hn
        exact (ih hn).imp_left fun h => ⟨by simp, h.2⟩
      split at h
      · exact hrest _ h
      · rcases mem_append.mp h with h | h
        · rcases mem_kernelCalls h with htext | ⟨kernel, -, rfl⟩
          · exact Or.inr htext
          · cases hc
        · exact hrest _ h

theorem removals_subset_dispatchCalls (h : calls ≠ []) :
    removals .device (functionRanges f) ⊆ dispatchCalls settings doc f count calls := by
  obtain ⟨call, rest, rfl⟩ := exists_cons_of_ne_nil h
  rw [dispatchCalls]
  exact subset_append_left _ _

/-- One declaration's calls on the device: the removals of its losses, and text at the end. -/
theorem Leaf.mem_calls_device {l : Leaf} (hc : c.side = .device)
    (h : c ∈ l.calls settings doc usings count) :
    (∃ range ∈ l.deviceLosses settings usings, c = .remove .device range) ∨
      ∃ text, c = .append .device text := by
  cases l with
  | directive d => exact Or.inl (mem_removals.mp h)
  | usingNamespace path => simp [Leaf.calls] at h
  | function f =>
    simp only [Leaf.calls, mem_append, or_assoc] at h
    simp only [Leaf.deviceLosses, mem_append]
    rcases h with h | h | h
    · obtain ⟨range, hrange, rfl⟩ := mem_removals.mp h
      exact Or.inl ⟨range, Or.inl hrange, rfl⟩
    · obtain ⟨range, -, rfl⟩ := mem_removals.mp h
      cases hc
    · rcases mem_dispatchCalls_device hc h with ⟨hne, range, hrange, rfl⟩ | htext
      · refine Or.inl ⟨range, Or.inr ?_, rfl⟩
        rwa [if_neg (by simpa using hne)]
      · exact Or.inr htext

theorem Leaf.remove_mem_calls {l : Leaf} (count : Nat) {range : SourceRange}
    (h : range ∈ l.deviceLosses settings usings) :
    .remove .device range ∈ l.calls settings doc usings count := by
  cases l with
  | directive d => exact mem_removals.mpr ⟨range, h, rfl⟩
  | usingNamespace path => simp [Leaf.deviceLosses] at h
  | function f =>
    simp only [Leaf.calls, mem_append]
    rcases mem_append.mp h with h | h
    · exact Or.inl (Or.inl (mem_removals.mpr ⟨range, h, rfl⟩))
    · split_ifs at h with hempty
      · simp at h
      · exact Or.inr (removals_subset_dispatchCalls (by simpa using hempty)
          (mem_removals.mpr ⟨range, h, rfl⟩))

/-- The calls of a walk on the device are the removals of the losses, and text at the end. -/
theorem mem_callsFrom_device (hc : c.side = .device)
    (h : c ∈ callsFrom settings doc usings count leaves) :
    (∃ range ∈ deviceLossesFrom settings usings leaves, c = .remove .device range) ∨
      ∃ text, c = .append .device text := by
  induction leaves generalizing usings count with
  | nil => simp [callsFrom] at h
  | cons l rest ih =>
    simp only [deviceLossesFrom, mem_append]
    rcases mem_append.mp h with h | h
    · exact (Leaf.mem_calls_device hc h).imp_left fun ⟨range, hr, heq⟩ => ⟨range, Or.inl hr, heq⟩
    · exact (ih h).imp_left fun ⟨range, hr, heq⟩ => ⟨range, Or.inr hr, heq⟩

theorem remove_mem_callsFrom {range : SourceRange}
    (h : range ∈ deviceLossesFrom settings usings leaves) :
    .remove .device range ∈ callsFrom settings doc usings count leaves := by
  induction leaves generalizing usings count with
  | nil => simp [deviceLossesFrom] at h
  | cons l rest ih =>
    rw [callsFrom, mem_append]
    exact (mem_append.mp h).imp (Leaf.remove_mem_calls count) ih

/-! ### Kernels written by a walk -/

/-- The calls that are no removals. -/
def writes (calls : List DualBuffer.Call) : List DualBuffer.Call :=
  calls.filter fun
    | .remove _ _ => false
    | _ => true

@[simp] theorem writes_append (calls more : List DualBuffer.Call) :
    writes (calls ++ more) = writes calls ++ writes more :=
  filter_append ..

@[simp] theorem writes_removals (side : Side) (ranges : List SourceRange) :
    writes (removals side ranges) = [] := by
  simp [writes, removals]

/-- The edits that write some kernels, with `count` kernels before them. -/
def kernelEditsFrom : Nat → List Kernel → List DualBuffer.Call
  | _, [] => []
  | count, kernel :: rest => kernel.edits count ++ kernelEditsFrom (count + 1) rest

theorem kernelEditsFrom_append (count : Nat) (kernels more : List Kernel) :
    kernelEditsFrom count (kernels ++ more) =
      kernelEditsFrom count kernels ++ kernelEditsFrom (count + kernels.length) more := by
  induction kernels generalizing count with
  | nil => rfl
  | cons kernel rest ih =>
    have hcount : count + (kernel :: rest).length = count + 1 + rest.length := by
      rw [length_cons]
      omega
    rw [hcount, cons_append, kernelEditsFrom, kernelEditsFrom, ih, append_assoc]

theorem writes_kernelCalls {kernel : Kernel}
    (h : a.kernel? settings doc (count + 1) = some kernel) :
    writes (kernelCalls settings doc count a) = kernel.edits count := by
  rw [kernelCalls, h, Option.elim_some, Kernel.edits]
  split_ifs <;> rfl

theorem writes_dispatchCalls
    (h : kernelsFrom settings doc count (calls.filterMap accepted?) = some kernels) :
    writes (dispatchCalls settings doc f count calls) = kernelEditsFrom count kernels := by
  induction calls generalizing count kernels with
  | nil =>
    obtain rfl := Option.some.inj h
    rfl
  | cons call rest ih =>
    rw [dispatchCalls, writes_append, writes_removals, nil_append]
    cases ha : accepted? call with
    | none =>
      rw [filterMap_cons_none ha] at h
      exact ih h
    | some a =>
      rw [filterMap_cons_some ha] at h
      obtain ⟨kernel, others, hk, hrest, rfl⟩ := kernelsFrom_cons_iff.mp h
      rw [writes_append, writes_kernelCalls hk, ih hrest, kernelEditsFrom]

theorem Leaf.writes_calls {l : Leaf}
    (h : kernelsFrom settings doc count (l.accepted settings usings) = some kernels) :
    writes (l.calls settings doc usings count) = kernelEditsFrom count kernels := by
  cases l with
  | directive d =>
    obtain rfl := Option.some.inj h
    exact writes_removals _ _
  | usingNamespace path =>
    obtain rfl := Option.some.inj h
    rfl
  | function f =>
    simp only [Leaf.calls, writes_append, writes_removals, nil_append]
    exact writes_dispatchCalls h

/-- Apart from removals, a walk only writes its kernels. -/
theorem writes_callsFrom
    (h : kernelsFrom settings doc count (acceptedFrom settings usings leaves) = some kernels) :
    writes (callsFrom settings doc usings count leaves) = kernelEditsFrom count kernels := by
  induction leaves generalizing usings count kernels with
  | nil =>
    obtain rfl := Option.some.inj h
    rfl
  | cons l rest ih =>
    obtain ⟨before, after, hbefore, hafter, rfl⟩ := kernelsFrom_append_iff.mp h
    rw [callsFrom, writes_append, Leaf.writes_calls hbefore, ih hafter, kernelEditsFrom_append,
      length_kernelsFrom hbefore]

/-! ### Text at the end of the device output -/

/-- What the calls put at the end of the device output. -/
def appended (calls : List DualBuffer.Call) : List UInt8 :=
  calls.flatMap fun
    | .append .device text => Text.bytes text
    | _ => []

theorem appended_append (calls more : List DualBuffer.Call) :
    appended (calls ++ more) = appended calls ++ appended more :=
  flatMap_append

theorem appended_writes (calls : List DualBuffer.Call) :
    appended (writes calls) = appended calls := by
  induction calls with
  | nil => rfl
  | cons c rest ih =>
    rw [← singleton_append, writes_append, appended_append, appended_append, ih]
    cases c <;> rfl

theorem insertedAt_callsOn (calls : List DualBuffer.Call) :
    Edit.insertedAt ((DualBuffer.callsOn doc .device calls).map EditBuffer.Call.edit) doc.length =
      appended calls := by
  induction calls with
  | nil => rfl
  | cons c rest ih =>
    rw [← singleton_append, DualBuffer.callsOn_append, map_append,
      Edit.insertedAt_append, ih, appended_append]
    congr 1
    cases c with
    | remove side range =>
      cases side <;> cases h : withTerminator doc range <;>
        simp [DualBuffer.callsOn, DualBuffer.Call.side, DualBuffer.Call.onBuffer?, h, appended,
          Edit.insertedAt, Edit.isInsertion, Except.toOption]
    | replace side range text =>
      cases side <;> cases h : withTerminator doc range <;>
        simp [DualBuffer.callsOn, DualBuffer.Call.side, DualBuffer.Call.onBuffer?, h, appended,
          Edit.insertedAt, Edit.isInsertion, Except.toOption]
    | append side text =>
      cases side <;> simp [DualBuffer.callsOn, DualBuffer.Call.side, DualBuffer.Call.onBuffer?,
        appended, Edit.insertedAt, Edit.isInsertion, Edit.text, Span.point]

theorem appended_kernelEditsFrom (hpos : 0 < count) (kernels : List Kernel) :
    appended (kernelEditsFrom count kernels) =
      Text.bytes (String.join (kernels.map (·.deviceText))) := by
  induction kernels generalizing count with
  | nil => simp [kernelEditsFrom, appended, String.join]
  | cons kernel rest ih =>
    rw [kernelEditsFrom, appended_append, ih (Nat.succ_pos _), map_cons, String.join_cons,
      Text.bytes_append]
    simp [Kernel.edits, hpos.ne', appended]

/-- The kernels of a whole walk, with the accessors ahead of the first one. -/
theorem appended_kernelEditsFrom_zero (kernels : List Kernel) :
    appended (kernelEditsFrom 0 kernels) = Text.bytes (kernelSection kernels) := by
  cases kernels with
  | nil => rfl
  | cons kernel rest =>
    rw [kernelEditsFrom, appended_append, appended_kernelEditsFrom Nat.one_pos]
    simp [Kernel.edits, kernelSection, String.join_cons, appended]

/-! ### What a kernel carries -/

def hexDigits : List Char := "0123456789abcdef".toList

theorem digitChar_mem_hexDigits {n : Nat} (h : n < 16) : Nat.digitChar n ∈ hexDigits := by
  interval_cases n <;> decide

theorem length_hash (bs : List UInt8) : (Blake3.hash bs).length = 32 := by
  simp [Blake3.hash, length_flatMap]

/-- A suffix is the kernel's number and eight hexadecimal digits. -/
theorem kernelSuffix_eq (number : Nat) (input : List UInt8) :
    ∃ digits : List Char, kernelSuffix number input =
        toString number ++ "_" ++ String.ofList digits ∧
      digits.length = 8 ∧ ∀ c ∈ digits, c ∈ hexDigits := by
  refine ⟨_, rfl, ?_, ?_⟩
  · simp [Blake3.hexDigest, length_flatMap, length_hash]
  · intro c hc
    have hmem := mem_of_mem_take hc
    rw [Blake3.hexDigest, String.toList_ofList, mem_flatMap] at hmem
    obtain ⟨b, -, hb⟩ := hmem
    have hlt : b.toNat < 256 := b.toNat_lt
    simp only [mem_cons, not_mem_nil, or_false] at hb
    rcases hb with rfl | rfl
    · exact digitChar_mem_hexDigits (by omega)
    · exact digitChar_mem_hexDigits (by omega)

/-- The kernel is that of an accepted call under a number: its suffix has the number and eight
hexadecimal digits, and its device text has the suffix and the closure's parameter and body. -/
structure Carries (doc : Document) (number : Nat) (a : Accepted) (kernel : Kernel) : Prop where
  suffix : ∃ digits : List Char,
    kernel.suffix = toString number ++ "_" ++ String.ofList digits ∧
      digits.length = 8 ∧ ∀ c ∈ digits, c ∈ hexDigits
  text : ∃ param body, a.closure.params = [param] ∧ doc.slice a.closure.body.span = .ok body ∧
    kernel.deviceText = deviceText kernel.suffix param (Text.ofBytes body)

theorem Accepted.carries {number : Nat} {kernel : Kernel}
    (h : a.kernel? settings doc number = some kernel) : Carries doc number a kernel := by
  unfold Accepted.kernel? at h
  split at h
  · rename_i param body hparam hbody
    obtain rfl := Option.some.inj h
    exact ⟨kernelSuffix_eq _ _, param, body, hparam, hbody, rfl⟩
  · cases h

theorem kernelsFrom_getElem? {as : List Accepted}
    (h : kernelsFrom settings doc count as = some kernels) {i : Nat} (ha : as[i]? = some a) :
    ∃ kernel, kernels[i]? = some kernel ∧ a.kernel? settings doc (count + i + 1) = some kernel := by
  induction as generalizing count kernels i with
  | nil => simp at ha
  | cons first rest ih =>
    obtain ⟨kernel, others, hk, hrest, rfl⟩ := kernelsFrom_cons_iff.mp h
    cases i with
    | zero =>
      obtain rfl := Option.some.inj ha
      exact ⟨kernel, rfl, hk⟩
    | succ i =>
      obtain ⟨k, hget, hkernel⟩ := ih hrest (by simpa using ha)
      refine ⟨k, by simpa using hget, ?_⟩
      rwa [show count + (i + 1) + 1 = count + 1 + i + 1 by omega]

/-! ### The device output -/

/-- The result of removals, with text at the end, on the device. -/
theorem bytes_device {buffers : DualBuffer} {calls : List DualBuffer.Call}
    {losses : List SourceRange} {out : String} (hdoc : Text.IsUtf8 doc.bytes)
    (hordered : ∀ range ∈ losses, range.span.Ordered)
    (hcalls : ∀ c ∈ calls, c.side = .device →
      (∃ range ∈ losses, c = .remove .device range) ∨ ∃ text, c = .append .device text)
    (hlosses : ∀ range ∈ losses, .remove .device range ∈ calls)
    (hreq : (DualBuffer.ofDocument doc).requestAll calls = .ok buffers)
    (hout : buffers.device.result = .ok out) :
    Text.bytes out = doc.without (expanded doc losses) ++ appended calls := by
  rw [← insertedAt_callsOn]
  refine EditBuffer.requestAll_removals (DualBuffer.requestAll_side hreq .device) ?_ ?_
    (fun span hspan => ordered_of_mem_expanded hordered hspan) hdoc hout
  · intro e he
    obtain ⟨c, hc, hdevice, heq⟩ := DualBuffer.mem_callsOn.mp he
    rcases hcalls c hc hdevice with ⟨range, hrange, rfl⟩ | ⟨text, rfl⟩
    · obtain ⟨span, hspan, rfl⟩ := DualBuffer.Call.onBuffer?_remove.mp heq
      exact Or.inl ⟨span, mem_expanded.mpr ⟨range, hrange, hspan⟩, rfl⟩
    · exact Or.inr ⟨text, (Option.some.inj heq).symm⟩
  · intro span hspan
    obtain ⟨range, hrange, hexpanded⟩ := mem_expanded.mp hspan
    exact DualBuffer.mem_callsOn.mpr ⟨_, hlosses range hrange, rfl,
      DualBuffer.Call.onBuffer?_remove.mpr ⟨span, hexpanded, rfl⟩⟩

/-- The device output is the document without the losses, each with its terminator, followed by
the kernels of the accepted calls in order; the handles are those of the kernels. -/
theorem device_without_losses_then_kernels (settings : Settings) (name text : String)
    (decls : List Decl) (output : Output)
    (hordered : ∀ range ∈ deviceLossesFrom settings [] (leavesOf true decls), range.span.Ordered)
    (h : splitDecls settings (.ofText name text) decls = .ok output) :
    let doc := Document.ofText name text
    let losses := deviceLossesFrom settings [] (leavesOf true decls)
    let accepted := acceptedFrom settings [] (leavesOf true decls)
    ∃ kernels : List Kernel,
      (∀ range ∈ losses, ∃ span ∈ expanded doc losses, withTerminator doc range = .ok span) ∧
        Text.bytes output.device =
          doc.without (expanded doc losses) ++ Text.bytes (kernelSection kernels) ∧
        kernels.length = accepted.length ∧ output.kernels.length = accepted.length ∧
        ∀ i a, accepted[i]? = some a → ∃ kernel, kernels[i]? = some kernel ∧
          Carries doc (i + 1) a kernel ∧
            output.kernels[i]? = some (a.handle settings doc kernel) := by
  intro doc losses accepted
  obtain ⟨buffers, kernels, hreq, hk, -, hdevice, hhandles⟩ := splitDecls_ok h
  have hlength := length_kernelsFrom hk
  refine ⟨kernels, ?_, ?_, hlength, ?_, ?_⟩
  · intro range hrange
    obtain ⟨span, hspan⟩ := DualBuffer.requestAll_remove_ok hreq (remove_mem_callsFrom hrange)
    exact ⟨span, mem_expanded.mpr ⟨range, hrange, hspan⟩, hspan⟩
  · rw [bytes_device (Text.isUtf8_bytes text) hordered
      (fun c hc hside => mem_callsFrom_device hside hc) (fun range => remove_mem_callsFrom) hreq
      hdevice, ← appended_writes, writes_callsFrom hk, appended_kernelEditsFrom_zero]
  · rw [hhandles, length_zipWith, hlength, min_self]
  · intro i a ha
    obtain ⟨kernel, hkernel, hmade⟩ := kernelsFrom_getElem? hk ha
    rw [Nat.zero_add] at hmade
    refine ⟨kernel, hkernel, Accepted.carries hmade, ?_⟩
    rw [hhandles, getElem?_zipWith, ha, hkernel]

/-! ### A document with nested dispatch calls -/

theorem result_isOk_of_sorted {b : EditBuffer} (hs : b.edits.Pairwise (Edit.precedes · · = true))
    (h : (EditBuffer.applyFrom b.document 0 b.edits).isOk = true) : b.result.isOk = true := by
  rw [EditBuffer.result, EditBuffer.resultBytes, mergeSort_of_pairwise hs]
  cases ha : EditBuffer.applyFrom b.document 0 b.edits with
  | error f => simp [ha, Except.isOk, Except.toBool] at h
  | ok bytes => rfl

theorem splitDecls_isOk {decls : List Decl} {r : Except SplitError Unit × State}
    (hr : (visitDecls settings true decls).run.run (.ofDocument doc) = r)
    (hrun : r.1.isOk = true) (hhost : r.2.buffers.host.result.isOk = true)
    (hdevice : r.2.buffers.device.result.isOk = true) :
    ∃ output, splitDecls settings doc decls = .ok output := by
  obtain ⟨e | u, s⟩ := r
  · cases hrun
  · cases hh : s.buffers.host.result with
    | error f =>
      rw [hh] at hhost
      cases hhost
    | ok host =>
      cases hd : s.buffers.device.result with
      | error f =>
        rw [hd] at hdevice
        cases hdevice
      | ok device =>
        refine ⟨⟨host, device, s.diagnostics, s.kernels⟩, ?_⟩
        rw [splitDecls, hr]
        simp only [hh, hd]

def nestedSettings : Settings :=
  { marker := "a", dispatchFunction := "n::p", dispatchHeader := "P.h", dispatchArity := 1 }

def nestedText : String :=
  "#include \"x/P.h\"\nusing namespace n;int main()\x7b\x7d;" ++
    "f()\x7bp([](T x)\x7bp([](T y)\x7by;\x7d);\x7d);\x7dg()__a((\"gpu\"));k;"

/-- A call of `p` with one lambda that takes one parameter. -/
def nestedCall (span lambda body : Span) (param : String) (stmts : List Stmt) : Stmt :=
  .other span [.call ⟨["p"], false, span⟩ [.mk lambda [.lambda
    ⟨lambda, .point lambda.start, none, [], [⟨some param, "T", lambda⟩], none⟩
    (.mk (.file body) stmts)]]]

/-- An include, an entry point, a function with a dispatch call in the closure of another, and a
function for the device only. -/
def nestedDecls : List Decl :=
  [.directive ⟨.include_ "x/P.h" false ⟨0, 16⟩, ⟨0, 16⟩⟩,
    .usingNamespace ["n"] ⟨17, 35⟩,
    .function ⟨"main", [], ⟨39, 43⟩, .file ⟨35, 47⟩, none, [], [], true, none⟩,
    .function ⟨"f", [], ⟨48, 49⟩, .file ⟨48, 81⟩, none, [], [], false,
      some (.mk (.file ⟨51, 81⟩) [nestedCall ⟨52, 79⟩ ⟨54, 78⟩ ⟨61, 78⟩ "x"
        [nestedCall ⟨62, 76⟩ ⟨64, 75⟩ ⟨71, 75⟩ "y" []]])⟩,
    .function ⟨"g", [], ⟨81, 82⟩, .file ⟨81, 96⟩, none, [],
      [⟨"a", ⟨84, 96⟩, false, false, [.str ⟨"gpu", ⟨89, 94⟩⟩]⟩], false, none⟩,
    .other ⟨97, 99⟩]

theorem splitDecls_nested :
    ∃ output, splitDecls nestedSettings (.ofText "w" nestedText) nestedDecls = .ok output :=
  splitDecls_isOk rfl (by decide +kernel)
    (result_isOk_of_sorted (by decide +kernel) (by decide +kernel))
    (result_isOk_of_sorted (by decide +kernel) (by decide +kernel))

/-- Two kernels follow what is left of the document. -/
theorem device_without_losses_then_kernels_nested :
    (∀ range ∈ deviceLossesFrom nestedSettings [] (leavesOf true nestedDecls),
        range.span.Ordered) ∧
      ∃ output, splitDecls nestedSettings (.ofText "w" nestedText) nestedDecls = .ok output ∧
        ∃ kernels : List Kernel, kernels.length = 2 ∧ output.kernels.length = 2 ∧
          Text.bytes output.device =
            Text.bytes "\nusing namespace n;g()__a((\"gpu\"));k;" ++
              Text.bytes (kernelSection kernels) := by
  have hordered : ∀ range ∈ deviceLossesFrom nestedSettings [] (leavesOf true nestedDecls),
      range.span.Ordered := by
    simp only [Span.Ordered]
    decide +kernel
  have hcount : (acceptedFrom nestedSettings [] (leavesOf true nestedDecls)).length = 2 := by
    decide +kernel
  have hleft : (Document.ofText "w" nestedText).without (expanded (.ofText "w" nestedText)
      (deviceLossesFrom nestedSettings [] (leavesOf true nestedDecls))) =
      Text.bytes "\nusing namespace n;g()__a((\"gpu\"));k;" := by
    decide +kernel
  obtain ⟨output, h⟩ := splitDecls_nested
  obtain ⟨kernels, -, hdevice, hk, hhandles, -⟩ :=
    device_without_losses_then_kernels nestedSettings "w" nestedText nestedDecls output hordered h
  exact ⟨hordered, output, h, kernels, hk.trans hcount, hhandles.trans hcount, hleft ▸ hdevice⟩

end Offload.Split
