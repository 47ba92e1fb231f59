import Offload.Proofs.Split.Device

/-!
# The host output

The host loses the functions meant for the device, and the closure of an accepted call is replaced
by a stub unless a removed function or a larger closure takes it along. Removals and replacements
are made in the order of the text. They come out right because a function is removed before the
closures in it are replaced, and the ranges of different functions share no byte.
-/

namespace Offload.Split

open Offload.Source List

variable {c : DualBuffer.Call} {f : FunctionDecl} {usings : List (List String)}
  {calls : List DualBuffer.Call} {kernels : List Kernel} {leaves : List Leaf} {count : Nat}

/-- The ranges that the host loses. -/
def hostLosses (settings : Settings) (decls : List Decl) : List SourceRange :=
  (functionsOf decls).flatMap (lostOnHost settings)

/-- The closures that stand last in the calls of a function. -/
def closuresOf (f : FunctionDecl) : List Closure := (f.body.elim [] Block.calls).filterMap closure?

/-- The edited spans of closures, each with its stub. -/
def stubs (doc : Document) (kernels : List Kernel) : List (Span × String) :=
  kernels.filterMap fun kernel =>
    (withTerminator doc kernel.body).toOption.map fun span => (span, kernel.hostStub)

/-- Neither a removed span nor another closure covers the closure. -/
def exposed (removed : List Span) (all : List (Span × String)) (stub : Span × String) : Bool :=
  !removed.any (·.covers stub.1) && !all.any fun other => other.1 != stub.1 && other.1.covers stub.1

/-- A function shares no byte with a later one and its header, closures lie in their functions, and
the closures of accepted calls have different spans. Neither what is removed nor a closure, which
has its braces, is empty. -/
structure Separate (settings : Settings) (doc : Document) (decls : List Decl) : Prop where
  nonempty : ∀ range ∈ hostLosses settings decls, range.span.start < range.span.stop
  disjoint : (functionsOf decls).Pairwise fun f g => ∀ range ∈ functionRanges g,
    f.range.span.overlaps range.span = false
  inside : ∀ f ∈ functionsOf decls, ∀ closure ∈ closuresOf f,
    closure.body.span.start < closure.body.span.stop ∧
      f.range.span.covers closure.body.span = true
  distinct : (expanded doc ((acceptedFrom settings [] (leavesOf true decls)).map
    (·.closure.body))).Nodup

variable {settings : Settings} {doc : Document}

/-! ### Calls on the host -/

theorem closure_mem_closuresOf {a : Accepted}
    (h : a ∈ (dispatched settings usings f).filterMap accepted?) : a.closure ∈ closuresOf f := by
  obtain ⟨call, hcall, ha⟩ := mem_filterMap.mp h
  obtain ⟨closure, hclosure, rfl⟩ := Option.map_eq_some_iff.mp ha
  exact mem_filterMap.mpr ⟨call, (mem_filter.mp hcall).1, hclosure⟩

theorem Accepted.kernel?_body {a : Accepted} {number : Nat} {kernel : Kernel}
    (h : a.kernel? settings doc number = some kernel) :
    kernel.body = a.closure.body ∧
      kernel.hostStub = hostStub (deviceFile settings doc) kernel.suffix := by
  unfold Accepted.kernel? at h
  split at h
  · obtain rfl := Option.some.inj h
    exact ⟨rfl, rfl⟩
  · cases h

/-- The dispatch calls of a function only replace closures on the host. -/
theorem mem_dispatchCalls_host {calls : List Call} (hc : c.side = .host)
    (h : c ∈ dispatchCalls settings doc f count calls) :
    ∃ a ∈ calls.filterMap accepted?, ∃ stub, c = .replace .host a.closure.body stub := by
  induction calls generalizing count with
  | nil => simp [dispatchCalls] at h
  | cons call rest ih =>
    rw [dispatchCalls, mem_append] at h
    rcases h with h | h
    · obtain ⟨range, -, rfl⟩ := mem_removals.mp h
      cases hc
    · cases ha : accepted? call with
      | none =>
        rw [ha] at h
        rw [filterMap_cons_none ha]
        exact ih h
      | some a =>
        rw [ha] at h
        rw [filterMap_cons_some ha]
        rcases mem_append.mp h with h | h
        · rcases mem_kernelCalls h with ⟨text, rfl⟩ | ⟨kernel, hk, rfl⟩
          · cases hc
          · exact ⟨a, mem_cons_self, _, by rw [(Accepted.kernel?_body hk).1]⟩
        · obtain ⟨b, hb, hstub⟩ := ih h
          exact ⟨b, mem_cons_of_mem _ hb, hstub⟩

/-- On the host a declaration loses a function for the device, or has closures replaced. -/
theorem Leaf.mem_calls_host {l : Leaf} (hc : c.side = .host)
    (h : c ∈ l.calls settings doc usings count) :
    ∃ f, l = .function f ∧ ((∃ range ∈ lostOnHost settings f, c = .remove .host range) ∨
      ∃ closure ∈ closuresOf f, ∃ stub, c = .replace .host closure.body stub) := by
  cases l with
  | directive d =>
    obtain ⟨range, -, rfl⟩ := mem_removals.mp h
    cases hc
  | usingNamespace path => simp [Leaf.calls] at h
  | function f =>
    refine ⟨f, rfl, ?_⟩
    simp only [Leaf.calls, mem_append, or_assoc] at h
    rcases h with h | h | h
    · obtain ⟨range, -, rfl⟩ := mem_removals.mp h
      cases hc
    · exact Or.inl (mem_removals.mp h)
    · obtain ⟨a, ha, hstub⟩ := mem_dispatchCalls_host hc h
      exact Or.inr ⟨a.closure, closure_mem_closuresOf ha, hstub⟩

theorem mem_callsFrom_host (hc : c.side = .host)
    (h : c ∈ callsFrom settings doc usings count leaves) :
    ∃ f ∈ leaves.filterMap Leaf.function?,
      (∃ range ∈ lostOnHost settings f, c = .remove .host range) ∨
        ∃ closure ∈ closuresOf f, ∃ stub, c = .replace .host closure.body stub := by
  induction leaves generalizing usings count with
  | nil => simp [callsFrom] at h
  | cons l rest ih =>
    rcases mem_append.mp h with h | h
    · obtain ⟨f, rfl, hf⟩ := Leaf.mem_calls_host hc h
      exact ⟨f, by simp [Leaf.function?], hf⟩
    · obtain ⟨f, hmem, hf⟩ := ih h
      refine ⟨f, ?_, hf⟩
      rw [mem_filterMap] at hmem ⊢
      obtain ⟨x, hx, hfx⟩ := hmem
      exact ⟨x, mem_cons_of_mem _ hx, hfx⟩

theorem remove_host_mem_callsFrom (hf : f ∈ leaves.filterMap Leaf.function?) {range : SourceRange}
    (h : range ∈ lostOnHost settings f) :
    .remove .host range ∈ callsFrom settings doc usings count leaves := by
  induction leaves generalizing usings count with
  | nil => simp at hf
  | cons l rest ih =>
    rw [callsFrom, mem_append]
    obtain ⟨x, hx, hfx⟩ := mem_filterMap.mp hf
    rcases mem_cons.mp hx with rfl | hx
    · refine Or.inl ?_
      cases x with
      | function g =>
        obtain rfl := Option.some.inj hfx
        simp only [Leaf.calls, mem_append]
        exact Or.inl (Or.inr (mem_removals.mpr ⟨range, h, rfl⟩))
      | directive d => cases hfx
      | usingNamespace path => cases hfx
    · exact Or.inr (ih (mem_filterMap.mpr ⟨x, hx, hfx⟩))

theorem lostOnHost_subset (f : FunctionDecl) : lostOnHost settings f ⊆ functionRanges f := by
  unfold lostOnHost
  split_ifs
  · exact List.Subset.refl _
  · exact nil_subset _

/-! ### Removals do not come too late -/

/-- The second call does not remove the very span that the first one replaced. -/
def NotUndone (doc : Document) (a c : DualBuffer.Call) : Prop :=
  ∀ body stub range span, a = .replace .host body stub → c = .remove .host range →
    withTerminator doc body = .ok span → withTerminator doc range ≠ .ok span

theorem Leaf.calls_pairwise (l : Leaf) (usings : List (List String)) (count : Nat) :
    (l.calls settings doc usings count).Pairwise (NotUndone doc) := by
  have hremoval : ∀ {side ranges a c}, a ∈ removals side ranges → NotUndone doc a c := by
    intro side ranges a c ha body stub range span heq
    obtain ⟨_, -, rfl⟩ := mem_removals.mp ha
    cases heq
  have hremovals : ∀ side ranges, (removals side ranges).Pairwise (NotUndone doc) :=
    fun side ranges => pairwise_of_forall_mem_list fun a ha c _ => hremoval ha
  cases l with
  | directive d => exact hremovals _ _
  | usingNamespace path => exact List.Pairwise.nil
  | function f =>
    rw [Leaf.calls, pairwise_append, pairwise_append]
    refine ⟨⟨hremovals _ _, hremovals _ _, fun a ha c _ => hremoval ha⟩, ?_, ?_⟩
    · -- among the calls of the body nothing is removed on the host
      refine pairwise_of_forall_mem_list fun a _ c hc body stub range span _ heq => ?_
      subst heq
      obtain ⟨_, -, _, hreplace⟩ := mem_dispatchCalls_host rfl hc
      cases hreplace
    · intro a ha c _
      rcases mem_append.mp ha with ha | ha <;> exact hremoval ha

/-- Where functions share no byte, no call of a walk removes a span that was replaced before. -/
theorem callsFrom_pairwise
    (hnonempty : ∀ f ∈ leaves.filterMap Leaf.function?, ∀ range ∈ lostOnHost settings f,
      range.span.start < range.span.stop)
    (hdisjoint : (leaves.filterMap Leaf.function?).Pairwise fun f g => ∀ range ∈ functionRanges g,
      f.range.span.overlaps range.span = false)
    (hinside : ∀ f ∈ leaves.filterMap Leaf.function?, ∀ closure ∈ closuresOf f,
      closure.body.span.start < closure.body.span.stop ∧
        f.range.span.covers closure.body.span = true) :
    (callsFrom settings doc usings count leaves).Pairwise (NotUndone doc) := by
  induction leaves generalizing usings count with
  | nil => exact List.Pairwise.nil
  | cons l rest ih =>
    have hsub : rest.filterMap Leaf.function? ⊆ (l :: rest).filterMap Leaf.function? :=
      ((sublist_cons_self l rest).filterMap _).subset
    rw [callsFrom, pairwise_append]
    refine ⟨l.calls_pairwise _ _, ih (fun f hf => hnonempty f (hsub hf))
      (hdisjoint.sublist ((sublist_cons_self l rest).filterMap _))
      (fun f hf => hinside f (hsub hf)), ?_⟩
    rintro a ha c hc body stub range span rfl rfl hbody hrange
    obtain ⟨f, rfl, ⟨_, -, heq⟩ | ⟨closure, hclosure, _, heq⟩⟩ := Leaf.mem_calls_host rfl ha
    · cases heq
    obtain ⟨g, hg, ⟨lost, hlost, hremove⟩ | ⟨_, -, _, hremove⟩⟩ := mem_callsFrom_host rfl hc
    · cases heq
      cases hremove
      -- the removed range would start inside the function of the closure
      have hf : f ∈ (Leaf.function f :: rest).filterMap Leaf.function? := by simp [Leaf.function?]
      rw [filterMap_cons_some (show Leaf.function? (.function f) = some f from rfl),
        pairwise_cons] at hdisjoint
      have happart := hdisjoint.1 g hg range (lostOnHost_subset g hlost)
      obtain ⟨hbodyLt, hcovers⟩ := hinside f hf closure hclosure
      have hrangeLt := hnonempty g (hsub hg) range hlost
      have hstart := (withTerminator_ok hbody).1.symm.trans (withTerminator_ok hrange).1
      rw [Span.covers_iff] at hcovers
      rw [← Bool.not_eq_true, Span.overlaps_iff] at happart
      omega
    · cases hremove

/-! ### Replaced closures -/

/-- The ranges replaced on the host, with what replaces them. -/
def replaced (calls : List DualBuffer.Call) : List (SourceRange × String) :=
  calls.filterMap fun
    | .replace .host range text => some (range, text)
    | _ => none

theorem replaced_append (calls more : List DualBuffer.Call) :
    replaced (calls ++ more) = replaced calls ++ replaced more :=
  filterMap_append

theorem replaced_writes (calls : List DualBuffer.Call) :
    replaced (writes calls) = replaced calls := by
  induction calls with
  | nil => rfl
  | cons c rest ih =>
    rw [← singleton_append, writes_append, replaced_append, replaced_append, ih]
    cases c <;> rfl

theorem mem_replaced {r : SourceRange × String} :
    r ∈ replaced calls ↔ .replace .host r.1 r.2 ∈ calls := by
  unfold replaced
  rw [mem_filterMap]
  constructor
  · rintro ⟨c, hc, heq⟩
    split at heq
    · obtain rfl := Option.some.inj heq
      exact hc
    · cases heq
  · exact fun h => ⟨_, h, rfl⟩

/-- What stands on the host in place of the closure of a kernel. -/
def Kernel.replacement (kernel : Kernel) : SourceRange × String := (kernel.body, kernel.hostStub)

theorem replaced_kernelEditsFrom (count : Nat) (kernels : List Kernel) :
    replaced (kernelEditsFrom count kernels) = kernels.map Kernel.replacement := by
  induction kernels generalizing count with
  | nil => rfl
  | cons kernel rest ih =>
    rw [kernelEditsFrom, replaced_append, ih, map_cons, Kernel.edits]
    split_ifs <;> rfl

/-- A walk replaces the closures of its kernels, in order. -/
theorem replaced_callsFrom
    (h : kernelsFrom settings doc count (acceptedFrom settings usings leaves) = some kernels) :
    replaced (callsFrom settings doc usings count leaves) = kernels.map Kernel.replacement := by
  rw [← replaced_writes, writes_callsFrom h, replaced_kernelEditsFrom]

theorem map_body_kernelsFrom {as : List Accepted}
    (h : kernelsFrom settings doc count as = some kernels) :
    kernels.map (·.body) = as.map (·.closure.body) := by
  induction as generalizing count kernels with
  | nil =>
    obtain rfl := Option.some.inj h
    rfl
  | cons a rest ih =>
    obtain ⟨kernel, others, hk, hrest, rfl⟩ := kernelsFrom_cons_iff.mp h
    rw [map_cons, map_cons, ih hrest, (Accepted.kernel?_body hk).1]

theorem map_fst_stubs (kernels : List Kernel) :
    (stubs doc kernels).map Prod.fst = expanded doc (kernels.map (·.body)) := by
  simp only [stubs, expanded, map_filterMap, filterMap_map]
  refine filterMap_congr fun kernel _ => ?_
  simp [Function.comp_def]

theorem mem_stubs {stub : Span × String} :
    stub ∈ stubs doc kernels ↔
      ∃ kernel ∈ kernels, withTerminator doc kernel.body = .ok stub.1 ∧
        kernel.hostStub = stub.2 := by
  unfold stubs
  rw [mem_filterMap]
  refine exists_congr fun kernel => and_congr_right fun _ => ?_
  cases withTerminator doc kernel.body <;> simp [Except.toOption, Prod.ext_iff]

/-! ### The calls of the host buffer -/

/-- The two calls do not replace one span. -/
def NotRepeated (doc : Document) (a c : DualBuffer.Call) : Prop :=
  ∀ body stub body' stub' span, a = .replace .host body stub → c = .replace .host body' stub' →
    withTerminator doc body = .ok span → withTerminator doc body' ≠ .ok span

theorem pairwise_notRepeated (h : (expanded doc ((replaced calls).map Prod.fst)).Nodup) :
    calls.Pairwise (NotRepeated doc) := by
  simp only [expanded, replaced, filterMap_map, filterMap_filterMap] at h
  rw [List.Nodup, pairwise_filterMap] at h
  refine h.imp ?_
  rintro a c hne body stub body' stub' span rfl rfl hbody hbody'
  refine hne span ?_ span ?_ rfl <;> simp [hbody, hbody', Except.toOption]

/-- In the buffer of the host, no call after a replacement has its span. -/
theorem callsOn_host_later (hundone : calls.Pairwise (NotUndone doc))
    (hrepeated : calls.Pairwise (NotRepeated doc)) :
    (DualBuffer.callsOn doc .host calls).Pairwise fun a c => ∀ span text, a = .replace span text →
      c.records = true → c.edit.span ≠ span := by
  rw [DualBuffer.callsOn, pairwise_filterMap]
  refine ((hundone.and hrepeated).filter _).imp_of_mem ?_
  rintro a c ha hc ⟨hundo, hrepeat⟩ e he e' he' span text rfl hrec heq
  obtain ⟨body, rfl, hbody⟩ : ∃ body, a = .replace .host body text ∧
      withTerminator doc body = .ok span := by
    have hside := (mem_filter.mp ha).2
    cases a with
    | remove side range =>
      obtain ⟨_, -, hcall⟩ := DualBuffer.Call.onBuffer?_remove.mp he
      cases hcall
    | replace side body stub =>
      obtain ⟨_, hbody, hcall⟩ := DualBuffer.Call.onBuffer?_replace.mp he
      cases hcall
      obtain rfl : side = .host := of_decide_eq_true hside
      exact ⟨body, rfl, hbody⟩
    | append side stub => cases he
  have hside := (mem_filter.mp hc).2
  cases c with
  | remove side range =>
    obtain ⟨other, hother, rfl⟩ := DualBuffer.Call.onBuffer?_remove.mp he'
    obtain rfl : side = .host := of_decide_eq_true hside
    obtain rfl : other = span := heq
    exact hundo body text range other rfl rfl hbody hother
  | replace side body' stub =>
    obtain ⟨other, hother, rfl⟩ := DualBuffer.Call.onBuffer?_replace.mp he'
    obtain rfl : side = .host := of_decide_eq_true hside
    obtain rfl : other = span := heq
    exact hrepeat body text body' stub other rfl rfl hbody hother
  | append side stub =>
    obtain rfl := Option.some.inj he'
    simp [EditBuffer.Call.records, Edit.isRange, Edit.isInsertion] at hrec

/-- Calls that remove some spans and put stubs in the place of others, where no call after a stub
has its span. -/
structure StubCalls (calls : List EditBuffer.Call) (removed : List Span)
    (all : List (Span × String)) : Prop where
  kinds : ∀ c ∈ calls, (∃ span ∈ removed, c = .remove span) ∨
    ∃ stub ∈ all, c = .replace stub.1 stub.2
  remove_mem : ∀ span ∈ removed, .remove span ∈ calls
  remove_lt : ∀ span ∈ removed, span.start < span.stop
  replace_mem : ∀ stub ∈ all, .replace stub.1 stub.2 ∈ calls
  replace_ordered : ∀ stub ∈ all, stub.1.Ordered
  later : calls.Pairwise fun a c => ∀ span text, a = .replace span text →
    c.records = true → c.edit.span ≠ span
  distinct : (all.map Prod.fst).Nodup

namespace StubCalls

variable {b : EditBuffer} {calls : List EditBuffer.Call} {removed : List Span}
  {all : List (Span × String)}

theorem ordered (hcalls : StubCalls calls removed all) : ∀ c ∈ calls, c.edit.span.Ordered := by
  intro c hc
  rcases hcalls.kinds c hc with ⟨span, hspan, rfl⟩ | ⟨stub, hstub, rfl⟩
  · exact (hcalls.remove_lt span hspan).le
  · exact hcalls.replace_ordered stub hstub

/-- A closure that is exposed is replaced in the result, and only those are. -/
theorem mem_edits_iff_exposed (hcalls : StubCalls calls removed all)
    (h : (EditBuffer.ofDocument doc).requestAll calls = .ok b) {stub : Span × String}
    (hstub : stub ∈ all) :
    (⟨stub.1, .replace stub.2⟩ : Edit) ∈ b.edits ↔ exposed removed all stub = true := by
  rw [EditBuffer.mem_edits_replace_iff h hcalls.ordered hcalls.later]
  simp only [exposed, Bool.and_eq_true, Bool.not_eq_true', any_eq_false, bne_iff_ne, ne_eq,
    not_and, Bool.not_eq_true]
  constructor
  · rintro ⟨-, hfree⟩
    refine ⟨fun span hspan => ?_, fun other hother hne => ?_⟩
    · refine hfree _ (hcalls.remove_mem span hspan) ?_ (by simp)
      simp [EditBuffer.Call.records, Edit.isRange, Edit.isInsertion, Span.isEmpty,
        (hcalls.remove_lt span hspan).ne]
    · exact hfree _ (hcalls.replace_mem other hother) (by simp)
        (by simpa using fun heq => absurd heq hne)
  · rintro ⟨hspans, hothers⟩
    refine ⟨hcalls.replace_mem stub hstub, fun c hc _ hne => ?_⟩
    rcases hcalls.kinds c hc with ⟨span, hspan, rfl⟩ | ⟨other, hother, rfl⟩
    · exact hspans span hspan
    · refine hothers other hother fun hspan => hne ?_
      rw [inj_on_of_nodup_map hcalls.distinct hother hstub hspan]

/-- The result lacks the removed spans and has the exposed stubs. -/
theorem bytes_result (hcalls : StubCalls calls removed all) (hdoc : Text.IsUtf8 doc.bytes)
    (h : (EditBuffer.ofDocument doc).requestAll calls = .ok b) {out : String}
    (hout : b.result = .ok out) :
    Text.bytes out = doc.rewritten removed (all.filter (exposed removed all)) := by
  have hsound : b.Sound := EditBuffer.requestAll_sound h hcalls.ordered
  have hdocument : b.document = doc := EditBuffer.requestAll_document h
  rw [EditBuffer.requestAll_bytes h hcalls.ordered hdoc hout]
  refine EditBuffer.pointwise_rewritten ?_ ?_ (hdocument ▸ hsound)
    (hcalls.distinct.of_map.filter _) ?_
  · intro e he
    obtain ⟨-, c, hc, rfl⟩ := EditBuffer.requestAll_edits_subset h e he
    rcases hcalls.kinds c hc with ⟨span, hspan, rfl⟩ | ⟨stub, hstub, rfl⟩
    · exact Or.inl ⟨span, hspan, rfl⟩
    · have hexposed := (hcalls.mem_edits_iff_exposed h hstub).mp he
      exact Or.inr ⟨stub, mem_filter.mpr ⟨hstub, hexposed⟩, rfl⟩
  · intro stub hstub
    obtain ⟨hmem, hexposed⟩ := mem_filter.mp hstub
    exact (hcalls.mem_edits_iff_exposed h hmem).mpr hexposed
  · intro span hspan offset hin
    rw [EditBuffer.takesAway_requestAll h, Edit.takesAway_iff]
    exact ⟨_, mem_map_of_mem (hcalls.remove_mem span hspan), rfl, hin⟩

end StubCalls

/-! ### The host output -/

theorem rewritten_nil (doc : Document) : doc.rewritten [] [] = doc.bytes := by
  have hall : (List.range (doc.length + 1)).flatMap (fun i => doc.bytes[i]?.toList) =
      doc.bytes := by
    rw [range_eq_range', Edit.flatMap_getElem?, drop_zero, take_of_length_le]
    exact Nat.le_succ _
  simpa [Document.rewritten] using hall

theorem mem_hostLosses {decls : List Decl} {range : SourceRange} :
    range ∈ hostLosses settings decls ↔ ∃ f ∈ functionsOf decls, range ∈ lostOnHost settings f :=
  mem_flatMap

/-- Calls that on the host lose the given ranges and replace the closures of the given kernels. -/
structure HostCalls (doc : Document) (calls : List DualBuffer.Call) (losses : List SourceRange)
    (kernels : List Kernel) : Prop where
  kinds : ∀ c ∈ calls, c.side = .host → (∃ range ∈ losses, c = .remove .host range) ∨
    ∃ body stub, c = .replace .host body stub
  remove_mem : ∀ range ∈ losses, .remove .host range ∈ calls
  remove_lt : ∀ range ∈ losses, range.span.start < range.span.stop
  replaced_eq : replaced calls = kernels.map Kernel.replacement
  replace_ordered : ∀ kernel ∈ kernels, kernel.body.span.Ordered
  undone : calls.Pairwise (NotUndone doc)
  distinct : (expanded doc (kernels.map (·.body))).Nodup

namespace HostCalls

variable {calls : List DualBuffer.Call} {losses : List SourceRange} {kernels : List Kernel}

theorem replace_mem (hcalls : HostCalls doc calls losses kernels) :
    ∀ kernel ∈ kernels, .replace .host kernel.body kernel.hostStub ∈ calls := by
  intro kernel hkernel
  have hmem : kernel.replacement ∈ replaced calls := by
    rw [hcalls.replaced_eq]
    exact mem_map_of_mem hkernel
  exact mem_replaced.mp hmem

theorem exists_kernel (hcalls : HostCalls doc calls losses kernels) {body : SourceRange}
    {stub : String} (h : .replace .host body stub ∈ calls) :
    ∃ kernel ∈ kernels, kernel.body = body ∧ kernel.hostStub = stub := by
  have hmem : (body, stub) ∈ replaced calls := mem_replaced.mpr h
  rw [hcalls.replaced_eq] at hmem
  obtain ⟨kernel, hkernel, heq⟩ := mem_map.mp hmem
  exact ⟨kernel, hkernel, Prod.mk.inj heq⟩

theorem notRepeated (hcalls : HostCalls doc calls losses kernels) :
    calls.Pairwise (NotRepeated doc) := by
  refine pairwise_notRepeated ?_
  rw [hcalls.replaced_eq, map_map]
  exact hcalls.distinct

/-- What the calls come to in the buffer of the host. -/
theorem stubCalls (hcalls : HostCalls doc calls losses kernels) :
    StubCalls (DualBuffer.callsOn doc .host calls) (expanded doc losses) (stubs doc kernels) where
  kinds e he := by
    obtain ⟨c, hc, hhost, heq⟩ := DualBuffer.mem_callsOn.mp he
    rcases hcalls.kinds c hc hhost with ⟨range, hrange, rfl⟩ | ⟨body, stub, rfl⟩
    · obtain ⟨span, hspan, rfl⟩ := DualBuffer.Call.onBuffer?_remove.mp heq
      exact Or.inl ⟨span, mem_expanded.mpr ⟨range, hrange, hspan⟩, rfl⟩
    · obtain ⟨span, hspan, rfl⟩ := DualBuffer.Call.onBuffer?_replace.mp heq
      obtain ⟨kernel, hkernel, rfl, rfl⟩ := hcalls.exists_kernel hc
      exact Or.inr ⟨(span, kernel.hostStub), mem_stubs.mpr ⟨kernel, hkernel, hspan, rfl⟩, rfl⟩
  remove_mem span hspan := by
    obtain ⟨range, hrange, hexpanded⟩ := mem_expanded.mp hspan
    exact DualBuffer.mem_callsOn.mpr ⟨_, hcalls.remove_mem range hrange, rfl,
      DualBuffer.Call.onBuffer?_remove.mpr ⟨span, hexpanded, rfl⟩⟩
  remove_lt span hspan := by
    obtain ⟨range, hrange, hexpanded⟩ := mem_expanded.mp hspan
    obtain ⟨hstart, hstop⟩ := withTerminator_ok hexpanded
    have hlt := hcalls.remove_lt range hrange
    omega
  replace_mem stub hstub := by
    obtain ⟨kernel, hkernel, hspan, htext⟩ := mem_stubs.mp hstub
    exact DualBuffer.mem_callsOn.mpr ⟨_, hcalls.replace_mem kernel hkernel, rfl,
      DualBuffer.Call.onBuffer?_replace.mpr ⟨stub.1, hspan, by rw [← htext]⟩⟩
  replace_ordered stub hstub := by
    obtain ⟨kernel, hkernel, hspan, -⟩ := mem_stubs.mp hstub
    obtain ⟨hstart, hstop⟩ := withTerminator_ok hspan
    have hordered := hcalls.replace_ordered kernel hkernel
    unfold Span.Ordered at *
    omega
  later := callsOn_host_later hcalls.undone hcalls.notRepeated
  distinct := by
    rw [map_fst_stubs]
    exact hcalls.distinct

end HostCalls

/-- A walk over separate functions loses the functions for the device and replaces the closures
of its kernels. -/
theorem Separate.hostCalls {decls : List Decl} (hsep : Separate settings doc decls)
    (hk : kernelsFrom settings doc 0 (acceptedFrom settings [] (leavesOf true decls)) =
      some kernels) :
    HostCalls doc (callsFrom settings doc [] 0 (leavesOf true decls)) (hostLosses settings decls)
      kernels := by
  have hfunctions : (leavesOf true decls).filterMap Leaf.function? = functionsOf decls :=
    filterMap_leavesOf true decls
  have hreplaced := replaced_callsFrom hk
  refine ⟨fun c hc hside => ?_, fun range hrange => ?_, hsep.nonempty, hreplaced,
    fun kernel hkernel => ?_, ?_, map_body_kernelsFrom hk ▸ hsep.distinct⟩
  · obtain ⟨f, hf, ⟨range, hrange, rfl⟩ | ⟨closure, -, stub, rfl⟩⟩ := mem_callsFrom_host hside hc
    · exact Or.inl ⟨range, mem_hostLosses.mpr ⟨f, hfunctions ▸ hf, hrange⟩, rfl⟩
    · exact Or.inr ⟨_, stub, rfl⟩
  · obtain ⟨f, hf, hlost⟩ := mem_hostLosses.mp hrange
    exact remove_host_mem_callsFrom (hfunctions ▸ hf) hlost
  · have hmem := mem_map_of_mem (f := Kernel.replacement) hkernel
    rw [← hreplaced] at hmem
    obtain ⟨f, hf, ⟨_, -, heq⟩ | ⟨closure, hclosure, _, heq⟩⟩ :=
      mem_callsFrom_host rfl (mem_replaced.mp hmem)
    · cases heq
    · injection heq with _ hbody
      rw [show kernel.body = closure.body from hbody]
      exact (hsep.inside f (hfunctions ▸ hf) closure hclosure).1.le
  · refine callsFrom_pairwise ?_ ?_ ?_ <;> rw [hfunctions]
    exacts [fun f hf range hlost => hsep.nonempty range (mem_hostLosses.mpr ⟨f, hf, hlost⟩),
      hsep.disjoint, hsep.inside]

/-- The host output is the document without the functions for the device, and with the exposed
closures of accepted calls replaced by their stubs. Where nothing is restricted to the device and no
call is accepted, it is the document. -/
theorem host_rewritten_by_stubs (settings : Settings) (name text : String) (decls : List Decl)
    (output : Output) (hsep : Separate settings (.ofText name text) decls)
    (h : splitDecls settings (.ofText name text) decls = .ok output) :
    let doc := Document.ofText name text
    let accepted := acceptedFrom settings [] (leavesOf true decls)
    let removed := expanded doc (hostLosses settings decls)
    ∃ kernels : List Kernel, kernels.length = accepted.length ∧
      (∀ (i : Nat) (a : Accepted), accepted[i]? = some a → ∃ kernel : Kernel,
        kernels[i]? = some kernel ∧ kernel.body = a.closure.body ∧
          kernel.hostStub = hostStub (deviceFile settings doc) kernel.suffix ∧
          output.kernels[i]? = some (a.handle settings doc kernel)) ∧
      (∀ range ∈ hostLosses settings decls, ∃ span, withTerminator doc range = .ok span) ∧
      (∀ kernel ∈ kernels, ∃ span, withTerminator doc kernel.body = .ok span) ∧
      Text.bytes output.host = doc.rewritten removed
        ((stubs doc kernels).filter (exposed removed (stubs doc kernels))) ∧
      (hostLosses settings decls = [] → accepted = [] → Text.bytes output.host = doc.bytes) := by
  intro doc accepted removed
  obtain ⟨buffers, kernels, hreq, hk, hhost, -, hhandles⟩ := splitDecls_ok h
  have hlength := length_kernelsFrom hk
  have hcalls := hsep.hostCalls hk
  have hout := hcalls.stubCalls.bytes_result (Text.isUtf8_bytes text)
    (DualBuffer.requestAll_side hreq .host) hhost
  refine ⟨kernels, hlength, ?_, fun range hrange => DualBuffer.requestAll_remove_ok hreq
    (hcalls.remove_mem range hrange), fun kernel hkernel => DualBuffer.requestAll_replace_ok hreq
    (hcalls.replace_mem kernel hkernel), hout, ?_⟩
  · intro i a ha
    obtain ⟨kernel, hkernel, hmade⟩ := kernelsFrom_getElem? hk ha
    obtain ⟨hbody, hstub⟩ := Accepted.kernel?_body hmade
    refine ⟨kernel, hkernel, hbody, hstub, ?_⟩
    rw [hhandles, getElem?_zipWith, ha, hkernel]
  · intro hnone haccepted
    have hkernels : kernels = [] :=
      eq_nil_of_length_eq_zero (hlength.trans (congrArg List.length haccepted))
    rw [hout, hnone, hkernels]
    exact rewritten_nil doc

theorem separate_nested : Separate nestedSettings (.ofText "w" nestedText) nestedDecls where
  nonempty := by decide +kernel
  disjoint := by decide +kernel
  inside := by decide +kernel
  distinct := by decide +kernel

/-- The function for the device is gone, and of two nested closures the outer one is replaced. -/
theorem host_rewritten_by_stubs_nested :
    Separate nestedSettings (.ofText "w" nestedText) nestedDecls ∧
      ∃ output, splitDecls nestedSettings (.ofText "w" nestedText) nestedDecls = .ok output ∧
        ∃ suffix, Text.bytes output.host = (Document.ofText "w" nestedText).rewritten [⟨81, 97⟩]
          [(⟨61, 78⟩, hostStub "w.cl" suffix)] := by
  obtain ⟨output, h⟩ := splitDecls_nested
  refine ⟨separate_nested, output, h, ?_⟩
  obtain ⟨kernels, hlength, hkernels, -, -, hout, -⟩ :=
    host_rewritten_by_stubs nestedSettings "w" nestedText nestedDecls output separate_nested h
  have hremoved : expanded (.ofText "w" nestedText) (hostLosses nestedSettings nestedDecls) =
      [⟨81, 97⟩] := by decide +kernel
  have hbodies : (acceptedFrom nestedSettings [] (leavesOf true nestedDecls)).map
      (·.closure.body) = [.file ⟨61, 78⟩, .file ⟨71, 75⟩] := by decide +kernel
  have houter : withTerminator (.ofText "w" nestedText) (.file ⟨61, 78⟩) = .ok ⟨61, 78⟩ := by
    decide +kernel
  have hinner : withTerminator (.ofText "w" nestedText) (.file ⟨71, 75⟩) = .ok ⟨71, 75⟩ := by
    decide +kernel
  have hfile : deviceFile nestedSettings (.ofText "w" nestedText) = "w.cl" := rfl
  generalize acceptedFrom nestedSettings [] (leavesOf true nestedDecls) = accepted at *
  have htwo : accepted.length = 2 := by simpa using congrArg List.length hbodies
  obtain ⟨a, b, rfl⟩ := length_eq_two.mp htwo
  simp only [map_cons, map_nil, List.cons.injEq, and_true] at hbodies
  obtain ⟨k, l, rfl⟩ := length_eq_two.mp hlength
  obtain ⟨_, hk, hkbody, hkstub, -⟩ := hkernels 0 a rfl
  obtain ⟨_, hl, hlbody, -, -⟩ := hkernels 1 b rfl
  obtain rfl := Option.some.inj hk
  obtain rfl := Option.some.inj hl
  refine ⟨k.suffix, ?_⟩
  rw [hout, hremoved]
  simp only [stubs, filterMap_cons, filterMap_nil, hkbody, hlbody, hbodies, houter,
    hinner, Except.toOption, Option.map_some, hkstub, hfile]
  simp [exposed, Span.covers]

end Offload.Split
