import Offload.Proofs.Text.Utf8
import Offload.Split.Kernel

/-!
# What a kernel's hash is taken of

The bytes that are hashed for a closure have no lengths in them: each entry ends with a NUL, the
kind of a capture is told by its first byte, and a parameter's name starts after the last space of
its entry. The body stands behind all of it and may contain anything. As long as names and types
keep clear of these separators, the bytes still tell the closure and its body apart from any other.
-/

namespace Offload.Split

open List

/-! ### Entries and what closes them -/

/-- The stretch before the first separator, and what follows it. -/
theorem append_separator_inj {sep : UInt8} {xs ys us vs : List UInt8} (hxs : sep ∉ xs)
    (hys : sep ∉ ys) (h : xs ++ sep :: us = ys ++ sep :: vs) : xs = ys ∧ us = vs := by
  induction xs generalizing ys with
  | nil =>
    cases ys with
    | nil => simpa using h
    | cons y ys =>
      have hy : sep = y := (cons.inj h).1
      simp [hy] at hys
  | cons x xs ih =>
    rw [mem_cons, not_or] at hxs
    cases ys with
    | nil => exact absurd (cons.inj h).1.symm hxs.1
    | cons y ys =>
      rw [mem_cons, not_or] at hys
      have ⟨hhead, htail⟩ := cons.inj h
      have ⟨hrest, hbehind⟩ := ih hxs.2 hys.2 htail
      rw [hhead, hrest]
      exact ⟨rfl, hbehind⟩

/-- The stretch after the last separator, and what comes before it. -/
theorem append_separator_inj_right {sep : UInt8} {xs ys us vs : List UInt8} (hus : sep ∉ us)
    (hvs : sep ∉ vs) (h : xs ++ sep :: us = ys ++ sep :: vs) : xs = ys ∧ us = vs := by
  have hreverse := congrArg reverse h
  simp only [reverse_append, reverse_cons, append_assoc, singleton_append]
    at hreverse
  have ⟨hback, hfront⟩ := append_separator_inj (by simpa using hus) (by simpa using hvs) hreverse
  exact ⟨reverse_injective hfront, reverse_injective hback⟩

/-! ### Names behind a mark -/

/-- A list of names as it is hashed: each with a mark before it and a NUL behind it. -/
def markedNames (mark : String) (names : List String) : List UInt8 :=
  names.flatMap fun n => Text.bytes mark ++ Text.bytes n ++ [0]

theorem nul_not_mem_bytes {s : String} (h : '\x00' ∉ s.toList) : 0 ∉ Text.bytes s :=
  fun hmem => h (Text.latin1_mem_of_mem_bytes (by decide) hmem)

theorem markedNames_cons {mark : String} {b : UInt8} (hmark : Text.bytes mark = [b]) (n : String)
    (ns : List String) (rest : List UInt8) :
    markedNames mark (n :: ns) ++ rest =
      b :: (Text.bytes n ++ 0 :: (markedNames mark ns ++ rest)) := by
  simp [markedNames, hmark]

/-- Names behind the same mark are told apart from each other, and from what follows if that starts
with another byte. -/
theorem markedNames_append_inj {mark : String} {b : UInt8} (hmark : Text.bytes mark = [b])
    {ns ms : List String} {us vs : List UInt8} (hns : ∀ n ∈ ns, '\x00' ∉ n.toList)
    (hms : ∀ n ∈ ms, '\x00' ∉ n.toList) (hus : us.head? ≠ some b) (hvs : vs.head? ≠ some b)
    (h : markedNames mark ns ++ us = markedNames mark ms ++ vs) : ns = ms ∧ us = vs := by
  induction ns generalizing ms with
  | nil =>
    cases ms with
    | nil => simpa [markedNames] using h
    | cons m ms =>
      rw [markedNames_cons hmark] at h
      exact absurd (congrArg head? h) hus
  | cons n ns ih =>
    rw [forall_mem_cons] at hns
    cases ms with
    | nil =>
      rw [markedNames_cons hmark] at h
      exact absurd (congrArg head? h).symm hvs
    | cons m ms =>
      rw [forall_mem_cons] at hms
      rw [markedNames_cons hmark, markedNames_cons hmark] at h
      have ⟨hname, hrest⟩ := append_separator_inj (nul_not_mem_bytes hns.1)
        (nul_not_mem_bytes hms.1) (cons.inj h).2
      have ⟨hnames, hbehind⟩ := ih hns.2 hms.2 hrest
      rw [Text.bytes_injective hname, hnames]
      exact ⟨rfl, hbehind⟩

theorem head?_markedNames_append {mark : String} {b b' : UInt8} (hmark : Text.bytes mark = [b])
    (hne : b ≠ b') (ns : List String) {rest : List UInt8} (hrest : rest.head? ≠ some b') :
    (markedNames mark ns ++ rest).head? ≠ some b' := by
  cases ns with
  | nil => simpa [markedNames] using hrest
  | cons n ns =>
    rw [markedNames_cons hmark]
    simpa using hne

/-! ### The parameter -/

/-- No NUL in the name or the type, no space in the name, and a type that starts like no
capture. -/
structure ClosureParam.Separable (p : ClosureParam) : Prop where
  nul_name : '\x00' ∉ p.name.toList
  space_name : ' ' ∉ p.name.toList
  nul_type : '\x00' ∉ p.type.toList
  head_type : p.type.toList.head? ∉ [some '&', some '=']

/-- A parameter as it is hashed, without the NUL behind it. -/
def ClosureParam.entry (p : ClosureParam) : List UInt8 :=
  Text.bytes p.type ++ Ascii.space :: Text.bytes p.name

namespace ClosureParam.Separable

variable {p q : ClosureParam}

theorem nul_not_mem_entry (h : p.Separable) : 0 ∉ p.entry := by
  have htype := nul_not_mem_bytes h.nul_type
  have hname := nul_not_mem_bytes h.nul_name
  have hspace : (0 : UInt8) ≠ Ascii.space := by decide
  simp [entry, htype, hname, hspace]

theorem head?_entry (h : p.Separable) (rest : List UInt8) :
    (p.entry ++ rest).head? ≠ some 0x26 ∧ (p.entry ++ rest).head? ≠ some 0x3D := by
  have hstart {b : UInt8} (hb : b < 0x80) (hspace : Ascii.space ≠ b)
      (hmark : p.type.toList.head? ≠ some (Ascii.latin1 b)) :
      (p.entry ++ rest).head? ≠ some b := by
    intro hhead
    cases htype : Text.bytes p.type with
    | nil => exact hspace (by simpa [entry, htype] using hhead)
    | cons c cs =>
      have hc : (Text.bytes p.type).head? = some b := by simpa [entry, htype] using hhead
      exact hmark (Text.head?_of_head?_bytes hb hc)
  have htype := h.head_type
  simp only [mem_cons, not_mem_nil, or_false, not_or] at htype
  exact ⟨hstart (by decide) (by decide) htype.1, hstart (by decide) (by decide) htype.2⟩

/-- The name is what stands behind the last space. -/
theorem entry_inj (hp : p.Separable) (hq : q.Separable) (h : p.entry = q.entry) : p = q := by
  have hspace {r : ClosureParam} (hr : r.Separable) : Ascii.space ∉ Text.bytes r.name :=
    fun hmem => hr.space_name (Text.latin1_mem_of_mem_bytes (by decide) hmem)
  have ⟨htype, hname⟩ := append_separator_inj_right (hspace hp) (hspace hq) h
  cases p
  cases q
  rw [ClosureParam.mk.injEq]
  exact ⟨Text.bytes_injective hname, Text.bytes_injective htype⟩

end ClosureParam.Separable

/-! ### Closures -/

/-- One parameter, which keeps clear of the separators, and no NUL in the name of a capture. -/
structure Closure.Separable (c : Closure) : Prop where
  one : c.params.length = 1
  param : ∀ p ∈ c.params, p.Separable
  captures : ∀ x ∈ c.captures, '\x00' ∉ x.name.toList

theorem Closure.Separable.names {c : Closure} (h : c.Separable) :
    (∀ n ∈ c.byRef.map (·.name), '\x00' ∉ n.toList) ∧
      ∀ n ∈ c.byValue.map (·.name), '\x00' ∉ n.toList := by
  have hboth := h.captures
  rw [Closure.captures, forall_mem_append] at hboth
  exact ⟨forall_mem_map.mpr hboth.1, forall_mem_map.mpr hboth.2⟩

theorem hashInput_eq (byRef byValue : List String) (p : ClosureParam) (body : List UInt8) :
    hashInput byRef byValue [p] body =
      markedNames "&" byRef ++ (markedNames "=" byValue ++ (p.entry ++ 0 :: body)) := by
  have hspace : Text.bytes " " = [Ascii.space] := rfl
  simp [hashInput, markedNames, ClosureParam.entry, hspace]

/-- The bytes that are hashed determine what is captured, the parameter and the body. -/
theorem hashInput_determines_closure {c c' : Closure} {body body' : List UInt8}
    (hc : c.Separable) (hc' : c'.Separable)
    (h : hashInput (c.byRef.map (·.name)) (c.byValue.map (·.name)) c.params body =
      hashInput (c'.byRef.map (·.name)) (c'.byValue.map (·.name)) c'.params body') :
    c.byRef.map (·.name) = c'.byRef.map (·.name) ∧
      c.byValue.map (·.name) = c'.byValue.map (·.name) ∧ c.params = c'.params ∧ body = body' := by
  obtain ⟨p, hp⟩ := length_eq_one_iff.mp hc.one
  obtain ⟨p', hp'⟩ := length_eq_one_iff.mp hc'.one
  have hsep : p.Separable := hc.param p (by simp [hp])
  have hsep' : p'.Separable := hc'.param p' (by simp [hp'])
  rw [hp, hp', hashInput_eq, hashInput_eq] at h
  -- Neither the values nor the parameter can be taken for one more reference.
  have hstart := hsep.head?_entry (0 :: body)
  have hstart' := hsep'.head?_entry (0 :: body')
  have ⟨href, hrest⟩ := markedNames_append_inj rfl hc.names.1 hc'.names.1
    (head?_markedNames_append rfl (by decide) _ hstart.1)
    (head?_markedNames_append rfl (by decide) _ hstart'.1) h
  have ⟨hvalue, hlast⟩ := markedNames_append_inj rfl hc.names.2 hc'.names.2 hstart.2 hstart'.2 hrest
  have ⟨hentry, hbody⟩ := append_separator_inj hsep.nul_not_mem_entry hsep'.nul_not_mem_entry hlast
  rw [hp, hp', hsep.entry_inj hsep' hentry]
  exact ⟨href, hvalue, rfl, hbody⟩

/-- One closure, as it is written at some place of a file. -/
def scalingClosure (start : Nat) : Closure where
  byRef := [⟨"k", .byRef, some "int", false, ⟨start + 1, start + 3⟩⟩]
  byValue := [⟨"n", .byCopy, none, true, ⟨start, start + 1⟩⟩]
  params := [⟨"x", "const unsigned int"⟩]
  body := ⟨⟨start + 20, start + 30⟩, .file⟩

theorem scalingClosure_separable (start : Nat) : (scalingClosure start).Separable where
  one := rfl
  param := by
    simp only [scalingClosure, forall_mem_singleton]
    exact ⟨by decide, by decide, by decide, by decide⟩
  captures := by
    simp only [Closure.captures, scalingClosure, singleton_append, forall_mem_cons]
    exact ⟨by decide, by decide, by simp⟩

/-- Where a closure stands is not hashed, and its body may contain the separators. -/
theorem hashInput_determines_closure_scaling :
    (scalingClosure 3).byRef.map (·.name) = (scalingClosure 80).byRef.map (·.name) ∧
      (scalingClosure 3).byValue.map (·.name) = (scalingClosure 80).byValue.map (·.name) ∧
      (scalingClosure 3).params = (scalingClosure 80).params ∧
      ([0x26, 0, 0x20] : List UInt8) = [0x26, 0, 0x20] :=
  hashInput_determines_closure (scalingClosure_separable 3) (scalingClosure_separable 80) rfl

end Offload.Split
