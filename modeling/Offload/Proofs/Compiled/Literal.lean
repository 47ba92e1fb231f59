import Mathlib.Data.List.Dedup
import Offload.Proofs.Compiled.Stable

/-!
# Anonymous struct types

Named struct types and those that are named by the reader share one list. A definition looks for its
name in that list before it takes it, but a name that is made up is taken as it is. The names are
distinct, and an anonymous type is found under its name as it was written, only as far as the text
itself does not define such names.
-/

namespace Offload.Compiled

open List

/-- The name made up for an anonymous struct type after `n` others. -/
def literalName (n : Nat) : String := "literal." ++ toString n

theorem literalName_injective : Function.Injective literalName := by
  intro m n h
  have hrepr : m.repr = n.repr := (String.append_right_inj "literal.").mp h
  have hdigits : Nat.toDigits 10 m = Nat.toDigits 10 n := by
    rw [← Nat.toList_repr, hrepr, Nat.toList_repr]
  have hm := Nat.ofDigitChars_toDigits (b := 10) (n := m) (by decide) (by decide)
  rw [hdigits, Nat.ofDigitChars_toDigits (by decide) (by decide)] at hm
  exact hm.symm

/-! ### The steps that add struct types -/

namespace Read

variable {r r' : Reader}

theorem gives_literalStruct {fields : List Ty} {isPacked : Bool} {t : Ty}
    (h : Gives (literalStruct fields isPacked) r t r') :
    (∃ s ∈ r.module.structs, s.fields = fields ∧ s.isPacked = isPacked ∧ t = .struct s.name ∧
        r' = r) ∨
      (t = .struct (literalName r.literals) ∧ r'.literals = r.literals + 1 ∧
        r'.module.structs =
          r.module.structs ++ [⟨literalName r.literals, fields, isPacked, false⟩]) := by
  rcases run_literalStruct fields isPacked r with ⟨s, hs, hfields, hpacked, hrun⟩ | hrun
  · cases (hrun r.rest).symm.trans h
    exact .inl ⟨s, hs, hfields, hpacked, rfl, rfl⟩
  · cases (hrun r.rest).symm.trans h
    exact .inr ⟨rfl, rfl, rfl⟩

/-- A definition is added if its name is new, or takes the place of a type without fields. -/
theorem gives_defineStruct {d : StructDef} {u : Unit} (h : Gives (defineStruct d) r u r') :
    r'.literals = r.literals ∧
      (((∀ s ∈ r.module.structs, s.name ≠ d.name) ∧
          r'.module.structs = r.module.structs ++ [d]) ∨
        ∃ before known after, r.module.structs = before ++ known :: after ∧
          (∀ s ∈ before, s.name ≠ d.name) ∧ known.name = d.name ∧ known.isOpaque = true ∧
          r'.module.structs = before ++ d :: after) := by
  simp only [defineStruct, gives_bind, gives_get] at h
  obtain ⟨_, m, ⟨rfl, rfl⟩, h⟩ := h
  split at h
  · rename_i hnone
    obtain rfl := gives_modify.mp h
    exact ⟨rfl, .inl ⟨by simpa [findIdx?_eq_none_iff] using hnone, rfl⟩⟩
  · rename_i i hi
    obtain ⟨hlt, hname, hbefore⟩ := findIdx?_eq_some_iff_getElem.mp hi
    rw [getElem?_eq_getElem hlt] at h
    simp only at h
    split at h
    · rename_i hundefined
      obtain rfl := gives_modify.mp h
      refine ⟨rfl, .inr ⟨m.module.structs.take i, m.module.structs[i], m.module.structs.drop (i + 1),
        ?_, ?_, by simpa using hname, hundefined, ?_⟩⟩
      · rw [← drop_eq_getElem_cons hlt, take_append_drop]
      · intro s hs
        obtain ⟨j, hj, rfl⟩ := mem_iff_getElem.mp hs
        rw [length_take] at hj
        simpa using hbefore j (by omega)
      · exact set_eq_take_append_cons_drop.trans (if_pos hlt)
    · exact absurd h not_gives_fail

end Read

/-! ### Courses of a reading -/

/-- The steps of a reading as far as they matter to struct types, with the definitions that they
pass in order. -/
inductive Course : Reader → List StructDef → Reader → Prop where
  | still {r r' : Reader} (structs : r'.module.structs = r.module.structs)
      (literals : r'.literals = r.literals) : Course r [] r'
  | literal {r r' : Reader} {fields : List Ty} {isPacked : Bool} {t : Ty}
      (added : Gives (Read.literalStruct fields isPacked) r t r') : Course r [] r'
  | define {r r' : Reader} {d : StructDef} (defined : Gives (Read.defineStruct d) r () r') :
      Course r [d] r'
  | trans {r s t : Reader} {ds es : List StructDef} (first : Course r ds s)
      (second : Course s es t) : Course r (ds ++ es) t

/-- Where no struct type is defined, every reader runs such a course. -/
theorem Course.stable : Stable (Course · [] ·) where
  trans h₁ h₂ := .trans h₁ h₂
  still hstructs _ hliterals := .still hstructs hliterals
  literal _ _ _ _ _ h := .literal h

/-- The struct types after the definitions `ds` and `n` made-up names. -/
structure Tabled (ds : List StructDef) (n : Nat) (structs : List StructDef) : Prop where
  /-- Every definition's name stands once, and every made-up name once more. -/
  names : (structs.map (·.name)).Perm
    ((ds.map (·.name)).dedup ++ (List.range n).map literalName)
  isOpaque : ∀ s ∈ structs, s.isOpaque = true → s.name ∈ ds.map (·.name)
  /-- A name that is defined stands for its last definition. -/
  last : ∀ ⦃name d⦄, ds.reverse.find? (·.name == name) = some d →
    structs.find? (·.name == name) = some d

namespace Tabled

variable {ds : List StructDef} {n : Nat} {structs structs' : List StructDef} {d : StructDef}

theorem empty : Tabled [] 0 [] := ⟨by simp, by simp, by simp⟩

theorem addLiteral (h : Tabled ds n structs) (fields : List Ty) (isPacked : Bool) :
    Tabled ds (n + 1) (structs ++ [⟨literalName n, fields, isPacked, false⟩]) := by
  refine ⟨?_, ?_, ?_⟩
  · rw [map_append, range_succ, map_append, ← append_assoc]
    exact h.names.append_right _
  · intro s hs hundefined
    rcases mem_append.mp hs with hs | hs
    · exact h.isOpaque s hs hundefined
    · rw [mem_singleton.mp hs] at hundefined
      cases hundefined
  · intro name d hd
    rw [find?_append, h.last hd, Option.some_or]

/-- The last definition of a name, with one more definition. -/
theorem find?_reverse_concat (name : String) :
    (ds ++ [d]).reverse.find? (·.name == name) =
      if d.name = name then some d else ds.reverse.find? (·.name == name) := by
  rw [reverse_append, reverse_singleton, singleton_append]
  by_cases hname : d.name = name
  · simp [hname]
  · simp [find?_cons_of_neg, hname]

theorem dedup_concat_perm (names : List String) (name : String) :
    (names ++ [name]).dedup.Perm (if name ∈ names then names.dedup else names.dedup ++ [name]) := by
  split_ifs with hmem
  · refine (perm_ext_iff_of_nodup (nodup_dedup _) (nodup_dedup _)).mpr fun a => ?_
    simp only [mem_dedup, mem_append, mem_singleton]
    exact ⟨fun h => h.elim id fun heq => heq ▸ hmem, .inl⟩
  · refine (perm_ext_iff_of_nodup (nodup_dedup _) ?_).mpr fun a => by simp
    refine nodup_append.mpr ⟨nodup_dedup _, by simp, ?_⟩
    intro a ha b hb heq
    rw [mem_singleton.mp hb] at heq
    exact hmem (heq ▸ mem_dedup.mp ha)

theorem addDefinition (h : Tabled ds n structs) (hnew : ∀ s ∈ structs, s.name ≠ d.name) :
    Tabled (ds ++ [d]) n (structs ++ [d]) := by
  have hunused : d.name ∉ ds.map (·.name) := by
    intro hmem
    have hname : d.name ∈ structs.map (·.name) :=
      h.names.mem_iff.mpr (mem_append_left _ (mem_dedup.mpr hmem))
    obtain ⟨s, hs, heq⟩ := mem_map.mp hname
    exact hnew s hs heq
  refine ⟨?_, ?_, ?_⟩
  · have hdedup := dedup_concat_perm (ds.map (·.name)) d.name
    rw [if_neg hunused] at hdedup
    refine perm_iff_count.mpr fun name => ?_
    have hcount := h.names.count_eq name
    have hcount' := hdedup.count_eq name
    simp only [map_append, map_cons, map_nil, count_append] at hcount hcount' ⊢
    omega
  · intro s hs hundefined
    rcases mem_append.mp hs with hs | hs
    · simp [mem_map.mp (h.isOpaque s hs hundefined)]
    · simp [mem_singleton.mp hs]
  · intro name e he
    rw [find?_reverse_concat] at he
    split_ifs at he with hname
    · obtain rfl := Option.some.inj he
      have hnone : structs.find? (·.name == name) = none := by
        simpa [← hname] using hnew
      simp [find?_append, hnone, hname]
    · rw [find?_append, h.last he, Option.some_or]

/-- The type without fields that a definition replaces was defined before. -/
theorem replaceOpaque {before after : List StructDef} {known : StructDef}
    (h : Tabled ds n (before ++ known :: after)) (hbefore : ∀ s ∈ before, s.name ≠ d.name)
    (hname : known.name = d.name) (hundefined : known.isOpaque = true) :
    Tabled (ds ++ [d]) n (before ++ d :: after) := by
  have hused : d.name ∈ ds.map (·.name) := hname ▸ h.isOpaque known (by simp) hundefined
  refine ⟨?_, ?_, ?_⟩
  · have hdedup := dedup_concat_perm (ds.map (·.name)) d.name
    rw [if_pos hused] at hdedup
    have hsame : (before ++ d :: after).map (·.name) = (before ++ known :: after).map (·.name) := by
      simp [hname]
    have hnames : (ds ++ [d]).map (·.name) = ds.map (·.name) ++ [d.name] := by simp
    rw [hsame, hnames]
    exact h.names.trans (hdedup.symm.append_right _)
  · intro s hs hs'
    rw [map_append, mem_append]
    left
    rcases mem_append.mp hs with hs | hs
    · exact h.isOpaque s (mem_append_left _ hs) hs'
    rcases mem_cons.mp hs with rfl | hs
    · exact hused
    · exact h.isOpaque s (by simp [hs]) hs'
  · intro name e he
    rw [find?_reverse_concat] at he
    split_ifs at he with heq
    · obtain rfl := Option.some.inj he
      have hskip : before.find? (·.name == name) = none := by simpa [← heq] using hbefore
      simp [find?_append, hskip, heq]
    · have hlast := h.last he
      simp only [find?_append, find?_cons, hname, beq_false_of_ne heq] at hlast ⊢
      exact hlast

/-- Names are distinct exactly if none that was made up is defined as well. -/
theorem nodup_names_iff (h : Tabled ds n structs) :
    (structs.map (·.name)).Nodup ↔ ∀ k < n, literalName k ∉ ds.map (·.name) := by
  have hmade : ((List.range n).map literalName).Nodup := nodup_range.map literalName_injective
  rw [h.names.nodup_iff, nodup_append']
  constructor
  · rintro ⟨-, -, hdisjoint⟩ k hk hmem
    exact hdisjoint (mem_dedup.mpr hmem)
      (mem_map.mpr ⟨k, mem_range.mpr hk, rfl⟩)
  · intro hunused
    refine ⟨nodup_dedup _, hmade, fun name hname hmem => ?_⟩
    obtain ⟨k, hk, rfl⟩ := mem_map.mp hmem
    exact hunused k (mem_range.mp hk) (mem_dedup.mp hname)

/-- A name that is not defined is found where it was made up. -/
theorem find?_of_not_defined (h : Tabled ds n structs) {s : StructDef} (hs : s ∈ structs)
    (hname : s.name ∉ ds.map (·.name)) : structs.find? (·.name == s.name) = some s := by
  have hcount : (structs.map (·.name)).count s.name ≤ 1 := by
    have hdefined : (ds.map (·.name)).dedup.count s.name = 0 :=
      count_eq_zero.mpr (by simpa using hname)
    have hmade : ((List.range n).map literalName).count s.name ≤ 1 :=
      nodup_iff_count_le_one.mp (nodup_range.map literalName_injective) _
    rw [h.names.count_eq, count_append]
    omega
  cases hfind : structs.find? (·.name == s.name) with
  | none => exact absurd (find?_eq_none.mp hfind s hs) (by simp)
  | some e =>
    obtain ⟨he, before, after, rfl, hbefore⟩ := find?_eq_some_iff_append.mp hfind
    rcases mem_append.mp hs with hs | hs
    · simpa using hbefore s hs
    rcases mem_cons.mp hs with rfl | hs
    · rfl
    · have hafter : 0 < (after.map (·.name)).count s.name := count_pos_iff.mpr (mem_map_of_mem hs)
      have he' : e.name = s.name := by simpa using he
      simp only [map_append, map_cons, count_append, he', count_cons_self]
        at hcount
      omega

end Tabled

namespace Course

variable {r r' : Reader} {ds es : List StructDef}

/-- What a course keeps of the list of struct types. -/
theorem tabled (h : Course r ds r') (hr : Tabled es r.literals r.module.structs) :
    Tabled (es ++ ds) r'.literals r'.module.structs := by
  induction h generalizing es with
  | still hstructs hliterals =>
    rw [hstructs, hliterals, append_nil]
    exact hr
  | literal hadded =>
    rw [append_nil]
    rcases Read.gives_literalStruct hadded with ⟨_, -, -, -, -, rfl⟩ | ⟨-, hliterals, hstructs⟩
    · exact hr
    · rw [hliterals, hstructs]
      exact hr.addLiteral _ _
  | define hdefined =>
    obtain ⟨hliterals, hcases⟩ := Read.gives_defineStruct hdefined
    rw [hliterals]
    rcases hcases with ⟨hnew, hstructs⟩ | ⟨before, known, after, hsplit, hbefore, hname, hundefined,
      hstructs⟩
    · rw [hstructs]
      exact hr.addDefinition hnew
    · rw [hsplit] at hr
      rw [hstructs]
      exact hr.replaceOpaque hbefore hname hundefined
  | trans _ _ ih₁ ih₂ =>
    rw [← append_assoc]
    exact ih₂ (ih₁ hr)

/-- A type with fields stays for good. -/
theorem mem_structs (h : Course r ds r') {s : StructDef} (hs : s ∈ r.module.structs)
    (hfields : s.isOpaque = false) : s ∈ r'.module.structs := by
  induction h with
  | still hstructs _ => rwa [hstructs]
  | literal hadded =>
    rcases Read.gives_literalStruct hadded with ⟨_, -, -, -, -, rfl⟩ | ⟨-, -, hstructs⟩
    · exact hs
    · rw [hstructs]
      exact mem_append_left _ hs
  | define hdefined =>
    rcases (Read.gives_defineStruct hdefined).2 with ⟨-, hstructs⟩ |
      ⟨before, known, after, hsplit, -, -, hundefined, hstructs⟩
    · rw [hstructs]
      exact mem_append_left _ hs
    · have hne : s ≠ known := by
        rintro rfl
        simp [hundefined] at hfields
      rw [hsplit] at hs
      rw [hstructs]
      simp only [mem_append, mem_cons, hne, false_or] at hs ⊢
      tauto
  | trans _ _ ih₁ ih₂ => exact ih₂ (ih₁ hs)

end Course

/-! ### Anonymous types on the way -/

/-- An anonymous struct type with these fields is met between two states of a reading, and is given
a name; the definitions before and after it are the list's two parts. -/
def MeetsLiteral (start : Reader) (ds : List StructDef) (finish : Reader) (fields : List Ty)
    (isPacked : Bool) (name : String) : Prop :=
  ∃ before after s s', ds = before ++ after ∧ Course start before s ∧
    Gives (Read.literalStruct fields isPacked) s (.struct name) s' ∧ Course s' after finish

/-- The name of an anonymous type stands for its last definition in the text. Without one, it stands
for the type as it is written. -/
theorem MeetsLiteral.find? {start finish : Reader} {ds : List StructDef} {fields : List Ty}
    {isPacked : Bool} {name : String} (h : MeetsLiteral start ds finish fields isPacked name)
    (hstart : Tabled [] start.literals start.module.structs) :
    finish.module.structs.find? (·.name == name) =
      (ds.reverse.find? (·.name == name)).or (some ⟨name, fields, isPacked, false⟩) := by
  obtain ⟨before, after, s, s', rfl, hfirst, hmet, hrest⟩ := h
  have hs' : Tabled before s'.literals s'.module.structs := by
    simpa using (hfirst.trans (.literal hmet)).tabled hstart
  have hfinish := hrest.tabled hs'
  cases hlast : (before ++ after).reverse.find? (·.name == name) with
  | some d => rw [hfinish.last hlast, Option.some_or]
  | none =>
    have hunused : name ∉ (before ++ after).map (·.name) := by
      intro hmem
      obtain ⟨d, hd, rfl⟩ := mem_map.mp hmem
      exact find?_eq_none.mp hlast d (mem_reverse.mpr hd) (by simp)
    have hmem : ⟨name, fields, isPacked, false⟩ ∈ s'.module.structs := by
      rcases Read.gives_literalStruct hmet with ⟨known, hknown, rfl, rfl, hname, rfl⟩ |
        ⟨hname, -, hstructs⟩
      · obtain rfl := Ty.struct.inj hname
        have hfields : known.isOpaque = false := by
          by_contra hundefined
          refine hunused ?_
          rw [map_append]
          exact mem_append_left _ (hs'.isOpaque known hknown (by simpa using hundefined))
        rwa [← hfields]
      · obtain rfl := Ty.struct.inj hname
        rw [hstructs]
        simp
    simpa using hfinish.find?_of_not_defined (hrest.mem_structs hmem rfl) hunused

/-- Every name that is made up along a course is that of a type it meets. -/
theorem Course.meetsLiteral {start finish : Reader} {ds : List StructDef}
    (h : Course start ds finish) {k : Nat} (hstart : start.literals ≤ k)
    (hfinish : k < finish.literals) :
    ∃ fields isPacked, MeetsLiteral start ds finish fields isPacked (literalName k) := by
  induction h with
  | still _ hliterals => omega
  | @literal r r' fields isPacked t hadded =>
    rcases Read.gives_literalStruct hadded with ⟨_, -, -, -, -, rfl⟩ | ⟨rfl, hliterals, -⟩
    · omega
    · obtain rfl : k = r.literals := by omega
      exact ⟨fields, isPacked, [], [], r, r', rfl, .still rfl rfl, hadded, .still rfl rfl⟩
  | define hdefined =>
    have hliterals := (Read.gives_defineStruct hdefined).1
    omega
  | @trans r s t ds es hfirst hsecond ih₁ ih₂ =>
    rcases Nat.lt_or_ge k s.literals with hk | hk
    · obtain ⟨fields, isPacked, before, after, u, u', rfl, hbefore, hmet, hafter⟩ := ih₁ hstart hk
      exact ⟨fields, isPacked, before, after ++ es, u, u', append_assoc _ _ _, hbefore, hmet,
        hafter.trans hsecond⟩
    · obtain ⟨fields, isPacked, before, after, u, u', rfl, hbefore, hmet, hafter⟩ := ih₂ hk hfinish
      exact ⟨fields, isPacked, ds ++ before, after, u, u', (append_assoc _ _ _).symm,
        hfirst.trans hbefore, hmet, hafter⟩

/-! ### Definitions of a text -/

namespace Read

/-- A struct definition up to the step that adds it. -/
def structDef : Read StructDef := do
  let name ← localValue
  expectMark '='
  expectWord "type"
  if ← eatWord "opaque" then return ⟨name, [], false, true⟩
  let isPacked ← eatMark '<'
  let types ← fields
  if isPacked then expectMark '>'
  return ⟨name, types, isPacked, false⟩

theorem structDefinition_eq : structDefinition = structDef >>= defineStruct := by
  simp only [structDefinition, structDef, bind_assoc]
  refine bind_congr fun name => bind_congr fun _ => bind_congr fun _ => bind_congr fun isOpaque => ?_
  split_ifs
  · rw [pure_bind]
  · rw [bind_assoc]
    refine bind_congr fun isPacked => ?_
    rw [bind_assoc]
    refine bind_congr fun types => ?_
    split_ifs <;> simp

variable {r r' : Reader} {b : Bool}

/-- An entity that starts with a local name is a struct definition. -/
theorem gives_entity_of_value {name : String} (hpeek : r.peek = .value name)
    (h : Gives entity r b r') :
    b = true ∧ ∃ d m, Gives structDef r d m ∧ Gives (defineStruct d) m () r' := by
  rw [entity, gives_bind] at h
  obtain ⟨t, m, ht, h⟩ := h
  obtain ⟨rfl, rfl⟩ := gives_peek.mp ht
  simp only [hpeek, structDefinition_eq, bind_assoc, gives_bind, gives_pure] at h
  obtain ⟨d, m, hread, _, _, hadd, rfl, rfl⟩ := h
  exact ⟨rfl, d, m, hread, hadd⟩

theorem course_structDef {d : StructDef} (h : Gives structDef r d r') : Course r [] r' := by
  have hs := Course.stable.keeps
  have hread : Reads (KeepsAt (Course · [] ·)) .inner (r.rest.length + 1) structDef := by
    refine hs.taking rfl hs.localValue.moving fun _ => hs.taking rfl hs.expectMark fun _ =>
      hs.taking rfl hs.expectWord fun _ => hs.bind hs.eat fun _ => .ite (hs.pure _) ?_
    exact hs.bind hs.eat fun _ => hs.bind hs.fields.inner fun _ =>
      hs.when hs.expectMark.inner (hs.pure _)
  exact hread.keeps trivial h

/-- Any other entity defines no struct type. -/
theorem course_entity (hpeek : ∀ name, r.peek ≠ .value name) (h : Gives entity r b r') :
    Course r [] r' := by
  have hentity := Course.stable.keeps.entity (n := r.rest.length)
    (H := fun t => ∀ name, t ≠ .value name)
    (fun name hname => absurd rfl (hname name)) fun _ f r u r' hgives => by
      obtain rfl := gives_modify.mp hgives
      exact .still rfl rfl
  exact hentity.keeps hpeek h

end Read

/-- The struct definitions of what is read between two states, entity by entity. -/
inductive Defines : Reader → List StructDef → Reader → Prop where
  | done {r r' : Reader} (read : Gives Read.entity r false r') : Defines r [] r'
  | struct {r m s r' : Reader} {name : String} {d : StructDef} {ds : List StructDef}
      (peek : r.peek = .value name) (read : Gives Read.structDef r d m)
      (added : Gives (Read.defineStruct d) m () s) (rest : Defines s ds r') : Defines r (d :: ds) r'
  | other {r s r' : Reader} {ds : List StructDef} (peek : ∀ name, r.peek ≠ .value name)
      (read : Gives Read.entity r true s) (rest : Defines s ds r') : Defines r ds r'

namespace Defines

variable {r r' : Reader} {ds : List StructDef}

theorem course (h : Defines r ds r') : Course r ds r' := by
  induction h with
  | @done r r' hread =>
    by_cases hpeek : ∃ name, r.peek = .value name
    · obtain ⟨name, hpeek⟩ := hpeek
      exact absurd (Read.gives_entity_of_value hpeek hread).1 (by simp)
    · exact Read.course_entity (not_exists.mp hpeek) hread
  | struct hpeek hread hadded _ ih =>
    exact ((Read.course_structDef hread).trans (.define hadded)).trans ih
  | other hpeek hread _ ih => exact (Read.course_entity hpeek hread).trans ih

theorem exists_of_rounds {fuel : Nat} {u : Unit}
    (h : Gives (Read.repeatWhile.rounds Read.entity fuel) r u r') : ∃ ds, Defines r ds r' := by
  induction fuel generalizing r with
  | zero => exact absurd h Read.not_gives_fail
  | succ fuel ih =>
    rw [Read.repeatWhile.rounds, gives_bind] at h
    obtain ⟨more, m, hentity, h⟩ := h
    split_ifs at h with hmore
    · obtain rfl := hmore
      obtain ⟨ds, hrest⟩ := ih h
      by_cases hpeek : ∃ name, r.peek = .value name
      · obtain ⟨name, hpeek⟩ := hpeek
        obtain ⟨-, d, m', hread, hadded⟩ := Read.gives_entity_of_value hpeek hentity
        exact ⟨d :: ds, .struct hpeek hread hadded hrest⟩
      · exact ⟨ds, .other (not_exists.mp hpeek) hentity hrest⟩
    · obtain ⟨-, rfl⟩ := gives_pure.mp h
      rw [Bool.not_eq_true] at hmore
      obtain rfl := hmore
      exact ⟨[], .done hentity⟩

end Defines

/-! ### A defined name that is made up again -/

def clashText : String :=
  "%literal.0 = type \x7b i64 \x7d\n@a = global \x7b i32 \x7d zeroinitializer\n"

end Offload.Compiled
