import Offload.Proofs.C.Declarator
import Offload.Proofs.C.Failure
import Offload.Proofs.Compiled.Indexed

/-!
# Types of access paths

An address is written as a path of indices and members from a pointer. The types of the language
that is written are stated on their own: an expression has a type by what its identifiers, structs
and casts declare, an index is an integer, and it steps over objects of a complete type. The path of
an address in a module that is read can be written unless one of its operands cannot, and it has the
type that the module records for the address.
-/

namespace Offload.C

open Offload.Compiled

variable {e : Expr} {path : List (Ty × Value)} {source u : Ty} {index : Ty × Value} {base : Value}

/-! ### Types of declarations -/

/-- The type with the tags of its structs in place of their names. -/
def tagged : Ty → Ty
  | .struct name => .struct (structTag name)
  | .ptr t => .ptr (tagged t)
  | .array n t => .array n (tagged t)
  | t => t

/-- The type that a specifier names, a struct by its tag. Unsigned types are not among them. -/
def Specifier.type? : Specifier → Option Ty
  | .void => some .void
  | .bool => some (.int .w1)
  | .int w true => some (.int w)
  | .float => some .float
  | .double => some .double
  | .struct tag => some (.struct tag)
  | .int _ false | .pointerInt => none

/-- The type of what is declared. -/
def Declaration.type? {α : Type} (d : Declaration α) : Option Ty :=
  d.specifier.type?.map d.declarator.typeOver

@[simp] theorem type?_declarationOf {α : Type} (qualifiers : List Qualifier) (t : Ty) (a : α) :
    (declarationOf qualifiers t a).type? = some (tagged t) := by
  have hbase : (specifierOf (baseType t)).type?.map (fun base => retype base t) =
      some (tagged t) := by
    induction t with
    | ptr t ih =>
      simpa [baseType, retype, tagged, Function.comp_def] using congrArg (Option.map Ty.ptr) ih
    | array n t ih =>
      simpa [baseType, retype, tagged, Function.comp_def] using
        congrArg (Option.map (Ty.array n)) ih
    | int w => cases w <;> rfl
    | _ => rfl
  rw [← hbase]
  simp only [Declaration.type?, declarationOf, specifier_declaratorOf]
  congr 1
  funext base
  rw [typeOver_declaratorOf]
  rfl

/-! ### Types of expressions -/

/-- Objects of the type have a size: the type is not void and its struct is defined. -/
def Complete (structs : String → Option StructDefinition) : Ty → Bool
  | .void => false
  | .array _ t => Complete structs t
  | .struct tag => (structs tag).isSome
  | _ => true

/-- The identifiers and struct tags that are declared where an expression stands. Members have
complete types. -/
structure Context where
  identifiers : String → Option Ty
  structs : String → Option StructDefinition
  complete : ∀ tag d, structs tag = some d →
    ∀ v ∈ d.fields, ∀ t, v.type? = some t → Complete structs t = true

/-- What a pointer points to, or the items of an array. -/
def elementOf? : Ty → Option Ty
  | .ptr t | .array _ t => some t
  | _ => none

/-- The type of a member of a struct type. -/
def Context.memberType? (C : Context) (field : String) : Ty → Option Ty
  | .struct tag =>
    (C.structs tag).bind fun d => (d.fields.find? fun v => v.declared == field).bind (·.type?)
  | _ => none

/-- The type of an expression that is an address, an access to memory or a signed integer. -/
def Expr.type? (C : Context) : Expr → Option Ty
  | .ident x => C.identifiers x
  | .paren e => e.type? C
  | .cast t _ => t.type?
  | .int _ long => some (.int (if long then .w64 else .w32))
  | .binary _ a b =>
    match a.type? C, b.type? C with
    | some (.int v), some (.int w) => some (.int (if v = .w64 ∨ w = .w64 then .w64 else .w32))
    | _, _ => none
  | .unary .address e => (e.type? C).map .ptr
  | .index a i =>
    if (i.type? C).any Ty.isInt then ((a.type? C).bind elementOf?).filter (Complete C.structs)
    else none
  | .member a field => (a.type? C).bind (C.memberType? field)
  | _ => none

/-- The context has the variables of a scope and the struct types of its module. -/
structure Context.Declares (C : Context) (s : Scope) : Prop where
  locals : ∀ name t, s.types.lookup name = some t → C.identifiers (localName name) = some (tagged t)
  globals : ∀ name g, s.module.global? name = some g →
    C.identifiers (symbolName name) = some (tagged g.type)
  structs : ∀ name d, s.module.struct? name = some d → d.fields ≠ [] →
    C.structs (structTag name) = some (definitionOf d)

/-! ### Operands -/

/-- A value that can stand for a pointer; an integer is converted. -/
def isPointerOperand : Value → Bool
  | .var _ | .symbol _ | .int _ | .null | .undef | .zero => true
  | _ => false

/-- An index: a variable of integer type, or a constant of integer type that is no floating-point
number. -/
def Scope.isIndex (s : Scope) : Ty × Value → Bool
  | (.int _, .var name) => (s.types.lookup name).any Ty.isInt
  | (.int _, .int _) | (.int _, .bool _) => true
  | (.int _, .null) | (.int _, .undef) | (.int _, .zero) => true
  | _ => false

section

variable {C : Context} {s : Scope} {w : Writer} {n n' : Needs}

theorem type?_pointerTo (hC : C.Declares s) (hbase : isPointerOperand base = true) {p : Expr}
    (h : Gives (w.pointerTo s base source) n p n') : p.type? C = some (tagged (.ptr source)) := by
  simp only [Writer.pointerTo, gives_bind] at h
  obtain ⟨e, m, he, h⟩ := h
  have hexpr := gives_value he
  split at h
  · -- a name that is declared with the wanted type, or a constant, which is cast to it
    rename_i hplain
    obtain ⟨rfl, -⟩ := gives_pure.mp h
    cases base with
    | var name =>
      have htype : s.types.lookup name = some (.ptr source) := by
        simpa [Writer.isName, Scope.typeOf?] using hplain
      obtain rfl := Option.some.inj hexpr
      exact hC.locals name _ htype
    | symbol name =>
      have htype : (s.module.global? name).map (fun g => Ty.ptr g.type) = some (.ptr source) := by
        simpa [Writer.isName, Scope.typeOf?] using hplain
      obtain ⟨g, hg, hsource⟩ := Option.map_eq_some_iff.mp htype
      obtain rfl := Option.some.inj hexpr
      obtain rfl := Ty.ptr.inj hsource
      simp [Expr.type?, hC.globals name g hg, tagged]
    | int v =>
      obtain rfl := Option.some.inj hexpr
      simp [Expr.type?]
    | null | undef | zero =>
      obtain rfl := Option.some.inj hexpr
      simp [Expr.type?]
    | _ => cases hbase
  · -- a name that is declared otherwise is cast
    simp only [gives_bind, gives_pure] at h
    obtain ⟨t, m', ht, rfl, -⟩ := h
    rw [gives_declare ht]
    simp [Expr.type?]

theorem isInt_type?_intLiteral (v : Int) (width : Width) :
    ((intLiteral v width).type? C).any Ty.isInt = true := by
  unfold intLiteral
  split_ifs <;> rfl

theorem isInt_type?_index (hC : C.Declares s) (hindex : s.isIndex index = true)
    (h : operandExpr? index.2 index.1 = some e) : (e.type? C).any Ty.isInt = true := by
  obtain ⟨t, v⟩ := index
  cases t with
  | int width =>
    cases v with
    | var name =>
      obtain rfl := Option.some.inj h
      obtain ⟨t, htype, hint⟩ := (Option.any_eq_true _ _).mp hindex
      have htagged : tagged t = t := by
        cases t with
        | int w => rfl
        | _ => cases hint
      rw [Expr.type?, hC.locals name t htype, htagged]
      exact hint
    | int v =>
      obtain rfl := Option.some.inj h
      exact isInt_type?_intLiteral v width
    | bool b =>
      obtain rfl := Option.some.inj h
      rfl
    | null | undef | zero =>
      obtain rfl := Option.some.inj h
      rfl
    | _ => cases hindex
  | _ => cases hindex

/-! ### Paths -/

/-- Where the module's own walk over the indices goes on, so does the one that writes them. -/
theorem accessStep_eq {t : Ty} (h : indexedType.stepInto s.module.structs t index = some u) :
    (∃ k, t = .array k u ∧ w.accessStep s (t, e) index = (do
        let i ← w.value index.2 index.1
        return (u, .index e i))) ∨
      ∃ name i, t = .struct name ∧ fieldType? s.module.structs name i = some u ∧
        w.accessStep s (t, e) index = pure (u, .member e (fieldName i)) := by
  obtain ⟨type, v⟩ := index
  cases t with
  | array k element =>
    obtain rfl := Option.some.inj h
    exact .inl ⟨k, rfl, rfl⟩
  | struct name =>
    cases v with
    | int i =>
      by_cases hneg : i < 0
      · simp [indexedType.stepInto, hneg] at h
      · have hfield : fieldType? s.module.structs name i.toNat = some u := by
          simp only [indexedType.stepInto, if_neg hneg] at h
          exact h
        refine .inr ⟨name, i.toNat, rfl, hfield, ?_⟩
        simp only [Writer.accessStep, if_neg hneg]
        rw [show (s.module.struct? name).bind (fun d => d.fields[i.toNat]?) = some u from hfield]
    | _ => cases h
  | _ => cases h

/-- A path that the module can follow fails to be written only for an operand. -/
theorem failsOnly_accessPath {t : Ty}
    (h : path.foldlM (indexedType.stepInto s.module.structs) t = some u) :
    FailsOnly (IsOperandFlaw path) (path.foldlM (w.accessStep s) (t, e)) := by
  induction path generalizing t e with
  | nil => exact .pure _
  | cons index path ih =>
    -- both walks are at `v` after this index, whatever has been written by then
    obtain ⟨v, hstep, hrest⟩ := Option.bind_eq_some_iff.mp h
    have hlater (e : Expr) :
        FailsOnly (IsOperandFlaw (index :: path)) (path.foldlM (w.accessStep s) (v, e)) :=
      (ih hrest).imp fun _ hflaw => hflaw.mono (by simp)
    rw [List.foldlM_cons]
    rcases accessStep_eq (w := w) (e := e) hstep with ⟨k, rfl, heq⟩ | ⟨name, i, rfl, -, heq⟩
    · rw [heq, bind_assoc]
      refine FailsOnly.bind ?_ fun _ => by simpa using hlater _
      exact (failsOnly_value _ _).imp fun _ hflaw => hflaw.mono (by simp)
    · rw [heq, pure_bind]
      exact hlater _

/-- The member of a definition by the name that it has there. -/
theorem find?_definitionOf {d : StructDef} {i : Nat} (h : d.fields[i]? = some u) :
    (definitionOf d).fields.find? (fun v => v.declared == fieldName i) =
      some (declarationOf [] u (fieldName i)) := by
  obtain ⟨hi, hu⟩ := List.getElem?_eq_some_iff.mp h
  rw [List.find?_eq_some_iff_getElem]
  refine ⟨by simp, i, by simpa [definitionOf] using hi, ?_, fun j hj => ?_⟩
  · simp [definitionOf, hu]
  · simp [definitionOf, fieldName_inj, hj.ne]

/-- The expression has a type, and objects of the type have a size. -/
structure IsTyped (C : Context) (t : Ty) (e : Expr) : Prop where
  type : e.type? C = some (tagged t)
  complete : Complete C.structs (tagged t) = true

theorem IsTyped.member (hC : C.Declares s) {name : String} {i : Nat}
    (ht : IsTyped C (.struct name) e) (h : fieldType? s.module.structs name i = some u) :
    IsTyped C u (.member e (fieldName i)) := by
  obtain ⟨d, hd, hfield⟩ := Option.bind_eq_some_iff.mp h
  have hfields : d.fields ≠ [] := by
    intro hnil
    simp [hnil] at hfield
  have hstruct := hC.structs name d hd hfields
  have hfind := find?_definitionOf hfield
  refine ⟨?_, ?_⟩
  · simp [Expr.type?, ht.type, tagged, Context.memberType?, hstruct, hfind]
  · exact C.complete _ _ hstruct _ (List.mem_of_find?_eq_some hfind) _ (type?_declarationOf _ _ _)

theorem IsTyped.accessStep (hC : C.Declares s) {t : Ty} {r : Ty × Expr} (ht : IsTyped C t e)
    (hindex : s.isIndex index = true)
    (hstep : indexedType.stepInto s.module.structs t index = some u)
    (h : Gives (w.accessStep s (t, e) index) n r n') : r.1 = u ∧ IsTyped C u r.2 := by
  rcases accessStep_eq (w := w) (e := e) hstep with ⟨k, rfl, heq⟩ | ⟨name, i, rfl, hfield, heq⟩
  · rw [heq] at h
    simp only [gives_bind, gives_pure] at h
    obtain ⟨a, m, ha, rfl, -⟩ := h
    have hint := isInt_type?_index hC hindex (gives_value ha)
    have hcomplete : Complete C.structs (tagged u) = true := ht.complete
    refine ⟨rfl, ?_, hcomplete⟩
    simp [Expr.type?, hint, ht.type, tagged, elementOf?, hcomplete]
  · rw [heq] at h
    obtain ⟨rfl, -⟩ := gives_pure.mp h
    exact ⟨rfl, ht.member hC hfield⟩

theorem IsTyped.accessPath (hC : C.Declares s) {t : Ty} {r : Ty × Expr} (ht : IsTyped C t e)
    (hpath : ∀ index ∈ path, s.isIndex index = true)
    (hfold : path.foldlM (indexedType.stepInto s.module.structs) t = some u)
    (h : Gives (path.foldlM (w.accessStep s) (t, e)) n r n') : r.1 = u ∧ IsTyped C u r.2 := by
  induction path generalizing t e n with
  | nil =>
    obtain ⟨rfl, -⟩ := gives_pure.mp h
    obtain rfl := Option.some.inj hfold
    exact ⟨rfl, ht⟩
  | cons index path ih =>
    obtain ⟨v, hstep, hrest⟩ := Option.bind_eq_some_iff.mp hfold
    rw [List.foldlM_cons, gives_bind] at h
    obtain ⟨⟨v', e'⟩, m, hfirst, hlater⟩ := h
    obtain ⟨rfl, ht'⟩ := ht.accessStep hC (hpath index (by simp)) hstep hfirst
    exact ih ht' (fun i hi => hpath i (by simp [hi])) hrest hlater

theorem failsOnly_elementAddress (h : indexedType s.module.structs source path = some u) :
    FailsOnly (IsOperandFlaw ((.ptr source, base) :: path))
      (w.elementAddress s source base path) := by
  have hbase : FailsOnly (IsOperandFlaw ((.ptr source, base) :: path))
      (w.pointerTo s base source) :=
    (failsOnly_pointerTo s base source).imp fun _ hflaw => hflaw.mono (by simp)
  refine hbase.bind fun p => ?_
  cases path with
  | nil => exact .pure _
  | cons first rest =>
    have hfirst : FailsOnly (IsOperandFlaw ((.ptr source, base) :: first :: rest))
        (w.value first.2 first.1) :=
      (failsOnly_value _ _).imp fun _ hflaw => hflaw.mono (by simp)
    refine hfirst.bind fun i => FailsOnly.bind ?_ fun _ => .pure _
    exact (failsOnly_accessPath h).imp fun _ hflaw => hflaw.mono (by simp)

theorem type?_elementAddress (hC : C.Declares s) (hbase : isPointerOperand base = true)
    (hpath : ∀ index ∈ path, s.isIndex index = true)
    (hsource : path ≠ [] → Complete C.structs (tagged source) = true)
    (hindexed : indexedType s.module.structs source path = some u)
    (h : Gives (w.elementAddress s source base path) n e n') :
    e.type? C = some (tagged (.ptr u)) := by
  simp only [Writer.elementAddress, gives_bind] at h
  obtain ⟨p, m, hp, h⟩ := h
  have hpointer := type?_pointerTo hC hbase hp
  cases path with
  | nil =>
    obtain ⟨rfl, -⟩ := gives_pure.mp h
    obtain rfl := Option.some.inj hindexed
    exact hpointer
  | cons first rest =>
    simp only [gives_bind, gives_pure] at h
    obtain ⟨i, m₁, hi, r, m₂, hrest, rfl, -⟩ := h
    have hint := isInt_type?_index hC (hpath first (by simp)) (gives_value hi)
    have hstart : IsTyped C source (.index (.paren p) i) := by
      refine ⟨?_, hsource (by simp)⟩
      simp [Expr.type?, hint, hpointer, tagged, elementOf?, hsource (by simp)]
    have hindices : ∀ index ∈ rest, s.isIndex index = true :=
      fun index hmem => hpath index (by simp [hmem])
    obtain ⟨-, hend⟩ := hstart.accessPath hC hindices hindexed hrest
    simp [Expr.type?, hend.type, tagged]

/-- Operands of an address that make sense can be written. -/
theorem not_isOperandFlaw (hbase : isPointerOperand base = true)
    (hpath : ∀ index ∈ path, s.isIndex index = true) (flaw : EmitFlaw) :
    ¬ IsOperandFlaw ((.ptr source, base) :: path) flaw := by
  rintro ⟨operand, hmem, hnone, -⟩
  rcases List.mem_cons.mp hmem with rfl | hmem
  · cases base with
    | float x => cases hbase
    | bool b => cases hbase
    | array items => cases hbase
    | struct items => cases hbase
    | _ => cases hnone
  · have hindex := hpath operand hmem
    obtain ⟨t, v⟩ := operand
    cases t with
    | int width =>
      cases v with
      | float x => cases hindex
      | symbol name => cases hindex
      | array items => cases hindex
      | struct items => cases hindex
      | _ => cases hnone
    | _ => cases hindex

end

/-- An item of an array in the second member of a struct. -/
def boxText : String :=
  "%box = type \x7b i8, [4 x i64] \x7d\n\ndefine i64* @f(%box* %p, i32 %i) \x7b\n" ++
  "  %q = getelementptr %box, %box* %p, i32 0, i32 1, i32 %i\n  ret i64* %q\n\x7d\n"

def boxStruct : StructDef := ⟨"box", [.int .w8, .array 4 (.int .w64)], false, false⟩

def boxPath : List (Ty × Value) :=
  [(.int .w32, .int 0), (.int .w32, .int 1), (.int .w32, .var "i")]

/-- The instruction that the text reads as. -/
def isBoxItem : Instruction → Bool
  | .elementPtr "q" (.struct "box") (.var "p")
      [(.int .w32, .int 0), (.int .w32, .int 1), (.int .w32, .var "i")] (.ptr (.int .w64)) => true
  | _ => false

def boxContext : Context where
  identifiers x :=
    if x = "v_p" then some (.ptr (.struct "box")) else if x = "v_i" then some (.int .w32) else none
  structs tag := if tag = "box" then some (definitionOf boxStruct) else none
  complete tag d hd v hv t ht := by
    split at hd
    · obtain rfl := Option.some.inj hd
      obtain ⟨i, hi, rfl⟩ := List.mem_mapIdx.mp hv
      rw [type?_declarationOf] at ht
      obtain rfl := Option.some.inj ht
      have hfields : ∀ t ∈ boxStruct.fields, ∀ structs, Complete structs (tagged t) = true := by
        simp [boxStruct, tagged, Complete]
      exact hfields _ (List.getElem_mem hi) _
    · cases hd

def boxScope (m : Module) : Scope := ⟨m, [("p", .ptr (.struct "box")), ("i", .int .w32)], []⟩

/-- Addresses with an array for an index, with objects that have no size, and with a floating-point
number for an index. -/
def oddText : String :=
  "define void @f(i32* %p, ptr %v) \x7b\n" ++
  "  %a = getelementptr i32, i32* %p, [2 x i32] zeroinitializer\n" ++
  "  %b = getelementptr void, ptr %v, i32 1\n" ++
  "  %c = getelementptr i32, i32* %p, float 1.0\n  ret void\n\x7d\n"

def oddAddresses (x : Binary64) : List Instruction :=
  [.elementPtr "a" (.int .w32) (.var "p") [(.array 2 (.int .w32), .zero)] (.ptr (.int .w32)),
    .elementPtr "b" .void (.var "v") [(.int .w32, .int 1)] (.ptr .void),
    .elementPtr "c" (.int .w32) (.var "p") [(.float, .float x)] (.ptr (.int .w32))]

/-- The instructions that the text reads as. -/
def isOdd : List Instruction → Bool
  | [.elementPtr "a" (.int .w32) (.var "p") [(.array 2 (.int .w32), .zero)] (.ptr (.int .w32)),
      .elementPtr "b" .void (.var "v") [(.int .w32, .int 1)] (.ptr .void),
      .elementPtr "c" (.int .w32) (.var "p") [(.float, .float _)] (.ptr (.int .w32))] => true
  | _ => false

/-- The type of an address with one index. -/
theorem type?_single {C : Context} {s : Scope} {w : Writer} {n n' : Needs} (hC : C.Declares s)
    {name : String} (h : Gives (w.elementAddress s source (.var name) [index]) n e n') :
    ∃ i, operandExpr? index.2 index.1 = some i ∧
      e.type? C = if (i.type? C).any Ty.isInt && Complete C.structs (tagged source) then
        some (tagged (.ptr source)) else none := by
  simp only [Writer.elementAddress, gives_bind, List.foldlM_nil, gives_pure] at h
  obtain ⟨p, m, hp, i, m', hi, r, m'', ⟨rfl, -⟩, rfl, -⟩ := h
  refine ⟨i, gives_value hi, ?_⟩
  have hpointer := type?_pointerTo hC rfl hp
  cases hint : (i.type? C).any Ty.isInt with
  | false => simp [Expr.type?, hint]
  | true =>
    cases hcomplete : Complete C.structs (tagged source) with
    | false => simp [Expr.type?, hint, hpointer, tagged, elementOf?, hcomplete]
    | true => simp [Expr.type?, hint, hpointer, tagged, elementOf?, hcomplete]

end Offload.C
