import Offload.Source.Syntax

/-!
# Restrictions

A restriction attribute lists the targets a function is meant for. Only the first one on a function
counts; an invalid one is reported and restricts nothing.
-/

namespace Offload.Split

open Offload.Source

structure Restriction where
  isRestricted : Bool
  isValid : Bool
  hasHost : Bool
  hasDevice : Bool
deriving DecidableEq, Repr

namespace Restriction

def none : Restriction := ⟨false, false, false, false⟩

def hostOnly (r : Restriction) : Bool :=
  r.isRestricted && r.isValid && r.hasHost && !r.hasDevice

def deviceOnly (r : Restriction) : Bool :=
  r.isRestricted && r.isValid && !r.hasHost && r.hasDevice

end Restriction

def argFlaw? : AttributeArg → Option RestrictionFlaw
  | .str s => if s.value == "cpu" || s.value == "gpu" then none else some (.unknownTarget s.value)
  | .other s => some (.notALiteral s.value)

/-- The argument is the string literal naming a target. -/
def names (target : String) : AttributeArg → Bool
  | .str s => s.value == target
  | .other _ => false

/-- What is wrong with a restriction attribute on a function of the given name. Its place is only
looked at when nothing else is wrong. -/
def restrictionFlaws (a : Attribute) (function : String) : List RestrictionFlaw :=
  let flaws := a.args.filterMap argFlaw? ++
    (if a.args.any (names "cpu") || a.args.any (names "gpu") then [] else [.noTarget])
  if flaws.isEmpty && a.beforeName then [.beforeDeclarator function] else flaws

/-- A function's restriction and what there is to report about it. -/
def restriction (f : FunctionDecl) (marker : String) : Restriction × List Diagnostic :=
  match f.attributesNamed marker with
  | [] => (.none, [])
  | a :: others =>
    let flaws := restrictionFlaws a f.name
    let extra := others.map fun o => (⟨.extraRestriction marker f.name, o.location⟩ : Diagnostic)
    let invalid : List Diagnostic :=
      if flaws.isEmpty then [] else [⟨.invalidRestriction marker f.name flaws, a.location⟩]
    (⟨true, flaws.isEmpty, a.args.any (names "cpu"), a.args.any (names "gpu")⟩, extra ++ invalid)

end Offload.Split
