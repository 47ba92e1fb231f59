import Offload.Text.Blank

/-!
# Target triples

`arch-vendor-os`, with an optional environment after it; in a triple of two parts the vendor is
left out.
-/

namespace Offload.Target

structure Triple where
  arch : String
  vendor : String
  os : String
  environment : Option String
deriving DecidableEq, Repr

namespace Triple

/-- Surrounding white space is ignored, and no part may be empty. -/
def parse? (text : String) : Option Triple :=
  let parts := (Text.splitOnChar '-' (Text.trim text.toList)).map String.ofList
  if parts.any String.isEmpty then none
  else
    match parts with
    | [arch, os] => some ⟨arch, "unknown", os, none⟩
    | [arch, vendor, os] => some ⟨arch, vendor, os, none⟩
    | arch :: vendor :: os :: rest => some ⟨arch, vendor, os, some ("-".intercalate rest)⟩
    | _ => none

def render (t : Triple) : String :=
  let base := t.arch ++ "-" ++ t.vendor ++ "-" ++ t.os
  match t.environment with
  | some env => base ++ "-" ++ env
  | none => base

/-- The triple that stands in when neither the settings nor a module name one. -/
def host : Triple := ⟨"x86_64", "unknown", "linux", some "gnu"⟩

def pointerWidth (t : Triple) : Nat :=
  if ["x86_64", "aarch64", "arm64", "powerpc64", "powerpc64le", "riscv64", "mips64", "s390x",
      "sparcv9", "spir64", "nvptx64", "amdgcn", "wasm64"].contains t.arch then 64
  else 32

/-- Devices whose entry points are kernels. -/
def isDevice (t : Triple) : Bool :=
  ["spir", "spir64", "nvptx", "nvptx64", "amdgcn", "r600"].contains t.arch

/-- There is no hosted library. Where the vendor is left out, `none` stands in its place. -/
def isFreestanding (t : Triple) : Bool :=
  t.os == "none" || t.vendor == "none" || (t.arch.startsWith "wasm" && t.os == "unknown")

end Triple

end Offload.Target
