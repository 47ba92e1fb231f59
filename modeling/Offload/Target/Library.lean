import Offload.Target.Triple

/-!
# Library functions

The well-known functions that a target provides, each with the header that declares it.
-/

namespace Offload.Target

inductive Header where
  | math | stdio | stdlib | string
deriving DecidableEq, Repr

namespace Header

/-- All headers, in the order in which they are included. -/
def all : List Header := [math, stdio, stdlib, string]

def file : Header → String
  | math => "math.h"
  | stdio => "stdio.h"
  | stdlib => "stdlib.h"
  | string => "string.h"

end Header

def mathFunctions : List String :=
  ["sqrt", "sqrtf", "sin", "sinf", "cos", "cosf", "tan", "tanf", "exp", "expf", "log", "logf",
    "pow", "powf", "fabs", "fabsf", "floor", "floorf", "ceil", "ceilf", "fmin", "fminf", "fmax",
    "fmaxf", "fma", "fmaf"]

def stringFunctions : List String := ["memcpy", "memmove", "memset", "memcmp", "strlen"]

def stdlibFunctions : List String := ["malloc", "calloc", "free", "abort", "exit"]

def stdioFunctions : List String := ["printf", "puts", "putchar"]

/-- Accessors of the work item, which every device provides. -/
def deviceBuiltins : List String :=
  ["get_global_id", "get_global_size", "get_local_id", "get_group_id"]

structure Library where
  available : List (String × Header)
deriving DecidableEq, Repr

namespace Library

/-- Math functions are everywhere, the others on hosted targets, and printing not on devices. -/
def ofTriple (t : Triple) : Library :=
  let entries (names : List String) (h : Header) := names.map fun n => (n, h)
  let hosted :=
    if t.isFreestanding then []
    else
      entries stringFunctions .string ++ entries stdlibFunctions .stdlib ++
        (if t.isDevice then [] else entries stdioFunctions .stdio)
  ⟨entries mathFunctions .math ++ hosted⟩

def header? (l : Library) (name : String) : Option Header := l.available.lookup name

def has (l : Library) (name : String) : Bool := (l.header? name).isSome

def disable (l : Library) (name : String) : Library :=
  ⟨l.available.filter fun e => e.1 != name⟩

end Library

end Offload.Target
