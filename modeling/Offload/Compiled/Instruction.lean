import Offload.Compiled.Value

/-!
# Instructions

Straight-line instructions and the terminators that end a block. Operations and predicates are read
by their keywords.
-/

namespace Offload.Compiled

inductive BinaryOp where
  | add | sub | mul | sdiv | udiv | srem | urem | shl | lshr | ashr | and | or | xor
  | fadd | fsub | fmul | fdiv | frem
deriving DecidableEq, Repr

namespace BinaryOp

def all : List BinaryOp :=
  [add, sub, mul, sdiv, udiv, srem, urem, shl, lshr, ashr, and, or, xor,
    fadd, fsub, fmul, fdiv, frem]

def keyword : BinaryOp → String
  | add => "add"
  | sub => "sub"
  | mul => "mul"
  | sdiv => "sdiv"
  | udiv => "udiv"
  | srem => "srem"
  | urem => "urem"
  | shl => "shl"
  | lshr => "lshr"
  | ashr => "ashr"
  | and => "and"
  | or => "or"
  | xor => "xor"
  | fadd => "fadd"
  | fsub => "fsub"
  | fmul => "fmul"
  | fdiv => "fdiv"
  | frem => "frem"

def ofKeyword? (w : String) : Option BinaryOp := all.find? (·.keyword == w)

def isFloat : BinaryOp → Bool
  | fadd | fsub | fmul | fdiv | frem => true
  | _ => false

end BinaryOp

inductive IntPredicate where
  | eq | ne | ugt | uge | ult | ule | sgt | sge | slt | sle
deriving DecidableEq, Repr

namespace IntPredicate

def all : List IntPredicate := [eq, ne, ugt, uge, ult, ule, sgt, sge, slt, sle]

def keyword : IntPredicate → String
  | eq => "eq"
  | ne => "ne"
  | ugt => "ugt"
  | uge => "uge"
  | ult => "ult"
  | ule => "ule"
  | sgt => "sgt"
  | sge => "sge"
  | slt => "slt"
  | sle => "sle"

def ofKeyword? (w : String) : Option IntPredicate := all.find? (·.keyword == w)

def isUnsigned : IntPredicate → Bool
  | ugt | uge | ult | ule => true
  | _ => false

end IntPredicate

inductive FloatPredicate where
  | never | oeq | ogt | oge | olt | ole | one | ord | uno | ueq | ugt | uge | ult | ule | une
  | always
deriving DecidableEq, Repr

namespace FloatPredicate

def all : List FloatPredicate :=
  [never, oeq, ogt, oge, olt, ole, one, ord, uno, ueq, ugt, uge, ult, ule, une, always]

def keyword : FloatPredicate → String
  | never => "false"
  | oeq => "oeq"
  | ogt => "ogt"
  | oge => "oge"
  | olt => "olt"
  | ole => "ole"
  | one => "one"
  | ord => "ord"
  | uno => "uno"
  | ueq => "ueq"
  | ugt => "ugt"
  | uge => "uge"
  | ult => "ult"
  | ule => "ule"
  | une => "une"
  | always => "true"

def ofKeyword? (w : String) : Option FloatPredicate := all.find? (·.keyword == w)

end FloatPredicate

inductive CastOp where
  | trunc | zext | sext | fptrunc | fpext | fptoui | fptosi | uitofp | sitofp | ptrtoint | inttoptr
  | bitcast
deriving DecidableEq, Repr

namespace CastOp

def all : List CastOp :=
  [trunc, zext, sext, fptrunc, fpext, fptoui, fptosi, uitofp, sitofp, ptrtoint, inttoptr, bitcast]

def keyword : CastOp → String
  | trunc => "trunc"
  | zext => "zext"
  | sext => "sext"
  | fptrunc => "fptrunc"
  | fpext => "fpext"
  | fptoui => "fptoui"
  | fptosi => "fptosi"
  | uitofp => "uitofp"
  | sitofp => "sitofp"
  | ptrtoint => "ptrtoint"
  | inttoptr => "inttoptr"
  | bitcast => "bitcast"

def ofKeyword? (w : String) : Option CastOp := all.find? (·.keyword == w)

end CastOp

inductive Instruction where
  | binary (dest : String) (op : BinaryOp) (type : Ty) (lhs rhs : Value)
  | icmp (dest : String) (pred : IntPredicate) (type : Ty) (lhs rhs : Value)
  | fcmp (dest : String) (pred : FloatPredicate) (type : Ty) (lhs rhs : Value)
  | cast (dest : String) (op : CastOp) (source : Ty) (value : Value) (target : Ty)
  | alloca (dest : String) (type : Ty)
  /-- `type` is the type of the loaded value. -/
  | load (dest : String) (type : Ty) (pointer : Value)
  | store (type : Ty) (value pointer : Value)
  /-- `source` is the type that `base` is indexed as, `result` a pointer to the selected element. -/
  | elementPtr (dest : String) (source : Ty) (base : Value) (indices : List (Ty × Value))
      (result : Ty)
  | call (dest : Option String) (result : Ty) (callee : String) (args : List (Ty × Value))
  | select (dest : String) (condition : Value) (type : Ty) (onTrue onFalse : Value)
  /-- One incoming value for each label of a preceding block. -/
  | phi (dest : String) (type : Ty) (incoming : List (Value × String))
deriving Repr

namespace Instruction

/-- The name of the value that the instruction defines. -/
def dest? : Instruction → Option String
  | binary dest .. | icmp dest .. | fcmp dest .. | cast dest .. | alloca dest _ | load dest ..
  | elementPtr dest .. | select dest .. | phi dest .. => some dest
  | call dest .. => dest
  | store .. => none

/-- The type of that value. -/
def resultType? : Instruction → Option Ty
  | binary _ _ type _ _ => some type
  | icmp .. | fcmp .. => some (.int .w1)
  | cast _ _ _ _ target => some target
  | alloca _ type => some (.ptr type)
  | load _ type _ => some type
  | elementPtr _ _ _ _ result => some result
  | call (some _) result _ _ => some result
  | select _ _ type _ _ => some type
  | phi _ type _ => some type
  | call none .. | store .. => none

/-- The values that the instruction reads. -/
def operands : Instruction → List Value
  | binary _ _ _ lhs rhs | icmp _ _ _ lhs rhs | fcmp _ _ _ lhs rhs => [lhs, rhs]
  | cast _ _ _ value _ => [value]
  | alloca .. => []
  | load _ _ pointer => [pointer]
  | store _ value pointer => [value, pointer]
  | elementPtr _ _ base indices _ => base :: indices.map (·.2)
  | call _ _ _ args => args.map (·.2)
  | select _ condition _ onTrue onFalse => [condition, onTrue, onFalse]
  | phi _ _ incoming => incoming.map (·.1)

end Instruction

inductive Terminator where
  | ret (result : Option (Ty × Value))
  | jump (target : String)
  | branch (condition : Value) (onTrue onFalse : String)
  | switch (type : Ty) (value : Value) (default : String) (cases : List (Int × String))
  | unreachable
deriving Repr

namespace Terminator

/-- Labels that control can go to; a switch names each of its labels once. -/
def successors : Terminator → List String
  | jump target => [target]
  | branch _ onTrue onFalse => [onTrue, onFalse]
  | switch _ _ default cases =>
    cases.foldl (fun out c => if out.contains c.2 then out else out ++ [c.2]) [default]
  | ret _ | unreachable => []

/-- Apply a function to every label. -/
def mapLabels (f : String → String) : Terminator → Terminator
  | jump target => jump (f target)
  | branch condition onTrue onFalse => branch condition (f onTrue) (f onFalse)
  | switch type value default cases =>
    switch type value (f default) (cases.map fun c => (c.1, f c.2))
  | ret result => ret result
  | unreachable => unreachable

end Terminator

end Offload.Compiled
