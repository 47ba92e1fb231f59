/-!
# BLAKE3

The unkeyed hash of a byte sequence. Chunks of 1024 bytes are chained block by block; chunks are
then joined pairwise, level by level, an odd one out rising unchanged, until one node is left. The
digest is the root node compressed once more with the root flag.
-/

namespace Offload.Blake3

abbrev Words := Vector UInt32 16
abbrev Chain := Vector UInt32 8

def initial : Chain :=
  #v[0x6A09E667, 0xBB67AE85, 0x3C6EF372, 0xA54FF53A, 0x510E527F, 0x9B05688C, 0x1F83D9AB, 0x5BE0CD19]

/-- Order in which the message words enter the next round. -/
def schedule : Vector (Fin 16) 16 := #v[2, 6, 3, 10, 7, 0, 4, 13, 1, 11, 12, 5, 9, 14, 15, 8]

def chunkStart : UInt32 := 1
def chunkEnd : UInt32 := 2
def parentFlag : UInt32 := 4
def rootFlag : UInt32 := 8

def rotateRight (x n : UInt32) : UInt32 := (x >>> n) ||| (x <<< (32 - n))

/-- Mix two message words into four words of the state. -/
def mix (s : Words) (a b c d : Fin 16) (x y : UInt32) : Words :=
  let sa := s[a] + s[b] + x
  let sd := rotateRight (s[d] ^^^ sa) 16
  let sc := s[c] + sd
  let sb := rotateRight (s[b] ^^^ sc) 12
  let sa := sa + sb + y
  let sd := rotateRight (sd ^^^ sa) 8
  let sc := sc + sd
  let sb := rotateRight (sb ^^^ sc) 7
  (((s.set a sa).set b sb).set c sc).set d sd

/-- Columns first, then diagonals. -/
def round (s m : Words) : Words :=
  let s := mix s 0 4 8 12 m[0] m[1]
  let s := mix s 1 5 9 13 m[2] m[3]
  let s := mix s 2 6 10 14 m[4] m[5]
  let s := mix s 3 7 11 15 m[6] m[7]
  let s := mix s 0 5 10 15 m[8] m[9]
  let s := mix s 1 6 11 12 m[10] m[11]
  let s := mix s 2 7 8 13 m[12] m[13]
  mix s 3 4 9 14 m[14] m[15]

def rounds : Nat → Words → Words → Words
  | 0, s, _ => s
  | n + 1, s, m => rounds n (round s m) (schedule.map fun i => m[i])

/-- A compression not yet carried out, so that the root can be finished differently. -/
structure Node where
  chain : Chain
  block : Words
  counter : UInt64
  length : UInt32
  flags : UInt32

namespace Node

def compress (n : Node) : Words :=
  let h := n.chain
  let start : Words :=
    #v[h[0], h[1], h[2], h[3], h[4], h[5], h[6], h[7],
      initial[0], initial[1], initial[2], initial[3],
      n.counter.toUInt32, (n.counter >>> 32).toUInt32, n.length, n.flags]
  let s := rounds 7 start n.block
  #v[s[0] ^^^ s[8], s[1] ^^^ s[9], s[2] ^^^ s[10], s[3] ^^^ s[11],
    s[4] ^^^ s[12], s[5] ^^^ s[13], s[6] ^^^ s[14], s[7] ^^^ s[15],
    s[8] ^^^ h[0], s[9] ^^^ h[1], s[10] ^^^ h[2], s[11] ^^^ h[3],
    s[12] ^^^ h[4], s[13] ^^^ h[5], s[14] ^^^ h[6], s[15] ^^^ h[7]]

/-- The chaining value handed to the next block or to the parent. -/
def value (n : Node) : Chain :=
  let w := n.compress
  #v[w[0], w[1], w[2], w[3], w[4], w[5], w[6], w[7]]

def parent (left right : Node) : Node :=
  let l := left.value
  let r := right.value
  { chain := initial
    block := #v[l[0], l[1], l[2], l[3], l[4], l[5], l[6], l[7],
      r[0], r[1], r[2], r[3], r[4], r[5], r[6], r[7]]
    counter := 0
    length := 64
    flags := parentFlag }

end Node

/-- Little-endian word of up to four bytes. -/
def word (bs : List UInt8) : UInt32 := bs.foldr (fun b w => w * 256 + b.toUInt32) 0

/-- A block of up to 64 bytes, filled with zeros. -/
def block (bs : List UInt8) : Words :=
  Vector.ofFn fun i : Fin 16 => word ((bs.drop (4 * i.val)).take 4)

/-- Chain the blocks of one chunk; `first` marks its first block. The last block stays open. -/
def chunkFrom : Nat → UInt64 → Bool → Chain → List UInt8 → Node
  | fuel, counter, first, chain, bs =>
    let start := if first then chunkStart else 0
    let here : Node := ⟨chain, block (bs.take 64), counter, 64, start⟩
    match fuel with
    | fuel + 1 =>
      if 64 < bs.length then chunkFrom fuel counter false here.value (bs.drop 64)
      else { here with length := bs.length.toUInt32, flags := start ||| chunkEnd }
    | 0 => { here with length := bs.length.toUInt32, flags := start ||| chunkEnd }

/-- A chunk has at most sixteen blocks. -/
def chunk (counter : UInt64) (bs : List UInt8) : Node := chunkFrom 16 counter true initial bs

/-- The chunks of a text, numbered from `counter`; the empty text has one empty chunk. -/
def chunks : Nat → UInt64 → List UInt8 → Node × List Node
  | fuel, counter, bs =>
    let here := chunk counter (bs.take 1024)
    match fuel with
    | fuel + 1 =>
      if 1024 < bs.length then
        let (next, rest) := chunks fuel (counter + 1) (bs.drop 1024)
        (here, next :: rest)
      else (here, [])
    | 0 => (here, [])

/-- Join neighbours. -/
def pairUp (first : Node) : List Node → Node × List Node
  | [] => (first, [])
  | [second] => (.parent first second, [])
  | second :: third :: rest =>
    let (next, others) := pairUp third rest
    (.parent first second, next :: others)

/-- Join until one node is left; each level halves the number of nodes. -/
def top : Nat → Node → List Node → Node
  | 0, first, _ => first
  | _, first, [] => first
  | fuel + 1, first, rest =>
    let (first, rest) := pairUp first rest
    top fuel first rest

/-- The 32 bytes of the digest. -/
def hash (bs : List UInt8) : List UInt8 :=
  let (first, rest) := chunks (bs.length / 1024 + 1) 0 bs
  let root := top (rest.length + 1) first rest
  let out := ({ root with flags := root.flags ||| rootFlag } : Node).value
  out.toList.flatMap fun w : UInt32 =>
    [w.toUInt8, (w >>> 8).toUInt8, (w >>> 16).toUInt8, (w >>> 24).toUInt8]

/-- The digest in lower-case hexadecimal. -/
def hexDigest (bs : List UInt8) : String :=
  String.ofList ((hash bs).flatMap fun b =>
    [Nat.digitChar (b.toNat / 16), Nat.digitChar (b.toNat % 16)])

end Offload.Blake3
