import Mathlib.Data.List.Basic

/-!
# The digest of a firmware file

`md5.c`, with which `rwnx_load_firmware` prints what it has loaded.
-/

namespace Aic.Md5

/-- `state` of `MD5_CTX` -/
structure State where
  a : UInt32
  b : UInt32
  c : UInt32
  d : UInt32
deriving DecidableEq

/-- `MD5_CTX` -/
structure Ctx where
  count0 : UInt32
  count1 : UInt32
  state : State
  buffer : List UInt8

def F (x y z : UInt32) : UInt32 := (x &&& y) ||| (~~~x &&& z)

def G (x y z : UInt32) : UInt32 := (x &&& z) ||| (y &&& ~~~z)

def H (x y z : UInt32) : UInt32 := x ^^^ y ^^^ z

def I (x y z : UInt32) : UInt32 := y ^^^ (x ||| ~~~z)

/-- `ROTATE_LEFT` -/
def rotateLeft (x n : UInt32) : UInt32 := (x <<< n) ||| (x >>> (32 - n))

/-- The common part of `FF`, `GG`, `HH` and `II`. What they leave is in the order in which the next
one takes it. -/
def mix (fn : UInt32 → UInt32 → UInt32 → UInt32) (x s ac : UInt32) (v : State) : State :=
  ⟨v.d, rotateLeft (v.a + (fn v.b v.c v.d + x + ac)) s + v.b, v.b, v.c⟩

def FF : UInt32 → UInt32 → UInt32 → State → State := mix F

def GG : UInt32 → UInt32 → UInt32 → State → State := mix G

def HH : UInt32 → UInt32 → UInt32 → State → State := mix H

def II : UInt32 → UInt32 → UInt32 → State → State := mix I

/-- `MD5Encode` -/
def encode (input : List UInt32) : List UInt8 :=
  input.flatMap fun (w : UInt32) => [(w &&& 0xFF).toUInt8, (w >>> 8 &&& 0xFF).toUInt8,
    (w >>> 16 &&& 0xFF).toUInt8, (w >>> 24 &&& 0xFF).toUInt8]

/-- `MD5Decode`, for one word -/
def decode (input : List UInt8) (i : Nat) : UInt32 :=
  (input.getD (4 * i) 0).toUInt32 ||| ((input.getD (4 * i + 1) 0).toUInt32 <<< 8) |||
    ((input.getD (4 * i + 2) 0).toUInt32 <<< 16) ||| ((input.getD (4 * i + 3) 0).toUInt32 <<< 24)

/-- The calls in `MD5Transform`: the word of the block, the rotation and the constant. -/
def rounds : List ((UInt32 → UInt32 → UInt32 → State → State) × Nat × UInt32 × UInt32) :=
  [(FF, 0, 7, 0xd76aa478), (FF, 1, 12, 0xe8c7b756),
    (FF, 2, 17, 0x242070db), (FF, 3, 22, 0xc1bdceee),
    (FF, 4, 7, 0xf57c0faf), (FF, 5, 12, 0x4787c62a),
    (FF, 6, 17, 0xa8304613), (FF, 7, 22, 0xfd469501),
    (FF, 8, 7, 0x698098d8), (FF, 9, 12, 0x8b44f7af),
    (FF, 10, 17, 0xffff5bb1), (FF, 11, 22, 0x895cd7be),
    (FF, 12, 7, 0x6b901122), (FF, 13, 12, 0xfd987193),
    (FF, 14, 17, 0xa679438e), (FF, 15, 22, 0x49b40821),
    (GG, 1, 5, 0xf61e2562), (GG, 6, 9, 0xc040b340),
    (GG, 11, 14, 0x265e5a51), (GG, 0, 20, 0xe9b6c7aa),
    (GG, 5, 5, 0xd62f105d), (GG, 10, 9, 0x2441453),
    (GG, 15, 14, 0xd8a1e681), (GG, 4, 20, 0xe7d3fbc8),
    (GG, 9, 5, 0x21e1cde6), (GG, 14, 9, 0xc33707d6),
    (GG, 3, 14, 0xf4d50d87), (GG, 8, 20, 0x455a14ed),
    (GG, 13, 5, 0xa9e3e905), (GG, 2, 9, 0xfcefa3f8),
    (GG, 7, 14, 0x676f02d9), (GG, 12, 20, 0x8d2a4c8a),
    (HH, 5, 4, 0xfffa3942), (HH, 8, 11, 0x8771f681),
    (HH, 11, 16, 0x6d9d6122), (HH, 14, 23, 0xfde5380c),
    (HH, 1, 4, 0xa4beea44), (HH, 4, 11, 0x4bdecfa9),
    (HH, 7, 16, 0xf6bb4b60), (HH, 10, 23, 0xbebfbc70),
    (HH, 13, 4, 0x289b7ec6), (HH, 0, 11, 0xeaa127fa),
    (HH, 3, 16, 0xd4ef3085), (HH, 6, 23, 0x4881d05),
    (HH, 9, 4, 0xd9d4d039), (HH, 12, 11, 0xe6db99e5),
    (HH, 15, 16, 0x1fa27cf8), (HH, 2, 23, 0xc4ac5665),
    (II, 0, 6, 0xf4292244), (II, 7, 10, 0x432aff97),
    (II, 14, 15, 0xab9423a7), (II, 5, 21, 0xfc93a039),
    (II, 12, 6, 0x655b59c3), (II, 3, 10, 0x8f0ccc92),
    (II, 10, 15, 0xffeff47d), (II, 1, 21, 0x85845dd1),
    (II, 8, 6, 0x6fa87e4f), (II, 15, 10, 0xfe2ce6e0),
    (II, 6, 15, 0xa3014314), (II, 13, 21, 0x4e0811a1),
    (II, 4, 6, 0xf7537e82), (II, 11, 10, 0xbd3af235),
    (II, 2, 15, 0x2ad7d2bb), (II, 9, 21, 0xeb86d391)]

/-- `MD5Transform` -/
def transform (state : State) (block : List UInt8) : State :=
  let v := rounds.foldl (fun v (round, k, s, ac) => round (decode block k) s ac v) state
  ⟨state.a + v.a, state.b + v.b, state.c + v.c, state.d + v.d⟩

def initState : State := ⟨0x67452301, 0xEFCDAB89, 0x98BADCFE, 0x10325476⟩

/-- `MD5Init` -/
def init (context : Ctx) : Ctx :=
  { context with count0 := 0, count1 := 0, state := initState }

/-- `memcpy` to an offset of the buffer -/
def memcpy (buffer : List UInt8) (index : Nat) (src : List UInt8) : List UInt8 :=
  buffer.take index ++ src ++ buffer.drop (index + src.length)

/-- The loop of `MD5Update`, with at most `fuel` turns. Its counter wraps, first for a piece of
`2 ^ 32 - 64` bytes behind an empty buffer; then the loop of the source does not end. -/
def updateLoop (input : List UInt8) : (fuel i : Nat) → State → Nat × State
  | 0, i, state => (i, state)
  | fuel + 1, i, state =>
    let next := (i + 64) % 0x100000000
    if next ≤ input.length then
      updateLoop input fuel next (transform state ((input.drop i).take 64))
    else (i, state)

/-- The part of `MD5Update` that counts the bits -/
def count (context : Ctx) (inputlen : UInt32) : Ctx :=
  let count0 := context.count0 + inputlen <<< 3
  let count1 := if count0 < inputlen <<< 3 then context.count1 + 1 else context.count1
  { context with count0 := count0, count1 := count1 + inputlen >>> 29 }

/-- `MD5Update` -/
def update (context : Ctx) (input : List UInt8) : Ctx :=
  let index := (context.count0 >>> 3 &&& 0x3F).toNat
  let partlen := 64 - index
  let context := count context (UInt32.ofNat input.length)
  if input.length ≥ partlen then
    let buffer := memcpy context.buffer index (input.take partlen)
    let r := updateLoop input input.length partlen (transform context.state buffer)
    { context with state := r.2, buffer := memcpy buffer 0 (input.drop r.1) }
  else { context with buffer := memcpy context.buffer index input }

/-- `PADDING` -/
def padding : List UInt8 := 0x80 :: List.replicate 63 0

/-- `MD5Final` -/
def final (context : Ctx) : List UInt8 :=
  let index := (context.count0 >>> 3 &&& 0x3F).toNat
  let padlen := if index < 56 then 56 - index else 120 - index
  let bits := encode [context.count0, context.count1]
  let context := update (update context (padding.take padlen)) bits
  encode [context.state.a, context.state.b, context.state.c, context.state.d]

end Aic.Md5
