import Mathlib.Data.UInt
import TinchPp.Lib.BlockHash
import TinchPp.Types

/-!
# MD5

`md5.cpp`. The state of a digest is the number of bits so far, in two words, four chaining words, and
a buffer for the bytes that do not make a block of 64 yet. `md5_append` fills the buffer, processes
it once it is full, and goes on with whole blocks from where they are. `md5_finish` appends the
padding and the length, by `md5_append` as well.

`md5_process` is a straight line of 64 operations on four variables that change their roles. Each
round has its own macro `SET`, and so its operations are a list here, one line each. The words of a
block are read from memory as they are where the machine is little-endian, aligned or not, and
arranged byte by byte where it is not; `ByteOrder` is the machine's.

`nbytes << 3` is an `int`, so that `md5_append` is undefined from `2 ^ 28` bytes on.
-/

namespace TinchPp

namespace Md5

/-! ### The constants -/

def tMask : UInt32 := ~~~0

def T1 : UInt32 := tMask ^^^ 0x28955b87
def T2 : UInt32 := tMask ^^^ 0x173848a9
def T3 : UInt32 := 0x242070db
def T4 : UInt32 := tMask ^^^ 0x3e423111
def T5 : UInt32 := tMask ^^^ 0x0a83f050
def T6 : UInt32 := 0x4787c62a
def T7 : UInt32 := tMask ^^^ 0x57cfb9ec
def T8 : UInt32 := tMask ^^^ 0x02b96afe
def T9 : UInt32 := 0x698098d8
def T10 : UInt32 := tMask ^^^ 0x74bb0850
def T11 : UInt32 := tMask ^^^ 0x0000a44e
def T12 : UInt32 := tMask ^^^ 0x76a32841
def T13 : UInt32 := 0x6b901122
def T14 : UInt32 := tMask ^^^ 0x02678e6c
def T15 : UInt32 := tMask ^^^ 0x5986bc71
def T16 : UInt32 := 0x49b40821
def T17 : UInt32 := tMask ^^^ 0x09e1da9d
def T18 : UInt32 := tMask ^^^ 0x3fbf4cbf
def T19 : UInt32 := 0x265e5a51
def T20 : UInt32 := tMask ^^^ 0x16493855
def T21 : UInt32 := tMask ^^^ 0x29d0efa2
def T22 : UInt32 := 0x02441453
def T23 : UInt32 := tMask ^^^ 0x275e197e
def T24 : UInt32 := tMask ^^^ 0x182c0437
def T25 : UInt32 := 0x21e1cde6
def T26 : UInt32 := tMask ^^^ 0x3cc8f829
def T27 : UInt32 := tMask ^^^ 0x0b2af278
def T28 : UInt32 := 0x455a14ed
def T29 : UInt32 := tMask ^^^ 0x561c16fa
def T30 : UInt32 := tMask ^^^ 0x03105c07
def T31 : UInt32 := 0x676f02d9
def T32 : UInt32 := tMask ^^^ 0x72d5b375
def T33 : UInt32 := tMask ^^^ 0x0005c6bd
def T34 : UInt32 := tMask ^^^ 0x788e097e
def T35 : UInt32 := 0x6d9d6122
def T36 : UInt32 := tMask ^^^ 0x021ac7f3
def T37 : UInt32 := tMask ^^^ 0x5b4115bb
def T38 : UInt32 := 0x4bdecfa9
def T39 : UInt32 := tMask ^^^ 0x0944b49f
def T40 : UInt32 := tMask ^^^ 0x4140438f
def T41 : UInt32 := 0x289b7ec6
def T42 : UInt32 := tMask ^^^ 0x155ed805
def T43 : UInt32 := tMask ^^^ 0x2b10cf7a
def T44 : UInt32 := 0x04881d05
def T45 : UInt32 := tMask ^^^ 0x262b2fc6
def T46 : UInt32 := tMask ^^^ 0x1924661a
def T47 : UInt32 := 0x1fa27cf8
def T48 : UInt32 := tMask ^^^ 0x3b53a99a
def T49 : UInt32 := tMask ^^^ 0x0bd6ddbb
def T50 : UInt32 := 0x432aff97
def T51 : UInt32 := tMask ^^^ 0x546bdc58
def T52 : UInt32 := tMask ^^^ 0x036c5fc6
def T53 : UInt32 := 0x655b59c3
def T54 : UInt32 := tMask ^^^ 0x70f3336d
def T55 : UInt32 := tMask ^^^ 0x00100b82
def T56 : UInt32 := tMask ^^^ 0x7a7ba22e
def T57 : UInt32 := 0x6fa87e4f
def T58 : UInt32 := tMask ^^^ 0x01d3191f
def T59 : UInt32 := tMask ^^^ 0x5cfebceb
def T60 : UInt32 := 0x4e0811a1
def T61 : UInt32 := tMask ^^^ 0x08ac817d
def T62 : UInt32 := tMask ^^^ 0x42c50dca
def T63 : UInt32 := 0x2ad7d2bb
def T64 : UInt32 := tMask ^^^ 0x14792c6e

/-! ### One operation -/

/-- `ROTATE_LEFT` -/
def rotateLeft (x n : UInt32) : UInt32 := (x <<< n) ||| (x >>> (32 - n))

def F (x y z : UInt32) : UInt32 := (x &&& y) ||| (~~~x &&& z)

def G (x y z : UInt32) : UInt32 := (x &&& z) ||| (y &&& ~~~z)

def H (x y z : UInt32) : UInt32 := x ^^^ y ^^^ z

def I (x y z : UInt32) : UInt32 := y ^^^ (x ||| ~~~z)

/-- The local variables. -/
inductive Register
  | a
  | b
  | c
  | d
deriving DecidableEq, Repr

/-- The four chaining words, and the local variables, which start as copies of them. -/
structure Registers where
  a : UInt32
  b : UInt32
  c : UInt32
  d : UInt32
deriving DecidableEq, Repr

namespace Registers

def get (r : Registers) : Register → UInt32
  | .a => r.a
  | .b => r.b
  | .c => r.c
  | .d => r.d

def set (r : Registers) (v : UInt32) : Register → Registers
  | .a => { r with a := v }
  | .b => { r with b := v }
  | .c => { r with c := v }
  | .d => { r with d := v }

/-- The words as an array. -/
def toVector (r : Registers) : Vector UInt32 4 := #v[r.a, r.b, r.c, r.d]

end Registers

/-- The arguments of a `SET(a, b, c, d, k, s, Ti)`. -/
structure Operation where
  a : Register
  b : Register
  c : Register
  d : Register
  k : Fin 16
  s : UInt32
  Ti : UInt32
deriving DecidableEq, Repr

/-- The macro `SET` of the round with the function `fn`. -/
def setRegister (fn : UInt32 → UInt32 → UInt32 → UInt32) (X : Fin 16 → UInt32) (r : Registers)
    (op : Operation) : Registers :=
  let t := r.get op.a + fn (r.get op.b) (r.get op.c) (r.get op.d) + X op.k + op.Ti
  r.set (rotateLeft t op.s + r.get op.b) op.a

/-! ### The rounds -/

def round1 : List Operation :=
  [⟨.a, .b, .c, .d, 0, 7, T1⟩,
   ⟨.d, .a, .b, .c, 1, 12, T2⟩,
   ⟨.c, .d, .a, .b, 2, 17, T3⟩,
   ⟨.b, .c, .d, .a, 3, 22, T4⟩,
   ⟨.a, .b, .c, .d, 4, 7, T5⟩,
   ⟨.d, .a, .b, .c, 5, 12, T6⟩,
   ⟨.c, .d, .a, .b, 6, 17, T7⟩,
   ⟨.b, .c, .d, .a, 7, 22, T8⟩,
   ⟨.a, .b, .c, .d, 8, 7, T9⟩,
   ⟨.d, .a, .b, .c, 9, 12, T10⟩,
   ⟨.c, .d, .a, .b, 10, 17, T11⟩,
   ⟨.b, .c, .d, .a, 11, 22, T12⟩,
   ⟨.a, .b, .c, .d, 12, 7, T13⟩,
   ⟨.d, .a, .b, .c, 13, 12, T14⟩,
   ⟨.c, .d, .a, .b, 14, 17, T15⟩,
   ⟨.b, .c, .d, .a, 15, 22, T16⟩]

def round2 : List Operation :=
  [⟨.a, .b, .c, .d, 1, 5, T17⟩,
   ⟨.d, .a, .b, .c, 6, 9, T18⟩,
   ⟨.c, .d, .a, .b, 11, 14, T19⟩,
   ⟨.b, .c, .d, .a, 0, 20, T20⟩,
   ⟨.a, .b, .c, .d, 5, 5, T21⟩,
   ⟨.d, .a, .b, .c, 10, 9, T22⟩,
   ⟨.c, .d, .a, .b, 15, 14, T23⟩,
   ⟨.b, .c, .d, .a, 4, 20, T24⟩,
   ⟨.a, .b, .c, .d, 9, 5, T25⟩,
   ⟨.d, .a, .b, .c, 14, 9, T26⟩,
   ⟨.c, .d, .a, .b, 3, 14, T27⟩,
   ⟨.b, .c, .d, .a, 8, 20, T28⟩,
   ⟨.a, .b, .c, .d, 13, 5, T29⟩,
   ⟨.d, .a, .b, .c, 2, 9, T30⟩,
   ⟨.c, .d, .a, .b, 7, 14, T31⟩,
   ⟨.b, .c, .d, .a, 12, 20, T32⟩]

def round3 : List Operation :=
  [⟨.a, .b, .c, .d, 5, 4, T33⟩,
   ⟨.d, .a, .b, .c, 8, 11, T34⟩,
   ⟨.c, .d, .a, .b, 11, 16, T35⟩,
   ⟨.b, .c, .d, .a, 14, 23, T36⟩,
   ⟨.a, .b, .c, .d, 1, 4, T37⟩,
   ⟨.d, .a, .b, .c, 4, 11, T38⟩,
   ⟨.c, .d, .a, .b, 7, 16, T39⟩,
   ⟨.b, .c, .d, .a, 10, 23, T40⟩,
   ⟨.a, .b, .c, .d, 13, 4, T41⟩,
   ⟨.d, .a, .b, .c, 0, 11, T42⟩,
   ⟨.c, .d, .a, .b, 3, 16, T43⟩,
   ⟨.b, .c, .d, .a, 6, 23, T44⟩,
   ⟨.a, .b, .c, .d, 9, 4, T45⟩,
   ⟨.d, .a, .b, .c, 12, 11, T46⟩,
   ⟨.c, .d, .a, .b, 15, 16, T47⟩,
   ⟨.b, .c, .d, .a, 2, 23, T48⟩]

def round4 : List Operation :=
  [⟨.a, .b, .c, .d, 0, 6, T49⟩,
   ⟨.d, .a, .b, .c, 7, 10, T50⟩,
   ⟨.c, .d, .a, .b, 14, 15, T51⟩,
   ⟨.b, .c, .d, .a, 5, 21, T52⟩,
   ⟨.a, .b, .c, .d, 12, 6, T53⟩,
   ⟨.d, .a, .b, .c, 3, 10, T54⟩,
   ⟨.c, .d, .a, .b, 10, 15, T55⟩,
   ⟨.b, .c, .d, .a, 1, 21, T56⟩,
   ⟨.a, .b, .c, .d, 8, 6, T57⟩,
   ⟨.d, .a, .b, .c, 15, 10, T58⟩,
   ⟨.c, .d, .a, .b, 6, 15, T59⟩,
   ⟨.b, .c, .d, .a, 13, 21, T60⟩,
   ⟨.a, .b, .c, .d, 4, 6, T61⟩,
   ⟨.d, .a, .b, .c, 11, 10, T62⟩,
   ⟨.c, .d, .a, .b, 2, 15, T63⟩,
   ⟨.b, .c, .d, .a, 9, 21, T64⟩]

/-! ### The words of a block -/

inductive ByteOrder
  | littleEndian
  | bigEndian
deriving DecidableEq, Repr

/-- What a little-endian machine reads from four bytes of its memory. -/
def nativeWord (p₀ p₁ p₂ p₃ : UInt8) : UInt32 :=
  UInt32.ofBitVec (p₃.toBitVec ++ p₂.toBitVec ++ p₁.toBitVec ++ p₀.toBitVec)

/-- `xp[0] + (xp[1] << 8) + (xp[2] << 16) + (xp[3] << 24)`; the bytes are promoted to `int`. -/
def arrangedWord (xp₀ xp₁ xp₂ xp₃ : UInt8) : UInt32 :=
  (xp₀.toUInt32.toInt32 + (xp₁.toUInt32.toInt32 <<< 8) + (xp₂.toUInt32.toInt32 <<< 16) +
    (xp₃.toUInt32.toInt32 <<< 24)).toUInt32

def words (order : ByteOrder) (data : MsgSeq) (k : Fin 16) : UInt32 :=
  let byte (i : ℕ) := data.getD (4 * k + i) 0
  match order with
  | .littleEndian => nativeWord (byte 0) (byte 1) (byte 2) (byte 3)
  | .bigEndian => arrangedWord (byte 0) (byte 1) (byte 2) (byte 3)

/-! ### The state -/

/-- `md5_state_t` -/
structure Md5State where
  count : Vector UInt32 2
  abcd : Registers
  buf : Vector UInt8 64

namespace Md5State

def setCount (count : Vector UInt32 2) (pms : Md5State) : Md5State := { pms with count := count }

def setAbcd (abcd : Registers) (pms : Md5State) : Md5State := { pms with abcd := abcd }

def setBuf (buf : Vector UInt8 64) (pms : Md5State) : Md5State := { pms with buf := buf }

/-- The message length in bits, least significant word first. -/
def bitLength (pms : Md5State) : ℕ := pms.count[0].toNat + 2 ^ 32 * pms.count[1].toNat

/-- The bytes in the buffer, `offset` in `md5_append`. -/
def offset (pms : Md5State) : ℕ := ((pms.count[0] >>> 3) &&& 63).toNat

/-- The number of bytes that `md5_finish` appends as padding. -/
def padLength (pms : Md5State) : ℕ := ((((55 : UInt32) - (pms.count[0] >>> 3)) &&& 63) + 1).toNat

variable (pms : Md5State) (count : Vector UInt32 2) (abcd : Registers) (buf : Vector UInt8 64)

@[simp] theorem count_setCount : (pms.setCount count).count = count := rfl

@[simp] theorem abcd_setCount : (pms.setCount count).abcd = pms.abcd := rfl

@[simp] theorem buf_setCount : (pms.setCount count).buf = pms.buf := rfl

@[simp] theorem count_setAbcd : (pms.setAbcd abcd).count = pms.count := rfl

@[simp] theorem abcd_setAbcd : (pms.setAbcd abcd).abcd = abcd := rfl

@[simp] theorem buf_setAbcd : (pms.setAbcd abcd).buf = pms.buf := rfl

@[simp] theorem count_setBuf : (pms.setBuf buf).count = pms.count := rfl

@[simp] theorem abcd_setBuf : (pms.setBuf buf).abcd = pms.abcd := rfl

@[simp] theorem buf_setBuf : (pms.setBuf buf).buf = buf := rfl

@[simp] theorem bitLength_setAbcd : (pms.setAbcd abcd).bitLength = pms.bitLength := rfl

@[simp] theorem bitLength_setBuf : (pms.setBuf buf).bitLength = pms.bitLength := rfl

end Md5State

/-- The four rounds of `md5_process`, on the local variables. -/
def processRounds (X : Fin 16 → UInt32) (r : Registers) : Registers :=
  let r := round1.foldl (setRegister F X) r
  let r := round2.foldl (setRegister G X) r
  let r := round3.foldl (setRegister H X) r
  round4.foldl (setRegister I X) r

/-- `md5_process`, on the chaining words. -/
def processWords (order : ByteOrder) (abcd : Registers) (data : MsgSeq) : Registers :=
  let X := words order data
  let r := processRounds X abcd
  ⟨abcd.a + r.a, abcd.b + r.b, abcd.c + r.c, abcd.d + r.d⟩

def process (order : ByteOrder) (pms : Md5State) (data : MsgSeq) : Md5State :=
  pms.setAbcd (processWords order pms.abcd data)

/-- `md5_init` leaves the buffer as it is. -/
def init (pms : Md5State) : Md5State :=
  (pms.setCount #v[0, 0]).setAbcd
    ⟨0x67452301, tMask ^^^ 0x10325476, tMask ^^^ 0x67452301, 0x10325476⟩

/-- `memcpy` into the buffer. -/
def memcpy (buf : Vector UInt8 64) (offset : ℕ) (p : MsgSeq) : Vector UInt8 64 :=
  Vector.ofFn fun i => if offset ≤ i ∧ i < offset + p.length then p.getD (i - offset) 0 else buf[i]

/-- The full blocks, and the final partial block. At most so many rounds are needed as there are
bytes left. -/
def processBlocks (order : ByteOrder) : ℕ → Md5State → MsgSeq → Md5State
  | 0, pms, p => pms.setBuf (memcpy pms.buf 0 p)
  | rounds + 1, pms, p =>
    if 64 ≤ p.length then processBlocks order rounds (process order pms (p.take 64)) (p.drop 64)
    else pms.setBuf (memcpy pms.buf 0 p)

/-- The new message length, in bits. -/
def addCount (count : Vector UInt32 2) (nbytes : ℕ) : Vector UInt32 2 :=
  let nbits := UInt32.ofNat (nbytes <<< 3)
  let count₁ := count[1] + UInt32.ofNat (nbytes >>> 29)
  let count₀ := count[0] + nbits
  #v[count₀, if count₀ < nbits then count₁ + 1 else count₁]

/-- `md5_append`; `none` stands for undefined behaviour. -/
def append (order : ByteOrder) (pms : Md5State) (data : MsgSeq) : Option Md5State :=
  let nbytes := data.length
  let offset := pms.offset
  if 2 ^ 31 ≤ nbytes <<< 3 then none
  else if nbytes = 0 then some pms
  else
    let pms := pms.setCount (addCount pms.count nbytes)
    if offset ≠ 0 then
      let copy := if offset + nbytes > 64 then 64 - offset else nbytes
      let pms := pms.setBuf (memcpy pms.buf offset (data.take copy))
      if offset + copy < 64 then some pms
      else
        let p := data.drop copy
        some (processBlocks order p.length (process order pms pms.buf.toList) p)
    else some (processBlocks order data.length pms data)

/-- The `i`-th byte of some words, the least significant byte of each of them first. -/
def byteOfWords {n : ℕ} (words : Vector UInt32 n) (i : Fin (4 * n)) : UInt8 :=
  have hindex : i.val >>> 2 < n := by
    rw [Nat.shiftRight_eq_div_pow]
    omega
  (words[i.val >>> 2] >>> UInt32.ofNat ((i.val &&& 3) <<< 3)).toUInt8

/-- The first byte of the padding is 0x80, and the others are zeroes. -/
def pad : Vector UInt8 64 := Vector.ofFn fun i => if i = 0 then 0x80 else 0

/-- `md5_finish` -/
def finish (order : ByteOrder) (pms : Md5State) : Option (Md5State × Vector UInt8 16) := do
  let data : Vector UInt8 8 := Vector.ofFn (byteOfWords pms.count)
  let pms ← append order pms (pad.toList.take pms.padLength)
  let pms ← append order pms data.toList
  some (pms, Vector.ofFn (byteOfWords pms.abcd.toVector))

end Md5

open Md5 in
/-- `calculate_digest`, with a state that is not initialised. -/
def calculateDigest (order : ByteOrder) (state : Md5State) (challenge : UInt32) (cookie : Str) :
    Option MsgSeq := do
  let chall := bytesOf (toString challenge.toNat)
  let cs := cookie ++ chall
  let state := init state
  let state ← append order state cs
  let (_, digest) ← finish order state
  some digest.toList

end TinchPp
