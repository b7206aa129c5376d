import Mathlib.Data.List.GetD
import Mathlib.Data.Nat.Digits.Defs
import Mathlib.Tactic.IntervalCases
import TinchPp.Md5

/-!
# What MD5 computes

MD5 is an iterated hash. An operation replaces one of four words and renames them, 64 times for each
block; the message is padded with a byte 0x80, zeroes, and its length in bits. Whether the message is
appended as a whole or in pieces, and what the byte order of the machine is, makes no difference.

The padding tells the lengths of messages apart, up to `2 ^ 61` bytes, so that MD5 is as good as its
compression function.

## Main results

* `Md5.processWords_eq_compress` — the unrolled operations, on either machine
* `Md5.Represents.append` — what `md5_append` does to the state
* `Md5.digestOf_eq` — the digest of a message in pieces
* `Md5.collides_of_digestOf_eq` — two messages with the same digest
-/

namespace TinchPp

namespace Md5

/-! ### The compression function -/

/-- The number of a word in the block, by the number of the operation. -/
def wordIndex (i : ℕ) : Fin 16 :=
  let k := match i / 16 with
    | 0 => i
    | 1 => 5 * i + 1
    | 2 => 3 * i + 5
    | _ => 7 * i
  ⟨k % 16, Nat.mod_lt k (by decide)⟩

/-- How far the sum is rotated. -/
def rotation (i : ℕ) : UInt32 :=
  let row : List UInt32 :=
    match i / 16 with
    | 0 => [7, 12, 17, 22]
    | 1 => [5, 9, 14, 20]
    | 2 => [4, 11, 16, 23]
    | _ => [6, 10, 15, 21]
  row.getD (i % 4) 0

def table : List UInt32 :=
  [0xd76aa478, 0xe8c7b756, 0x242070db, 0xc1bdceee, 0xf57c0faf, 0x4787c62a, 0xa8304613, 0xfd469501,
   0x698098d8, 0x8b44f7af, 0xffff5bb1, 0x895cd7be, 0x6b901122, 0xfd987193, 0xa679438e, 0x49b40821,
   0xf61e2562, 0xc040b340, 0x265e5a51, 0xe9b6c7aa, 0xd62f105d, 0x02441453, 0xd8a1e681, 0xe7d3fbc8,
   0x21e1cde6, 0xc33707d6, 0xf4d50d87, 0x455a14ed, 0xa9e3e905, 0xfcefa3f8, 0x676f02d9, 0x8d2a4c8a,
   0xfffa3942, 0x8771f681, 0x6d9d6122, 0xfde5380c, 0xa4beea44, 0x4bdecfa9, 0xf6bb4b60, 0xbebfbc70,
   0x289b7ec6, 0xeaa127fa, 0xd4ef3085, 0x04881d05, 0xd9d4d039, 0xe6db99e5, 0x1fa27cf8, 0xc4ac5665,
   0xf4292244, 0x432aff97, 0xab9423a7, 0xfc93a039, 0x655b59c3, 0x8f0ccc92, 0xffeff47d, 0x85845dd1,
   0x6fa87e4f, 0xfe2ce6e0, 0xa3014314, 0x4e0811a1, 0xf7537e82, 0xbd3af235, 0x2ad7d2bb, 0xeb86d391]

/-- The operation `[abcd k s i]` and the change of names that comes after it. -/
def operate (fn : UInt32 → UInt32 → UInt32 → UInt32) (X : Fin 16 → UInt32) (r : Registers)
    (i : ℕ) : Registers where
  a := r.d
  b := r.b + rotateLeft (r.a + fn r.b r.c r.d + X (wordIndex i) + table.getD i 0) (rotation i)
  c := r.b
  d := r.c

def roundFn (i : ℕ) : UInt32 → UInt32 → UInt32 → UInt32 :=
  match i / 16 with
  | 0 => F
  | 1 => G
  | 2 => H
  | _ => I

/-- A word of a block, least significant byte first. -/
def wordOf (b : MsgSeq) (k : Fin 16) : UInt32 :=
  UInt32.ofNat (Nat.ofDigits 256 (((b.drop (4 * k)).take 4).map UInt8.toNat))

def rounds (X : Fin 16 → UInt32) (r : Registers) : Registers :=
  (List.range 64).foldl (fun r i => operate (roundFn i) X r i) r

def compress (h : Registers) (b : MsgSeq) : Registers :=
  let r := rounds (wordOf b) h
  ⟨h.a + r.a, h.b + r.b, h.c + r.c, h.d + r.d⟩

/-- The hash of blocks of 64 bytes. -/
def md5 : BlockHash UInt8 (Registers) where
  blockSize := 64
  blockSize_pos := by decide
  compress := compress

/-! ### The unrolled rounds -/

/-- The roles of the variables. They take turns. -/
inductive Naming
  | abcd
  | dabc
  | cdab
  | bcda
deriving DecidableEq

namespace Naming

def next : Naming → Naming
  | abcd => dabc
  | dabc => cdab
  | cdab => bcda
  | bcda => abcd

/-- A call of `SET` with the variables in their roles. -/
def operation (k : Fin 16) (s Ti : UInt32) : Naming → Operation
  | abcd => ⟨.a, .b, .c, .d, k, s, Ti⟩
  | dabc => ⟨.d, .a, .b, .c, k, s, Ti⟩
  | cdab => ⟨.c, .d, .a, .b, k, s, Ti⟩
  | bcda => ⟨.b, .c, .d, .a, k, s, Ti⟩

/-- The variables by their roles. -/
def view (r : Registers) : Naming → Registers
  | abcd => r
  | dabc => ⟨r.d, r.a, r.b, r.c⟩
  | cdab => ⟨r.c, r.d, r.a, r.b⟩
  | bcda => ⟨r.b, r.c, r.d, r.a⟩

/-- The operations from `i` on. -/
def unrolled : Naming → ℕ → ℕ → List Operation
  | _, _, 0 => []
  | names, i, n + 1 =>
    names.operation (wordIndex i) (rotation i) (table.getD i 0) :: unrolled names.next (i + 1) n

variable {fn : UInt32 → UInt32 → UInt32 → UInt32} {X : Fin 16 → UInt32}

theorem view_setRegister (names : Naming) (i : ℕ) (r : Registers) :
    names.next.view (setRegister fn X r
      (names.operation (wordIndex i) (rotation i) (table.getD i 0))) =
        operate fn X (names.view r) i := by
  cases names <;>
    simp only [next, operation, view, setRegister, Registers.get, Registers.set, operate,
      UInt32.add_comm (rotateLeft _ _)]

theorem view_foldl_unrolled (names : Naming) (i n : ℕ) (r : Registers) :
    (next^[n] names).view ((names.unrolled i n).foldl (setRegister fn X) r) =
      (List.range' i n).foldl (operate fn X) (names.view r) := by
  induction n generalizing names i r with
  | zero => rfl
  | succ n ih =>
    rw [Function.iterate_succ_apply, unrolled, List.foldl_cons, ih, view_setRegister,
      List.range'_succ, List.foldl_cons]

/-- After 16 operations the variables have their own names again. -/
theorem foldl_unrolled (i : ℕ) (r : Registers) :
    (abcd.unrolled i 16).foldl (setRegister fn X) r =
      (List.range' i 16).foldl (operate fn X) r := by
  have hnames : next^[16] abcd = abcd := by decide
  calc (abcd.unrolled i 16).foldl (setRegister fn X) r
      = (next^[16] abcd).view ((abcd.unrolled i 16).foldl (setRegister fn X) r) := by
        rw [hnames, view]
    _ = (List.range' i 16).foldl (operate fn X) r := by
        rw [view_foldl_unrolled, view]

end Naming

theorem round1_eq : round1 = Naming.abcd.unrolled (16 * 0) 16 := by decide +kernel

theorem round2_eq : round2 = Naming.abcd.unrolled (16 * 1) 16 := by decide +kernel

theorem round3_eq : round3 = Naming.abcd.unrolled (16 * 2) 16 := by decide +kernel

theorem round4_eq : round4 = Naming.abcd.unrolled (16 * 3) 16 := by decide +kernel

/-! ### The words, on either machine -/

variable {order : ByteOrder} {data s t : MsgSeq} {h : Registers}

theorem toNat_nativeWord (p₀ p₁ p₂ p₃ : UInt8) : (nativeWord p₀ p₁ p₂ p₃).toNat =
    p₀.toNat + 256 * (p₁.toNat + 256 * (p₂.toNat + 256 * p₃.toNat)) := by
  have h₀ := p₀.toNat_lt
  have h₁ := p₁.toNat_lt
  have h₂ := p₂.toNat_lt
  rw [nativeWord, UInt32.toNat_ofBitVec, BitVec.toNat_append, BitVec.toNat_append,
    BitVec.toNat_append]
  simp only [UInt8.toNat_toBitVec]
  rw [← Nat.shiftLeft_add_eq_or_of_lt h₂, ← Nat.shiftLeft_add_eq_or_of_lt h₁,
    ← Nat.shiftLeft_add_eq_or_of_lt h₀]
  simp only [Nat.shiftLeft_eq]
  omega

/-- A promoted byte that is shifted to its place, as an unsigned number. -/
theorem toNat_promoted_shiftLeft (x : UInt8) {n : Int32} {m : UInt32}
    (hn : n.toBitVec.smod 32 = m.toBitVec % 32) (hm : m.toNat ≤ 24) :
    (x.toUInt32.toInt32 <<< n).toUInt32.toNat = x.toNat * 2 ^ m.toNat := by
  have hx := x.toNat_lt
  have hshift : (x.toUInt32.toInt32 <<< n).toUInt32 = x.toUInt32 <<< m := by
    apply UInt32.toBitVec_inj.mp
    show x.toUInt32.toInt32.toBitVec <<< (n.toBitVec.smod 32) = _
    rw [hn]
    rfl
  have hlt : x.toNat * 2 ^ m.toNat < 2 ^ 32 :=
    calc x.toNat * 2 ^ m.toNat ≤ 255 * 2 ^ 24 :=
          Nat.mul_le_mul (by omega) (Nat.pow_le_pow_right (by decide) hm)
      _ < 2 ^ 32 := by decide
  rw [hshift, UInt32.toNat_shiftLeft, Nat.mod_eq_of_lt (show m.toNat < 32 by omega),
    Nat.shiftLeft_eq, UInt8.toNat_toUInt32, Nat.mod_eq_of_lt hlt]

theorem toNat_arrangedWord (p₀ p₁ p₂ p₃ : UInt8) : (arrangedWord p₀ p₁ p₂ p₃).toNat =
    p₀.toNat + 256 * (p₁.toNat + 256 * (p₂.toNat + 256 * p₃.toNat)) := by
  have h₀ := p₀.toNat_lt
  have h₁ := p₁.toNat_lt
  have h₂ := p₂.toNat_lt
  have h₃ := p₃.toNat_lt
  rw [arrangedWord, Int32.toUInt32_add, Int32.toUInt32_add, Int32.toUInt32_add, UInt32.toNat_add,
    UInt32.toNat_add, UInt32.toNat_add, toNat_promoted_shiftLeft (m := 8) _ (by decide) (by decide),
    toNat_promoted_shiftLeft (m := 16) _ (by decide) (by decide),
    toNat_promoted_shiftLeft (m := 24) _ (by decide) (by decide), UInt32.toUInt32_toInt32,
    UInt8.toNat_toUInt32]
  simp only [UInt32.reduceToNat]
  omega

theorem take_four_drop {n : ℕ} (h : n + 4 ≤ data.length) : (data.drop n).take 4 =
    [data.getD n 0, data.getD (n + 1) 0, data.getD (n + 2) 0, data.getD (n + 3) 0] := by
  rw [List.drop_eq_getElem_cons (i := n) (by omega),
    List.drop_eq_getElem_cons (i := n + 1) (by omega),
    List.drop_eq_getElem_cons (i := n + 2) (by omega),
    List.drop_eq_getElem_cons (i := n + 3) (by omega), List.getD_eq_getElem _ _ (by omega),
    List.getD_eq_getElem _ _ (by omega), List.getD_eq_getElem _ _ (by omega),
    List.getD_eq_getElem _ _ (by omega)]
  rfl

/-- **The byte order of the machine** makes no difference to the words. -/
theorem words_eq_wordOf (order : ByteOrder) (hdata : data.length = 64) :
    words order data = wordOf data := by
  funext k
  have hk := k.isLt
  have hword : (words order data k).toNat = Nat.ofDigits 256
      (((data.drop (4 * k)).take 4).map UInt8.toNat) := by
    rw [take_four_drop (by omega)]
    simp only [List.map_cons, List.map_nil, Nat.ofDigits_cons, Nat.ofDigits_nil, Nat.mul_zero,
      Nat.add_zero]
    cases order with
    | littleEndian => exact toNat_nativeWord _ _ _ _
    | bigEndian => exact toNat_arrangedWord _ _ _ _
  rw [wordOf, ← hword, UInt32.ofNat_toNat]

/-- A round of 16 operations, with its one function. -/
theorem foldl_round {n : ℕ} {ops : List Operation} (hops : ops = Naming.abcd.unrolled (16 * n) 16)
    (hfn : ∀ i, i / 16 = n → roundFn i = fn) (r : Registers) :
    ops.foldl (setRegister fn X) r =
      (List.range' (16 * n) 16).foldl (fun r i => operate (roundFn i) X r i) r := by
  rw [hops, Naming.foldl_unrolled]
  refine (List.foldl_ext _ _ _ fun r i hi => ?_).symm
  rw [List.mem_range'_1] at hi
  rw [hfn i (by omega)]

theorem processRounds_eq (X : Fin 16 → UInt32) (r : Registers) :
    processRounds X r = rounds X r := by
  have hrange : List.range 64 = List.range' (16 * 0) 16 ++ List.range' (16 * 1) 16 ++
      List.range' (16 * 2) 16 ++ List.range' (16 * 3) 16 := rfl
  rw [processRounds, rounds, hrange, List.foldl_append, List.foldl_append, List.foldl_append,
    foldl_round round1_eq fun i hi => by simp only [roundFn, hi],
    foldl_round round2_eq fun i hi => by simp only [roundFn, hi],
    foldl_round round3_eq fun i hi => by simp only [roundFn, hi],
    foldl_round round4_eq fun i hi => by simp only [roundFn, hi]]

/-- **The unrolled operations** of `md5_process` are those of a loop. -/
theorem processWords_eq_compress (order : ByteOrder) (h : Registers)
    (hdata : data.length = 64) : processWords order h data = md5.compress h data := by
  rw [processWords, processRounds_eq, words_eq_wordOf order hdata]
  rfl

/-- **One block**, on either machine. -/
theorem process_eq (order : ByteOrder) (pms : Md5State) (block : Vector UInt8 64) :
    process order pms block.toList = pms.setAbcd (md5.compress pms.abcd block.toList) := by
  rw [process, processWords_eq_compress order _ block.length_toList]

/-! ### What `md5_append` does -/

/-- The chaining words to begin with. -/
def initial : Registers := ⟨0x67452301, 0xefcdab89, 0x98badcfe, 0x10325476⟩

/-- A state in the middle of a message. -/
structure Represents (pms : Md5State) (message : MsgSeq) : Prop where
  bitLength : pms.bitLength = 8 * message.length % 2 ^ 64
  abcd : pms.abcd = (md5.absorb initial message).1
  buf : pms.buf.toList.take (message.length % 64) = (md5.absorb initial message).2

variable {pms pms' : Md5State} {message p : MsgSeq}

theorem represents_init (pms : Md5State) : Represents (init pms) [] where
  bitLength := by
    show (0 : UInt32).toNat + 2 ^ 32 * (0 : UInt32).toNat = 8 * 0 % 2 ^ 64
    decide
  abcd := by
    simp only [BlockHash.absorb_nil]
    show (⟨_, _, _, _⟩ : Registers) = initial
    decide
  buf := by
    simp only [BlockHash.absorb_nil]
    rfl

theorem take_memcpy (buf : Vector UInt8 64) (offset : ℕ) (p : MsgSeq)
    (hp : offset + p.length ≤ 64) :
    (memcpy buf offset p).toList.take (offset + p.length) = buf.toList.take offset ++ p := by
  have hoffset : (buf.toList.take offset).length = offset := by
    rw [List.length_take, Vector.length_toList]
    omega
  apply List.ext_getElem
  · rw [List.length_take, Vector.length_toList, List.length_append, hoffset]
    omega
  · intro i h₁ h₂
    have hi : i < offset + p.length := by rwa [List.length_append, hoffset] at h₂
    simp only [List.getElem_take, Vector.getElem_toList, memcpy, Vector.getElem_ofFn]
    rcases Nat.lt_or_ge i offset with hlt | hge
    · simp [hlt, Nat.not_le.mpr hlt, List.getElem_append_left, hoffset]
    · simp [hge, hi, List.getElem_append_right, hoffset, Nat.sub_lt_left_of_lt_add]

theorem take_memcpy_zero {buf : Vector UInt8 64} (hp : p.length < 64) :
    (memcpy buf 0 p).toList.take (p.length % 64) = p := by
  have htake := take_memcpy buf 0 p (by omega)
  rw [Nat.zero_add, List.take_zero, List.nil_append] at htake
  rw [Nat.mod_eq_of_lt hp, htake]

theorem and_63 (n : ℕ) : n &&& 63 = n % 64 := Nat.and_two_pow_sub_one_eq_mod n 6

/-- The number of bytes in the buffer. -/
theorem Represents.offset (h : Represents pms message) :
    pms.offset = message.length % 64 := by
  have hcount := h.bitLength
  have h₀ := pms.count[0].toNat_lt
  have hshift : (pms.count[0] >>> 3).toNat = pms.count[0].toNat / 8 := by
    rw [UInt32.toNat_shiftRight, Nat.shiftRight_eq_div_pow]
    rfl
  rw [Md5State.bitLength] at hcount
  rw [Md5State.offset, UInt32.toNat_and, hshift, show (63 : UInt32).toNat = 63 from rfl, and_63]
  omega

/-- The carry of the lower word goes to the upper one. -/
theorem bitLength_setCount_addCount (pms : Md5State) {n : ℕ} (hn : 8 * n < 2 ^ 31) :
    (pms.setCount (addCount pms.count n)).bitLength = (pms.bitLength + 8 * n) % 2 ^ 64 := by
  simp only [Md5State.bitLength, Md5State.count_setCount]
  generalize pms.count = count
  have h₀ := count[0].toNat_lt
  have h₁ := count[1].toNat_lt
  have hbits : (UInt32.ofNat (n <<< 3)).toNat = 8 * n := by
    rw [UInt32.toNat_ofNat_of_lt' (by rw [Nat.shiftLeft_eq, UInt32.size]; omega),
      Nat.shiftLeft_eq, Nat.mul_comm]
  have hupper : UInt32.ofNat (n >>> 29) = 0 := by
    rw [Nat.shiftRight_eq_div_pow, Nat.div_eq_of_lt (by omega)]
    rfl
  have hlower : (addCount count n)[0].toNat = (count[0].toNat + 8 * n) % 2 ^ 32 := by
    rw [← hbits, ← UInt32.toNat_add]
    rfl
  have hcarry : (addCount count n)[1] =
      if (addCount count n)[0] < UInt32.ofNat (n <<< 3) then count[1] + 1 else count[1] := by
    rw [← UInt32.add_zero count[1], ← hupper]
    rfl
  by_cases hlt : (addCount count n)[0] < UInt32.ofNat (n <<< 3)
  · rw [hcarry, if_pos hlt, UInt32.toNat_add, UInt32.toNat_one, hlower]
    rw [UInt32.lt_iff_toNat_lt, hbits, hlower] at hlt
    omega
  · rw [hcarry, if_neg hlt, hlower]
    rw [UInt32.lt_iff_toNat_lt, hbits, hlower] at hlt
    omega

/-- Whole blocks are processed, and the rest is copied. -/
theorem processBlocks_eq (order : ByteOrder) {rounds : ℕ} (pms : Md5State) (p : MsgSeq)
    (hp : p.length < 64 * (rounds + 1)) :
    (processBlocks order rounds pms p).count = pms.count ∧
      (processBlocks order rounds pms p).abcd = (md5.absorb pms.abcd p).1 ∧
        (processBlocks order rounds pms p).buf.toList.take (p.length % 64) =
          (md5.absorb pms.abcd p).2 := by
  induction rounds generalizing pms p with
  | zero =>
    have hlt : p.length < 64 := by omega
    simp only [processBlocks, BlockHash.absorb_of_short (B := md5) hlt, Md5State.count_setBuf,
      Md5State.abcd_setBuf, Md5State.buf_setBuf, take_memcpy_zero hlt, and_self]
  | succ rounds ih =>
    by_cases hle : 64 ≤ p.length
    · have htake : (p.take 64).length = 64 := by
        rw [List.length_take]
        omega
      have hdrop : (p.drop 64).length < 64 * (rounds + 1) := by
        rw [List.length_drop]
        omega
      have habsorb : md5.absorb pms.abcd p =
          md5.absorb (process order pms (p.take 64)).abcd (p.drop 64) := by
        conv_lhs => rw [← List.take_append_drop 64 p]
        rw [BlockHash.absorb_block_append (B := md5) htake,
          ← processWords_eq_compress order _ htake, process, Md5State.abcd_setAbcd]
      have hmod : p.length % 64 = (p.drop 64).length % 64 := by
        rw [List.length_drop]
        omega
      obtain ⟨hcount, habcd, hbuf⟩ := ih (process order pms (p.take 64)) (p.drop 64) hdrop
      rw [process, Md5State.count_setAbcd, ← process] at hcount
      simp only [processBlocks, if_pos hle, habsorb, hmod, hcount, habcd, hbuf, and_self]
    · have hlt : p.length < 64 := by omega
      simp only [processBlocks, if_neg hle, BlockHash.absorb_of_short (B := md5) hlt,
        Md5State.count_setBuf, Md5State.abcd_setBuf, Md5State.buf_setBuf, take_memcpy_zero hlt,
        and_self]

/-- A state from which whole blocks, and a rest, get to the end of a message. -/
theorem represents_processBlocks (order : ByteOrder)
    (hcount : pms.bitLength = 8 * message.length % 2 ^ 64)
    (habsorb : md5.absorb pms.abcd p = md5.absorb initial message)
    (hmod : message.length % 64 = p.length % 64) :
    Represents (processBlocks order p.length pms p) message := by
  obtain ⟨hcount', habcd, hbuf⟩ :=
    processBlocks_eq order pms p (show p.length < 64 * (p.length + 1) by omega)
  refine ⟨?_, ?_, ?_⟩
  · rw [Md5State.bitLength, hcount', ← Md5State.bitLength, hcount]
  · rw [habcd, habsorb]
  · rw [hmod, hbuf, habsorb]

theorem append_eq_none (order : ByteOrder) (pms : Md5State) (hdata : 2 ^ 28 ≤ data.length) :
    append order pms data = none := by
  rw [append, if_pos]
  rw [Nat.shiftLeft_eq]
  omega

/-- **What `md5_append` does** to a state in the middle of a message. -/
theorem Represents.append (order : ByteOrder) (h : Represents pms message) (data : MsgSeq)
    (hdata : data.length < 2 ^ 28) :
    ∃ pms', append order pms data = some pms' ∧ Represents pms' (message ++ data) := by
  have hbits : ¬ 2 ^ 31 ≤ data.length <<< 3 := by
    rw [Nat.shiftLeft_eq]
    omega
  by_cases hempty : data = []
  · refine ⟨pms, ?_, by rwa [hempty, List.append_nil]⟩
    rw [Md5.append, if_neg hbits, if_pos (by rw [hempty, List.length_nil])]
  have hne : data.length ≠ 0 := fun hzero => hempty (List.length_eq_zero_iff.mp hzero)
  have hlen : (message ++ data).length = message.length + data.length := List.length_append
  have hcount : (pms.setCount (addCount pms.count data.length)).bitLength =
      8 * (message ++ data).length % 2 ^ 64 := by
    rw [bitLength_setCount_addCount pms (by omega), h.bitLength, hlen]
    omega
  have hrest : (md5.absorb initial message).2.length = message.length % 64 :=
    BlockHash.length_rest message
  have habsorb : md5.absorb initial (message ++ data) =
      md5.absorb pms.abcd ((md5.absorb initial message).2 ++ data) := by
    rw [BlockHash.absorb_append, h.abcd]
  rw [Md5.append, if_neg hbits, if_neg hne, h.offset]
  by_cases hoffset : message.length % 64 = 0
  · -- there is nothing in the buffer
    rw [if_neg (not_not.mpr hoffset)]
    refine ⟨_, rfl, represents_processBlocks order ?_ ?_ ?_⟩
    · exact hcount
    · rw [habsorb, List.length_eq_zero_iff.mp (hrest.trans hoffset), List.nil_append,
        Md5State.abcd_setCount]
    · omega
  rw [if_pos hoffset]
  -- the buffer is filled as far as the data go
  generalize hcopy : (if message.length % 64 + data.length > 64 then 64 - message.length % 64
    else data.length) = copy
  have hle : copy ≤ data.length ∧ message.length % 64 + copy ≤ 64 ∧
      (message.length % 64 + copy < 64 → copy = data.length) := by
    rw [← hcopy]
    split <;> omega
  have htake : (data.take copy).length = copy := by
    rw [List.length_take]
    omega
  have hbuf : (memcpy pms.buf (message.length % 64) (data.take copy)).toList.take
      (message.length % 64 + copy) = (md5.absorb initial message).2 ++ data.take copy := by
    have hfill := take_memcpy pms.buf (message.length % 64) (data.take copy) (by omega)
    rwa [htake, h.buf] at hfill
  by_cases hshort : message.length % 64 + copy < 64
  · -- and they do not make a block yet
    rw [if_pos hshort]
    refine ⟨_, rfl, ?_⟩
    have hall : data.take copy = data := by rw [hle.2.2 hshort, List.take_length]
    have hstill : ((md5.absorb initial message).2 ++ data).length < 64 := by
      rw [List.length_append, hrest, ← hle.2.2 hshort]
      exact hshort
    have hmod : (message ++ data).length % 64 = message.length % 64 + copy := by
      rw [hlen, hle.2.2 hshort]
      omega
    have hstate : md5.absorb initial (message ++ data) =
        (pms.abcd, (md5.absorb initial message).2 ++ data) := by
      rw [habsorb, BlockHash.absorb_of_short hstill]
    refine ⟨?_, ?_, ?_⟩
    · rw [Md5State.bitLength_setBuf, hcount]
    · rw [Md5State.abcd_setBuf, Md5State.abcd_setCount, hstate]
    · rw [Md5State.buf_setBuf, Md5State.buf_setCount, hmod, hbuf, hall, hstate]
  · -- a whole block is processed, and the others are read from where they are
    have hfull : message.length % 64 + copy = 64 := by omega
    have hblock : (memcpy pms.buf (message.length % 64) (data.take copy)).toList =
        (md5.absorb initial message).2 ++ data.take copy := by
      rewrite [hfull, List.take_of_length_le (by rw [Vector.length_toList])] at hbuf
      exact hbuf
    have hlength : ((md5.absorb initial message).2 ++ data.take copy).length = 64 := by
      rw [List.length_append, hrest, htake, hfull]
    rw [if_neg hshort]
    refine ⟨_, rfl, represents_processBlocks order ?_ ?_ ?_⟩
    · rw [process, Md5State.bitLength_setAbcd, Md5State.bitLength_setBuf, hcount]
    · have hsplit : (md5.absorb initial message).2 ++ data =
          ((md5.absorb initial message).2 ++ data.take copy) ++ data.drop copy := by
        rw [List.append_assoc, List.take_append_drop]
      rw [process, Md5State.abcd_setAbcd, Md5State.buf_setBuf, Md5State.abcd_setBuf,
        Md5State.abcd_setCount, Md5State.buf_setCount, hblock,
        processWords_eq_compress order _ hlength, habsorb, hsplit,
        BlockHash.absorb_block_append (B := md5) hlength]
    · rw [hlen, List.length_drop]
      omega

/-! ### Digests -/

/-- The length of a message in bits, in eight bytes. -/
def lengthBytes (n : ℕ) : Vector UInt8 8 := Vector.ofFn fun i => UInt8.ofNat (8 * n / 256 ^ i.val)

/-- A byte 0x80, zeroes as they are needed, and the length. -/
def padded (message : MsgSeq) : MsgSeq :=
  message ++ (0x80 :: List.replicate ((119 - message.length % 64) % 64) 0) ++
    (lengthBytes message.length).toList

def digest (message : MsgSeq) : Vector UInt8 16 :=
  Vector.ofFn (byteOfWords (md5.absorb initial (padded message)).1.toVector)

theorem toNat_byteOfWords {n : ℕ} (words : Vector UInt32 n) (i : Fin (4 * n)) :
    (byteOfWords words i).toNat = words[i.val / 4].toNat / 256 ^ (i.val % 4) % 256 := by
  have hand : i.val &&& 3 = i.val % 4 := Nat.and_two_pow_sub_one_eq_mod i 2
  have hshift : (UInt32.ofNat ((i.val &&& 3) <<< 3)).toNat % 32 = 8 * (i.val % 4) := by
    rw [hand, Nat.shiftLeft_eq, UInt32.toNat_ofNat_of_lt' (by rw [UInt32.size]; omega)]
    omega
  have hindex : i.val >>> 2 = i.val / 4 := Nat.shiftRight_eq_div_pow i 2
  rw [byteOfWords, UInt32.toNat_toUInt8, UInt32.toNat_shiftRight, hshift,
    Nat.shiftRight_eq_div_pow, Nat.pow_mul]
  simp only [hindex]

/-- The eight bytes of the count are the length in bits, modulo `2 ^ 64`. -/
theorem Represents.lengthBytes (h : Represents pms message) :
    (Vector.ofFn (byteOfWords pms.count) : Vector UInt8 8) = lengthBytes message.length := by
  have hcount := h.bitLength
  rw [Md5State.bitLength] at hcount
  have h₀ := pms.count[0].toNat_lt
  have h₁ := pms.count[1].toNat_lt
  ext i hi
  simp only [Md5.lengthBytes, Vector.getElem_ofFn]
  rw [toNat_byteOfWords, UInt8.toNat_ofNat']
  generalize message.length = n at *
  rcases Nat.lt_or_ge i 4 with hlt | hge
  · have hword : pms.count[i / 4].toNat = pms.count[0].toNat := by
      simp only [Nat.div_eq_of_lt hlt]
    simp only [hword]
    interval_cases i <;> simp only [Nat.reduceMod, Nat.reducePow] <;> omega
  · have hword : pms.count[i / 4].toNat = pms.count[1].toNat := by
      simp only [show i / 4 = 1 by omega]
    simp only [hword]
    interval_cases i <;> simp only [Nat.reduceMod, Nat.reducePow] <;> omega

/-- The padding goes to eight bytes in front of the end of a block. -/
theorem Represents.padding (h : Represents pms message) :
    pms.padLength = (119 - message.length % 64) % 64 + 1 := by
  have hoffset := h.offset
  have hshift := (pms.count[0] >>> 3).toNat_lt
  have h63 : (63 : UInt32).toNat = 63 := rfl
  have h55 : (55 : UInt32).toNat = 55 := rfl
  rw [Md5State.offset, UInt32.toNat_and, h63, and_63] at hoffset
  rw [Md5State.padLength, UInt32.toNat_add, UInt32.toNat_and, UInt32.toNat_sub, h63, and_63, h55,
    UInt32.toNat_one]
  omega

theorem take_pad {n : ℕ} (hn : n < 64) : pad.toList.take (n + 1) = 0x80 :: List.replicate n 0 := by
  have hpad : pad.toList = 0x80 :: List.replicate 63 0 := by decide
  rw [hpad, List.take_succ_cons, List.take_replicate, Nat.min_eq_left (by omega)]

/-- **What `md5_finish` returns** in the middle of a message. -/
theorem Represents.finish (order : ByteOrder) (h : Represents pms message) :
    ∃ pms', finish order pms = some (pms', digest message) := by
  have htake := take_pad (n := (119 - message.length % 64) % 64) (by omega)
  obtain ⟨pms₁, happend₁, h₁⟩ := h.append order (pad.toList.take
    ((119 - message.length % 64) % 64 + 1)) (by rw [List.length_take]; omega)
  obtain ⟨pms₂, happend₂, h₂⟩ := h₁.append order (Md5.lengthBytes message.length).toList
    (by rw [Vector.length_toList]; decide)
  refine ⟨pms₂, ?_⟩
  rw [htake] at happend₁ h₂
  simp only [Md5.finish, h.lengthBytes, h.padding, htake, happend₁, happend₂, h₂.abcd,
    Option.bind_eq_bind, Option.bind_some]
  rfl

/-- A digest of a message that is appended piece by piece. -/
def digestOf (order : ByteOrder) (pms : Md5State) (chunks : List MsgSeq) :
    Option (Vector UInt8 16) := do
  let pms ← chunks.foldlM (append order) (init pms)
  let (_, digest) ← finish order pms
  some digest

theorem Represents.foldlM_append (order : ByteOrder) {chunks : List MsgSeq}
    (hchunks : ∀ chunk ∈ chunks, chunk.length < 2 ^ 28) (h : Represents pms message) :
    ∃ pms', chunks.foldlM (Md5.append order) pms = some pms' ∧
      Represents pms' (message ++ chunks.flatten) := by
  induction chunks generalizing pms message with
  | nil => exact ⟨pms, rfl, by rwa [List.flatten_nil, List.append_nil]⟩
  | cons chunk chunks ih =>
    obtain ⟨pms₁, happend, h₁⟩ := h.append order chunk (hchunks chunk List.mem_cons_self)
    obtain ⟨pms₂, hrest, h₂⟩ := ih (fun c hc => hchunks c (List.mem_cons_of_mem chunk hc)) h₁
    refine ⟨pms₂, ?_, by rwa [List.flatten_cons, ← List.append_assoc]⟩
    rw [List.foldlM_cons, happend]
    exact hrest

theorem foldlM_append_eq_none (order : ByteOrder) {chunks : List MsgSeq}
    (hchunks : ∃ chunk ∈ chunks, 2 ^ 28 ≤ chunk.length) (pms : Md5State) :
    chunks.foldlM (append order) pms = none := by
  induction chunks generalizing pms with
  | nil => simp at hchunks
  | cons chunk chunks ih =>
    rw [List.foldlM_cons]
    obtain ⟨long, hmem, hlong⟩ := hchunks
    rcases List.mem_cons.mp hmem with rfl | hmem
    · rw [append_eq_none order pms hlong]
      rfl
    · rcases happend : append order pms chunk with _ | pms₁
      · rfl
      · exact ih ⟨long, hmem, hlong⟩ pms₁

theorem digestOf_of_short (order : ByteOrder) (pms : Md5State) (chunks : List MsgSeq)
    (hchunks : ∀ chunk ∈ chunks, chunk.length < 2 ^ 28) :
    digestOf order pms chunks = some (digest chunks.flatten) := by
  obtain ⟨pms₁, happend, h₁⟩ := (represents_init pms).foldlM_append order hchunks
  obtain ⟨pms₂, hfinish⟩ := h₁.finish order
  rw [List.nil_append] at hfinish
  simp only [digestOf, happend, hfinish, Option.bind_eq_bind, Option.bind_some]

theorem digestOf_of_long (order : ByteOrder) (pms : Md5State) (chunks : List MsgSeq)
    (hchunks : ∃ chunk ∈ chunks, 2 ^ 28 ≤ chunk.length) : digestOf order pms chunks = none := by
  simp only [digestOf, foldlM_append_eq_none order hchunks, Option.bind_eq_bind, Option.bind_none]

theorem short_or_long (chunks : List MsgSeq) : (∀ chunk ∈ chunks, chunk.length < 2 ^ 28) ∨
    ∃ chunk ∈ chunks, 2 ^ 28 ≤ chunk.length := by
  by_cases hlong : ∃ chunk ∈ chunks, 2 ^ 28 ≤ chunk.length
  · exact .inr hlong
  · refine .inl fun chunk hmem => ?_
    by_contra hge
    exact hlong ⟨chunk, hmem, Nat.not_lt.mp hge⟩

/-- **The digest of a message in pieces** is that of the message, whatever the pieces, the byte order
of the machine, and what was in the state before. It is undefined if a piece has `2 ^ 28` bytes. -/
theorem digestOf_eq (order : ByteOrder) (pms : Md5State) (chunks : List MsgSeq) :
    ((∀ chunk ∈ chunks, chunk.length < 2 ^ 28) →
      digestOf order pms chunks = some (digest chunks.flatten)) ∧
    ((∃ chunk ∈ chunks, 2 ^ 28 ≤ chunk.length) → digestOf order pms chunks = none) :=
  ⟨digestOf_of_short order pms chunks, digestOf_of_long order pms chunks⟩

/-- Two digests that are calculated have been calculated of these messages. -/
theorem eq_digest_of_digestOf {order : ByteOrder} {chunks : List MsgSeq} {d : Vector UInt8 16}
    (h : digestOf order pms chunks = some d) : d = digest chunks.flatten := by
  rcases short_or_long chunks with hshort | hlong
  · rw [digestOf_of_short order pms chunks hshort, Option.some_inj] at h
    exact h.symm
  · rw [digestOf_of_long order pms chunks hlong] at h
    cases h

/-! ### Two messages with the same digest -/

theorem length_padded (message : MsgSeq) : (padded message).length =
    message.length + (119 - message.length % 64) % 64 + 9 := by
  simp only [padded, List.length_append, List.length_cons, List.length_replicate,
    Vector.length_toList]
  omega

theorem length_padded_mod (message : MsgSeq) : (padded message).length % md5.blockSize = 0 := by
  rw [length_padded]
  show _ % 64 = 0
  omega

/-- Numbers with the same bytes are the same. -/
theorem eq_of_bytes_eq {k m n : ℕ} (hm : m < 256 ^ k) (hn : n < 256 ^ k)
    (h : ∀ i < k, m / 256 ^ i % 256 = n / 256 ^ i % 256) : m = n := by
  have hmod : ∀ j ≤ k, m % 256 ^ j = n % 256 ^ j := by
    intro j hj
    induction j with
    | zero => rw [Nat.pow_zero, Nat.mod_one, Nat.mod_one]
    | succ j ih => rw [Nat.mod_pow_succ, Nat.mod_pow_succ, ih (by omega), h j hj]
  have heq := hmod k le_rfl
  rwa [Nat.mod_eq_of_lt hm, Nat.mod_eq_of_lt hn] at heq

theorem lengthBytes_inj {n n' : ℕ} (hn : n < 2 ^ 61) (hn' : n' < 2 ^ 61)
    (h : lengthBytes n = lengthBytes n') : n = n' := by
  have heq : 8 * n = 8 * n' := by
    refine eq_of_bytes_eq (k := 8) (by omega) (by omega) fun i hi => ?_
    have hbyte := congrArg (fun v => (v[i]).toNat) h
    simpa only [lengthBytes, Vector.getElem_ofFn, UInt8.toNat_ofNat'] using hbyte
  omega

theorem toVector_inj {r r' : Registers} (h : r.toVector = r'.toVector) : r = r' := by
  simp only [Registers.toVector, Vector.mk.injEq, Array.mk.injEq, List.cons.injEq] at h
  obtain ⟨ha, hb, hc, hd, -⟩ := h
  cases r
  cases r'
  simp only [Registers.mk.injEq]
  exact ⟨ha, hb, hc, hd⟩

theorem byteOfWords_inj {n : ℕ} {words words' : Vector UInt32 n}
    (h : Vector.ofFn (byteOfWords words) = Vector.ofFn (byteOfWords words')) : words = words' := by
  ext j hj
  refine eq_of_bytes_eq (k := 4) (words[j].toNat_lt) (words'[j].toNat_lt) fun i hi => ?_
  have hbound : 4 * j + i < 4 * n := by omega
  have hbyte := congrArg (fun v => (v[4 * j + i]).toNat) h
  have hindex : (4 * j + i) / 4 = j := by omega
  have hplace : (4 * j + i) % 4 = i := by omega
  simp only [Vector.getElem_ofFn] at hbyte
  rw [toNat_byteOfWords, toNat_byteOfWords] at hbyte
  simpa only [hindex, hplace] using hbyte

/-- The last block of a message has its length. -/
theorem exists_last_block (message : MsgSeq) : ∃ bs b, md5.blocks (padded message) = bs ++ [b] ∧
    (lengthBytes message.length).toList <:+ b := by
  have hne : padded message ≠ [] := by
    intro hnil
    have hlen := length_padded message
    rw [hnil, List.length_nil] at hlen
    omega
  obtain ⟨bs, b, hbs, hb, hsuffix⟩ := BlockHash.exists_last_block (length_padded_mod message) hne
  refine ⟨bs, b, hbs, List.suffix_of_suffix_length_le (List.suffix_append _ _) hsuffix ?_⟩
  rw [Vector.length_toList, hb]
  decide

/-- Messages with the same digest lead to a collision of the compression function. -/
theorem collides_of_digest_eq {m m' : MsgSeq} (hm : m.length < 2 ^ 61) (hm' : m'.length < 2 ^ 61)
    (hne : m ≠ m') (h : digest m = digest m') :
    md5.Collides initial (md5.blocks (padded m)) (md5.blocks (padded m')) := by
  have hhash : (md5.absorb initial (padded m)).1 = (md5.absorb initial (padded m')).1 :=
    toVector_inj (byteOfWords_inj h)
  have hlast (hlen : m.length ≠ m'.length) : ∃ bs b bs' c,
      md5.blocks (padded m) = bs ++ [b] ∧ md5.blocks (padded m') = bs' ++ [c] ∧ b ≠ c := by
    obtain ⟨bs, b, hbs, hb⟩ := exists_last_block m
    obtain ⟨bs', c, hbs', hc⟩ := exists_last_block m'
    refine ⟨bs, b, bs', c, hbs, hbs', ?_⟩
    rintro rfl
    have hsuffix := List.suffix_of_suffix_length_le hb hc (by simp only [Vector.length_toList]; rfl)
    have heq := hsuffix.eq_of_length (by simp only [Vector.length_toList])
    exact hlen (lengthBytes_inj hm hm' (Vector.toList_inj.mp heq))
  have hpadded : padded m ≠ padded m' := by
    intro heq
    by_cases hlen : m.length = m'.length
    · rw [padded, padded, List.append_assoc, List.append_assoc] at heq
      exact hne (List.append_inj_left heq hlen)
    · obtain ⟨bs, b, bs', c, hbs, hbs', hbc⟩ := hlast hlen
      rw [heq, hbs'] at hbs
      exact hbc (List.append_inj_right' hbs rfl |> List.singleton_inj.mp).symm
  refine BlockHash.collides_of_foldl_eq (length_padded_mod m) (length_padded_mod m') hpadded
    (fun hlen => hlast fun heq => hlen ?_) hhash
  rw [length_padded, length_padded, heq]

/-- **Two messages with the same digest**, in any pieces and on any machines, have a collision of
`md5_process` on the way. -/
theorem collides_of_digestOf_eq {order order' : ByteOrder} {chunks chunks' : List MsgSeq}
    {d : Vector UInt8 16} (h : digestOf order pms chunks = some d)
    (h' : digestOf order' pms' chunks' = some d) (hlen : chunks.flatten.length < 2 ^ 61)
    (hlen' : chunks'.flatten.length < 2 ^ 61) (hne : chunks.flatten ≠ chunks'.flatten) :
    ∃ x ∈ md5.steps initial (md5.blocks (padded chunks.flatten)),
      ∃ y ∈ md5.steps initial (md5.blocks (padded chunks'.flatten)),
        x ≠ y ∧ processWords order x.1 x.2 = processWords order' y.1 y.2 := by
  have hdigest : digest chunks.flatten = digest chunks'.flatten :=
    (eq_digest_of_digestOf h).symm.trans (eq_digest_of_digestOf h')
  obtain ⟨x, hx, y, hy, hxy, heq⟩ := collides_of_digest_eq hlen hlen' hne hdigest
  refine ⟨x, hx, y, hy, hxy, ?_⟩
  rw [processWords_eq_compress order _ (BlockHash.length_of_mem_steps hx),
    processWords_eq_compress order' _ (BlockHash.length_of_mem_steps hy), heq]

/-- Two blocks with the same digest. -/
def collidingBlocks : MsgSeq × MsgSeq :=
  ([0x4d, 0xc9, 0x68, 0xff, 0x0e, 0xe3, 0x5c, 0x20, 0x95, 0x72, 0xd4, 0x77, 0x7b, 0x72, 0x15, 0x87,
    0xd3, 0x6f, 0xa7, 0xb2, 0x1b, 0xdc, 0x56, 0xb7, 0x4a, 0x3d, 0xc0, 0x78, 0x3e, 0x7b, 0x95, 0x18,
    0xaf, 0xbf, 0xa2, 0x00, 0xa8, 0x28, 0x4b, 0xf3, 0x6e, 0x8e, 0x4b, 0x55, 0xb3, 0x5f, 0x42, 0x75,
    0x93, 0xd8, 0x49, 0x67, 0x6d, 0xa0, 0xd1, 0x55, 0x5d, 0x83, 0x60, 0xfb, 0x5f, 0x07, 0xfe, 0xa2],
   [0x4d, 0xc9, 0x68, 0xff, 0x0e, 0xe3, 0x5c, 0x20, 0x95, 0x72, 0xd4, 0x77, 0x7b, 0x72, 0x15, 0x87,
    0xd3, 0x6f, 0xa7, 0xb2, 0x1b, 0xdc, 0x56, 0xb7, 0x4a, 0x3d, 0xc0, 0x78, 0x3e, 0x7b, 0x95, 0x18,
    0xaf, 0xbf, 0xa2, 0x02, 0xa8, 0x28, 0x4b, 0xf3, 0x6e, 0x8e, 0x4b, 0x55, 0xb3, 0x5f, 0x42, 0x75,
    0x93, 0xd8, 0x49, 0x67, 0x6d, 0xa0, 0xd1, 0xd5, 0x5d, 0x83, 0x60, 0xfb, 0x5f, 0x07, 0xfe, 0xa2])

/-- A state that has not been initialised. -/
def uninitialised : Md5State := ⟨#v[1, 2], ⟨3, 4, 5, 6⟩, Vector.ofFn fun _ => 7⟩

theorem collides_of_digestOf_eq_blocks :
    ∃ x ∈ md5.steps initial (md5.blocks (padded collidingBlocks.1)),
      ∃ y ∈ md5.steps initial (md5.blocks (padded collidingBlocks.2)),
        x ≠ y ∧ processWords .littleEndian x.1 x.2 = processWords .bigEndian y.1 y.2 := by
  have hdigest : digest collidingBlocks.1 = digest collidingBlocks.2 := by decide +kernel
  have h := digestOf_of_short .littleEndian uninitialised
    [collidingBlocks.1.take 40, collidingBlocks.1.drop 40] (by decide +kernel)
  have h' := digestOf_of_short .bigEndian uninitialised [collidingBlocks.2]
    (by decide +kernel)
  have hflat : [collidingBlocks.1.take 40, collidingBlocks.1.drop 40].flatten =
      collidingBlocks.1 := rfl
  have hflat' : [collidingBlocks.2].flatten = collidingBlocks.2 := rfl
  rw [hflat] at h
  rw [hflat', ← hdigest] at h'
  have hcoll := collides_of_digestOf_eq h h' (by decide +kernel) (by decide +kernel)
    (by decide +kernel)
  rwa [hflat, hflat'] at hcoll

end Md5

end TinchPp
