import Mathlib.Data.List.Basic
import Mathlib.Tactic.TypeStar

/-!
# Bytes, strings and process identifiers

What `types.h` and `constants.cpp` define and everything else is written in. A `msg_seq` is a
`std::vector<char>`, and so is the contents of a `std::string`: both are lists of raw 8-bit
values here. The signedness of `char` matters in one kind of place only, where a `char` meets an
`int`; that is what `promote` is for.
-/

namespace TinchPp

/-- `msg_seq`: the bytes of a message, or of a part of one. -/
abbrev MsgSeq := List UInt8

/-- The bytes of a `std::string`. -/
abbrev Str := List UInt8

/-- The bytes of a string literal of the source. -/
def bytesOf (s : String) : Str := s.toList.map fun c => UInt8.ofNat c.toNat

/-- Integer promotion of a `char`, which is signed and eight bits wide: bytes above `127` become
negative. -/
def promote (c : UInt8) : Int32 := c.toInt8.toInt32

/-- Assignment of an `int` to a `char`. -/
def narrow (n : Int32) : UInt8 := n.toInt8.toUInt8

theorem toInt_promote_lt (c : UInt8) : (promote c).toInt < 128 := by
  have := Int8.toInt_lt c.toInt8
  simpa [promote] using this

/-- A byte that is read into an `int` stays what it is. -/
theorem toInt_toInt32_toUInt32 (c : UInt8) : c.toUInt32.toInt32.toInt = c.toNat := by
  have hlt := c.toNat_lt
  have hnat : c.toUInt32.toNat = c.toNat := UInt8.toNat_toUInt32 c
  have hint := BitVec.toInt_eq_toNat_cond c.toUInt32.toBitVec
  rw [UInt32.toNat_toBitVec, hnat, if_pos (by omega)] at hint
  exact hint

/-! ### Process identifiers -/

/-- `e_pid`. Two of them are equal (`operator==`) when all four fields are. -/
structure EPid where
  nodeName : Str
  id : UInt32
  serial : UInt32
  creation : UInt32
deriving DecidableEq, Repr

/-- The pid the default constructor makes, which is not a valid one. -/
def EPid.invalid : EPid := ⟨[], 0, 0, 0⟩

/-! ### References and binaries -/

/-- `new_reference_type`. The id should be regarded as uninterpreted data. -/
structure NewReferenceType where
  nodeName : Str
  creation : UInt32
  id : MsgSeq
deriving DecidableEq, Repr

/-- The reference the default constructor makes, which is not a valid one. -/
def NewReferenceType.invalid : NewReferenceType := ⟨[], 0, []⟩

structure EncodingError where
  term : Str
  details : Str
deriving DecidableEq, Repr

/-- `binary_value_type`. The padding bits are the unused ones of the last byte, counted from the
lowest significant. -/
structure BinaryValueType where
  paddingBits : Int32
  value : MsgSeq
deriving DecidableEq, Repr

namespace BinaryValueType

/-- An empty binary, to assign to in a pattern match. -/
def empty : BinaryValueType := ⟨0, []⟩

/-- A normal binary, which consists of a complete number of bytes. -/
def ofData (binaryData : MsgSeq) : BinaryValueType := ⟨0, binaryData⟩

/-- Clear the unused bits of a byte. -/
def clearPadding (paddingBits : Int32) (c : UInt8) : UInt8 :=
  c &&& ~~~((1 <<< paddingBits.toUInt32.toUInt8) - 1)

/-- A bit-string, padded with zeroes. -/
def ofBits (binaryData : MsgSeq) (unusedBitsInLastByte : Int32) :
    Except EncodingError BinaryValueType :=
  if unusedBitsInLastByte < 0 ∨ 7 < unusedBitsInLastByte then
    .error ⟨bytesOf "bitstring", bytesOf ("The padding must be in range 0..7, you provided " ++
      toString unusedBitsInLastByte.toInt)⟩
  else if unusedBitsInLastByte ≠ 0 ∧ binaryData = [] then
    .error ⟨bytesOf "bitstring", bytesOf "Padding on a zero length bitstring isn't allowed"⟩
  else .ok ⟨unusedBitsInLastByte, binaryData.modifyLast (clearPadding unusedBitsInLastByte)⟩

/-- What the constructor of a bit-string accepts, and what it makes of it. -/
theorem ofBits_eq_ok {data : MsgSeq} {padding : Int32} {b : BinaryValueType}
    (h : ofBits data padding = .ok b) : (0 ≤ padding ∧ padding ≤ 7) ∧
      (data = [] → padding = 0) ∧ b = ⟨padding, data.modifyLast (clearPadding padding)⟩ := by
  rw [ofBits] at h
  split at h
  · cases h
  · next hrange =>
    split at h
    · cases h
    · next hempty =>
      rw [not_or, Int32.not_lt, Int32.not_lt] at hrange
      refine ⟨hrange, fun hdata => ?_, (Except.ok.inj h).symm⟩
      by_contra hne
      exact hempty ⟨hne, hdata⟩

end BinaryValueType

/-! ### Constants -/

namespace Constants

/-- Distribution capabilities: extended references, extended pids and ports, bit binaries. -/
def capabilities : UInt32 := 4 ||| 0x100 ||| 0x400

/-- R6B and later. -/
def supportedVersion : UInt16 := 5

def magicVersion : Int32 := 131

def passThrough : Int32 := 112

def ctrlMsgLink : Int32 := 1

def ctrlMsgSend : Int32 := 2

def ctrlMsgExit : Int32 := 3

def ctrlMsgUnlink : Int32 := 4

def ctrlMsgRegSend : Int32 := 6

def ctrlMsgExit2 : Int32 := 8

/-- Floats are sent as text of this many characters. -/
def floatDigits : ℕ := 31

end Constants

end TinchPp
