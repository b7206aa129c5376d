import TinchPp.Lib.Wire
import TinchPp.Types

/-!
# The external term format

`ext_term_grammar.h`. `xxxExt` reads a term and `xxxExtG` writes one. Lengths and creation numbers
are truncated to the width of their field when they are written. Of tuples and lists there are only
the heads here, and the elements follow.

## Main results

* `integer_of_smallInteger`, `integer_of_integerExt`, `atomExt_atomExtG`, `pidExt_pidExtG`,
  `newReferenceExtP_newReferenceExtG`, `smallTupleHeadExt_smallTupleHeadG`,
  `listHeadExt_listHeadG`, `binaryExt_binaryExtG`, `bitBinaryExt_bitBinaryExtG` — within the wire
  ranges, reading undoes writing and stops at the end of the term
* `integer_eq_some`, `atomExt_eq_some`, `pidExt_eq_some`, `smallTupleHeadExt_eq_some`,
  `listHeadExt_eq_some`, `binaryExt_eq_some`, `bitBinaryExt_eq_some` — what has been read was
  written by a generator
-/

namespace TinchPp

open Wire

/-! ### Type tags -/

namespace TypeTag

def bitBinaryExt : UInt8 := 77

def smallInteger : UInt8 := 97

def integer : UInt8 := 98

def floatExt : UInt8 := 99

def atomExt : UInt8 := 100

def pid : UInt8 := 103

def smallTuple : UInt8 := 104

def nilExt : UInt8 := 106

def stringExt : UInt8 := 107

def list : UInt8 := 108

def binaryExt : UInt8 := 109

def newReferenceExt : UInt8 := 114

end TypeTag

/-! ### Integers -/

def smallInteger : Qi UInt8 := seq (lit TypeTag.smallInteger) byte

def smallIntegerG (n : ℕ) : MsgSeq := TypeTag.smallInteger :: byteG n

def integerExt : Qi Int32 :=
  seq (lit TypeTag.integer) (assign bigDword 0 fun n _ => n.toInt32)

def integerExtG (n : Int32) : MsgSeq := TypeTag.integer :: bigDwordG n.toUInt32.toNat

/-- Erlang sends integers on different formats depending on their size. This parses any of them. -/
def integer : Qi Int32 :=
  alt (assign smallInteger 0 fun n _ => n.toUInt32.toInt32) integerExt

/-! ### Atoms and pids -/

/-- The characters are appended to what the string holds. -/
def atomExt : Qi Str :=
  seq (lit TypeTag.atomExt) (andThen bigWord 0 fun atomLength => chars atomLength.toNat)

def atomExtG (name : Str) : MsgSeq := TypeTag.atomExt :: (bigWordG name.length ++ name)

def pidExt : Qi EPid :=
  seq (lit TypeTag.pid) <|
  seq (field EPid.nodeName (fun name p => { p with nodeName := name }) atomExt) <|
  seq (field EPid.id (fun n p => { p with id := n }) bigDword) <|
  seq (field EPid.serial (fun n p => { p with serial := n }) bigDword) <|
  assign byte 0 fun n p => { p with creation := n.toUInt32 }

def pidExtG (p : EPid) : MsgSeq :=
  TypeTag.pid :: (atomExtG p.nodeName ++ bigDwordG p.id.toNat ++ bigDwordG p.serial.toNat ++
    byteG p.creation.toNat)

/-! ### Floats and references -/

/-- Erlang sends floating point numbers as text. -/
def floatExt : Qi Str := seq (lit TypeTag.floatExt) (chars Constants.floatDigits)

/-- The id is a sequence of four byte integers, and its length is their number. -/
def newReferenceExtP : Qi NewReferenceType :=
  seq (lit TypeTag.newReferenceExt) <|
  andThen bigWord 0 fun idLength =>
  seq (field NewReferenceType.nodeName (fun name r => { r with nodeName := name }) atomExt) <|
  seq (assign byte 0 fun n r => { r with creation := n.toUInt32 }) <|
  field NewReferenceType.id (fun id r => { r with id := id }) (chars (idLength.toNat * 4))

def newReferenceExtG (r : NewReferenceType) : MsgSeq :=
  TypeTag.newReferenceExt :: (bigWordG (r.id.length / 4) ++ atomExtG r.nodeName ++
    byteG r.creation.toNat ++ r.id)

/-! ### Tuples, lists and strings -/

def smallTupleHeadExt : Qi ℕ :=
  seq (lit TypeTag.smallTuple) (assign byte 0 fun n _ => n.toNat)

def smallTupleHeadG (length : ℕ) : MsgSeq := TypeTag.smallTuple :: byteG length

def listHeadExt : Qi ℕ := seq (lit TypeTag.list) (assign bigDword 0 fun n _ => n.toNat)

def listHeadG (length : ℕ) : MsgSeq := TypeTag.list :: bigDwordG length

/-- The tail of a proper list. -/
def nilExt : Qi Unit := lit TypeTag.nilExt

def nilExtG : MsgSeq := [TypeTag.nilExt]

/-- A string is an optimization for sending lists of bytes. -/
def stringHeadExt : Qi ℕ := seq (lit TypeTag.stringExt) (assign bigWord 0 fun n _ => n.toNat)

def stringExtG (s : Str) : MsgSeq := TypeTag.stringExt :: (bigWordG s.length ++ s)

/-! ### Binaries -/

def binaryExt : Qi MsgSeq :=
  seq (lit TypeTag.binaryExt) (andThen bigDword 0 fun binaryLength => chars binaryLength.toNat)

def binaryExtG (value : MsgSeq) : MsgSeq :=
  TypeTag.binaryExt :: (bigDwordG value.length ++ value)

def bitBinaryExt : Qi BinaryValueType :=
  seq (lit TypeTag.bitBinaryExt) <|
  andThen bigDword 0 fun binaryLength =>
  seq (assign byte 0 fun n b => { b with paddingBits := n.toUInt32.toInt32 }) <|
  field BinaryValueType.value (fun value b => { b with value := value })
    (chars binaryLength.toNat)

def bitBinaryExtG (b : BinaryValueType) : MsgSeq :=
  TypeTag.bitBinaryExt :: (bigDwordG b.value.length ++ byteG b.paddingBits.toUInt32.toNat ++
    b.value)

/-! ### Reading undoes writing -/

/-- The pids that fit the wire: a short node name, and a creation number of one byte. -/
structure EPid.InWireRange (p : EPid) : Prop where
  nodeName : p.nodeName.length < 65536
  creation : p.creation.toNat < 256

theorem smallInteger_smallIntegerG (n : ℕ) (s : MsgSeq) (a : UInt8) :
    smallInteger (smallIntegerG n ++ s) a = (some s, UInt8.ofNat n) := by
  rw [smallInteger, smallIntegerG, List.cons_append, seq_of_some (lit_cons_self _ _ _),
    byte_byteG]

theorem integerExt_integerExtG (n : Int32) (s : MsgSeq) (a : Int32) :
    integerExt (integerExtG n ++ s) a = (some s, n) := by
  rw [integerExt, integerExtG, List.cons_append, seq_of_some (lit_cons_self _ _ _),
    assign_of_some (bigDword_bigDwordG (UInt32.toNat_lt _) s 0)]
  simp

theorem integer_of_smallInteger (n : ℕ) (s : MsgSeq) (a : Int32) :
    integer (smallIntegerG n ++ s) a = (some s, (UInt8.ofNat n).toUInt32.toInt32) :=
  alt_of_some (assign_of_some (smallInteger_smallIntegerG n s 0))

theorem integer_of_integerExt (n : Int32) (s : MsgSeq) (a : Int32) :
    integer (integerExtG n ++ s) a = (some s, n) := by
  have hsmall : smallInteger (integerExtG n ++ s) 0 = (none, 0) :=
    seq_of_none (lit_cons_of_ne (by decide) _ _)
  rw [integer, alt_of_none (assign_of_none hsmall), integerExt_integerExtG]

theorem atomExt_atomExtG {name : Str} (h : name.length < 65536) (s a : Str) :
    atomExt (atomExtG name ++ s) a = (some s, a ++ name) := by
  have hlen : (UInt16.ofNat name.length).toNat = name.length := by
    rw [UInt16.toNat_ofNat']
    omega
  rw [atomExt, atomExtG, List.cons_append, List.append_assoc, seq_of_some (lit_cons_self _ _ _),
    andThen_of_some (bigWord_bigWordG h _ 0), hlen, chars_append rfl]

/-- A creation number of one byte survives as that byte. -/
theorem toUInt32_ofNat_toNat {n : UInt32} (h : n.toNat < 256) :
    (UInt8.ofNat n.toNat).toUInt32 = n := by
  rw [← UInt32.toNat_inj, UInt8.toNat_toUInt32, UInt8.toNat_ofNat']
  omega

/-- The name of the node is appended to what is there. -/
theorem pidExt_append {p : EPid} (h : p.InWireRange) (s : MsgSeq) (a : EPid) :
    pidExt (pidExtG p ++ s) a = (some s, { p with nodeName := a.nodeName ++ p.nodeName }) := by
  simp only [pidExt, pidExtG, List.cons_append, List.append_assoc]
  rw [seq_of_some (lit_cons_self _ _ _),
    seq_of_some (field_of_some (atomExt_atomExtG h.nodeName _ _)),
    seq_of_some (field_of_some (bigDword_bigDwordG p.id.toNat_lt _ _)),
    seq_of_some (field_of_some (bigDword_bigDwordG p.serial.toNat_lt _ _)),
    assign_of_some (byte_byteG _ _ _), toUInt32_ofNat_toNat h.creation]
  simp

theorem pidExt_pidExtG {p : EPid} (h : p.InWireRange) (s : MsgSeq) :
    pidExt (pidExtG p ++ s) .invalid = (some s, p) :=
  pidExt_append h s .invalid

theorem floatExt_cons {digits : Str} (h : digits.length = Constants.floatDigits) (s a : Str) :
    floatExt (TypeTag.floatExt :: digits ++ s) a = (some s, a ++ digits) := by
  rw [floatExt, List.cons_append, seq_of_some (lit_cons_self _ _ _), chars_append h]

/-- The references that fit the wire: a short node name, a creation number of one byte, and an id
of whole words, not too many of them. -/
structure NewReferenceType.InWireRange (r : NewReferenceType) : Prop where
  nodeName : r.nodeName.length < 65536
  creation : r.creation.toNat < 256
  idLength : r.id.length / 4 < 65536
  idWords : r.id.length % 4 = 0

theorem newReferenceExtP_newReferenceExtG {r : NewReferenceType} (h : r.InWireRange)
    (s : MsgSeq) : newReferenceExtP (newReferenceExtG r ++ s) .invalid = (some s, r) := by
  have hlen : (UInt16.ofNat (r.id.length / 4)).toNat * 4 = r.id.length := by
    rw [UInt16.toNat_ofNat_of_lt' h.idLength]
    have := h.idWords
    omega
  simp only [newReferenceExtP, newReferenceExtG, List.cons_append, List.append_assoc]
  rw [seq_of_some (lit_cons_self _ _ _), andThen_of_some (bigWord_bigWordG h.idLength _ _), hlen,
    seq_of_some (field_of_some (atomExt_atomExtG h.nodeName _ _)),
    seq_of_some (assign_of_some (byte_byteG _ _ _)), toUInt32_ofNat_toNat h.creation,
    field_of_some (chars_append rfl _ _)]
  simp [NewReferenceType.invalid]

theorem smallTupleHeadExt_smallTupleHeadG {length : ℕ} (h : length < 256) (s : MsgSeq) (a : ℕ) :
    smallTupleHeadExt (smallTupleHeadG length ++ s) a = (some s, length) := by
  rw [smallTupleHeadExt, smallTupleHeadG, List.cons_append, seq_of_some (lit_cons_self _ _ _),
    assign_of_some (byte_byteG _ _ _), UInt8.toNat_ofNat']
  simp only [Nat.mod_eq_of_lt h]

theorem listHeadExt_listHeadG {length : ℕ} (h : length < 4294967296) (s : MsgSeq) (a : ℕ) :
    listHeadExt (listHeadG length ++ s) a = (some s, length) := by
  rw [listHeadExt, listHeadG, List.cons_append, seq_of_some (lit_cons_self _ _ _),
    assign_of_some (bigDword_bigDwordG h _ _), UInt32.toNat_ofNat_of_lt' h]

theorem stringHeadExt_stringExtG {str : Str} (h : str.length < 65536) (s : MsgSeq) (a : ℕ) :
    stringHeadExt (stringExtG str ++ s) a = (some (str ++ s), str.length) := by
  rw [stringHeadExt, stringExtG, List.cons_append, List.append_assoc,
    seq_of_some (lit_cons_self _ _ _), assign_of_some (bigWord_bigWordG h _ _),
    UInt16.toNat_ofNat_of_lt' h]

theorem binaryExt_binaryExtG {value : MsgSeq} (h : value.length < 4294967296) (s a : MsgSeq) :
    binaryExt (binaryExtG value ++ s) a = (some s, a ++ value) := by
  rw [binaryExt, binaryExtG, List.cons_append, List.append_assoc,
    seq_of_some (lit_cons_self _ _ _), andThen_of_some (bigDword_bigDwordG h _ _),
    UInt32.toNat_ofNat_of_lt' h, chars_append rfl]

/-- The data is appended to what is there. -/
theorem bitBinaryExt_append {b : BinaryValueType} (hlen : b.value.length < 4294967296) (s : MsgSeq)
    (a : BinaryValueType) : bitBinaryExt (bitBinaryExtG b ++ s) a = (some s,
      ⟨(UInt8.ofNat b.paddingBits.toUInt32.toNat).toUInt32.toInt32, a.value ++ b.value⟩) := by
  simp only [bitBinaryExt, bitBinaryExtG, List.cons_append, List.append_assoc]
  rw [seq_of_some (lit_cons_self _ _ _), andThen_of_some (bigDword_bigDwordG hlen _ _),
    UInt32.toNat_ofNat_of_lt' hlen, seq_of_some (assign_of_some (byte_byteG _ _ _)),
    field_of_some (chars_append rfl _ _)]

theorem bitBinaryExt_bitBinaryExtG {b : BinaryValueType} (hlen : b.value.length < 4294967296)
    (s : MsgSeq) : bitBinaryExt (bitBinaryExtG b ++ s) .empty =
      (some s, ⟨(UInt8.ofNat b.paddingBits.toUInt32.toNat).toUInt32.toInt32, b.value⟩) :=
  bitBinaryExt_append hlen s .empty

/-! ### What has been read -/

variable {f rest : MsgSeq}

theorem integer_eq_some {n a : Int32} (h : integer f a = (some rest, n)) :
    (∃ k : UInt8, k.toUInt32.toInt32 = n ∧ f = smallIntegerG k.toNat ++ rest) ∨
      f = integerExtG n ++ rest := by
  rcases alt_eq_some h with hsmall | ⟨a', hlarge⟩
  · obtain ⟨k, hk, rfl⟩ := assign_eq_some.mp hsmall
    obtain ⟨f', a', htag, hbyte⟩ := seq_eq_some.mp hk
    obtain ⟨rfl, -⟩ := lit_eq_some.mp htag
    obtain rfl := byte_eq_some.mp hbyte
    refine .inl ⟨k, rfl, ?_⟩
    rw [smallIntegerG, byteG, UInt8.ofNat_toNat]
    rfl
  · obtain ⟨f', a'', htag, hword⟩ := seq_eq_some.mp hlarge
    obtain ⟨rfl, -⟩ := lit_eq_some.mp htag
    obtain ⟨w, hw, rfl⟩ := assign_eq_some.mp hword
    obtain rfl := bigDword_eq_some.mp hw
    refine .inr ?_
    rw [integerExtG, UInt32.toUInt32_toInt32]
    rfl

theorem atomExt_eq_some {a b : Str} (h : atomExt f a = (some rest, b)) :
    ∃ name : Str, name.length < 65536 ∧ f = atomExtG name ++ rest := by
  obtain ⟨f', a', htag, hlen⟩ := seq_eq_some.mp h
  obtain ⟨rfl, -⟩ := lit_eq_some.mp htag
  obtain ⟨f'', w, hw, hchars⟩ := andThen_eq_some.mp hlen
  obtain rfl := bigWord_eq_some.mp hw
  obtain ⟨name, hname, rfl, -⟩ := chars_eq_some.mp hchars
  refine ⟨name, by rw [hname]; exact w.toNat_lt, ?_⟩
  rw [atomExtG, hname, List.cons_append, List.append_assoc]

theorem pidExt_eq_some {a b : EPid} (h : pidExt f a = (some rest, b)) :
    ∃ p : EPid, p.InWireRange ∧ f = pidExtG p ++ rest := by
  obtain ⟨f₁, a₁, htag, h₁⟩ := seq_eq_some.mp h
  obtain ⟨rfl, -⟩ := lit_eq_some.mp htag
  obtain ⟨f₂, a₂, hname, h₂⟩ := seq_eq_some.mp h₁
  obtain ⟨_, hname', -⟩ := field_eq_some.mp hname
  obtain ⟨name, hlen, rfl⟩ := atomExt_eq_some hname'
  obtain ⟨f₃, a₃, hid, h₃⟩ := seq_eq_some.mp h₂
  obtain ⟨id, hid', -⟩ := field_eq_some.mp hid
  obtain rfl := bigDword_eq_some.mp hid'
  obtain ⟨f₄, a₄, hserial, h₄⟩ := seq_eq_some.mp h₃
  obtain ⟨serial, hserial', -⟩ := field_eq_some.mp hserial
  obtain rfl := bigDword_eq_some.mp hserial'
  obtain ⟨creation, hcreation, -⟩ := assign_eq_some.mp h₄
  obtain rfl := byte_eq_some.mp hcreation
  have hbyte : creation.toUInt32.toNat = creation.toNat := UInt8.toNat_toUInt32 creation
  refine ⟨⟨name, id, serial, creation.toUInt32⟩, ⟨hlen, ?_⟩, ?_⟩
  · show creation.toUInt32.toNat < 256
    rw [hbyte]
    exact creation.toNat_lt
  · simp [pidExtG, byteG, hbyte]

theorem smallTupleHeadExt_eq_some {n a : ℕ} (h : smallTupleHeadExt f a = (some rest, n)) :
    n < 256 ∧ f = smallTupleHeadG n ++ rest := by
  obtain ⟨f', a', htag, hlen⟩ := seq_eq_some.mp h
  obtain ⟨rfl, -⟩ := lit_eq_some.mp htag
  obtain ⟨c, hc, rfl⟩ := assign_eq_some.mp hlen
  obtain rfl := byte_eq_some.mp hc
  refine ⟨c.toNat_lt, ?_⟩
  rw [smallTupleHeadG, byteG, UInt8.ofNat_toNat]
  rfl

theorem listHeadExt_eq_some {n a : ℕ} :
    listHeadExt f a = (some rest, n) ↔ n < 4294967296 ∧ f = listHeadG n ++ rest := by
  constructor
  · intro h
    obtain ⟨f', a', htag, hlen⟩ := seq_eq_some.mp h
    obtain ⟨rfl, -⟩ := lit_eq_some.mp htag
    obtain ⟨w, hw, rfl⟩ := assign_eq_some.mp hlen
    obtain rfl := bigDword_eq_some.mp hw
    exact ⟨w.toNat_lt, rfl⟩
  · rintro ⟨hlen, rfl⟩
    exact listHeadExt_listHeadG hlen rest a

theorem binaryExt_eq_some {a b : MsgSeq} : binaryExt f a = (some rest, b) ↔
    ∃ data, data.length < 4294967296 ∧ f = binaryExtG data ++ rest ∧ b = a ++ data := by
  constructor
  · intro h
    obtain ⟨f', a', htag, hlen⟩ := seq_eq_some.mp h
    obtain ⟨rfl, rfl⟩ := lit_eq_some.mp htag
    obtain ⟨f'', w, hw, hchars⟩ := andThen_eq_some.mp hlen
    obtain rfl := bigDword_eq_some.mp hw
    obtain ⟨data, hdata, rfl, rfl⟩ := chars_eq_some.mp hchars
    refine ⟨data, by rw [hdata]; exact w.toNat_lt, ?_, rfl⟩
    rw [binaryExtG, hdata, List.cons_append, List.append_assoc]
  · rintro ⟨data, hdata, rfl, rfl⟩
    exact binaryExt_binaryExtG hdata rest a

/-- The padding is a byte, any byte. -/
theorem bitBinaryExt_eq_some {a b : BinaryValueType} :
    bitBinaryExt f a = (some rest, b) ↔ ∃ (padding : UInt8) (data : MsgSeq),
      data.length < 4294967296 ∧
        f = bitBinaryExtG ⟨padding.toUInt32.toInt32, data⟩ ++ rest ∧
        b = ⟨padding.toUInt32.toInt32, a.value ++ data⟩ := by
  constructor
  · intro h
    obtain ⟨f', a', htag, hlen⟩ := seq_eq_some.mp h
    obtain ⟨rfl, rfl⟩ := lit_eq_some.mp htag
    obtain ⟨f'', w, hw, hrest⟩ := andThen_eq_some.mp hlen
    obtain rfl := bigDword_eq_some.mp hw
    obtain ⟨f₃, a₃, hpadding, hvalue⟩ := seq_eq_some.mp hrest
    obtain ⟨padding, hbyte, rfl⟩ := assign_eq_some.mp hpadding
    obtain rfl := byte_eq_some.mp hbyte
    obtain ⟨_, hchars, rfl⟩ := field_eq_some.mp hvalue
    obtain ⟨data, hdata, rfl, rfl⟩ := chars_eq_some.mp hchars
    refine ⟨padding, data, by rw [hdata]; exact w.toNat_lt, ?_, rfl⟩
    simp [bitBinaryExtG, byteG, hdata]
  · rintro ⟨padding, data, hdata, rfl, rfl⟩
    rw [bitBinaryExt_append hdata]
    simp

end TinchPp
