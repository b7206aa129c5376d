import Mathlib.Data.List.ModifyLast
import TinchPp.ErlangTypes
import TinchPp.Lib.BitString

/-!
# Binary values

A `binary_value_type` is normalised when its padding is less than a byte, there is none without any
bytes, and it is made of zeroes. Then `operator==` compares the bits that are meant. The
constructors see to that, and one of them throws where it cannot. A match fills in the fields, with
what has been received: the padding is any byte, and the bytes go to the end of those that are
there.

## Main results

* `BinaryValueType.eq_iff_bits_eq` — equality of normalised values
* `Binary.read_eq_true_iff` — what a match makes of a value
* `normalised_iff` — exactly when a value that comes out of the library is normalised
-/

namespace TinchPp

open Wire BitString

namespace BinaryValueType

/-- The padding as a number of bits. -/
def unusedBits (b : BinaryValueType) : ℕ := b.paddingBits.toInt.toNat

/-- The bits that are meant. -/
def bits (b : BinaryValueType) : List Bool := firstBits b.unusedBits b.value

structure Normalised (b : BinaryValueType) : Prop where
  nonneg : 0 ≤ b.paddingBits
  le : b.paddingBits ≤ 7
  empty : b.value = [] → b.paddingBits = 0
  zeroPadded : ZeroPadded b.unusedBits b.value

/-- A padding of zero or more bits, as a number. -/
theorem paddingBits_of_unusedBits {b : BinaryValueType} (h : 0 ≤ b.paddingBits) :
    b.paddingBits.toInt = b.unusedBits :=
  (Int.toNat_of_nonneg (Int32.le_iff_toInt_le.mp h)).symm

theorem Normalised.unusedBits_lt {b : BinaryValueType} (h : b.Normalised) : b.unusedBits < 8 := by
  have hle : b.paddingBits.toInt ≤ 7 := Int32.le_iff_toInt_le.mp h.le
  rw [paddingBits_of_unusedBits h.nonneg] at hle
  omega

theorem Normalised.unusedBits_of_nil {b : BinaryValueType} (h : b.Normalised)
    (hnil : b.value = []) : b.unusedBits = 0 := by
  rw [unusedBits, h.empty hnil]
  rfl

/-- **Normalised values are equal exactly when they mean the same bits.** -/
theorem eq_iff_bits_eq {x y : BinaryValueType} (hx : x.Normalised) (hy : y.Normalised) :
    x = y ↔ x.bits = y.bits := by
  constructor
  · rintro rfl
    rfl
  · intro h
    obtain ⟨hunused, hvalue⟩ := eq_of_firstBits_eq hx.unusedBits_lt hy.unusedBits_lt
      hx.unusedBits_of_nil hy.unusedBits_of_nil hx.zeroPadded hy.zeroPadded h
    have hpadding : x.paddingBits = y.paddingBits := by
      rw [← Int32.toInt_inj, paddingBits_of_unusedBits hx.nonneg,
        paddingBits_of_unusedBits hy.nonneg, hunused]
    cases x
    cases y
    rw [mk.injEq]
    exact ⟨hpadding, hvalue⟩

/-! ### The constructors -/

theorem normalised_ofData (data : MsgSeq) : (ofData data).Normalised where
  nonneg := show (0 : Int32) ≤ 0 by decide
  le := show (0 : Int32) ≤ 7 by decide
  empty := fun _ => rfl
  zeroPadded := zeroPadded_zero data

theorem normalised_empty : empty.Normalised := normalised_ofData []

/-- Seven bits at most. -/
theorem exists_ofNat {padding : Int32} (h : 0 ≤ padding ∧ padding ≤ 7) :
    ∃ k : Fin 8, padding = Int32.ofNat k := by
  have hnonneg : 0 ≤ padding.toInt := Int32.le_iff_toInt_le.mp h.1
  have hle : padding.toInt ≤ 7 := Int32.le_iff_toInt_le.mp h.2
  refine ⟨⟨padding.toInt.toNat, by omega⟩, ?_⟩
  rw [← Int32.toInt_inj, Int32.toInt_ofNat_of_lt (by omega), Int.toNat_of_nonneg hnonneg]

/-- The bits of a byte whose padding has been cleared. -/
theorem getLsbD_clearPadding (k : Fin 8) (c : UInt8) {i : ℕ} (hi : i < 8) :
    (clearPadding (Int32.ofNat k) c).toBitVec.getLsbD i =
      (c.toBitVec.getLsbD i && decide (k ≤ i)) := by
  have hmask : ∀ (k i : Fin 8), (~~~((1 <<< (Int32.ofNat k).toUInt32.toUInt8) - 1 : UInt8)
      ).toBitVec.getLsbD i = decide (k.val ≤ i.val) := by decide
  rw [clearPadding, UInt8.toBitVec_and, BitVec.getLsbD_and, hmask k ⟨i, hi⟩]

theorem toInt_ofNat (k : Fin 8) : (Int32.ofNat k).toInt.toNat = k := by
  rw [Int32.toInt_ofNat_of_lt (by omega), Int.toNat_natCast]

theorem lowBitsClear_clearPadding (k : Fin 8) (c : UInt8) :
    LowBitsClear k (clearPadding (Int32.ofNat k) c) := by
  intro i hi
  rw [getLsbD_clearPadding k c (by omega), decide_eq_false (Nat.not_le.mpr hi), Bool.and_false]

theorem take_byteBits_clearPadding (k : Fin 8) (c : UInt8) :
    (byteBits (clearPadding (Int32.ofNat k) c)).take (8 - k) = (byteBits c).take (8 - k) := by
  refine List.ext_getElem (by simp) fun i h₁ h₂ => ?_
  have hi : i < 8 - k := by simpa using h₁
  rw [List.getElem_take, List.getElem_take, getElem_byteBits, getElem_byteBits,
    BitVec.getMsbD_eq_getLsbD, BitVec.getMsbD_eq_getLsbD,
    getLsbD_clearPadding k c (by omega), decide_eq_true (show (k : ℕ) ≤ 8 - 1 - i by omega),
    Bool.and_true]

theorem normalised_ofBits {data : MsgSeq} {padding : Int32} {b : BinaryValueType}
    (h : ofBits data padding = .ok b) : b.Normalised := by
  obtain ⟨hrange, hempty, rfl⟩ := ofBits_eq_ok h
  obtain ⟨k, rfl⟩ := exists_ofNat hrange
  refine ⟨hrange.1, hrange.2, ?_, ?_⟩
  · intro hnil
    rcases List.eq_nil_or_concat' data with rfl | ⟨cs, c, rfl⟩
    · exact hempty rfl
    · rw [List.modifyLast_concat] at hnil
      simp at hnil
  · show ZeroPadded (Int32.ofNat k).toInt.toNat (data.modifyLast (clearPadding (Int32.ofNat k)))
    rw [toInt_ofNat]
    rcases List.eq_nil_or_concat' data with rfl | ⟨cs, c, rfl⟩
    · exact zeroPadded_nil k
    · rw [List.modifyLast_concat, zeroPadded_append_singleton]
      exact lowBitsClear_clearPadding k c

/-- The constructor keeps the bits that are meant. -/
theorem bits_ofBits {data : MsgSeq} {padding : Int32} {b : BinaryValueType}
    (h : ofBits data padding = .ok b) : b.bits = firstBits padding.toInt.toNat data := by
  obtain ⟨hrange, -, rfl⟩ := ofBits_eq_ok h
  obtain ⟨k, rfl⟩ := exists_ofNat hrange
  show firstBits (Int32.ofNat k).toInt.toNat (data.modifyLast (clearPadding (Int32.ofNat k))) = _
  rw [toInt_ofNat]
  rcases List.eq_nil_or_concat' data with rfl | ⟨cs, c, rfl⟩
  · rfl
  · rw [List.modifyLast_concat, firstBits_append_singleton k.isLt.le,
      firstBits_append_singleton k.isLt.le, take_byteBits_clearPadding]

/-- Whatever padding there is, it is part of the last byte and made of zeroes. -/
def PaddingFits (padding : Int32) (bytes : MsgSeq) : Prop :=
  padding = 0 ∨ 0 < padding ∧ padding ≤ 7 ∧
    ∃ c, bytes.getLast? = some c ∧ LowBitsClear padding.toInt.toNat c

theorem normalised_iff_paddingFits (padding : Int32) (bytes : MsgSeq) :
    (⟨padding, bytes⟩ : BinaryValueType).Normalised ↔ PaddingFits padding bytes := by
  constructor
  · intro h
    by_cases hzero : padding = 0
    · exact .inl hzero
    · have hpos : 0 < padding := by
        rcases Int32.lt_or_eq_of_le h.nonneg with hlt | heq
        · exact hlt
        · exact absurd heq.symm hzero
      refine .inr ⟨hpos, h.le, ?_⟩
      rcases hlast : bytes.getLast? with _ | c
      · exact absurd (h.empty (List.getLast?_eq_none_iff.mp hlast)) hzero
      · exact ⟨c, rfl, h.zeroPadded c hlast⟩
  · rintro (rfl | ⟨hpos, hle, c, hlast, hclear⟩)
    · exact normalised_ofData bytes
    · refine ⟨Int32.le_of_lt hpos, hle, ?_, ?_⟩
      · rintro (rfl : bytes = [])
        cases hlast
      · intro d hd
        obtain rfl : c = d := Option.some_inj.mp (hlast.symm.trans hd)
        exact hclear

end BinaryValueType

/-! ### What a match makes of a value -/

namespace Binary

/-- A binary goes behind the bytes that are there, and the padding is kept; the padding of a
bit-string replaces it. -/
theorem read_eq_true_iff {f rest : MsgSeq} {w v : BinaryValueType} :
    read f w = (true, rest, v) ↔
      (∃ data, data.length < 4294967296 ∧ f = binaryExtG data ++ rest ∧
        v = ⟨w.paddingBits, w.value ++ data⟩) ∨
      ∃ (padding : UInt8) (data : MsgSeq), data.length < 4294967296 ∧
        f = bitBinaryExtG ⟨padding.toUInt32.toInt32, data⟩ ++ rest ∧
        v = ⟨padding.toUInt32.toInt32, w.value ++ data⟩ := by
  constructor
  · intro h
    rcases hbinary : binaryExt f w.value with ⟨_ | rest', value⟩
    · have hread := binaryToTerm_of_none hbinary
      rw [read, hread] at h
      obtain ⟨padding, data, hdata, rfl, rfl⟩ := bitBinaryExt_eq_some.mp (binaryToTerm_eq_true.mp h)
      rw [binaryToTerm_binaryExt_bitBinaryExtG] at hread
      obtain rfl : w.value = value := congrArg (fun r => r.2.2) hread
      exact .inr ⟨padding, data, hdata, rfl, rfl⟩
    · rw [read, binaryToTerm_of_some hbinary] at h
      obtain ⟨-, rfl, rfl⟩ : True ∧ rest' = rest ∧ _ = v := by simpa using h
      obtain ⟨data, hdata, rfl, rfl⟩ := binaryExt_eq_some.mp hbinary
      exact .inl ⟨data, hdata, rfl, rfl⟩
  · rintro (⟨data, hdata, rfl, rfl⟩ | ⟨padding, data, hdata, rfl, rfl⟩)
    · rw [read, binaryToTerm_of_some (binaryExt_binaryExtG hdata rest w.value)]
    · rw [read, binaryToTerm_binaryExt_bitBinaryExtG]
      exact binaryToTerm_of_some (bitBinaryExt_eq_some.mpr ⟨padding, data, hdata, rfl, rfl⟩)

/-- What is received for a variable that holds `w`: the padding fits the bytes. It is the padding of
the variable behind which a binary goes, and the one that comes with a bit-string. -/
def ReceivedFits (w : BinaryValueType) (f : MsgSeq) : Prop :=
  (∀ data rest, data.length < 4294967296 → f = binaryExtG data ++ rest →
    BinaryValueType.PaddingFits w.paddingBits (w.value ++ data)) ∧
  ∀ (padding : UInt8) (data rest : MsgSeq), data.length < 4294967296 →
    f = bitBinaryExtG ⟨padding.toUInt32.toInt32, data⟩ ++ rest →
    BinaryValueType.PaddingFits padding.toUInt32.toInt32 (w.value ++ data)

variable {σ : Type}

theorem matchFn_ofPointer_eq_true_iff {dest : Pointer σ BinaryValueType} {f rest : MsgSeq}
    {s s' : σ} : (ofPointer dest).matchFn f s = some (true, rest, s') ↔
      ∃ v, read f (dest.get s) = (true, rest, v) ∧ s' = dest.set v s := by
  rcases hread : read f (dest.get s) with ⟨b, rest', v⟩
  simp only [ofPointer, assignThrough, hread, Option.some_inj, Prod.mk.injEq]
  constructor
  · rintro ⟨rfl, rfl, rfl⟩
    exact ⟨v, ⟨rfl, rfl, rfl⟩, rfl⟩
  · rintro ⟨v, ⟨rfl, rfl, rfl⟩, rfl⟩
    exact ⟨rfl, rfl, rfl⟩

theorem normalised_matched_iff {dest : Pointer σ BinaryValueType} {f : MsgSeq} {s : σ} :
    (∀ rest s', (ofPointer dest).matchFn f s = some (true, rest, s') →
      (dest.get s').Normalised) ↔ ReceivedFits (dest.get s) f := by
  constructor
  · intro h
    have hread (rest : MsgSeq) (v : BinaryValueType) (hv : read f (dest.get s) = (true, rest, v)) :
        v.Normalised := by
      have := h rest (dest.set v s) (matchFn_ofPointer_eq_true_iff.mpr ⟨v, hv, rfl⟩)
      rwa [dest.get_set] at this
    constructor
    · intro data rest hdata hf
      exact (BinaryValueType.normalised_iff_paddingFits _ _).mp
        (hread rest _ (read_eq_true_iff.mpr (.inl ⟨data, hdata, hf, rfl⟩)))
    · intro padding data rest hdata hf
      exact (BinaryValueType.normalised_iff_paddingFits _ _).mp
        (hread rest _ (read_eq_true_iff.mpr (.inr ⟨padding, data, hdata, hf, rfl⟩)))
  · rintro ⟨hbinary, hbits⟩ rest s' h
    obtain ⟨v, hread, rfl⟩ := matchFn_ofPointer_eq_true_iff.mp h
    rw [dest.get_set]
    rcases read_eq_true_iff.mp hread with ⟨data, hdata, hf, rfl⟩ | ⟨padding, data, hdata, hf, rfl⟩
    · exact (BinaryValueType.normalised_iff_paddingFits _ _).mpr (hbinary data rest hdata hf)
    · exact (BinaryValueType.normalised_iff_paddingFits _ _).mpr (hbits padding data rest hdata hf)

/-- **When binary values are normalised.** What the constructors make always is. What a match leaves
in a variable is normalised exactly when the padding fits the bytes, for every message and whatever
the variable has been before. And normalised values are equal exactly when they mean the same
bits. -/
theorem normalised_iff :
    BinaryValueType.empty.Normalised ∧ (∀ data, (BinaryValueType.ofData data).Normalised) ∧
      (∀ data padding b, BinaryValueType.ofBits data padding = .ok b → b.Normalised) ∧
      (∀ (dest : Pointer σ BinaryValueType) (f : MsgSeq) (s : σ),
        (∀ rest s', (ofPointer dest).matchFn f s = some (true, rest, s') →
          (dest.get s').Normalised) ↔ ReceivedFits (dest.get s) f) ∧
      ∀ x y : BinaryValueType, x.Normalised → y.Normalised → (x = y ↔ x.bits = y.bits) :=
  ⟨BinaryValueType.normalised_empty, BinaryValueType.normalised_ofData,
    fun _ _ _ h => BinaryValueType.normalised_ofBits h, fun _ _ _ => normalised_matched_iff,
    fun _ _ hx hy => BinaryValueType.eq_iff_bits_eq hx hy⟩

/-- Five bits that are one, as Erlang sends them, become a byte with five bits of padding. -/
theorem received_padding_kept : ¬ ∀ (f rest : MsgSeq) (v : BinaryValueType),
    (ofPointer (Pointer.whole BinaryValueType)).matchFn f .empty = some (true, rest, v) →
      v.Normalised := by
  intro h
  have hnormalised := h [77, 0, 0, 0, 1, 5, 248] [] ⟨5, [248]⟩ rfl
  exact absurd (hnormalised.zeroPadded 248 rfl) (by decide)

end Binary

end TinchPp
