import TinchPp.BinaryValues

/-!
# Bit-strings, as Erlang reads them

Erlang's external term format counts the bits of the last byte of a bit-string that *are* used,
between one and eight, from the most significant. A `binary_value_type` counts those that are not.
What `binary::serialize` writes and `binary::match` reads in that place is the number of the value,
as it is, so that both ends of a connection agree on a bit-string only if half of its last byte is
used.

## Main results

* `bitStrings_keep_meaning_iff` — exactly which bit-strings keep their meaning
-/

namespace TinchPp

open Wire BitString

/-- Erlang's definition of a `BIT_BINARY_EXT`: `Len` bytes of data, and the number `Bits` of the bits
that are used in the last of them. -/
def ErlangBits (enc : MsgSeq) (bs : List Bool) : Prop :=
  ∃ (data : MsgSeq) (used : UInt8), data ≠ [] ∧ data.length < 4294967296 ∧
    1 ≤ used.toNat ∧ used.toNat ≤ 8 ∧
    enc = TypeTag.bitBinaryExt :: (bigDwordG data.length ++ [used] ++ data) ∧
    bs = (bits data).take (8 * (data.length - 1) + used.toNat)

namespace Binary

/-- `Bits` is the padding as it is. -/
theorem bitBinaryExtG_ofNat (k : Fin 8) (value : MsgSeq) :
    bitBinaryExtG ⟨Int32.ofNat k, value⟩ =
      TypeTag.bitBinaryExt :: (bigDwordG value.length ++ [UInt8.ofNat k] ++ value) := by
  have hbyte : ∀ k : Fin 8, byteG (Int32.ofNat k).toUInt32.toNat = [UInt8.ofNat k] := by decide
  rw [bitBinaryExtG, hbyte]

theorem serialize_ofNat {k : Fin 8} (hk : k ≠ 0) (value : MsgSeq) :
    serialize ⟨Int32.ofNat k, value⟩ =
      TypeTag.bitBinaryExt :: (bigDwordG value.length ++ [UInt8.ofNat k] ++ value) := by
  have hpos : ∀ k : Fin 8, k ≠ 0 → 0 < Int32.ofNat k := by decide
  rw [serialize, if_pos (hpos k hk), bitBinaryExtG_ofNat]

/-- What is written means something else to Erlang, unless four bits are used and four are not. -/
theorem erlangBits_serialize_iff {k : Fin 8} (hk : k ≠ 0) {value : MsgSeq} (hvalue : value ≠ []) :
    ErlangBits (serialize ⟨Int32.ofNat k, value⟩) (firstBits k value) ↔
      k = 4 ∧ value.length < 4294967296 := by
  have hpos : 0 < value.length := List.length_pos_iff.mpr hvalue
  rw [serialize_ofNat hk]
  constructor
  · rintro ⟨data, used, -, hlen, -, -, henc, hbits⟩
    obtain ⟨-, htail⟩ := List.cons.inj henc
    obtain ⟨hhead, rfl⟩ := List.append_inj htail (by
      rw [List.length_append, List.length_append, length_bigDwordG, length_bigDwordG]
      rfl)
    obtain ⟨-, hused⟩ := List.append_inj hhead rfl
    have hnat : used.toNat = k := by
      rw [← (List.cons.inj hused).1, UInt8.toNat_ofNat']
      omega
    have hcount := congrArg List.length hbits
    rw [length_firstBits, List.length_take, length_bits, hnat] at hcount
    refine ⟨Fin.ext ?_, hlen⟩
    show k.val = 4
    omega
  · rintro ⟨rfl, hlen⟩
    refine ⟨value, 4, hvalue, hlen, by decide, by decide, rfl, ?_⟩
    rw [firstBits]
    congr 1
    show 8 * value.length - 4 = 8 * (value.length - 1) + 4
    omega

variable {σ : Type}

/-- What is read into a fresh variable, whatever follows. -/
theorem matchFn_erlangBits {dest : Pointer σ BinaryValueType} {s : σ} (hs : dest.get s = .empty)
    {data : MsgSeq} (hdata : data.length < 4294967296) (used : UInt8) (rest : MsgSeq) :
    (ofPointer dest).matchFn
        (TypeTag.bitBinaryExt :: (bigDwordG data.length ++ [used] ++ data) ++ rest) s =
      some (true, rest, dest.set ⟨used.toUInt32.toInt32, data⟩ s) := by
  have hbyte : byteG used.toUInt32.toInt32.toUInt32.toNat = [used] := by simp [byteG]
  have henc : bitBinaryExtG ⟨used.toUInt32.toInt32, data⟩ =
      TypeTag.bitBinaryExt :: (bigDwordG data.length ++ [used] ++ data) := by
    rw [bitBinaryExtG, hbyte]
  refine matchFn_ofPointer_eq_true_iff.mpr ⟨_, ?_, rfl⟩
  rw [hs]
  exact read_eq_true_iff.mpr (.inr ⟨used, data, hdata, by rw [henc], rfl⟩)

/-- What is read means the same bits as what has been sent, for half a byte only. -/
theorem bits_matched_iff {dest : Pointer σ BinaryValueType} {s : σ} (hs : dest.get s = .empty)
    {enc : MsgSeq} {bs : List Bool} (henc : ErlangBits enc bs) (hbs : bs.length % 8 ≠ 0) :
    (∀ rest, ∃ s', (ofPointer dest).matchFn (enc ++ rest) s = some (true, rest, s') ∧
      (dest.get s').bits = bs) ↔ bs.length % 8 = 4 := by
  obtain ⟨data, used, hne, hdata, hone, height, rfl, rfl⟩ := henc
  have hpos : 0 < data.length := List.length_pos_iff.mpr hne
  have hlen : ((bits data).take (8 * (data.length - 1) + used.toNat)).length =
      8 * (data.length - 1) + used.toNat := by
    rw [List.length_take, length_bits]
    omega
  have hbits : (⟨used.toUInt32.toInt32, data⟩ : BinaryValueType).bits =
      (bits data).take (8 * data.length - used.toNat) := by
    rw [BinaryValueType.bits, BinaryValueType.unusedBits, toInt_toInt32_toUInt32, Int.toNat_natCast,
      firstBits]
  rw [hlen] at hbs ⊢
  constructor
  · intro h
    obtain ⟨s', hmatch, hget⟩ := h []
    rw [matchFn_erlangBits hs hdata] at hmatch
    obtain rfl : dest.set ⟨used.toUInt32.toInt32, data⟩ s = s' := by simpa using hmatch
    rw [dest.get_set, hbits] at hget
    have hcount := congrArg List.length hget
    rw [hlen, List.length_take, length_bits] at hcount
    omega
  · intro hfour rest
    refine ⟨_, matchFn_erlangBits hs hdata used rest, ?_⟩
    have hused : used.toNat = 4 := by omega
    rw [dest.get_set, hbits, hused]
    congr 1
    omega

/-- **Which bit-strings keep their meaning.** Let `b` be what the constructor makes of the data and
a padding of one to seven bits: what is written for it means the same bits to Erlang exactly when
the padding is four and the length of the data fits its field. Let `enc` be what Erlang sends for
bits whose number is no multiple of eight: what is read from it into a fresh variable means the
same bits exactly when four of them are left over. -/
theorem bitStrings_keep_meaning_iff {data : MsgSeq} {padding : Int32} {b : BinaryValueType}
    (hb : BinaryValueType.ofBits data padding = .ok b) (hpadding : padding ≠ 0)
    {enc : MsgSeq} {bs : List Bool} (henc : ErlangBits enc bs) (hbs : bs.length % 8 ≠ 0)
    {dest : Pointer σ BinaryValueType} {s : σ} (hs : dest.get s = .empty) :
    (ErlangBits (serialize b) (firstBits padding.toInt.toNat data) ↔
      padding = 4 ∧ data.length < 4294967296) ∧
    ((∀ rest, ∃ s', (ofPointer dest).matchFn (enc ++ rest) s = some (true, rest, s') ∧
      (dest.get s').bits = bs) ↔ bs.length % 8 = 4) := by
  refine ⟨?_, bits_matched_iff hs henc hbs⟩
  have hmeant : b.bits = firstBits padding.toInt.toNat data := BinaryValueType.bits_ofBits hb
  obtain ⟨hrange, hempty, rfl⟩ := BinaryValueType.ofBits_eq_ok hb
  obtain ⟨k, rfl⟩ := BinaryValueType.exists_ofNat hrange
  have hk : k ≠ 0 := by
    rintro rfl
    exact hpadding rfl
  have hfour : ∀ k : Fin 8, Int32.ofNat k = 4 ↔ k = 4 := by decide
  have hlen : (data.modifyLast (BinaryValueType.clearPadding (Int32.ofNat k))).length =
      data.length := by
    rcases List.eq_nil_or_concat' data with rfl | ⟨cs, c, rfl⟩
    · rfl
    · rw [List.modifyLast_concat, List.length_append, List.length_append, List.length_singleton,
        List.length_singleton]
  have hne : data.modifyLast (BinaryValueType.clearPadding (Int32.ofNat k)) ≠ [] := by
    intro hnil
    rw [hnil, List.length_nil] at hlen
    exact hpadding (hempty (List.length_eq_zero_iff.mp hlen.symm))
  rw [← hmeant, BinaryValueType.bits, BinaryValueType.unusedBits, BinaryValueType.toInt_ofNat,
    erlangBits_serialize_iff hk hne, hlen, hfour]

/-- Twelve bits: one byte and the first half of another one. -/
theorem bitStrings_keep_meaning_twelve :
    (ErlangBits (serialize ⟨4, [255, 240]⟩) (firstBits 4 [255, 255]) ↔
      (4 : Int32) = 4 ∧ ([255, 255] : MsgSeq).length < 4294967296) ∧
    ((∀ rest, ∃ v, (ofPointer (Pointer.whole BinaryValueType)).matchFn
        ([77, 0, 0, 0, 2, 4, 255, 240] ++ rest) .empty = some (true, rest, v) ∧
      v.bits = List.replicate 12 true) ↔ (List.replicate 12 true).length % 8 = 4) := by
  have hb : BinaryValueType.ofBits [255, 255] 4 = .ok ⟨4, [255, 240]⟩ := rfl
  have henc : ErlangBits [77, 0, 0, 0, 2, 4, 255, 240] (List.replicate 12 true) :=
    ⟨[255, 240], 4, by decide, by decide, by decide, by decide, rfl, rfl⟩
  exact bitStrings_keep_meaning_iff hb (by decide) henc (by decide) rfl

/-- Five bits that are one: what is written for them means three bits to Erlang. -/
theorem five_bits_lose_meaning :
    ¬ ∀ (data : MsgSeq) (padding : Int32) (b : BinaryValueType),
      BinaryValueType.ofBits data padding = .ok b → padding ≠ 0 →
        ErlangBits (serialize b) (firstBits padding.toInt.toNat data) := by
  intro h
  have hfive : ErlangBits (serialize ⟨Int32.ofNat 3, [248]⟩) (firstBits 3 [248]) :=
    h [248] 3 ⟨3, [248]⟩ rfl (by decide)
  have hthree : (3 : Fin 8) ≠ 0 := by decide
  exact absurd ((erlangBits_serialize_iff hthree (by decide)).mp hfive).1 (by decide)

end Binary

end TinchPp
