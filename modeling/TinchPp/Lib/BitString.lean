import Mathlib.Data.List.OfFn
import Mathlib.Data.List.DropRight

/-!
# Bit-strings in bytes

A sequence of bits is stored in bytes, the most significant bit of a byte first. Where its length is
no multiple of eight, some of the last byte is not used: `firstBits p cs` are the bits of `cs` but
for the last `p` of them. Many bytes stand for the same bits then, and one of them has zeroes in the
part that is not used. That one is unique, and tells how much is not used.

## Main results

* `bits_injective` — the bits of whole bytes tell the bytes
* `eq_of_firstBits_eq` — and so they do for bytes that are padded with zeroes
* `firstBits_append_singleton` — only the last byte is not used in full
-/

namespace BitString

/-- The bits of a byte. -/
def byteBits (c : UInt8) : List Bool := List.ofFn fun i : Fin 8 => c.toBitVec.getMsbD i

@[simp] theorem length_byteBits (c : UInt8) : (byteBits c).length = 8 := List.length_ofFn

theorem getElem_byteBits {c : UInt8} {i : ℕ} (hi : i < (byteBits c).length) :
    (byteBits c)[i] = c.toBitVec.getMsbD i :=
  List.getElem_ofFn hi

theorem byteBits_injective : Function.Injective byteBits := by
  intro c d h
  refine UInt8.toBitVec_inj.mp (BitVec.eq_of_getMsbD_eq fun i hi => ?_)
  exact congrFun (List.ofFn_injective h) ⟨i, hi⟩

def bits (cs : List UInt8) : List Bool := cs.flatMap byteBits

@[simp] theorem bits_nil : bits [] = [] := rfl

@[simp] theorem bits_cons (c : UInt8) (cs : List UInt8) : bits (c :: cs) = byteBits c ++ bits cs :=
  List.flatMap_cons

theorem bits_append (cs ds : List UInt8) : bits (cs ++ ds) = bits cs ++ bits ds :=
  List.flatMap_append

@[simp] theorem length_bits (cs : List UInt8) : (bits cs).length = 8 * cs.length := by
  induction cs with
  | nil => rfl
  | cons c cs ih =>
    rw [bits_cons, List.length_append, length_byteBits, ih, List.length_cons]
    omega

theorem bits_injective : Function.Injective bits := by
  intro cs
  induction cs with
  | nil =>
    intro ds h
    have hlen : 8 * ds.length = 0 := by rw [← length_bits, ← h, bits_nil, List.length_nil]
    exact (List.length_eq_zero_iff.mp (by omega)).symm
  | cons c cs ih =>
    intro ds h
    cases ds with
    | nil =>
      have hlen := congrArg List.length h
      simp at hlen
    | cons d ds =>
      rw [bits_cons, bits_cons] at h
      obtain ⟨hcd, hrest⟩ := List.append_inj h (by simp)
      rw [byteBits_injective hcd, ih hrest]

/-! ### Bytes that are not used in full -/

/-- All the bits but for the last `p`. -/
def firstBits (p : ℕ) (cs : List UInt8) : List Bool := (bits cs).take (8 * cs.length - p)

@[simp] theorem length_firstBits (p : ℕ) (cs : List UInt8) :
    (firstBits p cs).length = 8 * cs.length - p := by
  rw [firstBits, List.length_take, length_bits]
  omega

/-- As long as no more is left out than a byte has, only the last byte counts. -/
theorem firstBits_append_singleton {p : ℕ} (hp : p ≤ 8) (cs : List UInt8) (c : UInt8) :
    firstBits p (cs ++ [c]) = bits cs ++ (byteBits c).take (8 - p) := by
  have hlen : 8 * (cs ++ [c]).length - p = (bits cs).length + (8 - p) := by
    rw [List.length_append, length_bits, List.length_singleton]
    omega
  rw [firstBits, hlen, bits_append, List.take_length_add_append, bits_cons, bits_nil,
    List.append_nil]

/-- The lowest `p` bits of a byte are zero. -/
def LowBitsClear (p : ℕ) (c : UInt8) : Prop := ∀ i < p, c.toBitVec.getLsbD i = false

instance (p : ℕ) (c : UInt8) : Decidable (LowBitsClear p c) :=
  inferInstanceAs (Decidable (∀ i < p, c.toBitVec.getLsbD i = false))

/-- What is not used of the last byte is zero. -/
def ZeroPadded (p : ℕ) (cs : List UInt8) : Prop := ∀ c, cs.getLast? = some c → LowBitsClear p c

@[simp] theorem zeroPadded_nil (p : ℕ) : ZeroPadded p [] := by
  intro c h
  cases h

@[simp] theorem zeroPadded_zero (cs : List UInt8) : ZeroPadded 0 cs :=
  fun _ _ _ hi => absurd hi (Nat.not_lt_zero _)

@[simp] theorem zeroPadded_append_singleton {p : ℕ} {cs : List UInt8} {c : UInt8} :
    ZeroPadded p (cs ++ [c]) ↔ LowBitsClear p c := by
  simp [ZeroPadded]

instance (p : ℕ) (cs : List UInt8) : Decidable (ZeroPadded p cs) :=
  match h : cs.getLast? with
  | none => isTrue fun c hc => by rw [h] at hc; cases hc
  | some c =>
    if hclear : LowBitsClear p c then
      isTrue fun d hd => by rw [h] at hd; exact Option.some_inj.mp hd ▸ hclear
    else isFalse fun hall => hclear (hall c h)

theorem drop_byteBits {p : ℕ} (hp : p ≤ 8) {c : UInt8} (hc : LowBitsClear p c) :
    (byteBits c).drop (8 - p) = List.replicate p false := by
  refine List.ext_getElem (by simp; omega) fun i h₁ h₂ => ?_
  rw [List.getElem_drop, getElem_byteBits, List.getElem_replicate, BitVec.getMsbD_eq_getLsbD]
  rw [List.length_replicate] at h₂
  rw [hc (8 - 1 - (8 - p + i)) (by omega), Bool.and_false]

/-- **Bytes that are padded with zeroes are told by the bits that are used**, and so is the number
of those that are not. -/
theorem eq_of_firstBits_eq {p q : ℕ} {cs ds : List UInt8} (hp : p < 8) (hq : q < 8)
    (hcs : cs = [] → p = 0) (hds : ds = [] → q = 0) (hcp : ZeroPadded p cs) (hdq : ZeroPadded q ds)
    (h : firstBits p cs = firstBits q ds) : p = q ∧ cs = ds := by
  have hlen : 8 * cs.length - p = 8 * ds.length - q := by
    rw [← length_firstBits, ← length_firstBits, h]
  rcases List.eq_nil_or_concat' cs with rfl | ⟨cs', c, rfl⟩
  · obtain rfl : p = 0 := hcs rfl
    rw [List.length_nil] at hlen
    obtain rfl : ds = [] := List.length_eq_zero_iff.mp (by omega)
    exact ⟨(hds rfl).symm, rfl⟩
  · rcases List.eq_nil_or_concat' ds with rfl | ⟨ds', d, rfl⟩
    · obtain rfl : q = 0 := hds rfl
      rw [List.length_append, List.length_singleton, List.length_nil] at hlen
      omega
    · rw [List.length_append, List.length_append, List.length_singleton,
        List.length_singleton] at hlen
      have hbytes : cs'.length = ds'.length := by omega
      obtain rfl : p = q := by omega
      refine ⟨rfl, ?_⟩
      rw [zeroPadded_append_singleton] at hcp hdq
      rw [firstBits_append_singleton hp.le, firstBits_append_singleton hp.le] at h
      obtain ⟨hfront, hback⟩ := List.append_inj h (by simp [hbytes])
      have hlast : byteBits c = byteBits d := by
        rw [← List.take_append_drop (8 - p) (byteBits c), hback, drop_byteBits hp.le hcp,
          ← drop_byteBits hp.le hdq, List.take_append_drop]
      rw [bits_injective hfront, byteBits_injective hlast]

end BitString
