import Mathlib.Algebra.Group.Nat.Defs
import Mathlib.Data.Set.CoeSort
import Mathlib.Logic.Function.Iterate
import TinchPp.Lib.SearchTree
import TinchPp.Types

/-!
# Issuing process identifiers, and their order

A node makes a new pid for each of its mailboxes out of two counters (`make_pid`,
`update_pid_fields`), and keeps the mailboxes in a `std::map` ordered by `operator<` on pids. This
file has both, and asks when the second is fit for what the first produces.

`operator<` holds as soon as either the id or the serial is less. Of two pids where the one has the
smaller id and the other the smaller serial each is less than the other, and a map that holds both
does not find all its entries.

## Main results

* `PidSource.toNat_after`, `issued_spec` — the counters after any number of calls, and what follows
  for the pids
* `legalKeyOrder_iff` — the order is fit for a set of pids exactly when no two of them cross
* `legalKeyOrder_issued_iff` — which it is for the first 32767 pids of a node, and then never again
-/

namespace TinchPp

/-! ### The counters -/

/-- The two counters of `actual_node` that pids are made of. -/
structure PidSource where
  pidId : UInt32
  serial : UInt32
deriving DecidableEq, Repr

namespace PidSource

def create : PidSource := ⟨1, 0⟩

def updatePidFields (s : PidSource) : PidSource :=
  let maxPidId : UInt32 := 0x7fff
  let maxSerial : UInt32 := 0x1fff -- 13 bits
  let pidId := s.pidId + 1
  if pidId > maxPidId then ⟨0, if s.serial + 1 > maxSerial then 0 else s.serial + 1⟩
  else ⟨pidId, s.serial⟩

/-- A new pid, and the counters for the next one. The creation number is not one of the counters:
it comes from EPMD. -/
def makePid (nodeName : Str) (creation : UInt32) (s : PidSource) : EPid × PidSource :=
  (⟨nodeName, s.pidId, s.serial, creation⟩, s.updatePidFields)

/-- The counters after `n` calls of `make_pid`. -/
def after (n : ℕ) : PidSource := updatePidFields^[n] create

theorem after_succ (n : ℕ) : after (n + 1) = (after n).updatePidFields :=
  Function.iterate_succ_apply' updatePidFields n create

/-- One call, on counters that are still in range. -/
theorem toNat_updatePidFields {s : PidSource} {n : ℕ} (hid : s.pidId.toNat = n % 32768)
    (hserial : s.serial.toNat = n / 32768 % 8192) :
    s.updatePidFields.pidId.toNat = (n + 1) % 32768 ∧
      s.updatePidFields.serial.toNat = (n + 1) / 32768 % 8192 := by
  have hid1 : (s.pidId + 1).toNat = n % 32768 + 1 := by
    rw [UInt32.toNat_add, hid, show (1 : UInt32).toNat = 1 from rfl]
    omega
  have hserial1 : (s.serial + 1).toNat = n / 32768 % 8192 + 1 := by
    rw [UInt32.toNat_add, hserial, show (1 : UInt32).toNat = 1 from rfl]
    omega
  have hmax : (0x7fff : UInt32).toNat = 32767 := rfl
  have hmaxSerial : (0x1fff : UInt32).toNat = 8191 := rfl
  have hzero : (0 : UInt32).toNat = 0 := rfl
  simp only [updatePidFields, gt_iff_lt, UInt32.lt_iff_toNat_lt, hid1, hserial1, hmax, hmaxSerial]
  by_cases hroll : 32767 < n % 32768 + 1
  · rw [if_pos hroll]
    refine ⟨by rw [hzero]; omega, ?_⟩
    by_cases hwrap : 8191 < n / 32768 % 8192 + 1
    · rw [if_pos hwrap, hzero]
      omega
    · rw [if_neg hwrap, hserial1]
      omega
  · rw [if_neg hroll]
    exact ⟨by rw [hid1]; omega, by rw [hserial]; omega⟩

/-- **The counters after `n` calls.** Fifteen bits of id, then thirteen bits of serial. -/
theorem toNat_after (n : ℕ) : (after n).pidId.toNat = (n + 1) % 32768 ∧
    (after n).serial.toNat = (n + 1) / 32768 % 8192 := by
  induction n with
  | zero => decide
  | succ n ih =>
    rw [after_succ]
    exact toNat_updatePidFields ih.1 ih.2

end PidSource

/-- The `n`-th pid a node issues, from `n = 0`; the creation number may change on the way. -/
def issued (nodeName : Str) (creation : ℕ → UInt32) (n : ℕ) : EPid :=
  ((PidSource.after n).makePid nodeName (creation n)).1

theorem toNat_id_issued (nodeName : Str) (creation : ℕ → UInt32) (n : ℕ) :
    (issued nodeName creation n).id.toNat = (n + 1) % 32768 :=
  (PidSource.toNat_after n).1

theorem toNat_serial_issued (nodeName : Str) (creation : ℕ → UInt32) (n : ℕ) :
    (issued nodeName creation n).serial.toNat = (n + 1) / 32768 % 8192 :=
  (PidSource.toNat_after n).2

/-- **Process identifiers are not reused early.** The counters run through all values of their
fifteen and thirteen bits before a pid comes again. -/
theorem issued_spec (nodeName : Str) (creation : ℕ → UInt32) (n : ℕ) :
    (issued nodeName creation n).id.toNat = (n + 1) % 2 ^ 15 ∧
      (issued nodeName creation n).serial.toNat = (n + 1) / 2 ^ 15 % 2 ^ 13 ∧
      (issued nodeName creation n).id.toNat < 2 ^ 15 ∧
      (issued nodeName creation n).serial.toNat < 2 ^ 13 ∧
      ∀ m, n < m → m < n + 2 ^ 28 →
        (issued nodeName creation m).id ≠ (issued nodeName creation n).id ∨
          (issued nodeName creation m).serial ≠ (issued nodeName creation n).serial := by
  have hid := toNat_id_issued nodeName creation
  have hserial := toNat_serial_issued nodeName creation
  refine ⟨hid n, hserial n, ?_, ?_, fun m hnm hmn => ?_⟩
  · rw [hid]
    exact Nat.mod_lt _ (by omega)
  · rw [hserial]
    exact Nat.mod_lt _ (by omega)
  · rw [ne_eq, ne_eq, ← UInt32.toNat_inj, ← UInt32.toNat_inj, hid, hid, hserial, hserial]
    omega

/-! ### The order -/

namespace EPid

/-- `operator<`. -/
def Less (p₁ p₂ : EPid) : Prop := p₁.id < p₂.id ∨ p₁.serial < p₂.serial

instance : DecidableRel Less := fun p₁ p₂ =>
  inferInstanceAs (Decidable (p₁.id < p₂.id ∨ p₁.serial < p₂.serial))

/-- The same key, as far as a `std::map` can tell. -/
def Equiv (p₁ p₂ : EPid) : Prop := ¬ Less p₁ p₂ ∧ ¬ Less p₂ p₁

/-- The one has the smaller id, the other the smaller serial. -/
def Crosses (p₁ p₂ : EPid) : Prop := p₁.id < p₂.id ∧ p₂.serial < p₁.serial

/-- What `make_pid` can issue. -/
def Issuable (p : EPid) : Prop := p.id ≤ 0x7fff ∧ p.serial ≤ 0x1fff

theorem less_iff (p q : EPid) :
    Less p q ↔ p.id.toNat < q.id.toNat ∨ p.serial.toNat < q.serial.toNat := by
  rw [Less, UInt32.lt_iff_toNat_lt, UInt32.lt_iff_toNat_lt]

theorem crosses_iff (p q : EPid) :
    Crosses p q ↔ p.id.toNat < q.id.toNat ∧ q.serial.toNat < p.serial.toNat := by
  rw [Crosses, UInt32.lt_iff_toNat_lt, UInt32.lt_iff_toNat_lt]

theorem Crosses.less {p q : EPid} (h : Crosses p q) : Less p q ∧ Less q p :=
  ⟨.inl h.1, .inr h.2⟩

theorem issuable_issued (nodeName : Str) (creation : ℕ → UInt32) (n : ℕ) :
    (issued nodeName creation n).Issuable := by
  have hid := toNat_id_issued nodeName creation n
  have hserial := toNat_serial_issued nodeName creation n
  have hmax : (0x7fff : UInt32).toNat = 32767 := rfl
  have hmaxSerial : (0x1fff : UInt32).toNat = 8191 := rfl
  rw [Issuable, UInt32.le_iff_toNat_le, UInt32.le_iff_toNat_le, hid, hserial, hmax, hmaxSerial]
  omega

/-- `operator<` on the pids of a set. -/
def LessOn (S : Set EPid) (p q : S) : Prop := Less p q

instance (S : Set EPid) : DecidableRel (LessOn S) := fun p q =>
  inferInstanceAs (Decidable (Less p q))

end EPid

open EPid

/-- `operator<` is a legal key order for the pids of `S`, and the maps ordered by it work. -/
structure LegalKeyOrder (S : Set EPid) : Prop where
  irrefl : ∀ p ∈ S, ¬ Less p p
  asymm : ∀ p ∈ S, ∀ q ∈ S, Less p q → ¬ Less q p
  trans : ∀ p ∈ S, ∀ q ∈ S, ∀ r ∈ S, Less p q → Less q r → Less p r
  equiv_trans : ∀ p ∈ S, ∀ q ∈ S, ∀ r ∈ S, p.Equiv q → q.Equiv r → p.Equiv r
  equiv_eq : ∀ p ∈ S, ∀ q ∈ S, p.Equiv q → p.id = q.id ∧ p.serial = q.serial
  /-- A mailbox whose pid is not there is put into the map. -/
  inserted : ∀ {ν : Type} {t : SearchTree S ν}, SearchTree.Built (LessOn S) t → ∀ (p : S) (v : ν),
    (∀ a ∈ t.inorder, a.1.1.id = p.1.id → a.1.1.serial ≠ p.1.serial) →
      ∃ t', t.insert (LessOn S) p v = some t' ∧ (p, v) ∈ t'.inorder
  /-- A mailbox that is in the map is found under its pid. -/
  found : ∀ {ν : Type} {t : SearchTree S ν}, SearchTree.Built (LessOn S) t → ∀ (p : S) (v : ν),
    (p, v) ∈ t.inorder → t.find (LessOn S) p = some v

/-- Where no pids cross, one of two pids is at most the other in both fields. -/
theorem le_or_le_of_not_crosses {p q : EPid} (h : ¬ Crosses p q) (h' : ¬ Crosses q p) :
    (p.id.toNat ≤ q.id.toNat ∧ p.serial.toNat ≤ q.serial.toNat) ∨
      (q.id.toNat ≤ p.id.toNat ∧ q.serial.toNat ≤ p.serial.toNat) := by
  rw [crosses_iff] at h h'
  omega

theorem equiv_iff (p q : EPid) : p.Equiv q ↔ p.id = q.id ∧ p.serial = q.serial := by
  rw [EPid.Equiv, less_iff, less_iff, ← UInt32.toNat_inj, ← UInt32.toNat_inj]
  omega

/-- Without crossing pids the order is a strict weak one. -/
theorem isStrictWeakOrder_lessOn {S : Set EPid} (h : ∀ p ∈ S, ∀ q ∈ S, ¬ Crosses p q) :
    IsStrictWeakOrder S (LessOn S) where
  irrefl p hp := by
    rw [LessOn, less_iff] at hp
    omega
  trans p q r hpq hqr := by
    rw [LessOn, less_iff] at hpq hqr ⊢
    rcases le_or_le_of_not_crosses (h p p.2 q q.2) (h q q.2 p p.2) with hle | hle <;>
      rcases le_or_le_of_not_crosses (h q q.2 r r.2) (h r r.2 q q.2) with hle' | hle' <;> omega
  incomp_trans p q r hpq hqr := by
    have hpq : p.1.id = q.1.id ∧ p.1.serial = q.1.serial := (equiv_iff p q).mp hpq
    have hqr : q.1.id = r.1.id ∧ q.1.serial = r.1.serial := (equiv_iff q r).mp hqr
    exact (equiv_iff p r).mpr ⟨hpq.1.trans hqr.1, hpq.2.trans hqr.2⟩

theorem legalKeyOrder_of_not_crosses {S : Set EPid} (h : ∀ p ∈ S, ∀ q ∈ S, ¬ Crosses p q) :
    LegalKeyOrder S := by
  have hweak := isStrictWeakOrder_lessOn h
  refine ⟨fun p hp => ?_, fun p hp q hq hpq hqp => ?_, fun p hp q hq r hr => ?_,
    fun p _ q _ r _ hpq hqr => ?_, fun p _ q _ => (equiv_iff p q).mp, fun ht p v hnew => ?_,
    fun ht p v hmem => ?_⟩
  · exact irrefl_of (LessOn S) ⟨p, hp⟩
  · exact irrefl_of (LessOn S) ⟨p, hp⟩ 
      (trans_of (LessOn S) (a := ⟨p, hp⟩) (b := ⟨q, hq⟩) (c := ⟨p, hp⟩) hpq hqp)
  · exact trans_of (LessOn S) (a := ⟨p, hp⟩) (b := ⟨q, hq⟩) (c := ⟨r, hr⟩)
  · rw [equiv_iff] at hpq hqr ⊢
    exact ⟨hpq.1.trans hqr.1, hpq.2.trans hqr.2⟩
  · rcases SearchTree.insert_cases ht.sorted p v with ⟨t', L, R, hins, -, ht', -⟩ |
      ⟨-, k, w, hk, hpk, hkp⟩
    · exact ⟨t', hins, by simp [ht']⟩
    -- a refusal means that the pid was there
    · obtain ⟨hid, hserial⟩ := (equiv_iff k p).mp ⟨hkp, hpk⟩
      exact absurd hserial (hnew _ hk hid)
  · have hself : ¬ LessOn S p p := irrefl_of (LessOn S) p
    exact SearchTree.find_of_mem ht.sorted hmem hself hself

/-- **`operator<` is a legal key order exactly for the sets of pids no two of which cross.** -/
theorem legalKeyOrder_iff (S : Set EPid) :
    LegalKeyOrder S ↔ ∀ p ∈ S, ∀ q ∈ S, ¬ Crosses p q :=
  ⟨fun h p hp q hq hx => h.asymm p hp q hq hx.less.1 hx.less.2, legalKeyOrder_of_not_crosses⟩

/-- The first pid of a node and its 32768th are each less than the other, and a map with a mailbox
for each of them does not find the second. -/
theorem not_legalKeyOrder_issuable :
    issued [] (fun _ => 0) 0 = ⟨[], 1, 0, 0⟩ ∧ issued [] (fun _ => 0) 32767 = ⟨[], 0, 1, 0⟩ ∧
    Less ⟨[], 1, 0, 0⟩ ⟨[], 0, 1, 0⟩ ∧ Less ⟨[], 0, 1, 0⟩ ⟨[], 1, 0, 0⟩ ∧
    ((SearchTree.leaf.insert Less ⟨[], 1, 0, 0⟩ 1).bind fun t =>
      (t.insert Less ⟨[], 0, 1, 0⟩ 2).map fun t =>
        (t.inorder, t.find Less ⟨[], 0, 1, 0⟩)) =
      some ([(⟨[], 0, 1, 0⟩, 2), (⟨[], 1, 0, 0⟩, 1)], none) ∧
    ¬ LegalKeyOrder {p | p.Issuable} := by
  have hlast : issued [] (fun _ => 0) 32767 = ⟨[], 0, 1, 0⟩ := by
    obtain ⟨hid, hserial⟩ := PidSource.toNat_after 32767
    have hid : (PidSource.after 32767).pidId = 0 := UInt32.toNat_inj.mp hid
    have hserial : (PidSource.after 32767).serial = 1 := UInt32.toNat_inj.mp hserial
    simp [issued, PidSource.makePid, hid, hserial]
  refine ⟨rfl, hlast, by decide, by decide, by decide, fun h => ?_⟩
  have hfirst : Issuable ⟨[], 1, 0, 0⟩ := ⟨by decide, by decide⟩
  have hlater : Issuable ⟨[], 0, 1, 0⟩ := ⟨by decide, by decide⟩
  exact h.asymm _ hfirst _ hlater (by decide) (by decide)

/-- **The order is fit for the first 32767 pids of a node, and for no more.** -/
theorem legalKeyOrder_issued_iff (nodeName : Str) (creation : ℕ → UInt32) (n : ℕ) :
    LegalKeyOrder {p | ∃ i < n, p = issued nodeName creation i} ↔ n ≤ 32767 := by
  rw [legalKeyOrder_iff]
  constructor
  · intro h
    by_contra hn
    -- the first pid with a serial of one meets the first pid of all
    refine h _ ⟨32767, by omega, rfl⟩ _ ⟨0, by omega, rfl⟩ ?_
    rw [crosses_iff, toNat_id_issued, toNat_id_issued, toNat_serial_issued, toNat_serial_issued]
    omega
  · rintro hn p ⟨i, hi, rfl⟩ q ⟨j, hj, rfl⟩
    rw [crosses_iff, toNat_serial_issued, toNat_serial_issued]
    omega

end TinchPp
