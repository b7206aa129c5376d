import Mathlib.Data.Finset.Basic
import Mathlib.Data.Finset.Dedup
import Mathlib.Data.Sym.Sym2
import TinchPp.Lib.Recency
import TinchPp.Linker

/-!
# The linker is a relation between processes

What `linker.cpp` is for: a finite set of unordered pairs of pids. A call of `link` puts a pair in,
`unlink` takes it out, and the death of a process takes out all pairs it is in and tells the other
process of each pair about it.

The list of the implementation also has an order, that of the last `link` call for each pair, and
it is in that order that the processes are told. A notification for a mailbox of this node gets back
to the linker, to unlink the two (`incoming_exit`); by then the link is gone. The notifications here
do not raise.

## Main results

* `LinkerRun.pairs_link`, `pairs_unlink`, `pairs_onBrokenLinks` — the operations on the set of pairs
* `LinkerRun.inOrder_after` — the order of the list, after any calls
* `LinkerRun.refines` — all of it, for every sequence of calls and the call that comes next
-/

namespace TinchPp

open Linker Recency

/-- What the linker asks the `mailbox_controller` for. -/
inductive LinkNotification
  | requestExit (fromPid toPid : EPid) (reason : Str)
  | requestExit2 (fromPid toPid : EPid) (reason : Str)
deriving DecidableEq, Repr

/-- A call from outside. With a death comes what its notifications do: `getsBack` are the pids for
which the notification comes back to the linker with `unlink`. -/
inductive LinkerCall
  | link (fromPid toPid : EPid)
  | unlink (fromPid toPid : EPid)
  | breakLinksForLocal (dyingProcess : EPid) (getsBack : EPid → Bool)
  | closeLinksForLocal (dyingProcess : EPid) (reason : Str) (getsBack : EPid → Bool)

/-- A linker, and the notifications it has made. -/
structure LinkerRun where
  linker : Linker
  notifications : List LinkNotification
deriving DecidableEq, Repr

namespace LinkerRun

def create : LinkerRun := ⟨.create, []⟩

/-- One turn of the loop over the closed links. -/
def notify (notificationFn : EPid → LinkNotification) (dyingProcess : EPid)
    (getsBack : EPid → Bool) (r : LinkerRun) (pid : EPid) : LinkerRun :=
  ⟨if getsBack pid then r.linker.unlink dyingProcess pid else r.linker,
    r.notifications ++ [notificationFn pid]⟩

/-- `on_broken_links` -/
def onBrokenLinks (notificationFn : EPid → LinkNotification) (dyingProcess : EPid)
    (getsBack : EPid → Bool) (r : LinkerRun) : LinkerRun :=
  match r.linker.removeLinksFrom dyingProcess with
  | (closedLinks, linker) =>
    closedLinks.foldl (notify notificationFn dyingProcess getsBack) ⟨linker, r.notifications⟩

def breakNotification (dyingProcess pid : EPid) : LinkNotification :=
  .requestExit dyingProcess pid (bytesOf "error")

def closeNotification (dyingProcess : EPid) (reason : Str) (pid : EPid) : LinkNotification :=
  .requestExit2 dyingProcess pid reason

def call (r : LinkerRun) : LinkerCall → LinkerRun
  | .link fromPid toPid => { r with linker := r.linker.link fromPid toPid }
  | .unlink fromPid toPid => { r with linker := r.linker.unlink fromPid toPid }
  | .breakLinksForLocal p getsBack => r.onBrokenLinks (breakNotification p) p getsBack
  | .closeLinksForLocal p reason getsBack => r.onBrokenLinks (closeNotification p reason) p getsBack

/-- A linker after some calls. -/
def after (calls : List LinkerCall) : LinkerRun := calls.foldl call create

theorem after_append (calls : List LinkerCall) (c : LinkerCall) :
    after (calls ++ [c]) = (after calls).call c := by
  rw [after, List.foldl_append]
  rfl

/-! ### The set of pairs -/

/-- The pids of an entry, in no order. -/
def pairOf (i : Link) : Sym2 EPid := s(i.1, i.2)

theorem pairOf_eq_iff {i j : Link} : pairOf i = pairOf j ↔ SamePair i j := by
  obtain ⟨a, b⟩ := i
  obtain ⟨c, d⟩ := j
  rw [pairOf, pairOf, Sym2.eq_iff, SamePair, Prod.swap_prod_mk, Prod.mk.injEq, Prod.mk.injEq]

theorem mem_pairOf_iff {p : EPid} {i : Link} : p ∈ pairOf i ↔ Mentions p i := Sym2.mem_iff

/-- What the linker is about. -/
def pairs (k : Linker) : Finset (Sym2 EPid) := (k.establishedLinks.map pairOf).toFinset

theorem mem_pairs {k : Linker} {z : Sym2 EPid} :
    z ∈ pairs k ↔ ∃ i ∈ k.establishedLinks, pairOf i = z := by
  rw [pairs, List.mem_toFinset, List.mem_map]

theorem mem_pairs_mk {k : Linker} {p q : EPid} : s(p, q) ∈ pairs k ↔ k.Linked p q := by
  rw [mem_pairs]
  constructor
  · rintro ⟨i, hi, heq⟩
    rcases pairOf_eq_iff.mp (show pairOf i = pairOf (p, q) from heq) with rfl | rfl
    · exact .inl hi
    · exact .inr hi
  · rintro (h | h)
    · exact ⟨_, h, rfl⟩
    · exact ⟨_, h, Sym2.eq_swap⟩

theorem removeLinkBetween_eq (p q : EPid) (k : Linker) :
    (k.removeLinkBetween p q).establishedLinks =
      k.establishedLinks.filter fun i => pairOf i ≠ s(p, q) := by
  rw [removeLinkBetween, List.filter_filter]
  refine List.filter_congr fun i _ => ?_
  have h : pairOf i = s(p, q) ↔ i = (p, q) ∨ i = (q, p) :=
    pairOf_eq_iff (i := i) (j := (p, q))
  rw [← Bool.decide_and, decide_eq_decide, and_comm]
  exact not_or.symm.trans (not_congr h.symm)

theorem removeLinksFrom_eq (p : EPid) (k : Linker) :
    (k.removeLinksFrom p).2.establishedLinks =
      k.establishedLinks.filter fun i => p ∉ pairOf i := by
  rw [removeLinksFrom_snd]
  exact List.filter_congr fun i _ => by simp only [mem_pairOf_iff]

/-- The pairs of a filtered list, where the filter is about pairs. -/
theorem pairs_filter (l : List Link) (keep : Sym2 EPid → Prop) [DecidablePred keep] :
    pairs ⟨l.filter fun i => keep (pairOf i)⟩ = (pairs ⟨l⟩).filter keep := by
  ext z
  simp only [mem_pairs, Finset.mem_filter, List.mem_filter, decide_eq_true_eq]
  constructor
  · rintro ⟨i, ⟨hi, hkeep⟩, rfl⟩
    exact ⟨⟨i, hi, rfl⟩, hkeep⟩
  · rintro ⟨⟨i, hi, rfl⟩, hkeep⟩
    exact ⟨i, ⟨hi, hkeep⟩, rfl⟩

theorem pairs_unlink (p q : EPid) (k : Linker) :
    pairs (k.unlink p q) = (pairs k).erase s(p, q) := by
  have h : k.unlink p q = ⟨k.establishedLinks.filter fun i => pairOf i ≠ s(p, q)⟩ :=
    congrArg Linker.mk (removeLinkBetween_eq p q k)
  rw [h, pairs_filter _ (· ≠ s(p, q)), Finset.filter_ne']

theorem pairs_link (p q : EPid) (k : Linker) :
    pairs (k.link p q) = insert s(p, q) (pairs k) := by
  have h : pairs (k.link p q) = insert s(p, q) (pairs (k.unlink p q)) := by
    ext z
    simp only [mem_pairs, Finset.mem_insert, link, establishLinkBetween, unlink, List.mem_append,
      List.mem_singleton]
    constructor
    · rintro ⟨i, hi | rfl, rfl⟩
      · exact .inr ⟨i, hi, rfl⟩
      · exact .inl rfl
    · rintro (rfl | ⟨i, hi, rfl⟩)
      · exact ⟨_, .inr rfl, rfl⟩
      · exact ⟨i, .inl hi, rfl⟩
  rw [h, pairs_unlink]
  ext z
  by_cases hz : z = s(p, q) <;> simp [hz]

/-! ### A death -/

/-- The pid handed out for an entry is the other one of its pair. -/
theorem mk_otherEnd {p : EPid} {i : Link} (h : Mentions p i) : s(p, otherEnd p i) = pairOf i := by
  obtain ⟨a, b⟩ := i
  by_cases ha : p = a
  · simp [otherEnd, pairOf, ha]
  · obtain rfl := h.resolve_left ha
    rw [otherEnd, if_neg ha, pairOf, Sym2.eq_swap]

/-- The linked pids, as pairs, in the order of the list. -/
theorem map_linkedPids (p : EPid) (k : Linker) : (k.linkedPids p).map (fun q => s(p, q)) =
    (k.establishedLinks.filter (Mentions p)).map pairOf := by
  rw [linkedPids_eq, List.map_map]
  exact List.map_congr_left fun i hi => mk_otherEnd (of_decide_eq_true (List.mem_filter.mp hi).2)

/-- Where the dying process has no links left, a notification does nothing to the linker. -/
theorem foldl_notify (notificationFn : EPid → LinkNotification) {p : EPid} (getsBack : EPid → Bool)
    (pids : List EPid) {k : Linker} (hk : ∀ i ∈ k.establishedLinks, ¬ Mentions p i)
    (made : List LinkNotification) : pids.foldl (notify notificationFn p getsBack) ⟨k, made⟩ =
      ⟨k, made ++ pids.map notificationFn⟩ := by
  induction pids generalizing made with
  | nil => rw [List.foldl_nil, List.map_nil, List.append_nil]
  | cons pid pids ih =>
    have hnotify : notify notificationFn p getsBack ⟨k, made⟩ pid =
        ⟨k, made ++ [notificationFn pid]⟩ := by
      rw [notify, unlink_of_not_mentions hk, ite_self]
    rw [List.foldl_cons, hnotify, ih, List.append_assoc, List.singleton_append, List.map_cons]

theorem onBrokenLinks_eq (notificationFn : EPid → LinkNotification) (p : EPid)
    (getsBack : EPid → Bool) (r : LinkerRun) : r.onBrokenLinks notificationFn p getsBack =
      ⟨(r.linker.removeLinksFrom p).2,
        r.notifications ++ (r.linker.linkedPids p).map notificationFn⟩ :=
  foldl_notify notificationFn getsBack _ (fun _ => not_mentions_removeLinksFrom) _

theorem pairs_onBrokenLinks (notificationFn : EPid → LinkNotification) (p : EPid)
    (getsBack : EPid → Bool) (r : LinkerRun) :
    pairs (r.onBrokenLinks notificationFn p getsBack).linker =
      (pairs r.linker).filter (p ∉ ·) := by
  rw [onBrokenLinks_eq]
  have h : (r.linker.removeLinksFrom p).2 =
      ⟨r.linker.establishedLinks.filter fun i => p ∉ pairOf i⟩ :=
    congrArg Linker.mk (removeLinksFrom_eq p r.linker)
  rw [h, pairs_filter _ (p ∉ ·)]

/-! ### The order of the list -/

/-- The call links the two pids of the pair. -/
def Links : LinkerCall → Sym2 EPid → Prop
  | .link fromPid toPid, z => s(fromPid, toPid) = z
  | _, _ => False

/-- The list of the linker, as pairs. -/
def pairList (r : LinkerRun) : List (Sym2 EPid) := r.linker.establishedLinks.map pairOf

theorem distinct_iff_nodup (r : LinkerRun) : r.linker.Distinct ↔ r.pairList.Nodup := by
  rw [pairList, List.Nodup, List.pairwise_map, Distinct]
  simp only [ne_eq, pairOf_eq_iff]

/-- One more call. -/
theorem inOrder_call {calls : List LinkerCall} {r : LinkerRun} (h : InOrder Links calls r.pairList)
    (c : LinkerCall) : InOrder Links (calls ++ [c]) (r.call c).pairList := by
  have hdeath (notificationFn : EPid → LinkNotification) (p : EPid) (getsBack : EPid → Bool) :
      (r.onBrokenLinks notificationFn p getsBack).pairList.Sublist r.pairList := by
    rw [onBrokenLinks_eq]
    exact (removeLinksFrom_eq p r.linker ▸ List.filter_sublist).map _
  have hunlink (p q : EPid) :
      ((r.linker.removeLinkBetween p q).establishedLinks.map pairOf).Sublist r.pairList :=
    (removeLinkBetween_eq p q r.linker ▸ List.filter_sublist).map _
  cases c with
  | link p q =>
    rw [show (r.call (.link p q)).pairList =
      (r.linker.removeLinkBetween p q).establishedLinks.map pairOf ++ [s(p, q)] from
        List.map_append]
    refine h.touch (hunlink p q) rfl fun z hz hlinks => ?_
    -- the old entry for the pair has been taken out
    rw [removeLinkBetween_eq] at hz
    obtain ⟨i, hi, rfl⟩ := List.mem_map.mp hz
    exact of_decide_eq_true (List.mem_filter.mp hi).2 (Eq.symm hlinks)
  | unlink p q => exact h.sublist (hunlink p q) fun _ _ => id
  | breakLinksForLocal p getsBack => exact h.sublist (hdeath _ p getsBack) fun _ _ => id
  | closeLinksForLocal p reason getsBack => exact h.sublist (hdeath _ p getsBack) fun _ _ => id

theorem inOrder_after (calls : List LinkerCall) : InOrder Links calls (after calls).pairList := by
  induction calls using List.reverseRecOn with
  | nil => exact inOrder_nil
  | append_singleton calls c ih =>
    rw [after_append]
    exact inOrder_call ih c

theorem distinct_call {r : LinkerRun} (h : r.linker.Distinct) (c : LinkerCall) :
    (r.call c).linker.Distinct := by
  cases c with
  | link p q => exact h.link p q
  | unlink p q => exact h.unlink p q
  | breakLinksForLocal p getsBack =>
    rw [call, onBrokenLinks_eq]
    exact h.removeLinksFrom p
  | closeLinksForLocal p reason getsBack =>
    rw [call, onBrokenLinks_eq]
    exact h.removeLinksFrom p

theorem distinct_after (calls : List LinkerCall) : (after calls).linker.Distinct := by
  induction calls using List.reverseRecOn with
  | nil => exact distinct_create
  | append_singleton calls c ih =>
    rw [after_append]
    exact distinct_call ih c

/-! ### The refinement -/

/-- What the death of a process has to do to a linker that has had some calls: its pairs are gone,
all others are still there in the same order, and for each process it was linked to there has been
one notification, in the order in which they were last linked. -/
structure Ends (calls : List LinkerCall) (p : EPid) (notificationFn : EPid → LinkNotification)
    (r r' : LinkerRun) : Prop where
  pairs_eq : pairs r'.linker = (pairs r.linker).filter (p ∉ ·)
  others : r'.linker.establishedLinks = r.linker.establishedLinks.filter fun i => p ∉ pairOf i
  notified : ∃ pids : List EPid,
    r'.notifications = r.notifications ++ pids.map notificationFn ∧ pids.Nodup ∧
      (∀ q, q ∈ pids ↔ s(p, q) ∈ pairs r.linker) ∧
      pids.Pairwise fun q q' => Before Links calls s(p, q) s(p, q')

/-- What a call has to do, after some others. -/
def Refines (calls : List LinkerCall) (r r' : LinkerRun) : LinkerCall → Prop
  | .link p q => pairs r'.linker = insert s(p, q) (pairs r.linker) ∧
      r'.linker.establishedLinks =
        (r.linker.establishedLinks.filter fun i => pairOf i ≠ s(p, q)) ++ [(p, q)] ∧
      r'.notifications = r.notifications
  | .unlink p q => pairs r'.linker = (pairs r.linker).erase s(p, q) ∧
      r'.linker.establishedLinks =
        (r.linker.establishedLinks.filter fun i => pairOf i ≠ s(p, q)) ∧
      r'.notifications = r.notifications
  | .breakLinksForLocal p _ => Ends calls p (breakNotification p) r r'
  | .closeLinksForLocal p reason _ => Ends calls p (closeNotification p reason) r r'

theorem ends_onBrokenLinks (calls : List LinkerCall) (p : EPid)
    (notificationFn : EPid → LinkNotification) (getsBack : EPid → Bool) :
    Ends calls p notificationFn (after calls)
      ((after calls).onBrokenLinks notificationFn p getsBack) where
  pairs_eq := pairs_onBrokenLinks notificationFn p getsBack _
  others := by rw [onBrokenLinks_eq, removeLinksFrom_eq]
  notified := by
    refine ⟨(after calls).linker.linkedPids p, by rw [onBrokenLinks_eq],
      linkedPids_nodup (distinct_after calls) p, fun q => ?_, ?_⟩
    · rw [mem_pairs_mk, linked_iff_mem_linkedPids]
    · have hpairs : ((after calls).linker.linkedPids p).map (fun q => s(p, q)) |>.Pairwise
          (Before Links calls) := by
        rw [map_linkedPids]
        exact (inOrder_after calls).ordered.sublist (List.filter_sublist.map _)
      exact List.pairwise_map.mp hpairs

/-- **The linker is a symmetric relation with exactly-once notification.** After any calls no pair
is there twice, and the next call does to the set of pairs what it says. -/
theorem refines (calls : List LinkerCall) (c : LinkerCall) :
    (after calls).pairList.Nodup ∧ Refines calls (after calls) ((after calls).call c) c := by
  refine ⟨(distinct_iff_nodup _).mp (distinct_after calls), ?_⟩
  cases c with
  | link p q =>
    refine ⟨pairs_link p q _, ?_, rfl⟩
    rw [← removeLinkBetween_eq]
    rfl
  | unlink p q => exact ⟨pairs_unlink p q _, removeLinkBetween_eq p q _, rfl⟩
  | breakLinksForLocal p getsBack => exact ends_onBrokenLinks calls p _ getsBack
  | closeLinksForLocal p reason getsBack => exact ends_onBrokenLinks calls p _ getsBack

end LinkerRun

end TinchPp
