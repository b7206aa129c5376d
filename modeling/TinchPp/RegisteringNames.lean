import TinchPp.CompleteClosing

/-!
# Registering a name

`create_mailbox(registered_name)` enters a new mailbox into two tables. The results of the two
insertions are not looked at, and an insertion leaves an entry that is there as it is. If the second
one raises, because there is no memory left, a scope guard takes back the first: it removes what the
tables have under the new pid *and* under the name, whoever they belong to. The mailbox that is
destroyed on the way out posts a close of its own.

## Main results

* `ActualNode.yields_iff` — a lookup yields the new mailbox exactly if there was no entry before
* `ActualNode.rolledBack_iff` — and then, too, a rollback leaves the tables as they were
* `ActualNode.registersWhole_iff` — a registration succeeds or fails as a whole exactly if neither the
  name nor the new pid is in use
-/

namespace TinchPp

open EventSystem

/-- The insertion that raises for want of memory. -/
inductive InsertFailure
  | mailboxes
  | registeredMailboxes
deriving DecidableEq, Repr

/-- `std::bad_alloc` -/
inductive BadAlloc
  | badAlloc
deriving DecidableEq, Repr

namespace ActualNode

/-! ### The call -/

/-- The new mailbox is destroyed while an exception is on its way. -/
def unwound (name : Str) (n : ActualNode) : ActualNode :=
  match n.newMailbox name with
  | (mbox, n') => (n'.expire n.objects.length).closeMailboxAsync n.objects.length mbox.ownPid name

/-- `create_mailbox(registered_name)`, with the insertion that raises, if any: the new mailbox or the
exception. -/
def createMailboxOrRaise (failure : Option InsertFailure) (registeredName : Str) (n : ActualNode) :
    Except BadAlloc Handle × ActualNode :=
  match failure with
  | none => (.ok n.objects.length, n.createMailboxNamed registeredName)
  | some .mailboxes => (.error .badAlloc, n.unwound registeredName)
  | some .registeredMailboxes =>
    match n.newMailbox registeredName with
    | (mbox, _) =>
      (.error .badAlloc, { n.unwound registeredName with
        mailboxes := erase mbox.ownPid.key
          (insertNew mbox.ownPid.key n.objects.length n.mailboxes)
        registeredMailboxes := erase registeredName n.registeredMailboxes })

/-- A lookup leads to the mailbox. -/
def Yields {κ : Type} [DecidableEq κ] (n : ActualNode) (key : κ) (table : κ → Option Handle)
    (h : Handle) : Prop :=
  ∀ name, (fetchMailbox key name table n).1 = .ok h

/-- The pid that the next mailbox is going to have. -/
def nextPid (n : ActualNode) : EPid := (n.pidSource.makePid n.nodeName n.creation).1

/-- The name is registered and the mailbox is known, or nothing has changed in the tables. -/
def RegistersWhole (n : ActualNode) (registeredName : Str) (failure : Option InsertFailure) :
    Prop :=
  match n.createMailboxOrRaise failure registeredName with
  | (.ok h, n') => (∃ o, n'.objects[h]? = some o ∧ o.ownPid = n.nextPid) ∧
    n'.Yields n.nextPid.key n'.mailboxes h ∧ n'.Yields registeredName n'.registeredMailboxes h
  | (.error _, n') =>
    n'.mailboxes = n.mailboxes ∧ n'.registeredMailboxes = n.registeredMailboxes

/-! ### One table -/

variable {κ : Type} [DecidableEq κ] {n : ActualNode}

theorem insertNew_of_none {key : κ} {table : κ → Option Handle} (h : table key = none) (m : Handle) :
    insertNew key m table = Function.update table key (some m) := by
  rw [insertNew, h]
  exact if_neg (by simp)

theorem insertNew_of_some {key : κ} {table : κ → Option Handle} {h : Handle}
    (hkey : table key = some h) (m : Handle) : insertNew key m table = table := by
  rw [insertNew, hkey]
  exact if_pos rfl

/-- What a lookup yields is what the table has, as long as it is owned. -/
theorem eq_some_of_yields {key : κ} {table : κ → Option Handle} {h : Handle}
    (hy : n.Yields key table h) : table key = some h := by
  have hfetch := hy []
  rw [fetchMailbox] at hfetch
  split at hfetch
  · cases hfetch
  · next h' hkey =>
    split at hfetch
    · cases hfetch
    · rw [hkey, Except.ok.inj hfetch]

/-- **A lookup yields the new entry exactly if there was none before.** -/
theorem yields_iff {key : κ} {table : κ → Option Handle} {m : Handle}
    (hnew : ∀ h, table key = some h → h ≠ m) (howned : n.isExpired m = false) :
    n.Yields key (insertNew key m table) m ↔ table key = none := by
  constructor
  · intro hy
    rcases hkey : table key with _ | h
    · rfl
    · have hsome := eq_some_of_yields hy
      rw [insertNew_of_some hkey, hkey] at hsome
      exact absurd (Option.some_inj.mp hsome) (hnew h hkey)
  · intro hkey name
    rw [insertNew_of_none hkey, fetchMailbox_of_owned (Function.update_self ..) howned]

theorem erase_eq_self_iff {key : κ} {table : κ → Option Handle} :
    erase key table = table ↔ table key = none := by
  rw [erase, Function.update_eq_self_iff]
  exact eq_comm

/-- **A rollback leaves a table as it was exactly if there was no entry before.** -/
theorem rolledBack_iff {key : κ} {table : κ → Option Handle} (m : Handle) :
    erase key (insertNew key m table) = table ↔ table key = none := by
  rcases hkey : table key with _ | h
  · rw [insertNew_of_none hkey, erase, Function.update_idem]
    exact iff_of_true (erase_eq_self_iff.mpr hkey) rfl
  · rw [insertNew_of_some hkey, erase_eq_self_iff, hkey]

/-! ### Both tables -/

/-- A mailbox that is in a table is not a new one. -/
theorem Wf.ne_length (hn : n.Wf) : (∀ k h, n.mailboxes k = some h → h ≠ n.objects.length) ∧
    ∀ r h, n.registeredMailboxes r = some h → h ≠ n.objects.length := by
  refine ⟨fun k h hk => ?_, fun r h hr => ?_⟩
  · obtain ⟨o, ho, -⟩ := hn.filed k h hk
    exact Nat.ne_of_lt (List.getElem?_eq_some_iff.mp ho).1
  · obtain ⟨o, ho, -⟩ := hn.named r h hr
    exact Nat.ne_of_lt (List.getElem?_eq_some_iff.mp ho).1

theorem run_wf {nodeName : Str} {es : List NodeEvent}
    (h : run step (create nodeName) es = some n) : n.Wf :=
  run_induction (P := Wf) (fun _ _ _ hs ht => hs.step ht) (wf_create nodeName) h

/-- **A registration succeeds or fails as a whole exactly if neither the name nor the new pid is in
use**, in every reachable state; unless it raises before there is anything to take back. -/
theorem registersWhole_iff {nodeName : Str} {es : List NodeEvent}
    (h : run step (create nodeName) es = some n) (registeredName : Str)
    (failure : Option InsertFailure) :
    n.RegistersWhole registeredName failure ↔ failure = some .mailboxes ∨
      (n.mailboxes n.nextPid.key = none ∧ n.registeredMailboxes registeredName = none) := by
  obtain ⟨hfiled, hnamed⟩ := (run_wf h).ne_length
  rcases failure with _ | _ | _
  · have howned : (n.createMailboxNamed registeredName).isExpired n.objects.length = false := by
      simp [isExpired, createMailboxNamed, newMailbox]
    have hobject : ∃ o, (n.createMailboxNamed registeredName).objects[n.objects.length]? = some o ∧
        o.ownPid = n.nextPid := ⟨_, List.getElem?_concat_length, rfl⟩
    have hpids := yields_iff (hfiled n.nextPid.key) howned
    have hnames := yields_iff (hnamed registeredName) howned
    constructor
    · rintro ⟨-, hp, hr⟩
      exact .inr ⟨hpids.mp hp, hnames.mp hr⟩
    · rintro (hnone | ⟨hp, hr⟩)
      · cases hnone
      · exact ⟨hobject, hpids.mpr hp, hnames.mpr hr⟩
  · exact iff_of_true ⟨rfl, rfl⟩ (.inl rfl)
  · constructor
    · rintro ⟨hp, hr⟩
      exact .inr ⟨(rolledBack_iff _).mp hp, erase_eq_self_iff.mp hr⟩
    · rintro (hnone | ⟨hp, hr⟩)
      · cases hnone
      · exact ⟨(rolledBack_iff _).mpr hp, erase_eq_self_iff.mpr hr⟩

/-- A node with a mailbox `b`, one without a name, and a mailbox `a` that has been closed: the name
`a` is free again, and the next pid has not been used. -/
theorem registersWhole_reused : ∃ n, run step (create (bytesOf "n@h"))
      [.createMailboxNamed (bytesOf "b"), .createMailbox, .createMailboxNamed (bytesOf "a"),
        .close 2 allReachable] = some n ∧ n.objects.length = 3 ∧
    n.RegistersWhole (bytesOf "a") none := by
  obtain ⟨n, hn, hlen, hpid, hname⟩ : ∃ n, run step (create (bytesOf "n@h"))
        [.createMailboxNamed (bytesOf "b"), .createMailbox, .createMailboxNamed (bytesOf "a"),
          .close 2 allReachable] = some n ∧ n.objects.length = 3 ∧
      n.mailboxes n.nextPid.key = none ∧ n.registeredMailboxes (bytesOf "a") = none :=
    ⟨_, rfl, rfl, rfl, rfl⟩
  exact ⟨n, hn, hlen, (registersWhole_iff hn (bytesOf "a") none).mpr (.inr ⟨hpid, hname⟩)⟩

/-- A second mailbox is created under a name that is taken by an open one, or by one that has been
destroyed and whose close is still queued: it is returned, and the name leads elsewhere. -/
theorem not_registersWhole_taken :
    (∃ n, run step (create (bytesOf "n@h")) [.createMailboxNamed (bytesOf "a")] = some n ∧
      ¬ n.RegistersWhole (bytesOf "a") none) ∧
    ∃ n, run step (create (bytesOf "n@h")) [.createMailboxNamed (bytesOf "a"),
        .destroy 0 true allReachable] = some n ∧ n.posted.length = 1 ∧
      ¬ n.RegistersWhole (bytesOf "a") none := by
  refine ⟨⟨_, rfl, fun h => ?_⟩, _, rfl, rfl, fun h => ?_⟩
  · exact absurd (eq_some_of_yields h.2.2) (by decide)
  · exact absurd (eq_some_of_yields h.2.2) (by decide)

end ActualNode

end TinchPp
