import TinchPp.Lib.EventSystem
import TinchPp.Types

/-!
# The mailbox

`actual_mailbox.cpp`. A mailbox holds two queues, the received messages and the broken links, and
a flag, `message_ready`, that a blocked receiver waits for. All of it is protected by one mutex, so
what the threads do to a mailbox is a sequence of the atomic steps below:

* the I/O thread, or another client thread, hands over a message (`onIncoming`) or reports a broken
  link (`onLinkBroken`), and the handler of a timer runs (`receiveTmo`);
* a client thread enters `receive`, which either gets through to `pickFirstMsg` at once or goes to
  sleep on the condition variable;
* a sleeping receiver wakes up, tests `message_ready` again, and gets through or goes on sleeping.

`MailboxRun` is a mailbox with its sleeping receivers and the history of what went in and out of
it. The histories are only written, never read.

## Main results

* `MailboxRun.inOrder_iff_takesTheOnly` — messages come out in the order they went in exactly as
  long as no receive finds two of them queued
* `MailboxRun.pendingGetsThrough_iff` — a receiver with something to report is never put to sleep
  exactly as long as no receive finds two broken links and no message
-/

namespace TinchPp

open EventSystem

/-! ### The state and its operations -/

/-- The data members of `actual_mailbox` that change. -/
structure ActualMailbox where
  receivedMsgs : List MsgSeq
  messageReady : Bool
  brokenLinks : List (Str × EPid)
deriving DecidableEq, Repr

/-- The exceptions `receive` throws. -/
inductive ReceiveError
  | mailboxReceiveTmo
  | linkBroken (reason : Str) (pid : EPid)
deriving DecidableEq, Repr

/-- The error codes a timer handler tells apart. -/
inductive TimerError
  | operationAborted
  | other
deriving DecidableEq, Repr

namespace ActualMailbox

def create : ActualMailbox := ⟨[], false, []⟩

/-- Lock, act, set the flag. The `notify_one` that follows only makes a sleeping receiver run. -/
def notifyReceive (receiveAction : ActualMailbox → ActualMailbox) (m : ActualMailbox) :
    ActualMailbox :=
  { receiveAction m with messageReady := true }

/-- The message goes to the *front* of `received_msgs` (`push_front`). -/
def onIncoming (msg : MsgSeq) : ActualMailbox → ActualMailbox :=
  notifyReceive fun m => { m with receivedMsgs := msg :: m.receivedMsgs }

def onLinkBroken (reason : Str) (pid : EPid) : ActualMailbox → ActualMailbox :=
  notifyReceive fun m => { m with brokenLinks := m.brokenLinks ++ [(reason, pid)] }

/-- The handler of a timer started by `receive(tmo)`. -/
def receiveTmo (error : Option TimerError) (m : ActualMailbox) : ActualMailbox :=
  if error = some .operationAborted then m else notifyReceive id m

/-- The test a thread makes as it enters `wait_for_at_least_one_message`. -/
def waitsOnEntry (m : ActualMailbox) : Bool := m.receivedMsgs.isEmpty && !m.messageReady

/-- The test a thread makes as the condition variable wakes it up. -/
def waitsOnWakeUp (m : ActualMailbox) : Bool := !m.messageReady

/-- Clear the flag, then report a broken link, or that nothing has arrived, or the message at the
front of `received_msgs`, in this order. -/
def pickFirstMsg (m : ActualMailbox) : Except ReceiveError MsgSeq × ActualMailbox :=
  let m := { m with messageReady := false }
  match m.brokenLinks with
  | (reason, pid) :: rest => (.error (.linkBroken reason pid), { m with brokenLinks := rest })
  | [] =>
    match m.receivedMsgs with
    | [] => (.error .mailboxReceiveTmo, m)
    | msg :: rest => (.ok msg, { m with receivedMsgs := rest })

@[simp] theorem onIncoming_receivedMsgs (msg : MsgSeq) (m : ActualMailbox) :
    (m.onIncoming msg).receivedMsgs = msg :: m.receivedMsgs := rfl

@[simp] theorem onIncoming_brokenLinks (msg : MsgSeq) (m : ActualMailbox) :
    (m.onIncoming msg).brokenLinks = m.brokenLinks := rfl

@[simp] theorem onLinkBroken_receivedMsgs (reason : Str) (pid : EPid) (m : ActualMailbox) :
    (m.onLinkBroken reason pid).receivedMsgs = m.receivedMsgs := rfl

@[simp] theorem onLinkBroken_brokenLinks (reason : Str) (pid : EPid) (m : ActualMailbox) :
    (m.onLinkBroken reason pid).brokenLinks = m.brokenLinks ++ [(reason, pid)] := rfl

@[simp] theorem receiveTmo_receivedMsgs (error : Option TimerError) (m : ActualMailbox) :
    (m.receiveTmo error).receivedMsgs = m.receivedMsgs := by
  unfold receiveTmo; split <;> rfl

@[simp] theorem receiveTmo_brokenLinks (error : Option TimerError) (m : ActualMailbox) :
    (m.receiveTmo error).brokenLinks = m.brokenLinks := by
  unfold receiveTmo; split <;> rfl

@[simp] theorem pickFirstMsg_messageReady (m : ActualMailbox) :
    m.pickFirstMsg.2.messageReady = false := by
  unfold pickFirstMsg; dsimp only; split
  · rfl
  · split <;> rfl

/-- A broken link comes first, and leaves the messages alone. -/
theorem pickFirstMsg_of_brokenLinks {m : ActualMailbox} {reason : Str} {pid : EPid} {rest}
    (h : m.brokenLinks = (reason, pid) :: rest) :
    m.pickFirstMsg = (.error (.linkBroken reason pid), ⟨m.receivedMsgs, false, rest⟩) := by
  simp [pickFirstMsg, h]

theorem pickFirstMsg_of_empty {m : ActualMailbox} (hl : m.brokenLinks = [])
    (hm : m.receivedMsgs = []) :
    m.pickFirstMsg = (.error .mailboxReceiveTmo, ⟨[], false, []⟩) := by
  simp [pickFirstMsg, hl, hm]

theorem pickFirstMsg_of_message {m : ActualMailbox} {msg : MsgSeq} {rest}
    (hl : m.brokenLinks = []) (hm : m.receivedMsgs = msg :: rest) :
    m.pickFirstMsg = (.ok msg, ⟨rest, false, []⟩) := by
  simp [pickFirstMsg, hl, hm]

/-- A receiver takes the message at the front, or it throws and leaves the messages alone. -/
theorem pickFirstMsg_cases (m : ActualMailbox) :
    (∃ msg rest, m.receivedMsgs = msg :: rest ∧ m.pickFirstMsg.1 = .ok msg ∧
      m.pickFirstMsg.2.receivedMsgs = rest) ∨
    ∃ err, m.pickFirstMsg.1 = .error err ∧ m.pickFirstMsg.2.receivedMsgs = m.receivedMsgs := by
  rcases hl : m.brokenLinks with _ | ⟨⟨reason, pid⟩, rest⟩
  · rcases hq : m.receivedMsgs with _ | ⟨msg, rest⟩
    · rw [pickFirstMsg_of_empty hl hq]
      exact .inr ⟨_, rfl, rfl⟩
    · rw [pickFirstMsg_of_message hl hq]
      exact .inl ⟨msg, rest, rfl, rfl, rfl⟩
  · rw [pickFirstMsg_of_brokenLinks hl]
    exact .inr ⟨_, rfl, rfl⟩

end ActualMailbox

/-! ### Runs -/

/-- One atomic step on a mailbox. -/
inductive MailboxEvent
  | incoming (msg : MsgSeq)
  | linkBroken (reason : Str) (pid : EPid)
  | tmo (error : Option TimerError)
  | receive
  | wakeUp
deriving DecidableEq, Repr

/-- A mailbox, the number of receivers asleep in it, and its history. -/
structure MailboxRun where
  mbox : ActualMailbox
  blocked : ℕ
  arrived : List MsgSeq
  outcomes : List (Except ReceiveError MsgSeq)

namespace MailboxRun

def start : MailboxRun := ⟨.create, 0, [], []⟩

/-- The messages the receives have returned, in order. -/
def returned (r : MailboxRun) : List MsgSeq := r.outcomes.filterMap Except.toOption

/-- A receiver that got through takes what it finds. -/
def pick (r : MailboxRun) : MailboxRun :=
  { r with mbox := r.mbox.pickFirstMsg.2, outcomes := r.outcomes ++ [r.mbox.pickFirstMsg.1] }

/-- A step of a run. Only a sleeping receiver can wake up. -/
def step (r : MailboxRun) : MailboxEvent → Option MailboxRun
  | .incoming msg =>
    some { r with mbox := r.mbox.onIncoming msg, arrived := r.arrived ++ [msg] }
  | .linkBroken reason pid => some { r with mbox := r.mbox.onLinkBroken reason pid }
  | .tmo error => some { r with mbox := r.mbox.receiveTmo error }
  | .receive => some (if r.mbox.waitsOnEntry then { r with blocked := r.blocked + 1 } else r.pick)
  | .wakeUp =>
    if r.blocked = 0 then none
    else some (if r.mbox.waitsOnWakeUp then r else { r.pick with blocked := r.blocked - 1 })

/-- The event makes a receiver get through to `pickFirstMsg`. -/
def Picks (r : MailboxRun) : MailboxEvent → Prop
  | .receive => r.mbox.waitsOnEntry = false
  | .wakeUp => r.blocked ≠ 0 ∧ r.mbox.waitsOnWakeUp = false
  | _ => False

/-- Everything a step can do to the mailbox and the histories: hand over a message, leave both
queues and the histories alone apart from a new broken link, or pick. -/
theorem step_cases {r t : MailboxRun} {e : MailboxEvent} (h : r.step e = some t) :
    (∃ msg, e = .incoming msg ∧ t.mbox = r.mbox.onIncoming msg ∧
      t.arrived = r.arrived ++ [msg] ∧ t.outcomes = r.outcomes) ∨
    (∃ reason pid, e = .linkBroken reason pid ∧ t.mbox = r.mbox.onLinkBroken reason pid ∧
      t.arrived = r.arrived ∧ t.outcomes = r.outcomes) ∨
    (∃ error, e = .tmo error ∧ t.mbox = r.mbox.receiveTmo error ∧
      t.arrived = r.arrived ∧ t.outcomes = r.outcomes) ∨
    (r.Picks e ∧ t.mbox = r.mbox.pickFirstMsg.2 ∧ t.arrived = r.arrived ∧
      t.outcomes = r.outcomes ++ [r.mbox.pickFirstMsg.1]) ∨
    ((e = .receive ∨ e = .wakeUp) ∧ ¬ r.Picks e ∧ t.mbox = r.mbox ∧ t.arrived = r.arrived ∧
      t.outcomes = r.outcomes) := by
  cases e with
  | incoming msg =>
    obtain rfl := by simpa [step] using h
    exact .inl ⟨msg, rfl, rfl, rfl, rfl⟩
  | linkBroken reason pid =>
    obtain rfl := by simpa [step] using h
    exact .inr (.inl ⟨reason, pid, rfl, rfl, rfl, rfl⟩)
  | tmo error =>
    obtain rfl := by simpa [step] using h
    exact .inr (.inr (.inl ⟨error, rfl, rfl, rfl, rfl⟩))
  | receive =>
    simp only [step, Option.some.injEq] at h
    cases hw : r.mbox.waitsOnEntry with
    | true =>
      rw [if_pos hw] at h
      subst h
      exact .inr (.inr (.inr (.inr ⟨.inl rfl, by simp [Picks, hw], rfl, rfl, rfl⟩)))
    | false =>
      rw [if_neg (by simp [hw])] at h
      subst h
      exact .inr (.inr (.inr (.inl ⟨hw, rfl, rfl, rfl⟩)))
  | wakeUp =>
    by_cases hb : r.blocked = 0
    · simp [step, hb] at h
    simp only [step, if_neg hb, Option.some.injEq] at h
    cases hw : r.mbox.waitsOnWakeUp with
    | true =>
      rw [if_pos hw] at h
      subst h
      exact .inr (.inr (.inr (.inr ⟨.inr rfl, by simp [Picks, hw], rfl, rfl, rfl⟩)))
    | false =>
      rw [if_neg (by simp [hw])] at h
      subst h
      exact .inr (.inr (.inr (.inl ⟨⟨hb, hw⟩, rfl, rfl, rfl⟩)))

/-- A receiver that gets through does take what it finds. -/
theorem exists_step_of_picks {r : MailboxRun} {e : MailboxEvent} (hp : r.Picks e) :
    ∃ t, r.step e = some t ∧ t.mbox = r.mbox.pickFirstMsg.2 ∧ t.arrived = r.arrived ∧
      t.outcomes = r.outcomes ++ [r.mbox.pickFirstMsg.1] := by
  cases e with
  | receive =>
    have hw : r.mbox.waitsOnEntry = false := hp
    exact ⟨r.pick, by simp [step, hw], rfl, rfl, rfl⟩
  | wakeUp =>
    obtain ⟨hb, hw⟩ := hp
    exact ⟨{ r.pick with blocked := r.blocked - 1 }, by simp [step, hb, hw], rfl, rfl, rfl⟩
  | incoming | linkBroken | tmo => exact hp.elim

/-! ### Order

A message goes in at the front of the queue and comes out at the front, so the queue, read from
its end, is what has arrived and not been returned yet. Taking a message keeps that picture only
when it is the one message there is. -/

/-- What has been returned is a prefix of what has arrived. -/
def InOrder (r : MailboxRun) : Prop := r.returned <+: r.arrived

/-- A receiver that takes a message takes the only one queued. -/
def TakesTheOnly (r : MailboxRun) (e : MailboxEvent) : Prop :=
  r.Picks e → r.mbox.brokenLinks = [] → r.mbox.receivedMsgs.length ≤ 1

/-- The messages a list of events hands to `on_incoming`, in order. -/
def arrivals (es : List MailboxEvent) : List MsgSeq :=
  es.filterMap fun
    | .incoming msg => some msg
    | _ => none

/-- Every message has been returned or is still queued, oldest last. -/
def Accounted (r : MailboxRun) : Prop := r.arrived = r.returned ++ r.mbox.receivedMsgs.reverse

theorem Accounted.inOrder {r : MailboxRun} (h : r.Accounted) : r.InOrder :=
  ⟨r.mbox.receivedMsgs.reverse, h.symm⟩

theorem returned_of_error {r t : MailboxRun} {err : ReceiveError}
    (h : t.outcomes = r.outcomes ++ [.error err]) : t.returned = r.returned := by
  simp [returned, h, Except.toOption]

theorem returned_of_ok {r t : MailboxRun} {msg : MsgSeq}
    (h : t.outcomes = r.outcomes ++ [.ok msg]) : t.returned = r.returned ++ [msg] := by
  simp [returned, h, Except.toOption]

theorem returned_of_eq {r t : MailboxRun} (h : t.outcomes = r.outcomes) :
    t.returned = r.returned := by
  rw [returned, h, returned]

/-- The three ways out of `pickFirstMsg`: a broken link, a time-out, or a message. -/
theorem pick_cases {r t : MailboxRun} (hm : t.mbox = r.mbox.pickFirstMsg.2)
    (ho : t.outcomes = r.outcomes ++ [r.mbox.pickFirstMsg.1]) :
    (r.mbox.brokenLinks ≠ [] ∧ t.mbox.receivedMsgs = r.mbox.receivedMsgs ∧
      t.mbox.brokenLinks = r.mbox.brokenLinks.tail ∧ t.returned = r.returned) ∨
    (r.mbox.brokenLinks = [] ∧ r.mbox.receivedMsgs = [] ∧ t.mbox.receivedMsgs = [] ∧
      t.mbox.brokenLinks = [] ∧ t.returned = r.returned) ∨
    (∃ msg rest, r.mbox.brokenLinks = [] ∧ r.mbox.receivedMsgs = msg :: rest ∧
      t.mbox.receivedMsgs = rest ∧ t.mbox.brokenLinks = [] ∧
      t.returned = r.returned ++ [msg]) := by
  rcases hl : r.mbox.brokenLinks with _ | ⟨⟨reason, pid⟩, rest⟩
  · rcases hq : r.mbox.receivedMsgs with _ | ⟨msg, rest⟩
    · rw [ActualMailbox.pickFirstMsg_of_empty hl hq] at hm ho
      exact .inr (.inl ⟨rfl, rfl, by rw [hm], by rw [hm], returned_of_error ho⟩)
    · rw [ActualMailbox.pickFirstMsg_of_message hl hq] at hm ho
      exact .inr (.inr ⟨msg, rest, rfl, rfl, by rw [hm], by rw [hm], returned_of_ok ho⟩)
  · rw [ActualMailbox.pickFirstMsg_of_brokenLinks hl] at hm ho
    exact .inl ⟨by simp, by rw [hm], by rw [hm]; rfl, returned_of_error ho⟩

/-- **One step keeps the account**, as long as nobody takes one of several messages. -/
theorem Accounted.step {r t : MailboxRun} {e : MailboxEvent} (hr : r.Accounted)
    (hg : r.TakesTheOnly e) (h : r.step e = some t) : t.Accounted := by
  unfold Accounted at hr ⊢
  rcases step_cases h with ⟨msg, -, hm, ha, ho⟩ | ⟨reason, pid, -, hm, ha, ho⟩ |
    ⟨error, -, hm, ha, ho⟩ | ⟨hp, hm, ha, ho⟩ | ⟨-, -, hm, ha, ho⟩
  · rw [ha, hr, returned_of_eq ho, hm]
    simp
  · rw [ha, hr, returned_of_eq ho, hm]
    simp
  · rw [ha, hr, returned_of_eq ho, hm]
    simp
  · rcases pick_cases hm ho with ⟨-, hq, -, hret⟩ | ⟨-, hq₀, hq, -, hret⟩ |
      ⟨msg, rest, hl, hq₀, hq, -, hret⟩
    · rw [ha, hr, hret, hq]
    · rw [ha, hr, hret, hq, hq₀]
    · have hone := hg hp hl
      rw [hq₀, List.length_cons] at hone
      have hrest : rest = [] := List.eq_nil_of_length_eq_zero (by omega)
      rw [ha, hr, hret, hq, hq₀, hrest]
      simp
  · rw [ha, hr, returned_of_eq ho, hm]

theorem step_arrived {r t : MailboxRun} {e : MailboxEvent} (h : r.step e = some t) :
    t.arrived = r.arrived ++ arrivals [e] := by
  rcases step_cases h with ⟨msg, rfl, -, ha, -⟩ | ⟨reason, pid, rfl, -, ha, -⟩ |
    ⟨error, rfl, -, ha, -⟩ | ⟨hp, -, ha, -⟩ | ⟨he, -, -, ha, -⟩
  · simp [ha, arrivals]
  · simp [ha, arrivals]
  · simp [ha, arrivals]
  · cases e with
    | receive | wakeUp => simp [ha, arrivals]
    | incoming | linkBroken | tmo => exact hp.elim
  · rcases he with rfl | rfl <;> simp [ha, arrivals]

/-- The history of arrivals is what the events say. -/
theorem run_arrived {es : List MailboxEvent} : ∀ {r t : MailboxRun},
    run step r es = some t → t.arrived = r.arrived ++ arrivals es := by
  induction es with
  | nil =>
    intro r t h
    obtain rfl : r = t := by simpa using h
    simp [arrivals]
  | cons e es ih =>
    intro r t h
    obtain ⟨s, hs, ht⟩ := Option.bind_eq_some_iff.mp h
    have harr : arrivals (e :: es) = arrivals [e] ++ arrivals es := List.filterMap_append (l := [e])
    rw [ih ht, step_arrived hs, List.append_assoc, harr]

/-- With distinct messages, taking one of several is visible at once. -/
theorem takesTheOnly_of_inOrder {r : MailboxRun} {e : MailboxEvent} (hr : r.Accounted)
    (hd : r.arrived.Nodup) (h : ∀ t, r.step e = some t → t.InOrder) : r.TakesTheOnly e := by
  intro hp hl
  by_contra hlen
  obtain ⟨t, ht, hm, ha, ho⟩ := exists_step_of_picks hp
  have hord : t.returned <+: t.arrived := h t ht
  rcases pick_cases hm ho with ⟨hne, -⟩ | ⟨-, hq₀, -⟩ | ⟨msg, rest, -, hq₀, -, -, hret⟩
  · exact hne hl
  · rw [hq₀] at hlen
    exact hlen (Nat.zero_le 1)
  -- the message taken is the newest; the oldest one queued is another one
  · rw [hret, ha, hr, hq₀, List.prefix_append_right_inj, List.reverse_cons] at hord
    rw [hr, hq₀, List.reverse_cons] at hd
    rcases hrev : rest.reverse with _ | ⟨old, more⟩
    · rw [List.reverse_eq_nil_iff] at hrev
      rw [hq₀, hrev] at hlen
      exact hlen (Nat.le_refl 1)
    · rw [hrev] at hord hd
      obtain rfl : msg = old := (List.cons_prefix_cons.mp hord).1
      have := (List.nodup_append.mp hd).2.1
      simp at this

/-- **A mailbox is a queue exactly while nobody lets messages pile up.** -/
theorem inOrder_iff_takesTheOnly (es : List MailboxEvent) :
    (EveryStep step TakesTheOnly start es → Throughout step InOrder start es) ∧
    ((arrivals es).Nodup → Throughout step InOrder start es →
      EveryStep step TakesTheOnly start es) := by
  have h₀ : start.Accounted := rfl
  constructor
  · intro hG
    exact (throughout_of_everyStep (fun r e t hr hg ht => hr.step hg ht) h₀ hG).mono
      fun t ht => ht.inOrder
  · intro hd hP
    -- on the way, the messages that have arrived so far are distinct too
    have hdist : Throughout step (fun r => r.InOrder ∧ r.arrived.Nodup) start es := by
      intro done hdone t ht
      refine ⟨hP done hdone t ht, ?_⟩
      rw [run_arrived ht]
      exact hd.sublist (hdone.sublist.filterMap _)
    refine everyStep_of_throughout (J := fun r => r.Accounted ∧ r.arrived.Nodup) ?_ ?_
      ⟨h₀, List.nodup_nil⟩ hdist
    · exact fun r e hr h => takesTheOnly_of_inOrder hr.1 hr.2 fun t ht => (h t ht).1
    · exact fun r e t hr hg ht hP => ⟨hr.1.step hg ht, hP.2⟩

/-- Two messages, one receive: the second message is returned first. -/
theorem not_inOrder_of_two : ∃ t, run step start [.incoming [1], .incoming [2], .receive] = some t ∧
    t.arrived = [[1], [2]] ∧ t.returned = [[2]] ∧ ¬ t.InOrder :=
  ⟨_, rfl, by decide, by decide, by unfold InOrder; decide⟩

/-! ### No receiver sleeps on pending work

`waitsOnEntry` looks at the messages and at the flag, never at the broken links, and `pickFirstMsg`
clears the flag whatever it leaves behind. -/

/-- If there is anything to report, a receive that enters now gets through. -/
def PendingGetsThrough (r : MailboxRun) : Prop :=
  r.mbox.receivedMsgs ≠ [] ∨ r.mbox.brokenLinks ≠ [] → r.mbox.waitsOnEntry = false

/-- A receiver that finds several broken links also finds a message. -/
def LeavesNoLinkBehind (r : MailboxRun) (e : MailboxEvent) : Prop :=
  r.Picks e → r.mbox.receivedMsgs = [] → r.mbox.brokenLinks.length ≤ 1

theorem pendingGetsThrough_of_messageReady {r : MailboxRun} (h : r.mbox.messageReady = true) :
    r.PendingGetsThrough := by
  intro _
  simp [ActualMailbox.waitsOnEntry, h]

/-- With the flag down, only a message lets a receiver through. -/
theorem pendingGetsThrough_iff_of_not_messageReady {r : MailboxRun}
    (h : r.mbox.messageReady = false) :
    r.PendingGetsThrough ↔ (r.mbox.receivedMsgs = [] → r.mbox.brokenLinks = []) := by
  rcases hq : r.mbox.receivedMsgs with _ | ⟨msg, rest⟩
  · simp [PendingGetsThrough, ActualMailbox.waitsOnEntry, h, hq]
  · simp [PendingGetsThrough, ActualMailbox.waitsOnEntry, h, hq]

/-- After a pick the flag is down, so what matters is what was left in the two queues. -/
theorem pendingGetsThrough_pick_iff {r t : MailboxRun} (hm : t.mbox = r.mbox.pickFirstMsg.2)
    (ho : t.outcomes = r.outcomes ++ [r.mbox.pickFirstMsg.1]) :
    t.PendingGetsThrough ↔ (r.mbox.receivedMsgs = [] → r.mbox.brokenLinks.length ≤ 1) := by
  have hready : t.mbox.messageReady = false := by
    rw [hm, ActualMailbox.pickFirstMsg_messageReady]
  rw [pendingGetsThrough_iff_of_not_messageReady hready]
  rcases pick_cases hm ho with ⟨hne, hq, hl, -⟩ | ⟨hl₀, -, -, hl, -⟩ | ⟨msg, rest, hl₀, -, -, hl, -⟩
  · rw [hq, hl]
    obtain ⟨l, ls, hls⟩ := List.exists_cons_of_ne_nil hne
    refine imp_congr_right fun _ => ?_
    rw [hls, List.tail_cons, List.length_cons, ← List.length_eq_zero_iff]
    omega
  · simp [hl₀, hl]
  · simp [hl₀, hl]

/-- **One step, exactly.** -/
theorem leavesNoLinkBehind_iff {r : MailboxRun} {e : MailboxEvent} (hr : r.PendingGetsThrough) :
    r.LeavesNoLinkBehind e ↔ ∀ t, r.step e = some t → t.PendingGetsThrough := by
  constructor
  · intro hg t ht
    rcases step_cases ht with ⟨msg, -, hm, -⟩ | ⟨reason, pid, -, hm, -⟩ | ⟨error, -, hm, -⟩ |
      ⟨hp, hm, -, ho⟩ | ⟨-, -, hm, -⟩
    · exact pendingGetsThrough_of_messageReady (by rw [hm]; rfl)
    · exact pendingGetsThrough_of_messageReady (by rw [hm]; rfl)
    · by_cases he : error = some .operationAborted
      · rwa [PendingGetsThrough, hm, ActualMailbox.receiveTmo, if_pos he]
      · exact pendingGetsThrough_of_messageReady (by
          rw [hm, ActualMailbox.receiveTmo, if_neg he]; rfl)
    · exact (pendingGetsThrough_pick_iff hm ho).mpr (hg hp)
    · rwa [PendingGetsThrough, hm]
  · intro h hp
    obtain ⟨t, ht, hm, -, ho⟩ := exists_step_of_picks hp
    exact (pendingGetsThrough_pick_iff hm ho).mp (h t ht)

/-- **A receiver is never put to sleep on pending work exactly while no receive leaves a broken
link behind without a message.** -/
theorem pendingGetsThrough_iff (es : List MailboxEvent) :
    Throughout step PendingGetsThrough start es ↔ EveryStep step LeavesNoLinkBehind start es :=
  throughout_iff_everyStep (fun _ _ => leavesNoLinkBehind_iff) (by simp [PendingGetsThrough, start,
    ActualMailbox.create])

/-- Two broken links, one receive: the second link is queued, and the next receive sleeps. -/
theorem sleeps_on_second_link : ∃ t,
    run step start [.linkBroken [] .invalid, .linkBroken [] .invalid, .receive] = some t ∧
      t.mbox.brokenLinks = [([], .invalid)] ∧ t.mbox.waitsOnEntry = true ∧
      ¬ t.PendingGetsThrough := by
  refine ⟨_, rfl, rfl, rfl, fun h => ?_⟩
  exact absurd (h (.inr (List.cons_ne_nil _ _))) (by decide)

end MailboxRun

end TinchPp
