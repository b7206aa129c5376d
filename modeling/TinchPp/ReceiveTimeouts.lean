import TinchPp.ActualMailbox

/-!
# Receives with a timeout

`receive(tmo)` starts a timer, receives, and cancels the timer on its way out, whether it returns or
throws. The handler of a timer runs in the I/O thread. One that finds its timer cancelled does
nothing; every other one raises `message_ready`, so that the receiver wakes up, finds nothing and
throws `mailbox_receive_tmo`. A cancel comes too late for a timer that has expired: its handler is
queued by then and runs as if nothing had happened, whoever is receiving at that time.

`TimedMailbox` is a mailbox with all the calls that have been made on it, each with its timer. The
answers are a history that is only written: who has been answered, in what state its timer was, which
timers had raised the flag, and what the answer was.

## Main results

* `TimedMailbox.safe_iff` — the states from which no receive can be told of a timeout that is not its
  own
* `TimedMailbox.honest_iff_timely` — every such exception means that this receive timed out exactly
  as long as no receive is begun while the flag is up for nothing, and no handler raises it for
  nothing while another receive is in progress
-/

namespace TinchPp

open EventSystem

/-! ### Calls and their timers -/

/-- A timer is running, or it has expired and its handler is queued, or the handler has run; or it
has been cancelled before it expired, and then its handler is queued and runs with
`operation_aborted`. -/
inductive Timer
  | running
  | expired
  | fired
  | cancelled
  | aborted
deriving DecidableEq, Repr

/-- `cancel()`: it is too late for a timer that has expired. -/
def Timer.cancel : Timer → Timer
  | running => cancelled
  | timer => timer

/-- Where a call of `receive` is: in front of the lock, asleep, through with the queues but not with
its timer, or over. -/
inductive ReceivePhase
  | entering
  | asleep
  | answered
  | over
deriving DecidableEq, Repr

/-- A call of `receive()` or `receive(tmo)`; only the second one has a timer. -/
structure ReceiveCall where
  timer : Option Timer
  phase : ReceivePhase
deriving DecidableEq, Repr

/-- The call has not looked into the queues yet. -/
def ReceiveCall.InProgress (c : ReceiveCall) : Prop := c.phase = .entering ∨ c.phase = .asleep

/-- What a call has been answered. -/
structure ReceiveAnswer where
  call : ℕ
  timer : Option Timer
  raisedBy : List ℕ
  outcome : Except ReceiveError MsgSeq

/-- A mailbox, the calls made on it, the calls whose timers have raised the flag since it was last
cleared, and the answers. -/
structure TimedMailbox where
  mbox : ActualMailbox
  calls : List ReceiveCall
  raisedBy : List ℕ
  answers : List ReceiveAnswer

/-- One atomic step. Calls are numbered in the order in which they are made. -/
inductive TimedMailboxEvent
  | incoming (msg : MsgSeq)
  | linkBroken (reason : Str) (pid : EPid)
  | call (tmo : Bool)
  | enter (i : ℕ)
  | wakeUp (i : ℕ)
  | leave (i : ℕ)
  | expire (i : ℕ)
  | runHandler (i : ℕ)
deriving DecidableEq, Repr

/-- A step of a receiver or of a timer. -/
def TimedMailboxEvent.ofReceiver : TimedMailboxEvent → Bool
  | enter _ | wakeUp _ | leave _ | expire _ | runHandler _ => true
  | incoming _ | linkBroken _ _ | call _ => false

namespace TimedMailbox

def start : TimedMailbox := ⟨.create, [], [], []⟩

/-- Act on the call of this number, if there is one. -/
def onCall (i : ℕ) (act : ReceiveCall → Option TimedMailbox) (s : TimedMailbox) :
    Option TimedMailbox :=
  s.calls[i]?.bind act

def setCall (i : ℕ) (c : ReceiveCall) (s : TimedMailbox) : TimedMailbox :=
  { s with calls := s.calls.set i c }

/-- The call gets through to `pick_first_msg`, which clears the flag. -/
def pick (i : ℕ) (c : ReceiveCall) (s : TimedMailbox) : TimedMailbox where
  mbox := s.mbox.pickFirstMsg.2
  calls := s.calls.set i { c with phase := .answered }
  raisedBy := []
  answers := s.answers ++ [⟨i, c.timer, s.raisedBy, s.mbox.pickFirstMsg.1⟩]

/-- `receive_tmo`, as the handler of the timer of a call. -/
def receiveTmo (i : ℕ) (c : ReceiveCall) (s : TimedMailbox) : Option TimedMailbox :=
  match c.timer with
  | some .expired =>
    some { s.setCall i { c with timer := some .fired } with
      mbox := s.mbox.receiveTmo none
      raisedBy := s.raisedBy ++ [i] }
  | some .cancelled =>
    some { s.setCall i { c with timer := some .aborted } with
      mbox := s.mbox.receiveTmo (some .operationAborted) }
  | _ => none

def step (s : TimedMailbox) : TimedMailboxEvent → Option TimedMailbox
  | .incoming msg => some { s with mbox := s.mbox.onIncoming msg }
  | .linkBroken reason pid => some { s with mbox := s.mbox.onLinkBroken reason pid }
  | .call tmo =>
    some { s with calls := s.calls ++ [⟨if tmo then some .running else none, .entering⟩] }
  | .enter i => s.onCall i fun c =>
    if c.phase = .entering then
      some (if s.mbox.waitsOnEntry then s.setCall i { c with phase := .asleep } else s.pick i c)
    else none
  | .wakeUp i => s.onCall i fun c =>
    if c.phase = .asleep then some (if s.mbox.waitsOnWakeUp then s else s.pick i c) else none
  | .leave i => s.onCall i fun c =>
    if c.phase = .answered then
      some (s.setCall i { timer := c.timer.map Timer.cancel, phase := .over })
    else none
  | .expire i => s.onCall i fun c =>
    if c.timer = some .running then some (s.setCall i { c with timer := some .expired }) else none
  | .runHandler i => s.onCall i fun c => s.receiveTmo i c

/-! ### What is promised, and when -/

/-- Who is told of a timeout has had its own timer expire, and it is the handler of this timer that
has raised the flag. -/
def Honest (s : TimedMailbox) : Prop :=
  ∀ a ∈ s.answers, a.outcome = .error .mailboxReceiveTmo →
    a.timer = some .fired ∧ a.call ∈ a.raisedBy

/-- There is nothing to receive and nothing to report. -/
def NothingQueued (s : TimedMailbox) : Prop := s.mbox.receivedMsgs = [] ∧ s.mbox.brokenLinks = []

/-- The flag is up for nothing: the next receive that gets through times out. -/
def RaisedForNothing (s : TimedMailbox) : Prop := s.mbox.messageReady = true ∧ s.NothingQueued

/-- The call's own timer has raised the flag. -/
def TimedOut (s : TimedMailbox) (i : ℕ) (c : ReceiveCall) : Prop :=
  c.timer = some .fired ∧ i ∈ s.raisedBy

/-- If the flag is up for nothing, it is up for all the receives in progress. -/
def Safe (s : TimedMailbox) : Prop :=
  s.RaisedForNothing → ∀ i c, s.calls[i]? = some c → c.InProgress → s.TimedOut i c

/-- No receive is begun while the flag is up for nothing; and if a timer that has not been cancelled
in time raises the flag for nothing, the receive it belongs to is in progress, if any is, and so are
only others whose own timers have raised it before. -/
def Timely (s : TimedMailbox) : TimedMailboxEvent → Prop
  | .call _ => ¬ s.RaisedForNothing
  | .runHandler i => (∃ c, s.calls[i]? = some c ∧ c.timer = some .expired) → s.NothingQueued →
    ∀ j c, s.calls[j]? = some c → c.InProgress → j = i ∨ s.TimedOut j c
  | _ => True

variable {s t : TimedMailbox} {e : TimedMailboxEvent} {i j : ℕ} {c : ReceiveCall}

/-! ### What a step does -/

theorem onCall_eq_some {act : ReceiveCall → Option TimedMailbox} (h : s.onCall i act = some t) :
    ∃ c, s.calls[i]? = some c ∧ act c = some t := Option.bind_eq_some_iff.mp h

theorem onCall_of_call {act : ReceiveCall → Option TimedMailbox} (h : s.calls[i]? = some c) :
    s.onCall i act = act c := by
  rw [onCall, h, Option.bind_some]

/-- The calls after one of them has changed. -/
theorem getElem?_set_cases {calls : List ReceiveCall} {c' : ReceiveCall}
    (h : (calls.set i c')[j]? = some c) : (j = i ∧ c = c') ∨ (j ≠ i ∧ calls[j]? = some c) := by
  by_cases hj : j = i
  · subst hj
    rw [List.getElem?_set_self'] at h
    obtain ⟨a, -, ha⟩ := Option.map_eq_some_iff.mp h
    exact .inl ⟨rfl, ha.symm⟩
  · rw [List.getElem?_set_ne (Ne.symm hj)] at h
    exact .inr ⟨hj, h⟩

theorem pickFirstMsg_eq_tmo {m : ActualMailbox} :
    m.pickFirstMsg.1 = .error .mailboxReceiveTmo ↔ m.receivedMsgs = [] ∧ m.brokenLinks = [] := by
  rcases hl : m.brokenLinks with _ | ⟨⟨reason, pid⟩, rest⟩
  · rcases hq : m.receivedMsgs with _ | ⟨msg, rest⟩
    · simp [ActualMailbox.pickFirstMsg_of_empty hl hq]
    · simp [ActualMailbox.pickFirstMsg_of_message hl hq]
  · simp [ActualMailbox.pickFirstMsg_of_brokenLinks hl]

theorem step_enter (h : s.step (.enter i) = some t) :
    ∃ c, s.calls[i]? = some c ∧ c.phase = .entering ∧
      t = if s.mbox.waitsOnEntry then s.setCall i { c with phase := .asleep } else s.pick i c := by
  obtain ⟨c, hc, h⟩ := onCall_eq_some h
  split at h
  · next hphase => exact ⟨c, hc, hphase, (Option.some_inj.mp h).symm⟩
  · cases h

theorem step_wakeUp (h : s.step (.wakeUp i) = some t) :
    ∃ c, s.calls[i]? = some c ∧ c.phase = .asleep ∧
      t = if s.mbox.waitsOnWakeUp then s else s.pick i c := by
  obtain ⟨c, hc, h⟩ := onCall_eq_some h
  split at h
  · next hphase => exact ⟨c, hc, hphase, (Option.some_inj.mp h).symm⟩
  · cases h

theorem step_leave (h : s.step (.leave i) = some t) :
    ∃ c, s.calls[i]? = some c ∧
      t = s.setCall i { timer := c.timer.map Timer.cancel, phase := .over } := by
  obtain ⟨c, hc, h⟩ := onCall_eq_some h
  split at h
  · exact ⟨c, hc, (Option.some_inj.mp h).symm⟩
  · cases h

theorem step_expire (h : s.step (.expire i) = some t) :
    ∃ c, s.calls[i]? = some c ∧ c.timer = some .running ∧
      t = s.setCall i { c with timer := some .expired } := by
  obtain ⟨c, hc, h⟩ := onCall_eq_some h
  split at h
  · next htimer => exact ⟨c, hc, htimer, (Option.some_inj.mp h).symm⟩
  · cases h

/-- A handler runs late, or it finds its timer cancelled. -/
theorem step_runHandler (h : s.step (.runHandler i) = some t) :
    ∃ c, s.calls[i]? = some c ∧
      ((c.timer = some .expired ∧ t = { s.setCall i { c with timer := some .fired } with
          mbox := s.mbox.receiveTmo none
          raisedBy := s.raisedBy ++ [i] }) ∨
        (c.timer = some .cancelled ∧ t = s.setCall i { c with timer := some .aborted })) := by
  obtain ⟨c, hc, h⟩ := onCall_eq_some h
  rw [receiveTmo] at h
  split at h
  · next htimer => exact ⟨c, hc, .inl ⟨htimer, (Option.some_inj.mp h).symm⟩⟩
  · next htimer => exact ⟨c, hc, .inr ⟨htimer, (Option.some_inj.mp h).symm⟩⟩
  · cases h

/-- **A step answers a receive in progress, or nobody.** Only the flag lets a receiver through when
nothing is queued. -/
theorem step_cases (h : s.step e = some t) :
    (∃ i c, s.calls[i]? = some c ∧ c.InProgress ∧ (s.NothingQueued → s.mbox.messageReady = true) ∧
      t = s.pick i c) ∨ t.answers = s.answers := by
  cases e with
  | incoming msg =>
    obtain rfl := Option.some_inj.mp h
    exact .inr rfl
  | linkBroken reason pid =>
    obtain rfl := Option.some_inj.mp h
    exact .inr rfl
  | call tmo =>
    obtain rfl := Option.some_inj.mp h
    exact .inr rfl
  | enter i =>
    obtain ⟨c, hc, hphase, rfl⟩ := step_enter h
    cases hw : s.mbox.waitsOnEntry with
    | true =>
      rw [if_pos rfl]
      exact .inr rfl
    | false =>
      rw [if_neg (by simp)]
      refine .inl ⟨i, c, hc, .inl hphase, fun hnothing => ?_, rfl⟩
      simpa [ActualMailbox.waitsOnEntry, hnothing.1] using hw
  | wakeUp i =>
    obtain ⟨c, hc, hphase, rfl⟩ := step_wakeUp h
    cases hw : s.mbox.waitsOnWakeUp with
    | true =>
      rw [if_pos rfl]
      exact .inr rfl
    | false =>
      rw [if_neg (by simp)]
      refine .inl ⟨i, c, hc, .inr hphase, fun _ => ?_, rfl⟩
      simpa [ActualMailbox.waitsOnWakeUp] using hw
  | leave i =>
    obtain ⟨c, -, rfl⟩ := step_leave h
    exact .inr rfl
  | expire i =>
    obtain ⟨c, -, -, rfl⟩ := step_expire h
    exact .inr rfl
  | runHandler i =>
    obtain ⟨c, -, ⟨-, rfl⟩ | ⟨-, rfl⟩⟩ := step_runHandler h
    · exact .inr rfl
    · exact .inr rfl

/-- The calls that are not over were not over before. -/
theorem exists_of_setCall {c' : ReceiveCall} (hc : s.calls[i]? = some c)
    (hover : c'.phase ≠ .over → c.phase ≠ .over) :
    ∀ (j : ℕ) (d : ReceiveCall), (s.calls.set i c')[j]? = some d → d.phase ≠ .over →
      ∃ d', s.calls[j]? = some d' ∧ d'.phase ≠ .over := by
  intro j d hd hphase
  rcases getElem?_set_cases hd with ⟨rfl, rfl⟩ | ⟨-, hd⟩
  · exact ⟨c, hc, hover hphase⟩
  · exact ⟨d, hd, hphase⟩

/-- **A receiver gets through, or it leaves the queue as it is.** -/
theorem step_ofReceiver (he : e.ofReceiver = true) (h : s.step e = some t) :
    t.calls.length = s.calls.length ∧
    (∀ (j : ℕ) (c : ReceiveCall), t.calls[j]? = some c → c.phase ≠ .over →
      ∃ c', s.calls[j]? = some c' ∧ c'.phase ≠ .over) ∧
    ((∃ i c, s.calls[i]? = some c ∧ c.phase ≠ .over ∧ t = s.pick i c) ∨
      t.answers = s.answers ∧ t.mbox.receivedMsgs = s.mbox.receivedMsgs) := by
  cases e with
  | incoming msg => cases he
  | linkBroken reason pid => cases he
  | call tmo => cases he
  | enter i =>
    obtain ⟨c, hc, hphase, rfl⟩ := step_enter h
    have hover : c.phase ≠ .over := by simp [hphase]
    split
    · exact ⟨List.length_set, exists_of_setCall hc fun _ => hover, .inr ⟨rfl, rfl⟩⟩
    · exact ⟨List.length_set, exists_of_setCall hc fun _ => hover, .inl ⟨i, c, hc, hover, rfl⟩⟩
  | wakeUp i =>
    obtain ⟨c, hc, hphase, rfl⟩ := step_wakeUp h
    have hover : c.phase ≠ .over := by simp [hphase]
    split
    · exact ⟨rfl, fun j d hd hp => ⟨d, hd, hp⟩, .inr ⟨rfl, rfl⟩⟩
    · exact ⟨List.length_set, exists_of_setCall hc fun _ => hover, .inl ⟨i, c, hc, hover, rfl⟩⟩
  | leave i =>
    obtain ⟨c, hc, rfl⟩ := step_leave h
    exact ⟨List.length_set, exists_of_setCall hc fun hover => absurd rfl hover, .inr ⟨rfl, rfl⟩⟩
  | expire i =>
    obtain ⟨c, hc, -, rfl⟩ := step_expire h
    exact ⟨List.length_set, exists_of_setCall hc id, .inr ⟨rfl, rfl⟩⟩
  | runHandler i =>
    obtain ⟨c, hc, ⟨-, rfl⟩ | ⟨-, rfl⟩⟩ := step_runHandler h
    · exact ⟨List.length_set, exists_of_setCall hc id, .inr ⟨rfl, rfl⟩⟩
    · exact ⟨List.length_set, exists_of_setCall hc id, .inr ⟨rfl, rfl⟩⟩

/-- While the flag is up, every receive in progress can get through. -/
theorem exists_step_pick (hc : s.calls[i]? = some c) (hp : c.InProgress)
    (hready : s.mbox.messageReady = true) : ∃ e, s.step e = some (s.pick i c) := by
  rcases hp with hp | hp
  · refine ⟨.enter i, ?_⟩
    rw [step, onCall_of_call hc, if_pos hp, if_neg (by simp [ActualMailbox.waitsOnEntry, hready])]
  · refine ⟨.wakeUp i, ?_⟩
    rw [step, onCall_of_call hc, if_pos hp, if_neg (by simp [ActualMailbox.waitsOnWakeUp, hready])]

/-! ### One step ahead -/

theorem honest_pick (hs : s.Honest) :
    (s.pick i c).Honest ↔ (s.NothingQueued → s.TimedOut i c) := by
  constructor
  · intro h hnothing
    exact h ⟨i, c.timer, s.raisedBy, s.mbox.pickFirstMsg.1⟩ (by simp [pick])
      (pickFirstMsg_eq_tmo.mpr hnothing)
  · intro h a ha hout
    rcases List.mem_append.mp ha with ha | ha
    · exact hs a ha hout
    · obtain rfl := List.mem_singleton.mp ha
      exact h (pickFirstMsg_eq_tmo.mp hout)

/-- **Safe states are those from which no receive can be told of a timeout that is not its own.** -/
theorem safe_iff (hs : s.Honest) : s.Safe ↔ ∀ e t, s.step e = some t → t.Honest := by
  constructor
  · intro hsafe e t ht
    rcases step_cases ht with ⟨i, c, hc, hp, hready, rfl⟩ | hanswers
    · exact (honest_pick hs).mpr fun hnothing => hsafe ⟨hready hnothing, hnothing⟩ i c hc hp
    · rw [Honest, hanswers]
      exact hs
  · intro h hraised i c hc hp
    obtain ⟨e, he⟩ := exists_step_pick hc hp hraised.1
    exact (honest_pick hs).mp (h e _ he) hraised.2

/-- Nothing has been raised, and the receives in progress are those that were in progress before. -/
theorem Safe.of_calls (hs : s.Safe) (hraised : t.RaisedForNothing → s.RaisedForNothing)
    (hcalls : ∀ j c, t.calls[j]? = some c → c.InProgress →
      ∃ c', s.calls[j]? = some c' ∧ c'.InProgress ∧ (s.TimedOut j c' → t.TimedOut j c)) :
    t.Safe := by
  intro ht j c hc hp
  obtain ⟨c', hc', hp', htimed⟩ := hcalls j c hc hp
  exact htimed (hs (hraised ht) j c' hc' hp')

/-- One call goes on, and the mailbox is as it was. -/
theorem Safe.setCall (hs : s.Safe) (hc : s.calls[i]? = some c) {c' : ReceiveCall}
    (hp : c'.InProgress → c.InProgress) (htimer : c.timer = some .fired → c'.timer = some .fired) :
    (s.setCall i c').Safe := by
  refine hs.of_calls id fun j d hd hdp => ?_
  rcases getElem?_set_cases hd with ⟨rfl, rfl⟩ | ⟨-, hd⟩
  · exact ⟨c, hc, hp hdp, fun h => ⟨htimer h.1, h.2⟩⟩
  · exact ⟨d, hd, hdp, id⟩

/-- Once the flag is down there is nothing to be told. -/
theorem safe_pick : (s.pick i c).Safe := by
  intro h
  have hready := ActualMailbox.pickFirstMsg_messageReady s.mbox
  exact absurd (hready.symm.trans h.1) (by simp)

/-- A receive begins. -/
theorem safe_call_iff (tmo : Bool) :
    TimedMailbox.Safe { s with calls := s.calls ++ [⟨if tmo then some .running else none,
      .entering⟩] } ↔ ¬ s.RaisedForNothing := by
  constructor
  · intro h hraised
    have hnew := h hraised s.calls.length ⟨if tmo then some .running else none, .entering⟩
      (by simp) (.inl rfl)
    cases tmo with
    | true => cases hnew.1
    | false => cases hnew.1
  · exact fun h hraised => absurd hraised h

/-- The handler of a timer that has expired raises the flag. -/
theorem safe_fired_iff (hc : s.calls[i]? = some c) :
    TimedMailbox.Safe { s.setCall i { c with timer := some .fired } with
        mbox := s.mbox.receiveTmo none
        raisedBy := s.raisedBy ++ [i] } ↔
      (s.NothingQueued → ∀ j d, s.calls[j]? = some d → d.InProgress →
        j = i ∨ s.TimedOut j d) := by
  constructor
  · intro h hnothing j d hd hp
    by_cases hj : j = i
    · exact .inl hj
    · have hset : (s.calls.set i { c with timer := some .fired })[j]? = some d := by
        rw [List.getElem?_set_ne (Ne.symm hj)]
        exact hd
      obtain ⟨htimer, hmem⟩ := h ⟨rfl, hnothing⟩ j d hset hp
      refine .inr ⟨htimer, ?_⟩
      rcases List.mem_append.mp hmem with hmem | hmem
      · exact hmem
      · exact absurd (List.mem_singleton.mp hmem) hj
  · intro h hraised j d hd hp
    rcases getElem?_set_cases hd with ⟨rfl, rfl⟩ | ⟨hj, hd⟩
    · exact ⟨rfl, List.mem_append_right _ (List.mem_singleton_self _)⟩
    · obtain ⟨htimer, hmem⟩ := (h hraised.2 j d hd hp).resolve_left hj
      exact ⟨htimer, List.mem_append_left _ hmem⟩

/-- **One step, exactly.** -/
theorem timely_iff (hs : s.Safe) : s.Timely e ↔ ∀ t, s.step e = some t → t.Safe := by
  cases e with
  | incoming msg =>
    refine ⟨fun _ t ht => ?_, fun _ => trivial⟩
    obtain rfl := Option.some_inj.mp ht
    exact fun hraised => absurd hraised.2.1 (by simp)
  | linkBroken reason pid =>
    refine ⟨fun _ t ht => ?_, fun _ => trivial⟩
    obtain rfl := Option.some_inj.mp ht
    exact fun hraised => absurd hraised.2.2 (by simp)
  | call tmo =>
    have hiff := safe_call_iff (s := s) tmo
    exact ⟨fun h t ht => Option.some_inj.mp ht ▸ hiff.mpr h, fun h => hiff.mp (h _ rfl)⟩
  | enter i =>
    refine ⟨fun _ t ht => ?_, fun _ => trivial⟩
    obtain ⟨c, hc, hphase, rfl⟩ := step_enter ht
    split
    · exact hs.setCall hc (fun _ => .inl hphase) id
    · exact safe_pick
  | wakeUp i =>
    refine ⟨fun _ t ht => ?_, fun _ => trivial⟩
    obtain ⟨c, hc, hphase, rfl⟩ := step_wakeUp ht
    split
    · exact hs
    · exact safe_pick
  | leave i =>
    refine ⟨fun _ t ht => ?_, fun _ => trivial⟩
    obtain ⟨c, hc, rfl⟩ := step_leave ht
    refine hs.setCall hc (fun hp => ?_) fun htimer => ?_
    · rcases hp with hp | hp
      · cases hp
      · cases hp
    · rw [htimer]
      rfl
  | expire i =>
    refine ⟨fun _ t ht => ?_, fun _ => trivial⟩
    obtain ⟨c, hc, htimer, rfl⟩ := step_expire ht
    refine hs.setCall hc id fun hfired => ?_
    rw [htimer] at hfired
    cases hfired
  | runHandler i =>
    constructor
    · intro h t ht
      obtain ⟨c, hc, ⟨htimer, rfl⟩ | ⟨htimer, rfl⟩⟩ := step_runHandler ht
      · exact (safe_fired_iff hc).mpr (h ⟨c, hc, htimer⟩)
      · refine hs.setCall hc id fun hfired => ?_
        rw [htimer] at hfired
        cases hfired
    · rintro h ⟨c, hc, htimer⟩
      refine (safe_fired_iff hc).mp (h _ ?_)
      rw [step, onCall_of_call hc, receiveTmo, htimer]

/-! ### Runs -/

theorem honest_start : start.Honest := by
  intro a ha
  cases ha

theorem safe_start : start.Safe := by
  intro hraised
  cases hraised.1

/-- **A timeout is one's own exactly as long as all steps are timely**: then every state reached is
honest; and a run with a step that is not timely could have been left, at that step or before, for
one more step into a state that is not. -/
theorem honest_iff_timely (es : List TimedMailboxEvent) :
    (EveryStep step Timely start es → Throughout step Honest start es) ∧
    (EveryStep step Timely start es ↔ ∀ done, done <+: es → ∀ e t,
      run step start (done ++ [e]) = some t → t.Honest) := by
  have hsafe : EveryStep step Timely start es ↔
      Throughout step (fun s => s.Honest ∧ s.Safe) start es := by
    refine (throughout_iff_everyStep (fun s e hs => ?_) ⟨honest_start, safe_start⟩).symm
    rw [timely_iff hs.2]
    exact ⟨fun h t ht => ⟨(safe_iff hs.1).mp hs.2 e t ht, h t ht⟩, fun h t ht => (h t ht).2⟩
  refine ⟨fun h => (hsafe.mp h).mono fun t ht => ht.1, ?_⟩
  rw [hsafe]
  constructor
  · intro h done hdone e t ht
    obtain ⟨s, hs, ht⟩ := run_concat_eq_some.mp ht
    obtain ⟨hhonest, hsafe⟩ := h done hdone s hs
    exact (safe_iff hhonest).mp hsafe e t ht
  · intro h done hdone s hs
    have hhonest : s.Honest := by
      rcases List.eq_nil_or_concat done with rfl | ⟨before, e, rfl⟩
      · obtain rfl : start = s := by simpa using hs
        exact honest_start
      · rw [List.concat_eq_append] at hs hdone
        exact h before ((List.prefix_append _ _).trans hdone) e s hs
    refine ⟨hhonest, (safe_iff hhonest).mpr fun e t ht => ?_⟩
    exact h done hdone e t (run_concat_eq_some.mpr ⟨s, hs, ht⟩)

/-- A receive with a timeout returns a message while its timer expires, and the next one, which has
no timeout, times out. -/
theorem not_honest_earlier_timer : ∃ t, run step start [.incoming [1], .call true, .enter 0,
      .expire 0, .leave 0, .runHandler 0, .call false, .enter 1] = some t ∧
    t.answers = [⟨0, some .running, [], .ok [1]⟩, ⟨1, none, [0], .error .mailboxReceiveTmo⟩] ∧
    ¬ t.Honest := by
  obtain ⟨t, ht, hanswers⟩ : ∃ t, run step start [.incoming [1], .call true, .enter 0,
        .expire 0, .leave 0, .runHandler 0, .call false, .enter 1] = some t ∧
      t.answers = [⟨0, some .running, [], .ok [1]⟩, ⟨1, none, [0], .error .mailboxReceiveTmo⟩] :=
    ⟨_, rfl, rfl⟩
  refine ⟨t, ht, hanswers, fun h => ?_⟩
  have htimer := (h ⟨1, none, [0], .error .mailboxReceiveTmo⟩ (by simp [hanswers]) rfl).1
  cases htimer

end TimedMailbox

end TinchPp
