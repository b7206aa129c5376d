import TinchPp.DispatchedFrames
import TinchPp.FrameDelivery

/-!
# What a connection writes

A connected node writes what it is asked to, and it answers ticks. Both go to the back of one queue,
at any time and in any order, while the write in front of the queue completes when it likes.

`TrafficRun` follows a connection from the start of its handshake, with the requests that it has got
while it was connected and the messages that it has written then. The reads get whatever the peer
sends, in pieces of any size, and operations may fail.

## Main results

* `NodeConnection.Handshaking.exists_transition` — how a connection begins
* `NodeConnection.Connected.writeQueue_of_read` — a read answers the tick that it handles
* `TrafficRun.Orderly.step` — what every step keeps
* `TrafficRun.answersTicks` — over every run, the requests in their order and a tock for each tick
-/

namespace TinchPp

open EventSystem

namespace NodeConnection

variable {node : NodeAccess} {c c' : NodeConnection}

/-! ### How a connection begins -/

/-- A callback of a read that leaves the node connected makes the transition. -/
theorem Running.exists_transition_of_invokeRead (hc : c.Running) {callback : ReadCallback}
    (hread : readsIn c.state = some callback)
    (h : c.invokeRead node callback .handshake = some c') (hstate : c'.state = .connected) :
    ∃ c₁ : NodeConnection, c₁.Running ∧ c' = c₁.makeTransitionToConnected := by
  cases callback with
  | nameRead => exact absurd hstate (hc.nameRead h).state_ne
  | statusRead => exact absurd hstate (hc.statusRead h).state_ne
  | challengeRead => exact absurd hstate (hc.challengeRead h).state_ne
  | replyReceived => exact absurd hstate (hc.replyReceived h).state_ne
  | challengeAckRead =>
    obtain ⟨msg, c₁, hnext, ⟨e, rfl⟩ | rfl⟩ := challengeAckRead_eq_some h
    · exact absurd hstate (hc.nextMessage hnext).state_ne
    · exact ⟨c₁, hc.nextMessage hnext, rfl⟩
  | msgReceived => cases hc' : c.state <;> simp [readsIn, hc'] at hread

/-- So does a callback of a write. -/
theorem Running.exists_transition_of_invokeWritten (hc : c.Running) {callback : WriteCallback}
    (hstate : (c.invokeWritten callback).state = .connected) :
    ∃ c₁ : NodeConnection, c₁.Running ∧
      c.invokeWritten callback = c₁.makeTransitionToConnected := by
  cases callback with
  | handshakeSent | challengeWritten | replySent => cases hstate
  | challengeAckWritten => exact ⟨c, hc, rfl⟩
  | ignoreWriteNotification => exact absurd hstate hc.state_ne

/-- **A connection begins with the transition**, in a callback. So there is nothing in its queue, and
it reads. -/
theorem Handshaking.exists_transition (hc : c.Handshaking) {e : Event}
    (h : c.step node e = some c') (hstate : c'.state = .connected) :
    ∃ c₁ : NodeConnection, c₁.Running ∧ c' = c₁.makeTransitionToConnected := by
  cases e with
  | read bytes =>
    obtain ⟨-, callback, k, l, hpending, -, hread⟩ := step_read h
    rcases hc.waits with hw | ⟨callback', hin, hw, hqueue, hwriting⟩ | hw
    · cases hw.1.symm.trans hpending
    · obtain ⟨rfl, rfl⟩ : callback' = callback ∧ .handshake = k :=
        Prod.mk.inj (Option.some_inj.mp (hw.symm.trans hpending))
      rcases hread with ⟨-, rfl⟩ | ⟨-, hread⟩
      · exact absurd hstate hc.state_ne
      · have hrunning : ({ c with pendingRead := none }.setLexer .handshake l).Running :=
          ⟨⟨hc.state_ne, hc.receivedMsgs, hc.beforeTraffic⟩, rfl, hqueue, hwriting⟩
        exact hrunning.exists_transition_of_invokeRead hin hread hstate
    · cases hw.1.symm.trans hpending
  | readError error =>
    obtain ⟨-, rfl⟩ := step_readError h
    rw [handleIoError_of_ne (c := { c with pendingRead := none }) hc.state_ne] at hstate
    cases hstate
  | written =>
    obtain ⟨hwriting, msg, callback, queue, hqueue, rfl⟩ := step_written h
    rcases hc.waits with hw | ⟨-, -, -, -, hw⟩ | ⟨hpending, -, hwrite⟩
    · cases hw.2.symm.trans hwriting
    · cases hw.symm.trans hwriting
    · rw [hqueue, List.map_cons] at hwrite
      cases queue with
      | nil =>
        have hrunning : { c with writeQueue := [], writing := false }.Running :=
          ⟨⟨hc.state_ne, hc.receivedMsgs, hc.beforeTraffic⟩, hpending, rfl, rfl⟩
        exact hrunning.exists_transition_of_invokeWritten hstate
      | cons m queue =>
        -- only the status has another message behind it
        have hignore : callback = .ignoreWriteNotification := by
          cases hc' : c.state <;> simp [writesIn, hc'] at hwrite
          exact hwrite.1
        subst hignore
        exact absurd hstate hc.state_ne
  | writeError error =>
    obtain ⟨-, rfl⟩ := step_writeError h
    rw [handleIoError_of_ne (c := { c with writing := false }) hc.state_ne] at hstate
    cases hstate
  | request op =>
    rw [NodeConnection.step, request_of_ne hc.state_ne] at h
    obtain rfl := Option.some_inj.mp h
    exact absurd hstate hc.state_ne

/-! ### The queue of a connection -/

/-- A message is answered if it is a tick, and by nothing else than a tick. -/
theorem writeQueue_of_msgReceived (h : c.msgReceived .connected = some c') :
    ∃ msg rest, c.connectedMsgs.msgs = msg :: rest ∧ c'.writeQueue = c.writeQueue ++
      ([msg].filter isTick).map fun m => (m, .ignoreWriteNotification) := by
  rcases hmsgs : c.connectedMsgs.msgs with _ | ⟨msg, rest⟩
  · simp [msgReceived, nextMessage, lexer, MsgLexer.nextMessage, hmsgs] at h
  · refine ⟨msg, rest, rfl, ?_⟩
    have hnext : c.nextMessage .connected =
        some (msg, { c with connectedMsgs := ⟨c.connectedMsgs.incomplete, rest⟩ }) := by
      simp [nextMessage, lexer, MsgLexer.nextMessage, hmsgs, setLexer]
    simp only [msgReceived, hnext] at h
    by_cases htick : isTick msg = true
    · rw [if_pos htick] at h
      obtain rfl := Option.some_inj.mp h
      have hmsg : msg = tick := of_decide_eq_true htick
      rw [List.filter_cons_of_pos htick, hmsg]
      rfl
    · rw [if_neg htick] at h
      rw [List.filter_cons_of_neg htick, List.filter_nil, List.map_nil, List.append_nil]
      split at h
      · cases h
      all_goals
        obtain rfl := Option.some_inj.mp h
        rfl

namespace Connected

/-- **A read answers the tick that it handles**, if it handles one. -/
theorem writeQueue_of_read (hc : c.Connected) {bytes : MsgSeq}
    (h : c.step node (.read bytes) = some c') : ∃ new, c'.handled = c.handled ++ new ∧
      c'.writeQueue = c.writeQueue ++
        (new.filter isTick).map fun m => (m, .ignoreWriteNotification) := by
  obtain ⟨hidle, l, hadd, -, -, -, hhandled⟩ := hc.step_read h
  refine ⟨_, hhandled, ?_⟩
  obtain ⟨-, callback, k, l', hpending, hadd', hread⟩ := NodeConnection.step_read h
  obtain ⟨rfl, rfl⟩ : .msgReceived = callback ∧ .connected = k :=
    Prod.mk.inj (Option.some_inj.mp (hidle.symm.trans hpending))
  obtain rfl : l = l' := Option.some_inj.mp (hadd.symm.trans hadd')
  rcases hread with ⟨hempty, rfl⟩ | ⟨-, hread⟩
  · rw [hempty]
    exact (List.append_nil _).symm
  · obtain ⟨msg, rest, hmsgs, hqueue⟩ := writeQueue_of_msgReceived hread
    replace hmsgs : l.msgs = msg :: rest := hmsgs
    rw [hmsgs]
    exact hqueue

/-- **A completed write** is that of the message in front. -/
theorem writeQueue_of_written (hc : c.Connected) (h : c.step node .written = some c') :
    ∃ msg, c.writeQueue = (msg, .ignoreWriteNotification) :: c'.writeQueue := by
  obtain ⟨-, msg, callback, queue, hqueue, rfl⟩ := step_written h
  have hignore : callback = .ignoreWriteNotification :=
    hc.ignores (msg, callback) (by simp [hqueue])
  subst hignore
  exact ⟨msg, hqueue⟩

theorem writeQueue_of_request (hc : c.Connected) {op : ControlMsg}
    (h : c.step node (.request op) = some c') :
    c'.writeQueue = c.writeQueue ++ [(op.frame, .ignoreWriteNotification)] := by
  rw [NodeConnection.step, request, hc.state] at h
  obtain rfl := Option.some_inj.mp h
  rfl

/-- A message that could not be written stays in the queue. -/
theorem writeQueue_of_error (hc : c.Connected) {error : Str}
    (h : c.step node (.readError error) = some c' ∨ c.step node (.writeError error) = some c') :
    c'.writeQueue = c.writeQueue := by
  rcases h with h | h
  · obtain ⟨-, rfl⟩ := step_readError h
    have hd : { c with pendingRead := none }.Connected :=
      ⟨hc.state, hc.receivedMsgs, hc.ignores, .inl rfl⟩
    obtain ⟨e, he⟩ := hd.handleIoError node error
    rw [he]
    rfl
  · obtain ⟨-, rfl⟩ := step_writeError h
    have hd : { c with writing := false }.Connected :=
      ⟨hc.state, hc.receivedMsgs, hc.ignores, hc.pendingRead⟩
    obtain ⟨e, he⟩ := hd.handleIoError node error
    rw [he]
    rfl

end Connected

end NodeConnection

open NodeConnection

/-! ### Runs -/

/-- A connection, with what it has been asked for and what it has written while it was connected. -/
structure TrafficRun where
  conn : NodeConnection
  asked : List ControlMsg
  written : List MsgSeq

namespace TrafficRun

variable (node : NodeAccess)

def askedIn (c : NodeConnection) : Event → List ControlMsg
  | .request op => if c.state = .connected then [op] else []
  | _ => []

/-- The message that is written, as its completion is reported. -/
def writtenIn (c : NodeConnection) : Event → List MsgSeq
  | .written => if c.state = .connected then (c.writeQueue.map Prod.fst).take 1 else []
  | _ => []

def step (r : TrafficRun) (e : Event) : Option TrafficRun :=
  (r.conn.step node e).map fun c =>
    ⟨c, r.asked ++ askedIn r.conn e, r.written ++ writtenIn r.conn e⟩

/-- A connection at the start of its handshake. -/
def start (ownChallenge : UInt32) (role : Role) : TrafficRun :=
  ⟨startHandshake node ownChallenge role, [], []⟩

/-- What has been written, and what is going to be. -/
def passed (r : TrafficRun) : List MsgSeq := r.written ++ r.conn.writeQueue.map Prod.fst

/-- The requests have been passed on in their order, and besides them a tock for every tick that
has been handled. -/
def AnswersTicks (r : TrafficRun) : Prop :=
  r.passed.filter (fun m => !isTick m) = r.asked.map ControlMsg.frame ∧
    r.passed.filter isTick = r.conn.handled.filter isTick

/-- A handshake, in which nothing counts, or a connection that answers. -/
def Orderly (r : TrafficRun) : Prop :=
  r.conn.Handshaking ∧ r.asked = [] ∧ r.written = [] ∨ r.conn.Connected ∧ r.AnswersTicks

variable {node} {r t : TrafficRun} {e : Event}

theorem orderly_start (node : NodeAccess) (ownChallenge : UInt32) (role : Role) :
    (start node ownChallenge role).Orderly :=
  .inl ⟨handshaking_startHandshake ownChallenge role, rfl, rfl⟩

theorem step_eq_some (h : r.step node e = some t) : r.conn.step node e = some t.conn ∧
    t.asked = r.asked ++ askedIn r.conn e ∧ t.written = r.written ++ writtenIn r.conn e := by
  obtain ⟨c, hc, rfl⟩ := Option.map_eq_some_iff.mp h
  exact ⟨hc, rfl, rfl⟩

/-- More messages are passed on: requests, or tocks for the ticks among the messages handled. -/
theorem AnswersTicks.append (hr : r.AnswersTicks) {asked : List ControlMsg} {new : List MsgSeq}
    (hasked : t.asked = r.asked ++ asked) (hhandled : t.conn.handled = r.conn.handled ++ new)
    (hpassed : t.passed = r.passed ++ (asked.map ControlMsg.frame ++ new.filter isTick)) :
    t.AnswersTicks := by
  have hframes : ∀ m ∈ asked.map ControlMsg.frame, isTick m = false := by
    rintro _ hm
    obtain ⟨op, -, rfl⟩ := List.mem_map.mp hm
    exact decide_eq_false op.frame_ne_tick
  obtain ⟨hrequests, hticks⟩ := hr
  constructor
  · have hall : (asked.map ControlMsg.frame).filter (fun m => !isTick m) =
        asked.map ControlMsg.frame :=
      List.filter_eq_self.mpr fun m hm => by simp [hframes m hm]
    have hnone : (new.filter isTick).filter (fun m => !isTick m) = [] :=
      List.filter_eq_nil_iff.mpr fun m hm => by simp [(List.mem_filter.mp hm).2]
    rw [hpassed, hasked, List.filter_append, hrequests, List.map_append, List.filter_append, hall,
      hnone, List.append_nil]
  · have hnone : (asked.map ControlMsg.frame).filter isTick = [] :=
      List.filter_eq_nil_iff.mpr fun m hm => by simp [hframes m hm]
    rw [hpassed, hhandled, List.filter_append, hticks, List.filter_append, List.filter_append, hnone,
      List.filter_filter, List.nil_append]
    simp only [Bool.and_self]

theorem map_fst_answers (ms : List MsgSeq) :
    (ms.map fun m => (m, WriteCallback.ignoreWriteNotification)).map Prod.fst = ms := by
  rw [List.map_map]
  exact List.map_id ms

/-- What a step of a connection passes on. -/
theorem passed_of_step (hc : r.conn.Connected) (h : r.step node e = some t) : ∃ asked new,
    t.asked = r.asked ++ asked ∧ t.conn.handled = r.conn.handled ++ new ∧
      t.passed = r.passed ++ (asked.map ControlMsg.frame ++ new.filter isTick) := by
  obtain ⟨hstep, hasked, hwritten⟩ := step_eq_some h
  cases e with
  | read bytes =>
    obtain ⟨new, hhandled, hqueue⟩ := hc.writeQueue_of_read hstep
    refine ⟨[], new, hasked, hhandled, ?_⟩
    have hnone : writtenIn r.conn (.read bytes) = [] := rfl
    rw [passed, passed, hwritten, hnone, hqueue, List.append_nil, List.map_append,
      map_fst_answers, List.append_assoc]
    rfl
  | readError error =>
    obtain ⟨-, -, hhandled, -⟩ := hc.step_of_ne_read (by rintro _ ⟨⟩) hstep
    refine ⟨[], [], hasked, by rw [hhandled, List.append_nil], ?_⟩
    rw [passed, passed, hwritten, hc.writeQueue_of_error (.inl hstep)]
    simp [writtenIn]
  | written =>
    obtain ⟨-, -, hhandled, -⟩ := hc.step_of_ne_read (by rintro _ ⟨⟩) hstep
    obtain ⟨msg, hqueue⟩ := hc.writeQueue_of_written hstep
    refine ⟨[], [], hasked, by rw [hhandled, List.append_nil], ?_⟩
    rw [passed, passed, hwritten, writtenIn, if_pos hc.state, hqueue]
    simp
  | writeError error =>
    obtain ⟨-, -, hhandled, -⟩ := hc.step_of_ne_read (by rintro _ ⟨⟩) hstep
    refine ⟨[], [], hasked, by rw [hhandled, List.append_nil], ?_⟩
    rw [passed, passed, hwritten, hc.writeQueue_of_error (.inr hstep)]
    simp [writtenIn]
  | request op =>
    obtain ⟨-, -, hhandled, -⟩ := hc.step_of_ne_read (by rintro _ ⟨⟩) hstep
    rw [askedIn, if_pos hc.state] at hasked
    refine ⟨[op], [], hasked, by rw [hhandled, List.append_nil], ?_⟩
    rw [passed, passed, hwritten, hc.writeQueue_of_request hstep]
    simp [writtenIn]

theorem connected_of_step (hc : r.conn.Connected) (h : r.step node e = some t) :
    t.conn.Connected := by
  obtain ⟨hstep, -, -⟩ := step_eq_some h
  rcases e.ne_read_or_eq with hne | ⟨bytes, rfl⟩
  · exact (hc.step_of_ne_read hne hstep).1
  · obtain ⟨-, l, -, hc', -⟩ := hc.step_read hstep
    exact hc'

/-- **What every step keeps.** -/
theorem Orderly.step (hr : r.Orderly) (h : r.step node e = some t) : t.Orderly := by
  rcases hr with ⟨hc, hasked, hwritten⟩ | ⟨hc, hanswers⟩
  · obtain ⟨hstep, hasked', hwritten'⟩ := step_eq_some h
    have hnone : askedIn r.conn e = [] ∧ writtenIn r.conn e = [] := by
      cases e <;> simp [askedIn, writtenIn, hc.state_ne]
    rw [hasked, hnone.1, List.append_nil] at hasked'
    rw [hwritten, hnone.2, List.append_nil] at hwritten'
    rcases hc.step hstep with hc' | ⟨hc', hbefore⟩
    · exact .inl ⟨hc', hasked', hwritten'⟩
    · obtain ⟨c₁, hc₁, hbegins⟩ := hc.exists_transition hstep hc'.state
      have hqueue : t.conn.writeQueue = [] := by
        rw [hbegins]
        exact hc₁.writeQueue
      refine .inr ⟨hc', ?_⟩
      rw [AnswersTicks, passed, hasked', hwritten', hbefore.2, hqueue]
      exact ⟨rfl, rfl⟩
  · obtain ⟨asked, new, hasked, hhandled, hpassed⟩ := passed_of_step hc h
    exact .inr ⟨connected_of_step hc h, hanswers.append hasked hhandled hpassed⟩

theorem passed_isPrefix_of_run {es : List Event} (hc : r.conn.Connected)
    (h : run (step node) r es = some t) : r.passed <+: t.passed := by
  have hinv : t.conn.Connected ∧ r.passed <+: t.passed := by
    refine run_induction (P := fun u => u.conn.Connected ∧ r.passed <+: u.passed) ?_
      ⟨hc, List.prefix_rfl⟩ h
    intro u e u' hu hstep
    obtain ⟨asked, new, -, -, hpassed⟩ := passed_of_step hu.1 hstep
    exact ⟨connected_of_step hu.1 hstep, hu.2.trans ⟨_, hpassed.symm⟩⟩
  exact hinv.2

/-- **A connection answers every tick, and writes what it is asked to.** After any events, errors
included, from the start of a handshake in either role: what a connected node has written and what
waits to be written are its requests, in their order, and one tock for each tick that it has
handled, and nothing else. Nothing is ever put in front of what was there at an earlier time. -/
theorem answersTicks (node : NodeAccess) (ownChallenge : UInt32) (role : Role) (es : List Event)
    (h : run (step node) (start node ownChallenge role) es = some r)
    (hstate : r.conn.state = .connected) : r.AnswersTicks ∧
      ∀ (es' : List Event) (t : TrafficRun), run (step node) r es' = some t →
        r.passed <+: t.passed := by
  have hr : r.Orderly :=
    run_induction (fun s e t hs ht => Orderly.step hs ht) (orderly_start node ownChallenge role) h
  rcases hr with ⟨hc, -⟩ | ⟨hc, hanswers⟩
  · exact absurd hstate hc.state_ne
  · exact ⟨hanswers, fun es' t ht => passed_isPrefix_of_run hc ht⟩

/-- A request and a tick. The request is written first. -/
theorem answersTicks_tick : ∃ r, run (step nodeA) (start nodeA 1 (.originator (bytesOf "b")))
    [.written, .read (statusOk ++ challengeOfB), .written, .read ackOfB,
      .request (.send [7] ⟨bytesOf "b@h", 1, 0, 0⟩), .read tick, .written] = some r ∧
    r.written = [(ControlMsg.send [7] ⟨bytesOf "b@h", 1, 0, 0⟩).frame] ∧
      r.conn.writeQueue.map Prod.fst = [tick] ∧ r.AnswersTicks := by
  have hrun : ∃ r, run (step nodeA) (start nodeA 1 (.originator (bytesOf "b")))
      [.written, .read (statusOk ++ challengeOfB), .written, .read ackOfB,
        .request (.send [7] ⟨bytesOf "b@h", 1, 0, 0⟩), .read tick, .written] = some r ∧
      r.written = [(ControlMsg.send [7] ⟨bytesOf "b@h", 1, 0, 0⟩).frame] ∧
        r.conn.writeQueue.map Prod.fst = [tick] ∧ r.conn.state = .connected :=
    ⟨_, rfl, rfl, rfl, rfl⟩
  obtain ⟨r, hr, hwritten, hqueue, hstate⟩ := hrun
  exact ⟨r, hr, hwritten, hqueue, (answersTicks nodeA 1 _ _ hr hstate).1⟩

end TrafficRun

end TinchPp
