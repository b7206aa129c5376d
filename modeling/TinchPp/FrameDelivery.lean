import TinchPp.ConnectionPhases

/-!
# Frames on a connection

A connected node reads frames with `checked_read` and `msg_received`. The first adds what it has
read to the lexer and calls the second if there is a complete message; the second takes one message
and waits for the next read. So a read that completes two frames leaves one of them in the lexer,
until more bytes come, and from then on the connection is a frame behind.

`ConnectionRun` follows the bytes a connection reads while it is connected. `NoFrameWaits` is what
ought to hold whenever the connection waits for more of them, and `ReadsAtMostOneFrame` is the
condition on a read under which it does.

## Main results

* `ConnectionRun.Tracked.step` — a read that completes one frame at most leaves none behind
* `ConnectionRun.noFrameWaits_iff` — no frame waits exactly in the runs in which every read
  completes one frame at most
-/

namespace TinchPp

open EventSystem NodeConnection

/-- A connection, and the bytes it has read while it was connected. -/
structure ConnectionRun where
  conn : NodeConnection
  connectedRead : MsgSeq

namespace ConnectionRun

variable (node : NodeAccess)

def readWhileConnected (c : NodeConnection) : Event → MsgSeq
  | .read bytes => if c.state = .connected then bytes else []
  | _ => []

def step (r : ConnectionRun) (e : Event) : Option ConnectionRun :=
  (r.conn.step node e).map fun c => ⟨c, r.connectedRead ++ readWhileConnected r.conn e⟩

/-- A connection at the start of its handshake. -/
def start (ownChallenge : UInt32) (role : Role) : ConnectionRun :=
  ⟨startHandshake node ownChallenge role, []⟩

/-- While the connection waits for data, the lexer has no complete message, and every frame
received so far has been answered or dispatched. No callback is running in a state of a run. -/
def NoFrameWaits (r : ConnectionRun) : Prop :=
  r.conn.state = .connected → r.conn.pendingRead ≠ none →
    r.conn.connectedMsgs.msgs = [] ∧ r.conn.handled = (connectedFraming.split r.connectedRead).1

/-- A read on a connection completes one frame at most, and no length field it meets is
`2 ^ 32 - 4` or more. -/
def ReadsAtMostOneFrame (r : ConnectionRun) : Event → Prop
  | .read bytes => r.conn.state = .connected →
      FieldsFit (r.conn.connectedMsgs.incomplete ++ bytes) ∧
        (connectedFraming.split (r.conn.connectedMsgs.incomplete ++ bytes)).1.length ≤ 1
  | _ => True

variable {node} {r t : ConnectionRun} {e : Event}

/-! ### What a run keeps -/

/-- The lexer has the incomplete end of what has been read, and everything else is handled. -/
def UpToDate (r : ConnectionRun) : Prop :=
  r.conn.connectedMsgs = ⟨(connectedFraming.split r.connectedRead).2, []⟩ ∧
    r.conn.handled = (connectedFraming.split r.connectedRead).1

/-- A connection that no frame waits on: still in its handshake, or with no read outstanding, or
up to date. -/
def Tracked (r : ConnectionRun) : Prop :=
  r.conn.Handshaking ∧ r.connectedRead = [] ∨
    r.conn.Connected ∧ (r.conn.pendingRead = none ∨ r.UpToDate)

theorem tracked_start (node : NodeAccess) (ownChallenge : UInt32) (role : Role) :
    (start node ownChallenge role).Tracked :=
  .inl ⟨handshaking_startHandshake ownChallenge role, rfl⟩

theorem Tracked.noFrameWaits (h : r.Tracked) : r.NoFrameWaits := by
  intro hstate hpending
  rcases h with ⟨hc, -⟩ | ⟨-, hnone | hup⟩
  · exact absurd hstate hc.state_ne
  · exact absurd hnone hpending
  · exact ⟨by rw [hup.1], hup.2⟩

/-- The frames of a read. -/
theorem split_connectedRead (hup : r.UpToDate) (bytes : MsgSeq) :
    connectedFraming.split (r.connectedRead ++ bytes) =
      (r.conn.handled ++ (connectedFraming.split (r.conn.connectedMsgs.incomplete ++ bytes)).1,
        (connectedFraming.split (r.conn.connectedMsgs.incomplete ++ bytes)).2) := by
  rw [Framing.split_append, hup.1, hup.2]

theorem step_eq_some (h : r.step node e = some t) : r.conn.step node e = some t.conn ∧
    t.connectedRead = r.connectedRead ++ readWhileConnected r.conn e := by
  obtain ⟨c, hc, rfl⟩ := Option.map_eq_some_iff.mp h
  exact ⟨hc, rfl⟩

/-- **A read that completes one frame at most keeps the connection up to date.** -/
theorem UpToDate.read (hc : r.conn.Connected) (hup : r.UpToDate) {bytes : MsgSeq}
    (hfit : FieldsFit (r.conn.connectedMsgs.incomplete ++ bytes))
    (hone : (connectedFraming.split (r.conn.connectedMsgs.incomplete ++ bytes)).1.length ≤ 1)
    (h : r.step node (.read bytes) = some t) : t.conn.Connected ∧ t.UpToDate := by
  obtain ⟨hstep, hread⟩ := step_eq_some h
  obtain ⟨-, l, hadd, hconn, -, hmsgs, hhandled⟩ := hc.step_read hstep
  have hqueue : r.conn.connectedMsgs.msgs = [] := by rw [hup.1]
  rw [MsgLexer.add_eq fun _ => hfit, hqueue, List.nil_append, framing] at hadd
  obtain rfl := Option.some_inj.mp hadd
  rw [readWhileConnected, if_pos hc.state] at hread
  refine ⟨hconn, ?_⟩
  rw [UpToDate, hmsgs, hhandled, hread, split_connectedRead hup]
  -- nothing is left of one frame at most
  generalize connectedFraming.split (r.conn.connectedMsgs.incomplete ++ bytes) = s at hone ⊢
  obtain ⟨_ | ⟨f, _ | ⟨g, fs⟩⟩, tail⟩ := s
  · exact ⟨rfl, rfl⟩
  · exact ⟨rfl, rfl⟩
  · simp at hone

/-- **A read that leaves the connection up to date has completed one frame at most.** -/
theorem UpToDate.of_read (hc : r.conn.Connected) (hup : r.UpToDate) {bytes : MsgSeq}
    (h : r.step node (.read bytes) = some t) (hwaits : t.NoFrameWaits) :
    FieldsFit (r.conn.connectedMsgs.incomplete ++ bytes) ∧
      (connectedFraming.split (r.conn.connectedMsgs.incomplete ++ bytes)).1.length ≤ 1 := by
  obtain ⟨hstep, hread⟩ := step_eq_some h
  obtain ⟨-, l, hadd, hconn, hpending, hmsgs, hhandled⟩ := hc.step_read hstep
  rw [readWhileConnected, if_pos hc.state] at hread
  obtain ⟨hempty, hframes⟩ := hwaits hconn.state (by simp [hpending])
  rw [hmsgs] at hempty
  rw [hread, split_connectedRead hup, hhandled] at hframes
  have hnew : l.msgs.head?.toList =
      (connectedFraming.split (r.conn.connectedMsgs.incomplete ++ bytes)).1 :=
    List.append_cancel_left hframes
  have hall : l.msgs = l.msgs.head?.toList := by
    revert hempty
    rcases l.msgs with _ | ⟨msg, rest⟩
    · simp
    · simp
  refine ⟨?_, by rw [← hnew]; cases l.msgs <;> simp⟩
  have hmsgs' : l.msgs = (r.conn.connectedMsgs.append bytes).msgs ++ l.msgs := by
    rw [MsgLexer.append_msgs, hup.1, List.nil_append]
  rw [← MsgLexer.append_incomplete]
  refine MsgLexer.fieldsFit_of_handleNewCondition hadd hmsgs' fun m hm => ?_
  rw [hall, hnew] at hm
  exact (connectedFraming.isSplit_split _).frames m hm

/-! ### One step, and every run -/

/-- A step that meets the condition keeps the run tracked. -/
theorem Tracked.step (hr : r.Tracked) (hone : r.ReadsAtMostOneFrame e)
    (h : r.step node e = some t) : t.Tracked := by
  obtain ⟨hstep, hread⟩ := step_eq_some h
  rcases hr with ⟨hc, hnil⟩ | ⟨hc, hw⟩
  · have hread' : t.connectedRead = [] := by
      rw [hread, hnil]
      cases e <;> simp [readWhileConnected, hc.state_ne]
    rcases hc.step hstep with hc' | ⟨hc', hmsgs, hhandled⟩
    · exact .inl ⟨hc', hread'⟩
    · refine .inr ⟨hc', .inr ?_⟩
      rw [UpToDate, hmsgs, hhandled, hread', Framing.split_nil]
      exact ⟨rfl, rfl⟩
  · rcases e.ne_read_or_eq with hne | ⟨bytes, rfl⟩
    · obtain ⟨hc', hmsgs, hhandled, hpending⟩ := hc.step_of_ne_read hne hstep
      have hread' : t.connectedRead = r.connectedRead := by
        rw [hread]
        cases e with
        | read bytes => exact absurd rfl (hne bytes)
        | _ => exact List.append_nil _
      refine .inr ⟨hc', ?_⟩
      rcases hw with hnone | hup
      · exact .inl (hpending.elim (·.trans hnone) id)
      · exact .inr (by rw [UpToDate, hmsgs, hhandled, hread']; exact hup)
    · rcases hw with hnone | hup
      · cases (hc.step_read hstep).1.symm.trans hnone
      · obtain ⟨hfit, hframes⟩ := hone hc.state
        obtain ⟨hc', hup'⟩ := hup.read hc hfit hframes h
        exact .inr ⟨hc', .inr hup'⟩

/-- A step that comes back, and after which no frame waits, meets the condition. -/
theorem Tracked.readsAtMostOneFrame (hr : r.Tracked)
    (hwaits : ∀ t, r.step node e = some t → t.NoFrameWaits) (hsome : (r.step node e).isSome) :
    r.ReadsAtMostOneFrame e := by
  cases e with
  | read bytes =>
    intro hstate
    obtain ⟨t, ht⟩ := Option.isSome_iff_exists.mp hsome
    rcases hr with ⟨hc, -⟩ | ⟨hc, hnone | hup⟩
    · exact absurd hstate hc.state_ne
    · cases (hc.step_read (step_eq_some ht).1).1.symm.trans hnone
    · exact hup.of_read hc ht (hwaits t ht)
  | _ => trivial

/-- **No frame waits on an idle connection exactly when every read completes one frame at most.**
The connection is started as A or as B, and anything that can happen to it may happen in any
order. The condition is enough in every run, and necessary in those that get to their end. -/
theorem noFrameWaits_iff (node : NodeAccess) (ownChallenge : UInt32) (role : Role)
    (es : List Event) :
    (EveryStep (step node) ReadsAtMostOneFrame (start node ownChallenge role) es →
      Throughout (step node) NoFrameWaits (start node ownChallenge role) es) ∧
    ((run (step node) (start node ownChallenge role) es).isSome →
      Throughout (step node) NoFrameWaits (start node ownChallenge role) es →
        EveryStep (step node) ReadsAtMostOneFrame (start node ownChallenge role) es) := by
  have h₀ := tracked_start node ownChallenge role
  constructor
  · intro h
    exact (throughout_of_everyStep (fun s e t hs hg ht => Tracked.step hs hg ht) h₀ h).mono
      fun t ht => ht.noFrameWaits
  · intro hend hP
    let G (r : ConnectionRun) (e : Event) : Prop := (r.step node e).isSome → r.ReadsAtMostOneFrame e
    have hG : EveryStep (step node) G (start node ownChallenge role) es := by
      refine everyStep_of_throughout (fun s e hs => hs.readsAtMostOneFrame) ?_ h₀ hP
      exact fun s e t hs hg ht _ => hs.step (hg (by simp [ht])) ht
    have hsome := everyStep_isSome hend
    exact fun done e hd t ht => hG done e hd t ht (hsome done e hd t ht)

end ConnectionRun

/-! ### Two ticks in one read -/

/-- A node with the cookie `c`, and the digests it needs for the challenges 1 and 2. -/
def nodeA : NodeAccess where
  name := bytesOf "a@h"
  cookie := bytesOf "c"
  md5 s :=
    if s = bytesOf "c1" then
      #v[169, 247, 233, 121, 101, 214, 207, 121, 154, 82, 145, 2, 169, 115, 184, 185]
    else #v[154, 182, 43, 94, 243, 74, 152, 84, 56, 191, 223, 126, 224, 16, 34, 41]

def statusOk : MsgSeq := receiveStatusG (bytesOf "ok")

def challengeOfB : MsgSeq := sendChallengeG 2 (bytesOf "b@h")

def ackOfB : MsgSeq := sendChallengeAckG (nodeA.calculateDigest 1 nodeA.cookie)

/-- The second one is not answered. -/
theorem ConnectionRun.second_tick_waits : ¬ Throughout (step nodeA) NoFrameWaits
    (start nodeA 1 (.originator (bytesOf "b")))
    [.written, .read (statusOk ++ challengeOfB), .written, .read ackOfB,
      .read (tick ++ tick)] := by
  intro h
  have hwaits := h _ List.prefix_rfl _ rfl rfl (by rintro ⟨⟩)
  exact absurd hwaits.1 (by decide)

end TinchPp
