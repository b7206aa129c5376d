import TinchPp.ConnectionPhases
import TinchPp.Lib.EventSystem

/-!
# The write queue

The writing half of `node_async_tcp_ip.cpp`, on its own. `trigger_write` may be called at any time,
and also from inside the callback of a write that has just completed; `checked_write` is what the
I/O service calls when an `async_write` is over. The queue is what keeps the two apart: a message
waits in it until the one before it has been written, and is removed before the next one starts and
before its callback runs.

An operation is known by the message it writes. Its buffer is the one of an element of the queue,
which a `std::deque` keeps in its place until that element is popped. The set of operations that
are outstanding is a list of any length here, since that there is at most one has to be proved.

A `NodeConnection` has such a queue, and nothing it does touches it in another way.

## Main results

* `WriteRun.writes_in_order` — the order of the writes and of the callbacks, over every run
* `NodeConnection.step_writes` — a step of a connection, as seen by its queue
* `NodeConnection.reached_writes` — the queue of a connection goes through such a run
-/

namespace TinchPp

variable {κ : Type*}

/-- `node_async_tcp_ip`, as far as it writes: the queue and the `async_write`s that are
outstanding. A `κ` is a `message_written_fn`. -/
structure AsyncTcpIp (κ : Type*) where
  writeQueue : List (MsgSeq × κ)
  outstanding : List MsgSeq
deriving DecidableEq, Repr

/-- The client function that `checked_write` ends with. -/
inductive WriteNotification (κ : Type*)
  | errorHandler (error : Str)
  | callback (fn : κ)
deriving DecidableEq, Repr

namespace AsyncTcpIp

def create : AsyncTcpIp κ := ⟨[], []⟩

/-- `async_write` of the message at the front of the queue, if there is one. -/
def asyncWriteFront (io : AsyncTcpIp κ) : AsyncTcpIp κ :=
  match io.writeQueue with
  | [] => io
  | front :: _ => { io with outstanding := io.outstanding ++ [front.1] }

def triggerWrite (msg : MsgSeq) (callback : κ) (io : AsyncTcpIp κ) : AsyncTcpIp κ :=
  let writeInProgress := !io.writeQueue.isEmpty
  let io := { io with writeQueue := io.writeQueue ++ [(msg, callback)] }
  -- otherwise the next write is fired once the first one has completed
  if writeInProgress then io else io.asyncWriteFront

/-- `none` when the assertion fails. The message that could not be written stays in the queue. -/
def checkedWrite (error : Option Str) (io : AsyncTcpIp κ) :
    Option (WriteNotification κ × AsyncTcpIp κ) :=
  match io.writeQueue, error with
  | [], _ => none
  | _ :: _, some error => some (.errorHandler error, io)
  | (_, callback) :: queue, none =>
    some (.callback callback, { io with writeQueue := queue }.asyncWriteFront)

/-- The `i`-th of the outstanding operations is over: it is outstanding no more, and its handler
runs. -/
def completed (i : ℕ) (error : Option Str) (io : AsyncTcpIp κ) :
    Option (WriteNotification κ × AsyncTcpIp κ) :=
  if i < io.outstanding.length then
    { io with outstanding := io.outstanding.eraseIdx i }.checkedWrite error
  else none

/-- Exactly the message at the front of the queue is being written. -/
def WritesFront (io : AsyncTcpIp κ) : Prop :=
  io.outstanding = (io.writeQueue.head?.map Prod.fst).toList

variable {io io' : AsyncTcpIp κ}

theorem writesFront_create : (create : AsyncTcpIp κ).WritesFront := rfl

theorem writeQueue_triggerWrite (msg : MsgSeq) (callback : κ) (io : AsyncTcpIp κ) :
    (io.triggerWrite msg callback).writeQueue = io.writeQueue ++ [(msg, callback)] := by
  obtain ⟨_ | ⟨front, queue⟩, outstanding⟩ := io <;> rfl

theorem WritesFront.triggerWrite (hio : io.WritesFront) (msg : MsgSeq) (callback : κ) :
    (io.triggerWrite msg callback).WritesFront := by
  obtain ⟨_ | ⟨front, queue⟩, outstanding⟩ := io
  · obtain rfl : outstanding = [] := hio
    rfl
  · obtain rfl : outstanding = [front.1] := hio
    rfl

/-- Where the front is being written, its completion makes room for the next message, and gives
the callback that was stored with it. -/
theorem WritesFront.completed (hio : io.WritesFront) {i : ℕ} (hi : i < io.outstanding.length) :
    ∃ msg callback queue, io.writeQueue = (msg, callback) :: queue ∧ io.outstanding[i] = msg ∧
      io.completed i none = some (.callback callback, AsyncTcpIp.asyncWriteFront ⟨queue, []⟩) := by
  obtain ⟨_ | ⟨⟨msg, callback⟩, queue⟩, outstanding⟩ := io
  · obtain rfl : outstanding = [] := hio
    exact absurd hi (Nat.not_lt_zero i)
  · obtain rfl : outstanding = [msg] := hio
    obtain rfl : i = 0 := Nat.lt_one_iff.mp hi
    exact ⟨msg, callback, queue, rfl, rfl, rfl⟩

theorem writesFront_asyncWriteFront (queue : List (MsgSeq × κ)) :
    (asyncWriteFront ⟨queue, []⟩).WritesFront := by
  cases queue <;> rfl

theorem writeQueue_asyncWriteFront (io : AsyncTcpIp κ) :
    io.asyncWriteFront.writeQueue = io.writeQueue := by
  rw [asyncWriteFront]
  split <;> rfl

end AsyncTcpIp

/-! ### Runs -/

/-- What a client sees happen: a message has been written, its callback has been invoked. -/
inductive WriteAction (κ : Type*)
  | written (msg : MsgSeq)
  | invoked (callback : κ)
deriving DecidableEq, Repr

/-- The queue, with what has been passed to `trigger_write` so far and what has happened. -/
structure WriteRun (κ : Type*) where
  io : AsyncTcpIp κ
  passed : List (MsgSeq × κ)
  done : List (WriteAction κ)
deriving DecidableEq, Repr

/-- `trigger_write` is called, or the `i`-th of the outstanding operations completes without an
error, and `calls` are the calls its callback makes. -/
inductive WriteEvent (κ : Type*)
  | triggerWrite (msg : MsgSeq) (callback : κ)
  | completed (i : ℕ) (calls : List (MsgSeq × κ))
deriving DecidableEq, Repr

def WriteEvent.isCompleted : WriteEvent κ → Bool
  | .completed _ _ => true
  | .triggerWrite _ _ => false

namespace WriteRun

def create : WriteRun κ := ⟨.create, [], []⟩

def triggerWrite (s : WriteRun κ) (m : MsgSeq × κ) : WriteRun κ :=
  { s with io := s.io.triggerWrite m.1 m.2, passed := s.passed ++ [m] }

/-- `none` when no such operation is outstanding, and when the assertion of `checked_write`
fails. -/
def step (s : WriteRun κ) : WriteEvent κ → Option (WriteRun κ)
  | .triggerWrite msg callback => some (s.triggerWrite (msg, callback))
  | .completed i calls =>
    match s.io.outstanding[i]?, s.io.completed i none with
    | some msg, some (.callback fn, io) =>
      let s := { s with io := io, done := s.done ++ [.written msg, .invoked fn] }
      some (calls.foldl triggerWrite s)
    | _, _ => none

/-- What is seen of messages that are done with: each of them has been written, and then its
callback has been invoked. -/
def actionsOf (finished : List (MsgSeq × κ)) : List (WriteAction κ) :=
  finished.flatMap fun m => [.written m.1, .invoked m.2]

/-- The messages that have been passed on are those that are done with, `finished` of them, and
those in the queue. -/
structure Orderly (finished : ℕ) (s : WriteRun κ) : Prop where
  writesFront : s.io.WritesFront
  inOrder : ∃ ms, ms.length = finished ∧ s.passed = ms ++ s.io.writeQueue ∧ s.done = actionsOf ms

theorem orderly_create : Orderly 0 (create : WriteRun κ) where
  writesFront := AsyncTcpIp.writesFront_create
  inOrder := ⟨[], rfl, rfl, rfl⟩

variable {n : ℕ} {s t : WriteRun κ}

theorem Orderly.triggerWrite (hs : Orderly n s) (m : MsgSeq × κ) :
    Orderly n (s.triggerWrite m) := by
  obtain ⟨ms, hlen, hpassed, hdone⟩ := hs.inOrder
  refine ⟨hs.writesFront.triggerWrite m.1 m.2, ms, hlen, ?_, hdone⟩
  show s.passed ++ [m] = ms ++ (s.io.triggerWrite m.1 m.2).writeQueue
  rw [AsyncTcpIp.writeQueue_triggerWrite, hpassed, List.append_assoc]

theorem Orderly.calls (hs : Orderly n s) (calls : List (MsgSeq × κ)) :
    Orderly n (calls.foldl WriteRun.triggerWrite s) := by
  induction calls generalizing s with
  | nil => exact hs
  | cons m calls ih => exact ih (hs.triggerWrite m)

/-- The message at the front is done with. -/
theorem Orderly.completed (hs : Orderly n s) {i : ℕ} (hi : i < s.io.outstanding.length)
    (calls : List (MsgSeq × κ)) : ∃ t, s.step (.completed i calls) = some t ∧ Orderly (n + 1) t := by
  obtain ⟨ms, hlen, hpassed, hdone⟩ := hs.inOrder
  obtain ⟨msg, callback, queue, hqueue, hmsg, hcompleted⟩ := hs.writesFront.completed hi
  have hget : s.io.outstanding[i]? = some msg := by rw [List.getElem?_eq_getElem hi, hmsg]
  have hstep : s.step (.completed i calls) = some (calls.foldl WriteRun.triggerWrite
      ⟨AsyncTcpIp.asyncWriteFront ⟨queue, []⟩, s.passed,
        s.done ++ [.written msg, .invoked callback]⟩) := by
    simp only [step, hget, hcompleted]
  refine ⟨_, hstep, Orderly.calls ?_ calls⟩
  refine ⟨AsyncTcpIp.writesFront_asyncWriteFront queue, ms ++ [(msg, callback)], ?_, ?_, ?_⟩
  · rw [List.length_append, hlen, List.length_singleton]
  · show s.passed = ms ++ [(msg, callback)] ++ (AsyncTcpIp.asyncWriteFront ⟨queue, []⟩).writeQueue
    rw [AsyncTcpIp.writeQueue_asyncWriteFront, hpassed, hqueue, List.append_assoc]
    rfl
  · show s.done ++ [.written msg, .invoked callback] = actionsOf (ms ++ [(msg, callback)])
    rw [actionsOf, List.flatMap_append, ← actionsOf, hdone]
    rfl

/-- An operation that is not outstanding does not complete. -/
theorem lt_of_step_completed {i : ℕ} {calls : List (MsgSeq × κ)}
    (h : s.step (.completed i calls) = some t) : i < s.io.outstanding.length := by
  rw [step] at h
  split at h
  · next hget _ => exact (List.getElem?_eq_some_iff.mp hget).1
  · exact absurd h (by simp)

/-- The step lemma: a completed operation finishes one message, and a call none. -/
theorem Orderly.step (hs : Orderly n s) {e : WriteEvent κ} (h : s.step e = some t) :
    Orderly (n + if e.isCompleted then 1 else 0) t := by
  cases e with
  | triggerWrite msg callback =>
    obtain rfl : s.triggerWrite (msg, callback) = t := Option.some_inj.mp h
    exact hs.triggerWrite (msg, callback)
  | completed i calls =>
    obtain ⟨t', ht', horderly⟩ := hs.completed (lt_of_step_completed h) calls
    obtain rfl : t' = t := Option.some_inj.mp (ht'.symm.trans h)
    exact horderly

/-- The run lemma: as many messages are done with as operations have completed. -/
theorem orderly_of_run {es : List (WriteEvent κ)}
    (h : EventSystem.run WriteRun.step create es = some s) :
    Orderly (es.countP WriteEvent.isCompleted) s := by
  refine EventSystem.run_history_induction (P := fun es s =>
    Orderly (es.countP WriteEvent.isCompleted) s) orderly_create (fun es s e t hs ht => ?_) h
  rw [List.countP_append, List.countP_singleton]
  exact hs.step ht

/-- **Writes keep their order, and complete exactly once.** After any calls of `trigger_write`,
from wherever they are made, and any completed operations: at most one operation is outstanding,
one is exactly when there is something in the queue, and it writes the message at the front. The
messages passed on are the ones that are done with, one for each completed operation, followed by
the queue, and what has happened is that each of the former has been written and its callback
invoked, in this order. An operation that is outstanding can complete. -/
theorem writes_in_order {es : List (WriteEvent κ)}
    (h : EventSystem.run WriteRun.step create es = some s) :
    s.io.outstanding.length ≤ 1 ∧ (s.io.outstanding ≠ [] ↔ s.io.writeQueue ≠ []) ∧
      (∀ msg ∈ s.io.outstanding, s.io.writeQueue.head?.map Prod.fst = some msg) ∧
      (∃ finished, s.passed = finished ++ s.io.writeQueue ∧ s.done = actionsOf finished ∧
        finished.length = es.countP WriteEvent.isCompleted) ∧
      ∀ i < s.io.outstanding.length, ∀ calls, (s.step (.completed i calls)).isSome := by
  have hs : Orderly (es.countP WriteEvent.isCompleted) s := orderly_of_run h
  obtain ⟨ms, hlen, hpassed, hdone⟩ := hs.inOrder
  have hfront : s.io.outstanding = (s.io.writeQueue.head?.map Prod.fst).toList := hs.writesFront
  refine ⟨?_, ?_, ?_, ⟨ms, hpassed, hdone, hlen⟩, ?_⟩
  · rw [hfront]
    exact Option.length_toList_le
  · rw [hfront]
    cases s.io.writeQueue <;> simp
  · intro msg hmsg
    rw [hfront] at hmsg
    exact Option.mem_toList.mp hmsg
  · intro i hi calls
    obtain ⟨t, ht, -⟩ := hs.completed hi calls
    rw [ht]
    rfl

/-- A message is written, and its callback passes on another one while a third one waits. -/
theorem writes_in_order_reentrant : ∃ s : WriteRun ℕ,
    s.io = ⟨[([2], 2), ([3], 3)], [[2]]⟩ ∧ s.done = [.written [1], .invoked 1] ∧
      s.io.outstanding.length ≤ 1 := by
  have hrun : EventSystem.run WriteRun.step create
      [.triggerWrite [1] 1, .triggerWrite [2] 2, .completed 0 [([3], 3)]] =
        some ⟨⟨[([2], 2), ([3], 3)], [[2]]⟩, [([1], 1), ([2], 2), ([3], 3)],
          [.written [1], .invoked 1]⟩ := rfl
  exact ⟨_, rfl, rfl, (writes_in_order hrun).1⟩

end WriteRun

namespace AsyncTcpIp

/-- A run, from the start, that leads to this queue. -/
def Reached (io : AsyncTcpIp κ) : Prop :=
  ∃ es s, EventSystem.run WriteRun.step WriteRun.create es = some s ∧ s.io = io

variable {io io' : AsyncTcpIp κ}

theorem reached_create : (create : AsyncTcpIp κ).Reached := ⟨[], .create, rfl, rfl⟩

theorem Reached.triggerWrite (hio : io.Reached) (msg : MsgSeq) (callback : κ) :
    (io.triggerWrite msg callback).Reached := by
  obtain ⟨es, s, hs, rfl⟩ := hio
  exact ⟨es ++ [.triggerWrite msg callback], s.triggerWrite (msg, callback),
    EventSystem.run_concat_eq_some.mpr ⟨s, hs, rfl⟩, rfl⟩

theorem Reached.calls (hio : io.Reached) (calls : List (MsgSeq × κ)) :
    (calls.foldl (fun io m => io.triggerWrite m.1 m.2) io).Reached := by
  induction calls generalizing io with
  | nil => exact hio
  | cons m calls ih => exact ih (hio.triggerWrite m.1 m.2)

theorem Reached.completed (hio : io.Reached) {i : ℕ} {callback : κ}
    (h : io.completed i none = some (.callback callback, io')) : io'.Reached := by
  obtain ⟨es, s, hs, rfl⟩ := hio
  have hi : i < s.io.outstanding.length := by
    rw [AsyncTcpIp.completed] at h
    split at h
    · assumption
    · cases h
  have hget : s.io.outstanding[i]? = some s.io.outstanding[i] := List.getElem?_eq_getElem hi
  have hstep : s.step (.completed i []) = some
      ⟨io', s.passed, s.done ++ [.written s.io.outstanding[i], .invoked callback]⟩ := by
    simp only [WriteRun.step, hget, h]
    rfl
  exact ⟨es ++ [.completed i []], _, EventSystem.run_concat_eq_some.mpr ⟨s, hs, hstep⟩, rfl⟩

end AsyncTcpIp

/-! ### The queue of a connection -/

namespace NodeConnection

variable {node : NodeAccess} {c c' c'' : NodeConnection}

/-- What the connection has to write. -/
def writes (c : NodeConnection) : AsyncTcpIp WriteCallback where
  writeQueue := c.writeQueue
  outstanding := if c.writing then (c.writeQueue.head?.map Prod.fst).toList else []

theorem writes_triggerWrite (msg : MsgSeq) (callback : WriteCallback) :
    (c.triggerWrite msg callback).writes = c.writes.triggerWrite msg callback := by
  obtain ⟨_, _, _, _, _, _, _, _ | ⟨front, queue⟩, _ | _, _, _, _, _⟩ := c <;> rfl

theorem completed_writes {msg : MsgSeq} {callback : WriteCallback}
    {queue : List (MsgSeq × WriteCallback)} (hwriting : c.writing = true)
    (hqueue : c.writeQueue = (msg, callback) :: queue) :
    c.writes.completed 0 none = some (.callback callback,
      { c with writeQueue := queue, writing := !queue.isEmpty }.writes) := by
  simp only [writes, AsyncTcpIp.completed, hwriting, hqueue, AsyncTcpIp.checkedWrite]
  cases queue <;> rfl

/-- Whatever has been done, the queue has seen nothing but calls of `trigger_write`. -/
def WritesMore (c c' : NodeConnection) : Prop :=
  ∃ calls : List (MsgSeq × WriteCallback),
    c'.writes = calls.foldl (fun io m => io.triggerWrite m.1 m.2) c.writes

theorem WritesMore.of_eq (h : c'.writes = c.writes) : WritesMore c c' := ⟨[], h⟩

theorem WritesMore.triggerWrite (h : WritesMore c c') (msg : MsgSeq) (callback : WriteCallback) :
    WritesMore c (c'.triggerWrite msg callback) := by
  obtain ⟨calls, hcalls⟩ := h
  refine ⟨calls ++ [(msg, callback)], ?_⟩
  rw [writes_triggerWrite, hcalls, List.foldl_append]
  rfl

theorem WritesMore.trans (h : WritesMore c c') (h' : WritesMore c' c'') : WritesMore c c'' := by
  obtain ⟨calls, hcalls⟩ := h
  obtain ⟨calls', hcalls'⟩ := h'
  exact ⟨calls ++ calls', by rw [hcalls', hcalls, List.foldl_append]⟩

theorem WritesMore.reached (h : WritesMore c c') (hc : c.writes.Reached) :
    c'.writes.Reached := by
  obtain ⟨calls, hcalls⟩ := h
  rw [hcalls]
  exact hc.calls calls

theorem writesMore_setLexer {k : LexerKind} {l : MsgLexer} : WritesMore c (c.setLexer k l) := by
  cases k <;> exact .of_eq rfl

theorem writesMore_nextMessage {k : LexerKind} {msg : MsgSeq}
    (h : c.nextMessage k = some (msg, c')) : WritesMore c c' := by
  rw [nextMessage] at h
  split at h
  · obtain ⟨-, rfl⟩ := Prod.mk.inj (Option.some_inj.mp h)
    exact writesMore_setLexer
  · cases h

theorem writes_handleIoError (error : Str) : (c.handleIoError node error).writes = c.writes := by
  rw [handleIoError]
  split
  · split <;> rfl
  · rfl

theorem writesMore_challengeRead {held : Bool} {k : LexerKind}
    (h : c.challengeRead node held k = some c') :
    WritesMore c c' := by
  obtain ⟨msg, c₁, hnext, rfl | ⟨challenge, rfl⟩⟩ := challengeRead_eq_some h
  · exact (writesMore_nextMessage hnext).trans (.of_eq rfl)
  · refine (writesMore_nextMessage hnext).trans (WritesMore.triggerWrite ?_ _ _)
    exact .of_eq rfl

theorem writesMore_invokeRead {callback : ReadCallback} {k : LexerKind}
    (h : c.invokeRead node callback k = some c') : WritesMore c c' := by
  cases callback with
  | nameRead =>
    obtain ⟨msg, c₁, hnext, rfl | ⟨name, rfl⟩ | ⟨reason, rfl⟩⟩ := nameRead_eq_some h
    · exact (writesMore_nextMessage hnext).trans (.of_eq rfl)
    · refine (writesMore_nextMessage hnext).trans ?_
      refine WritesMore.trans ?_ (.of_eq rfl : WritesMore
        ((c₁.gotPeerName name).sendStatusAndChallenge node) _)
      exact ((WritesMore.of_eq rfl).triggerWrite _ _).triggerWrite _ _
    · exact (writesMore_nextMessage hnext).trans (.of_eq rfl)
  | statusRead =>
    obtain ⟨msg, c₁, hnext, rfl | ⟨reason, rfl⟩ | rfl | hread⟩ := statusRead_eq_some h
    · exact (writesMore_nextMessage hnext).trans (.of_eq rfl)
    · exact (writesMore_nextMessage hnext).trans (.of_eq rfl)
    · exact (writesMore_nextMessage hnext).trans (.of_eq rfl)
    · refine (writesMore_nextMessage hnext).trans (WritesMore.trans ?_
        (writesMore_challengeRead hread))
      exact .of_eq rfl
  | challengeRead => exact writesMore_challengeRead h
  | replyReceived =>
    obtain ⟨msg, c₁, hnext, rfl | ⟨challenge, rfl⟩ | ⟨reason, rfl⟩⟩ := replyReceived_eq_some h
    · exact (writesMore_nextMessage hnext).trans (.of_eq rfl)
    · refine (writesMore_nextMessage hnext).trans (WritesMore.triggerWrite ?_ _ _)
      exact .of_eq rfl
    · exact (writesMore_nextMessage hnext).trans (.of_eq rfl)
  | challengeAckRead =>
    obtain ⟨msg, c₁, hnext, ⟨e, rfl⟩ | rfl⟩ := challengeAckRead_eq_some h
    · exact (writesMore_nextMessage hnext).trans (.of_eq rfl)
    · exact (writesMore_nextMessage hnext).trans (.of_eq rfl)
  | msgReceived =>
    obtain ⟨msg, c₁, c₂, hnext, rfl, hc₂⟩ := msgReceived_eq_triggerCheckedRead h
    refine (writesMore_nextMessage hnext).trans (WritesMore.trans ?_
      (.of_eq rfl : WritesMore c₂ _))
    obtain rfl | ⟨calls, rfl⟩ := hc₂
    · exact (WritesMore.of_eq rfl).triggerWrite _ _
    · exact .of_eq rfl

theorem writes_invokeWritten (callback : WriteCallback) :
    (c.invokeWritten callback).writes = c.writes := by
  cases callback <;> rfl

theorem writesMore_request (op : ControlMsg) : WritesMore c (c.request op) := by
  rw [request]
  split
  · exact (WritesMore.of_eq rfl).triggerWrite _ _
  · exact .of_eq rfl

/-- **A step of a connection, as its queue sees it.** An operation that completes is the one the
queue has outstanding, and apart from that there are only calls of `trigger_write`. -/
theorem step_writes {e : Event} (h : c.step node e = some c') :
    (e = .written ∧ ∃ callback, c.writes.completed 0 none = some (.callback callback, c'.writes)) ∨
    (∃ error, e = .writeError error ∧ c'.writes.outstanding = []) ∨ WritesMore c c' := by
  cases e with
  | read bytes =>
    obtain ⟨-, callback, k, l, -, -, ⟨-, rfl⟩ | ⟨-, hinvoke⟩⟩ := step_read h
    · exact .inr (.inr writesMore_setLexer)
    · refine .inr (.inr (WritesMore.trans ?_ (writesMore_invokeRead hinvoke)))
      exact (WritesMore.of_eq rfl : WritesMore c { c with pendingRead := none }).trans
        writesMore_setLexer
  | readError error =>
    obtain ⟨-, rfl⟩ := step_readError h
    exact .inr (.inr (.of_eq (writes_handleIoError error)))
  | written =>
    obtain ⟨hwriting, msg, callback, queue, hqueue, rfl⟩ := step_written h
    refine .inl ⟨rfl, callback, ?_⟩
    rw [completed_writes hwriting hqueue, writes_invokeWritten]
  | writeError error =>
    obtain ⟨-, rfl⟩ := step_writeError h
    refine .inr (.inl ⟨error, rfl, ?_⟩)
    rw [writes_handleIoError]
    rfl
  | request op =>
    obtain rfl : c.request op = c' := Option.some_inj.mp h
    exact .inr (.inr (writesMore_request op))

theorem writesMore_startHandshake (ownChallenge : UInt32) (role : Role) :
    WritesMore (create none) (startHandshake node ownChallenge role) := by
  cases role with
  | originator peerName => exact (WritesMore.of_eq rfl).triggerWrite _ _
  | acceptor => exact .of_eq rfl

/-- A connection whose writes have not failed has a queue as above: whatever the connection does,
its queue goes through a run of its own. -/
theorem reached_writes {ownChallenge : UInt32} {role : Role} {es : List Event}
    (h : EventSystem.run (step node) (startHandshake node ownChallenge role) es = some c)
    (herror : ∀ error, .writeError error ∉ es) : c.writes.Reached := by
  refine EventSystem.run_history_induction (P := fun es c =>
    (∀ error, .writeError error ∉ es) → c.writes.Reached) ?_ (fun es c e c' hc hstep herror => ?_)
    h herror
  · exact fun _ => (writesMore_startHandshake ownChallenge role).reached AsyncTcpIp.reached_create
  · have hreached : c.writes.Reached :=
      hc fun error hmem => herror error (List.mem_append_left [e] hmem)
    obtain ⟨rfl, callback, hcompleted⟩ | ⟨error, rfl, -⟩ | hmore := step_writes hstep
    · exact hreached.completed hcompleted
    · exact absurd (List.mem_append_right es (List.mem_singleton_self _)) (herror error)
    · exact hmore.reached hreached

end NodeConnection

end TinchPp
