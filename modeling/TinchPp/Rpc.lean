import TinchPp.ActualNode
import TinchPp.ErlAny
import TinchPp.ReceiveTimeouts

/-!
# Remote procedure calls

`rpc.cpp`. A call sends a request to the process `rex` of a node and receives once in the mailbox of
the `rpc` object, with or without a timeout. The answer is a tuple `{rex, Result}`, and nothing in it
says which request it belongs to: what a call takes for its answer is whatever the mailbox hands out.

Calls are made one after the other, so that the `i`-th call is the `i`-th receive of the mailbox.
Each request is answered once; the requests to one node are answered in the order in which they were
made, at any time. A call whose request cannot be sent raises before it receives, and leaves
everything as it is.

The result is read with a wildcard, which captures exactly the terms without lists
(`AnyObject.captures_iff`).

## Main results

* `receiveRpcReply_rexReply` — an answer is read correctly, if there is no list in it
* `RpcRun.ownAnswers_of_settled` — each call gets its own answer, as long as no call is begun before
  the answers to all earlier ones have been taken
-/

namespace TinchPp

open EventSystem

/-! ### Requests and answers -/

/-- `module_and_function_type` -/
abbrev ModuleAndFunction := Str × Str

/-- `do_rpc`: the message sent to `rex`, `{self, {call, Mod, Fun, Args, user}}`. -/
def rpcCall (self : EPid) (remoteFn : ModuleAndFunction) (arguments : List (Object Unit)) :
    Object Unit :=
  makeETuple [Pid.ofValue self,
    makeETuple [Atom.ofValue (bytesOf "call"), Atom.ofValue remoteFn.1, Atom.ofValue remoteFn.2,
      ErlList.ofValue arguments, Atom.ofValue (bytesOf "user")]]

/-- The pattern of an answer, `make_e_tuple(atom("rex"), any(&reply_part))`. -/
def rpcReply (ndebug : Bool) : Object AnyVars :=
  makeETuple [Atom.ofValue (bytesOf "rex"), AnyVars.any.toObject ndebug]

def unexpectedResult (remoteNode : Str) (remoteFn : ModuleAndFunction) : TinchPpException :=
  ⟨bytesOf "RPC: Unexpected result from call to " ++ remoteNode ++ bytesOf ", function " ++
    remoteFn.1 ++ bytesOf ":" ++ remoteFn.2⟩

/-- `receive_rpc_reply`, once something has been received: the bytes of the part it returns. `none`
when an assertion fails. -/
def receiveRpcReply (ndebug : Bool) (remoteNode : Str) (remoteFn : ModuleAndFunction)
    (result : MsgSeq) : Option (Except TinchPpException (Option MsgSeq)) :=
  match matchableSeqMatch result (rpcReply ndebug) ⟨[], none⟩ with
  | none => none
  | some (false, _) => some (.error (unexpectedResult remoteNode remoteFn))
  | some (true, v) => some (.ok v.toAssign)

/-- What a node answers when a call has given this result. -/
def rexReply (result : Term) : MsgSeq := (Term.tuple [.atom (bytesOf "rex"), result]).enc

/-- **An answer is read correctly**, if there is no list in it. -/
theorem receiveRpcReply_rexReply {result : Term} (hwire : result.InWireRange)
    (hlistless : result.Listless) (ndebug : Bool) (remoteNode : Str)
    (remoteFn : ModuleAndFunction) :
    receiveRpcReply ndebug remoteNode remoteFn (rexReply result) =
      some (.ok (some result.enc)) := by
  have hcaptures : AnyVars.any.Captures ndebug result ⟨[], none⟩ :=
    (AnyObject.captures_iff hwire AnyVars.any ndebug rfl).mpr hlistless
  obtain ⟨m, v, hmatch, hassign, rfl, -⟩ := hcaptures []
  have hreply : rexReply result =
      smallTupleHeadG 2 ++ (atomExtG (bytesOf "rex") ++ (result.enc ++ [])) := rfl
  have hhead := smallTupleHeadExt_smallTupleHeadG (show 2 < 256 by decide)
    (atomExtG (bytesOf "rex") ++ (result.enc ++ [])) 0
  have hall : ETuple.matchAll
      [Atom.ofValue (bytesOf "rex"), AnyVars.any.toObject ndebug]
      (atomExtG (bytesOf "rex") ++ (result.enc ++ [])) ⟨[], none⟩ = some (true, [], v) := by
    rw [ETuple.matchAll, Atom.matchFn_ofValue (by decide), decide_eq_true rfl]
    dsimp only
    rw [ETuple.matchAll, AnyObject.toObject]
    dsimp only
    rw [hmatch]
    rfl
  have hmatched : (rpcReply ndebug).matchFn (rexReply result) ⟨[], none⟩ =
      some (true, [], v) := by
    simp only [hreply, rpcReply, makeETuple, ETuple.matchFn, binaryToTerm_of_some hhead]
    exact hall
  have hassigned : v.toAssign = some result.enc := hassign
  simp only [receiveRpcReply, matchableSeqMatch, hmatched, Option.map_some, hassigned]

/-! ### An `rpc` object -/

/-- The request of a call. -/
structure RpcRequest where
  remoteNode : Str
  remoteFn : ModuleAndFunction
  message : MsgSeq

/-- An `rpc` object and its calls: their receives, their requests, and which requests have not been
answered yet, oldest first, by node and number. -/
structure RpcRun where
  self : EPid
  mbox : TimedMailbox
  requests : List RpcRequest
  unanswered : List (Str × ℕ)

/-- A call is begun, the oldest request to a node is answered and the answer arrives, or the call
goes on. -/
inductive RpcEvent
  | blockingRpc (remoteNode : Str) (remoteFn : ModuleAndFunction) (arguments : List (Object Unit))
      (tmo : Bool)
  | answer (remoteNode : Str)
  | goOn (e : TimedMailboxEvent)

/-- What the calls give, by number. -/
abbrev RpcResults := ℕ → {result : Term // result.InWireRange}

namespace RpcRun

def start (self : EPid) : RpcRun := ⟨self, .start, [], []⟩

def step (results : RpcResults) (r : RpcRun) : RpcEvent → Option RpcRun
  | .blockingRpc remoteNode remoteFn arguments tmo =>
    if ∀ c ∈ r.mbox.calls, c.phase = .over then
      (r.mbox.step (.call tmo)).map fun mbox =>
        { r with
          mbox := mbox
          requests := r.requests ++
            [⟨remoteNode, remoteFn, (rpcCall r.self remoteFn arguments).serialize⟩]
          unanswered := r.unanswered ++ [(remoteNode, r.mbox.calls.length)] }
    else none
  | .answer remoteNode =>
    match r.unanswered.find? fun u => u.1 = remoteNode with
    | some u => (r.mbox.step (.incoming (rexReply (results u.2).1))).map fun mbox =>
        { r with mbox := mbox, unanswered := r.unanswered.erase u }
    | none => none
  | .goOn e => if e.ofReceiver then (r.mbox.step e).map fun mbox => { r with mbox := mbox } else none

/-- What a call that has received something returns or raises. -/
def returned (ndebug : Bool) (r : RpcRun) (a : ReceiveAnswer) :
    Option (Except TinchPpException (Option MsgSeq)) :=
  match a.outcome, r.requests[a.call]? with
  | .ok msg, some request => receiveRpcReply ndebug request.remoteNode request.remoteFn msg
  | _, _ => none

/-- A call that returns, returns the result of its own request. -/
def OwnAnswers (ndebug : Bool) (results : RpcResults) (r : RpcRun) : Prop :=
  ∀ a ∈ r.mbox.answers, ∀ value, r.returned ndebug a = some (.ok value) →
    value = some (results a.call).1.enc

/-- A call is begun when everything that has been asked for has been answered and taken, and its
result has no list in it. -/
def Settled (results : RpcResults) (r : RpcRun) : RpcEvent → Prop
  | .blockingRpc _ _ _ _ => r.unanswered = [] ∧ r.mbox.mbox.receivedMsgs = [] ∧
    (results r.mbox.calls.length).1.Listless
  | _ => True

/-! ### Whose answer it is -/

/-- Nothing is due, or only the answer to the last call: it is on its way, or it is queued. -/
def DueToLast (results : RpcResults) (r : RpcRun) : Prop :=
  (r.unanswered = [] ∧ r.mbox.mbox.receivedMsgs = []) ∨
  ∃ k, k + 1 = r.mbox.calls.length ∧ (results k).1.Listless ∧
    ((∃ remoteNode, r.unanswered = [(remoteNode, k)]) ∧ r.mbox.mbox.receivedMsgs = [] ∨
      r.unanswered = [] ∧ r.mbox.mbox.receivedMsgs = [rexReply (results k).1])

/-- What is true as long as every call is begun with nothing due. -/
structure Tracked (results : RpcResults) (r : RpcRun) : Prop where
  answered : ∀ a ∈ r.mbox.answers, ∀ msg, a.outcome = .ok msg →
    msg = rexReply (results a.call).1 ∧ (results a.call).1.Listless
  last : ∀ (i : ℕ) (c : ReceiveCall), r.mbox.calls[i]? = some c → c.phase ≠ .over →
    i + 1 = r.mbox.calls.length
  due : r.DueToLast results

variable {results : RpcResults} {r t : RpcRun} {e : RpcEvent}

theorem Tracked.ownAnswers (hr : r.Tracked results) (ndebug : Bool) :
    r.OwnAnswers ndebug results := by
  intro a ha value hvalue
  rw [returned] at hvalue
  split at hvalue
  · next msg request hmsg hrequest =>
    obtain ⟨rfl, hlistless⟩ := hr.answered a ha msg hmsg
    rw [receiveRpcReply_rexReply (results a.call).2 hlistless] at hvalue
    cases hvalue
    rfl
  · cases hvalue

theorem tracked_start (self : EPid) : (start self).Tracked results where
  answered a ha := by cases ha
  last i c hc := by cases hc
  due := .inl ⟨rfl, rfl⟩

/-- A call is begun with nothing due. -/
theorem Tracked.blockingRpc (hr : r.Tracked results) {remoteNode : Str}
    {remoteFn : ModuleAndFunction} {arguments : List (Object Unit)} {tmo : Bool}
    (hsettled : r.Settled results (.blockingRpc remoteNode remoteFn arguments tmo))
    (ht : r.step results (.blockingRpc remoteNode remoteFn arguments tmo) = some t) :
    t.Tracked results := by
  obtain ⟨hunanswered, hqueue, hlistless⟩ := hsettled
  rw [step] at ht
  split at ht
  · next hover =>
    cases ht
    refine ⟨hr.answered, fun i c hc hphase => ?_, .inr ⟨r.mbox.calls.length, ?_, hlistless, .inl ?_⟩⟩
    · rw [List.length_append, List.length_singleton]
      rcases Nat.lt_trichotomy i r.mbox.calls.length with hi | hi | hi
      · dsimp only at hc
        rw [List.getElem?_append_left hi] at hc
        exact absurd (hover c (List.mem_of_getElem? hc)) hphase
      · rw [hi]
      · have hnone : (r.mbox.calls ++ [⟨if tmo then some Timer.running else none,
            ReceivePhase.entering⟩])[i]? = none := by
          rw [List.getElem?_eq_none_iff, List.length_append, List.length_singleton]
          omega
        exact absurd (hnone.symm.trans hc) (by simp)
    · rw [List.length_append, List.length_singleton]
    · exact ⟨⟨remoteNode, by rw [hunanswered, List.nil_append]⟩, hqueue⟩
  · cases ht

/-- An answer arrives: it is the one to the last call. -/
theorem Tracked.answer (hr : r.Tracked results) {remoteNode : Str}
    (ht : r.step results (.answer remoteNode) = some t) : t.Tracked results := by
  rw [step] at ht
  split at ht
  · next u hu =>
    cases ht
    have hmem : u ∈ r.unanswered := List.mem_of_find?_eq_some hu
    refine ⟨hr.answered, hr.last, .inr ?_⟩
    rcases hr.due with ⟨hnone, -⟩ | ⟨k, hk, hlistless, ⟨⟨node, hone⟩, hqueue⟩ | ⟨hnone, -⟩⟩
    · rw [hnone] at hmem
      cases hmem
    · rw [hone] at hmem
      obtain rfl := List.mem_singleton.mp hmem
      refine ⟨k, hk, hlistless, .inr ⟨?_, ?_⟩⟩
      · simp [hone]
      · simp [hqueue]
    · rw [hnone] at hmem
      cases hmem
  · cases ht

/-- One more answer. -/
theorem Tracked.answered_append (hr : r.Tracked results) {answer : ReceiveAnswer}
    (hnew : ∀ msg, answer.outcome = .ok msg →
      msg = rexReply (results answer.call).1 ∧ (results answer.call).1.Listless) :
    ∀ a ∈ r.mbox.answers ++ [answer], ∀ msg, a.outcome = .ok msg →
      msg = rexReply (results a.call).1 ∧ (results a.call).1.Listless := by
  intro a ha
  rcases List.mem_append.mp ha with ha | ha
  · exact hr.answered a ha
  · obtain rfl := List.mem_singleton.mp ha
    exact hnew

/-- The call goes on: if it takes a message, that is its own answer. -/
theorem Tracked.goOn (hr : r.Tracked results) {e : TimedMailboxEvent}
    (ht : r.step results (.goOn e) = some t) : t.Tracked results := by
  rw [step] at ht
  split at ht
  · next he =>
    obtain ⟨mbox, hmbox, rfl⟩ := Option.map_eq_some_iff.mp ht
    obtain ⟨hlength, hcalls, hqueue⟩ := TimedMailbox.step_ofReceiver he hmbox
    have hlast : ∀ (i : ℕ) (c : ReceiveCall), mbox.calls[i]? = some c → c.phase ≠ .over →
        i + 1 = mbox.calls.length := by
      intro i c hc hphase
      obtain ⟨c', hc', hphase'⟩ := hcalls i c hc hphase
      rw [hlength]
      exact hr.last i c' hc' hphase'
    rcases hqueue with ⟨i, c, hc, hphase, hpick⟩ | ⟨hanswers, hreceived⟩
    · have hi := hr.last i c hc hphase
      rcases ActualMailbox.pickFirstMsg_cases r.mbox.mbox with ⟨msg, rest, hq, hout, hrest⟩ |
        ⟨err, hout, hrest⟩
      · -- only one answer can be queued
        rcases hr.due with ⟨-, hempty⟩ | ⟨k, hk, hlistless, ⟨-, hempty⟩ | ⟨hnone, hone⟩⟩
        · cases hq.symm.trans hempty
        · cases hq.symm.trans hempty
        · obtain ⟨rfl, rfl⟩ := List.cons.inj (hq.symm.trans hone)
          obtain rfl : k = i := by omega
          refine ⟨?_, hlast, .inl ⟨hnone, ?_⟩⟩
          · rw [hpick]
            refine hr.answered_append fun msg hmsg => ?_
            have hmsg := hout.symm.trans hmsg
            exact ⟨(Except.ok.inj hmsg).symm, hlistless⟩
          · rw [hpick]
            exact hrest
      · refine ⟨?_, hlast, ?_⟩
        · rw [hpick]
          refine hr.answered_append fun msg hmsg => ?_
          cases hout.symm.trans hmsg
        · have hreceived : mbox.mbox.receivedMsgs = r.mbox.mbox.receivedMsgs := by
            rw [hpick]
            exact hrest
          rw [DueToLast]
          dsimp only
          rw [hreceived, hlength]
          exact hr.due
    · refine ⟨fun a ha => hr.answered a (hanswers ▸ ha), hlast, ?_⟩
      rw [DueToLast]
      dsimp only
      rw [hreceived, hlength]
      exact hr.due
  · cases ht

theorem Tracked.step (hr : r.Tracked results) (hsettled : r.Settled results e)
    (ht : r.step results e = some t) : t.Tracked results := by
  cases e with
  | blockingRpc remoteNode remoteFn arguments tmo => exact hr.blockingRpc hsettled ht
  | answer remoteNode => exact hr.answer ht
  | goOn e => exact hr.goOn ht

/-- **Each call gets its own answer**, in every run in which no call is begun before everything
asked for earlier has been answered and taken, and no result has a list in it. -/
theorem ownAnswers_of_settled (ndebug : Bool) (results : RpcResults) (self : EPid)
    {es : List RpcEvent} (h : EveryStep (step results) (Settled results) (start self) es) :
    Throughout (step results) (OwnAnswers ndebug results) (start self) es :=
  (throughout_of_everyStep (fun _ _ _ hr hg ht => Tracked.step hr hg ht) (tracked_start self) h).mono
    fun _ ht => ht.ownAnswers ndebug

/-- Calls that give their own number. -/
def byNumber : RpcResults := fun k => ⟨.smallInteger (UInt8.ofNat k), trivial⟩

/-- Two calls, the second one timed. The first one is answered before it looks, the second one while
it waits, and its timer is cancelled. -/
theorem ownAnswers_of_settled_twice : Throughout (step byNumber) (OwnAnswers false byNumber)
    (start .invalid) [.blockingRpc (bytesOf "b@h") (bytesOf "m", bytesOf "f") [] false,
      .answer (bytesOf "b@h"), .goOn (.enter 0), .goOn (.leave 0),
      .blockingRpc (bytesOf "b@h") (bytesOf "m", bytesOf "g") [] true, .goOn (.enter 1),
      .answer (bytesOf "b@h"), .goOn (.wakeUp 1), .goOn (.leave 1), .goOn (.runHandler 1)] := by
  refine ownAnswers_of_settled false byNumber .invalid (everyStep_cons.mpr ⟨⟨rfl, rfl, trivial⟩,
    fun s hs => everyStep_cons.mpr ⟨trivial, fun t ht => everyStep_cons.mpr ⟨trivial, fun u hu =>
      everyStep_cons.mpr ⟨trivial, fun v hv => everyStep_cons.mpr ⟨?_, fun _ _ => ?_⟩⟩⟩⟩⟩)
  · obtain rfl := Option.some_inj.mp hs
    obtain rfl := Option.some_inj.mp ht
    obtain rfl := Option.some_inj.mp hu
    obtain rfl := Option.some_inj.mp hv
    exact ⟨rfl, rfl, trivial⟩
  · exact everyStep_cons.mpr ⟨trivial, fun _ _ => everyStep_cons.mpr ⟨trivial, fun _ _ =>
      everyStep_cons.mpr ⟨trivial, fun _ _ => everyStep_cons.mpr ⟨trivial, fun _ _ =>
        everyStep_cons.mpr ⟨trivial, fun _ _ => everyStep_nil⟩⟩⟩⟩⟩

/-- The first call times out and is answered while the second one waits, which returns the result of
the first. -/
theorem not_ownAnswers_late : ∃ t, run (step byNumber) (start .invalid)
      [.blockingRpc (bytesOf "b@h") (bytesOf "m", bytesOf "f") [] true, .goOn (.enter 0),
        .goOn (.expire 0), .goOn (.runHandler 0), .goOn (.wakeUp 0), .goOn (.leave 0),
        .blockingRpc (bytesOf "b@h") (bytesOf "m", bytesOf "f") [] true, .answer (bytesOf "b@h"),
        .goOn (.enter 1)] = some t ∧
    t.mbox.answers = [⟨0, some .fired, [0], .error .mailboxReceiveTmo⟩,
      ⟨1, some .running, [], .ok (rexReply (.smallInteger 0))⟩] ∧
    ¬ t.OwnAnswers false byNumber := by
  obtain ⟨t, ht, hanswers, hrequests⟩ : ∃ t, run (step byNumber) (start .invalid)
        [.blockingRpc (bytesOf "b@h") (bytesOf "m", bytesOf "f") [] true, .goOn (.enter 0),
          .goOn (.expire 0), .goOn (.runHandler 0), .goOn (.wakeUp 0), .goOn (.leave 0),
          .blockingRpc (bytesOf "b@h") (bytesOf "m", bytesOf "f") [] true,
          .answer (bytesOf "b@h"), .goOn (.enter 1)] = some t ∧
      t.mbox.answers = [⟨0, some .fired, [0], .error .mailboxReceiveTmo⟩,
        ⟨1, some .running, [], .ok (rexReply (.smallInteger 0))⟩] ∧
      (t.requests[1]?).isSome :=
    ⟨_, rfl, rfl, rfl⟩
  refine ⟨t, ht, hanswers, fun h => ?_⟩
  obtain ⟨request, hrequest⟩ := Option.isSome_iff_exists.mp hrequests
  have hwire : (Term.smallInteger 0).InWireRange := trivial
  have hlistless : (Term.smallInteger 0).Listless := trivial
  have hreturned : t.returned false ⟨1, some .running, [], .ok (rexReply (.smallInteger 0))⟩ =
      some (.ok (some (Term.smallInteger 0).enc)) := by
    simp only [returned, hrequest]
    exact receiveRpcReply_rexReply hwire hlistless ..
  have hvalue := h _ (by simp [hanswers]) _ hreturned
  exact absurd hvalue (by decide)

end RpcRun

end TinchPp
