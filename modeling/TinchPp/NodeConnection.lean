import TinchPp.CtrlMsgDispatcher
import TinchPp.HandshakeGrammar

/-!
# A connection to another node

`node_connection.cpp`, with the states of `node_connection_state.cpp` and the asynchronous I/O of
`node_async_tcp_ip.cpp`. The connection goes through the states of a handshake, as its originator
(A) or as the node that was connected to (B), and ends up in `connected`. It owns two lexers, and a
pointer to the one that is in use: `handshake_complete` switches it.

A state waits for one thing at a time. It hands a callback to `trigger_read`, which calls it once
the lexer has a complete message, or to `trigger_write`, which calls it once the message has been
written. Callbacks run on one thread, one after the other, so that an event of the model is one
completed operation with everything its callback does. A callback that raises leaves the
connection as it is at that point.

The objects for the states are just names here, and a transition deletes the one whose callback is
running. The callbacks are written with that in mind and do not use it afterwards, all but one:
`receiving_challenge::challenge_read` copies `access` out of it. That is undefined, unless the
callback of the state before is still running and holds it.

The calls made on the node are recorded and nothing more. The node may answer one of them with a
request on this same connection; that is a `request` of its own here, right after it.
-/

namespace TinchPp

open Wire

/-! ### The node, seen from a connection -/

/-- What a connection asks its node for, and `md5.c`: a digest has sixteen bytes. -/
structure NodeAccess where
  name : Str
  cookie : Str
  md5 : Str → Vector UInt8 16

/-- `calculate_digest`: the cookie, followed by the challenge as text. Where the digest is that of
`md5.c`, `ComputesDigests` says which cookies it is defined for. -/
def NodeAccess.calculateDigest (node : NodeAccess) (challenge : UInt32) (cookie : Str) : MsgSeq :=
  (node.md5 (cookie ++ bytesOf (toString challenge.toNat))).toList

theorem NodeAccess.length_calculateDigest (node : NodeAccess) (challenge : UInt32)
    (cookie : Str) : (node.calculateDigest challenge cookie).length = digestLength := by
  simp [calculateDigest, digestLength]

/-! ### The connection -/

inductive ConnectionState
  | connectedTcp
  | sendingStatus
  | waitingForStatus
  | receivingChallenge
  | waitingForChallengeReply
  | sendingChallengeReply
  | sendingChallengeAck
  | receivingChallengeAck
  | connected
deriving DecidableEq, Repr

/-- The `message_read_fn`s in use. -/
inductive ReadCallback
  | nameRead
  | statusRead
  | challengeRead
  | replyReceived
  | challengeAckRead
  | msgReceived
deriving DecidableEq, Repr

/-- The `message_written_fn`s in use. -/
inductive WriteCallback
  | handshakeSent
  | challengeWritten
  | replySent
  | challengeAckWritten
  | ignoreWriteNotification
deriving DecidableEq, Repr

/-- The exceptions that reach `run_async_io`. -/
inductive Raised
  | tinchPpException (reason : Str)
  | connectionIoError (reason nodeName : Str)
deriving DecidableEq, Repr

/-- `node_connection` and the `node_async_tcp_ip` it owns. `pendingRead` is the outstanding
`async_read_some`, with the callback and the lexer bound to it; `writing` says whether there is an
outstanding `async_write`, of the first message in the queue. The last four fields record what the
connection has done: the `handshake_success` signals, the messages that `msg_received` has answered
or dispatched, the calls made by the dispatcher, and the exceptions. -/
structure NodeConnection where
  peerName : Option Str
  state : ConnectionState
  handshakeMsgs : MsgLexer
  connectedMsgs : MsgLexer
  receivedMsgs : LexerKind
  ownChallenge : UInt32
  pendingRead : Option (ReadCallback × LexerKind)
  writeQueue : List (MsgSeq × WriteCallback)
  writing : Bool
  handshakeSuccess : List Bool
  handled : List MsgSeq
  calls : List AccessCall
  raised : List Raised

namespace NodeConnection

/-- The two constructors; the one for an incoming connection does not know the peer's name. -/
def create (peerName : Option Str) : NodeConnection where
  peerName := peerName
  state := .connectedTcp
  handshakeMsgs := .empty
  connectedMsgs := .empty
  receivedMsgs := .handshake
  ownChallenge := 0
  pendingRead := none
  writeQueue := []
  writing := false
  handshakeSuccess := []
  handled := []
  calls := []
  raised := []

/-- The lexer a `msg_lexer*` points at. -/
def lexer (c : NodeConnection) : LexerKind → MsgLexer
  | .handshake => c.handshakeMsgs
  | .connected => c.connectedMsgs

def setLexer (k : LexerKind) (l : MsgLexer) (c : NodeConnection) : NodeConnection :=
  match k with
  | .handshake => { c with handshakeMsgs := l }
  | .connected => { c with connectedMsgs := l }

/-- `*msgs.next_message()`; `none` when there is no message to dereference. -/
def nextMessage (msgs : LexerKind) (c : NodeConnection) : Option (MsgSeq × NodeConnection) :=
  match (c.lexer msgs).nextMessage with
  | (some msg, l) => some (msg, c.setLexer msgs l)
  | (none, _) => none

/-- An exception leaves the callback. -/
def raise (e : Raised) (c : NodeConnection) : NodeConnection :=
  { c with raised := c.raised ++ [e] }

def parseFailure : Raised := .tinchPpException (bytesOf "Parse failure!")

/-! ### `node_async_tcp_ip`: reads and writes are triggered -/

def triggerRead (callback : ReadCallback) (receivedMsgs : LexerKind) (c : NodeConnection) :
    NodeConnection :=
  { c with pendingRead := some (callback, receivedMsgs) }

def triggerWrite (msg : MsgSeq) (callback : WriteCallback) (c : NodeConnection) :
    NodeConnection :=
  { c with
    writeQueue := c.writeQueue ++ [(msg, callback)]
    writing := c.writing || c.writeQueue.isEmpty }

/-! ### `node_connection`: what the states have access to -/

def triggerCheckedRead (callback : ReadCallback) (c : NodeConnection) : NodeConnection :=
  c.triggerRead callback c.receivedMsgs

def triggerCheckedWrite (msg : MsgSeq) (callback : WriteCallback) (c : NodeConnection) :
    NodeConnection :=
  c.triggerWrite msg callback

def changeState (state : ConnectionState) (c : NodeConnection) : NodeConnection :=
  { c with state := state }

def gotPeerName (name : Str) (c : NodeConnection) : NodeConnection :=
  { c with peerName := some name }

/-- Erlang uses a different message format once connected. -/
def handshakeComplete (c : NodeConnection) : NodeConnection :=
  { c with receivedMsgs := .connected, handshakeSuccess := c.handshakeSuccess ++ [true] }

/-- The reason is not used. -/
def reportFailure (_reason : Str) (c : NodeConnection) : NodeConnection :=
  { c with state := .connectedTcp, handshakeSuccess := c.handshakeSuccess ++ [false] }

variable (node : NodeAccess)

/-- `handle_io_error`: in a handshake the failure is reported, once connected it is raised. -/
def handleIoError (error : Str) (c : NodeConnection) : NodeConnection :=
  match c.state with
  | .connected =>
    match c.peerName with
    | some peer => c.raise (.connectionIoError error peer)
    | none => c.raise (.tinchPpException (bytesOf "Unknown peer node for " ++ node.name))
  | _ => c.reportFailure error

/-! ### The states, the last one first -/

def tick : MsgSeq := List.replicate 4 0

def isTick (msg : MsgSeq) : Bool := msg = tick

def sendTock (c : NodeConnection) : NodeConnection :=
  c.triggerCheckedWrite tick .ignoreWriteNotification

/-- `connected::msg_received`. What the dispatcher raises is caught, and the next read is triggered
in any case. -/
def msgReceived (msgs : LexerKind) (c : NodeConnection) : Option NodeConnection :=
  match c.nextMessage msgs with
  | none => none
  | some (msg, c) =>
    let c := { c with handled := c.handled ++ [msg] }
    if isTick msg then some (c.sendTock.triggerCheckedRead .msgReceived)
    else
      match dispatch true msg with
      | ⟨_, .error .undefinedBehaviour⟩ => none
      | ⟨calls, .error (.tinchPpException _)⟩ | ⟨calls, .ok ()⟩ =>
        some ({ c with calls := c.calls ++ calls }.triggerCheckedRead .msgReceived)

/-- The distributed operations; only the connected state has them. -/
def request (distributedOperation : ControlMsg) (c : NodeConnection) : NodeConnection :=
  match c.state with
  | .connected => c.triggerCheckedWrite distributedOperation.frame .ignoreWriteNotification
  | _ => c

def makeTransitionToConnected (c : NodeConnection) : NodeConnection :=
  (c.changeState .connected).handshakeComplete.triggerCheckedRead .msgReceived

/-- The check of the two states that get a digest from the peer. -/
def isCorrect (digest : MsgSeq) (c : NodeConnection) : Bool :=
  node.calculateDigest c.ownChallenge node.cookie = digest

def checkYourCookies : Raised :=
  .tinchPpException (bytesOf "Handshake failure with remote node - check your cookies!")

/-- `receiving_challenge_ack::challenge_ack_read` -/
def challengeAckRead (msgs : LexerKind) (c : NodeConnection) : Option NodeConnection :=
  match c.nextMessage msgs with
  | none => none
  | some (ackMsg, c) =>
    match parse ackMsg recvChallengeAckP [] with
    | none => some (c.raise parseFailure)
    | some digest =>
      if c.isCorrect node digest then some c.makeTransitionToConnected
      else some (c.raise checkYourCookies)

/-- `sending_challenge_ack::send_ack` -/
def sendAck (challenge : UInt32) (c : NodeConnection) : NodeConnection :=
  c.triggerCheckedWrite (sendChallengeAckG (node.calculateDigest challenge node.cookie))
    .challengeAckWritten

def challengeAckWritten (c : NodeConnection) : NodeConnection := c.makeTransitionToConnected

/-- `sending_challenge_reply::send` -/
def sendReply (challengeFromB : UInt32) (c : NodeConnection) : NodeConnection :=
  c.triggerCheckedWrite
    (challengeReply ⟨c.ownChallenge, node.calculateDigest challengeFromB node.cookie⟩) .replySent

/-- `sending_challenge_reply::reply_sent`. The new state triggers its read. -/
def replySent (c : NodeConnection) : NodeConnection :=
  (c.triggerCheckedRead .challengeAckRead).changeState .receivingChallengeAck

/-- `waiting_for_challenge_reply::reply_received` -/
def replyReceived (msgs : LexerKind) (c : NodeConnection) : Option NodeConnection :=
  match c.nextMessage msgs with
  | none => none
  | some (msg, c) =>
    match parse msg challengeReplyP ChallengeReplyAttributes.init with
    | none => some (c.raise parseFailure)
    | some replyAttr =>
      if c.isCorrect node replyAttr.digest then
        some ((c.changeState .sendingChallengeAck).sendAck node replyAttr.challenge)
      else
        some (c.reportFailure
          (bytesOf "A sent an erroneous digest (check the cookies on your nodes)."))

/-- `receiving_challenge::challenge_read`. With the transition, the connection lets go of this state,
and only then is `access` copied for `send`: it is gone by then, unless someone else has `held` it. -/
def challengeRead (held : Bool) (msgs : LexerKind) (c : NodeConnection) : Option NodeConnection :=
  match c.nextMessage msgs with
  | none => none
  | some (msg, c) =>
    match parse msg recvChallenge ChallengeAttributes.init with
    | none => some (c.raise parseFailure)
    | some attributes =>
      if held then some ((c.changeState .sendingChallengeReply).sendReply node attributes.challenge)
      else none

/-- `receiving_challenge::receive_challenge`: the challenge may have come with the status. Here
`waiting_for_status::dispatch` holds the state. -/
def receiveChallenge (msgs : LexerKind) (c : NodeConnection) : Option NodeConnection :=
  if (c.lexer msgs).hasCompleteMsg then c.challengeRead node true msgs
  else some (c.triggerCheckedRead .challengeRead)

def isOk (status : Str) : Bool := status = bytesOf "ok" ∨ status = bytesOf "ok_simultaneous"

/-- `waiting_for_status::dispatch` -/
def dispatchStatus (status : Str) (msgs : LexerKind) (c : NodeConnection) :
    Option NodeConnection :=
  if isOk status then (c.changeState .receivingChallenge).receiveChallenge node msgs
  else some (c.reportFailure (bytesOf "Handshake not OK, B sent status = " ++ status))

/-- `waiting_for_status::status_read` -/
def statusRead (msgs : LexerKind) (c : NodeConnection) : Option NodeConnection :=
  match c.nextMessage msgs with
  | none => none
  | some (msg, c) =>
    match parse msg receiveStatus [] with
    | none => some (c.raise parseFailure)
    | some status => c.dispatchStatus node status msgs

/-- The constructor of `sending_status`: the status and the challenge are written back to back. -/
def sendStatusAndChallenge (c : NodeConnection) : NodeConnection :=
  let c := c.triggerCheckedWrite (receiveStatusG (bytesOf "ok")) .ignoreWriteNotification
  c.triggerCheckedWrite (sendChallengeG c.ownChallenge node.name) .challengeWritten

/-- `sending_status::challenge_written`. The new state triggers its read. -/
def challengeWritten (c : NodeConnection) : NodeConnection :=
  (c.triggerCheckedRead .replyReceived).changeState .waitingForChallengeReply

/-- `connected_tcp::handshake_sent`. The new state triggers its read. -/
def handshakeSent (c : NodeConnection) : NodeConnection :=
  (c.triggerCheckedRead .statusRead).changeState .waitingForStatus

def supportedVersion (received : SentName) : Bool :=
  received.version0.toInt ≤ Constants.supportedVersion.toNat ∧
    Constants.supportedVersion.toNat ≤ received.version1.toInt

def erroneousVersion (sentName : SentName) : Str :=
  bytesOf "The connecting node " ++ sentName.name ++
    bytesOf " uses an unsupported version. We support version = " ++
    bytesOf (toString Constants.supportedVersion.toNat) ++ bytesOf ", but the node has " ++
    decimal sentName.version0 ++ bytesOf " -> " ++ decimal sentName.version1

/-- `connected_tcp::name_read`: another node has initiated the connection and sent its name. -/
def nameRead (msgs : LexerKind) (c : NodeConnection) : Option NodeConnection :=
  match c.nextMessage msgs with
  | none => none
  | some (msg, c) =>
    match parse msg sendNameP SentName.init with
    | none => some (c.raise parseFailure)
    | some sentName =>
      if supportedVersion sentName then
        some (((c.gotPeerName sentName.name).sendStatusAndChallenge node).changeState
          .sendingStatus)
      else some (c.reportFailure (erroneousVersion sentName))

/-! ### `node_async_tcp_ip`: reads and writes complete -/

def invokeRead : ReadCallback → LexerKind → NodeConnection → Option NodeConnection
  | .nameRead => nameRead node
  | .statusRead => statusRead node
  | .challengeRead => challengeRead node false
  | .replyReceived => replyReceived node
  | .challengeAckRead => challengeAckRead node
  | .msgReceived => msgReceived

def invokeWritten : WriteCallback → NodeConnection → NodeConnection
  | .handshakeSent => handshakeSent
  | .challengeWritten => challengeWritten
  | .replySent => replySent
  | .challengeAckWritten => challengeAckWritten
  | .ignoreWriteNotification => id

def readBufferSize : ℕ := 128

/-- `checked_read`: the callback runs once there is a complete message, and until then the read is
triggered again, with the same callback and lexer. -/
def checkedRead (bytes : MsgSeq) (c : NodeConnection) : Option NodeConnection :=
  match c.pendingRead with
  | none => none
  | some (callback, receivedMsgs) =>
    match (c.lexer receivedMsgs).add receivedMsgs bytes with
    | none => none
    | some l =>
      let c := { c with pendingRead := none }.setLexer receivedMsgs l
      if l.hasCompleteMsg then c.invokeRead node callback receivedMsgs
      else some (c.triggerRead callback receivedMsgs)

def checkedReadError (error : Str) (c : NodeConnection) : Option NodeConnection :=
  match c.pendingRead with
  | none => none
  | some _ => some ({ c with pendingRead := none }.handleIoError node error)

/-- `checked_write`: the next message is on its way before the callback runs. -/
def checkedWrite (c : NodeConnection) : Option NodeConnection :=
  match c.writing, c.writeQueue with
  | true, (_, callback) :: queue =>
    some ({ c with writeQueue := queue, writing := !queue.isEmpty }.invokeWritten callback)
  | _, _ => none

/-- The message that could not be written stays in the queue. -/
def checkedWriteError (error : Str) (c : NodeConnection) : Option NodeConnection :=
  if c.writing then some ({ c with writing := false }.handleIoError node error) else none

/-! ### Runs -/

/-- What can happen to a connection: an operation completes, or the node makes a request. -/
inductive Event
  | read (bytes : MsgSeq)
  | readError (error : Str)
  | written
  | writeError (error : Str)
  | request (distributedOperation : ControlMsg)
deriving DecidableEq, Repr

/-- An event is a read, or is none. -/
theorem Event.ne_read_or_eq (e : Event) : (∀ b, e ≠ .read b) ∨ ∃ b, e = .read b := by
  cases e with
  | read bytes => exact .inr ⟨bytes, rfl⟩
  | _ => exact .inl fun bytes h => by cases h

/-- A read delivers what is there, at least one byte and at most a buffer full. -/
def step (c : NodeConnection) : Event → Option NodeConnection
  | .read bytes =>
    if 0 < bytes.length ∧ bytes.length ≤ readBufferSize then c.checkedRead node bytes else none
  | .readError error => c.checkedReadError node error
  | .written => c.checkedWrite
  | .writeError error => c.checkedWriteError node error
  | .request distributedOperation => some (c.request distributedOperation)

/-- The operation can complete: it has been triggered, and what is read is not too much. -/
def Possible (c : NodeConnection) : Event → Prop
  | .read bytes => c.pendingRead ≠ none ∧ 0 < bytes.length ∧ bytes.length ≤ readBufferSize
  | .readError _ => c.pendingRead ≠ none
  | .written => c.writing = true ∧ c.writeQueue ≠ []
  | .writeError _ => c.writing = true
  | .request _ => True

/-- The operation can complete, and what its callback does then is undefined. -/
def Undefined (c : NodeConnection) (e : Event) : Prop := c.Possible e ∧ c.step node e = none

/-- Originator. -/
def startHandshakeAsA (ownChallenge : UInt32) (peerName : Str) : NodeConnection :=
  { create (some peerName) with ownChallenge := ownChallenge }.triggerCheckedWrite
    (sendName node.name) .handshakeSent

/-- The other node is the originator. -/
def startHandshakeAsB (ownChallenge : UInt32) : NodeConnection :=
  { create none with ownChallenge := ownChallenge }.triggerCheckedRead .nameRead

/-- The two roles in a handshake. The originator knows the name of its peer. -/
inductive Role
  | originator (peerName : Str)
  | acceptor
deriving DecidableEq, Repr

def startHandshake (ownChallenge : UInt32) : Role → NodeConnection
  | .originator peerName => startHandshakeAsA node ownChallenge peerName
  | .acceptor => startHandshakeAsB ownChallenge

end NodeConnection

end TinchPp
