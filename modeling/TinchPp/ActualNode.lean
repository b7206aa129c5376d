import Mathlib.Logic.Function.Basic
import TinchPp.ActualMailbox
import TinchPp.CtrlMsgDispatcher
import TinchPp.Linker
import TinchPp.Pid

/-!
# The node

`actual_node.cpp`, as far as it is about mailboxes: making, finding and closing them, and the links
between them. A client owns its mailboxes; the node has weak pointers to them in two tables, by pid
and by registered name. `objects` is the heap: a mailbox is its place in the list, and it is expired
once the last pointer that owns it is gone.

The tables are finite maps. The table of pids is keyed by what `operator<` on pids looks at.

Closing a mailbox takes its links out of the linker, notifies the pids it was linked to one by one,
and then removes what the tables have under its pid and under its name. A notification can raise:
the local mailbox may be unknown or expired, the remote node may be out of reach. What the network
does is up to the environment, and `Connections` is its say in a call.

Each event of a `step` is atomic.

## Main definitions

* `ActualNode` and its operations, under the names of the source
* `NodeEvent`, `step` — what clients, peers and the I/O thread do to a node
* `ActualNode.closing` — the closes among the events: an explicit one, one by a destructor, and one
  that a destructor has posted to the I/O thread
-/

namespace TinchPp

open EventSystem

/-- `tinch_pp_exception` -/
structure TinchPpException where
  reason : Str
deriving DecidableEq, Repr

/-- What a weak pointer points at. -/
abbrev Handle := ℕ

/-- An `actual_mailbox` object. -/
structure MailboxObject where
  ownPid : EPid
  ownName : Str
  contents : ActualMailbox
  expired : Bool
deriving DecidableEq, Repr

/-- What the order of `mailboxes_type` sees of a pid. -/
def EPid.key (p : EPid) : UInt32 × UInt32 := (p.id, p.serial)

/-- A close that waits in the queue of the I/O thread. The mailbox that it was posted for is kept
for reference only. -/
structure PostedClose where
  owner : Handle
  id : EPid
  name : Str
  reason : Str
deriving DecidableEq, Repr

/-- The data members of `actual_node` that have to do with mailboxes, the heap, and the control
messages that connections have been asked to send. -/
structure ActualNode where
  nodeName : Str
  creation : UInt32
  pidSource : PidSource
  objects : List MailboxObject
  mailboxes : UInt32 × UInt32 → Option Handle
  registeredMailboxes : Str → Option Handle
  mailboxLinker : Linker
  posted : List PostedClose
  requested : List (Str × ControlMsg)

/-- Whether a control message for a remote pid gets as far as a connection, or the exception that
is raised on the way. -/
abbrev Connections := EPid → Except TinchPpException Unit

/-- How an operation on the node ends: it returns or raises, and leaves the node in some state. -/
abbrev NodeResult := Except TinchPpException Unit × ActualNode

namespace ActualNode

/-! ### Tables -/

def keyToName (p : EPid) : Str :=
  bytesOf "<" ++ p.nodeName ++ bytesOf (":" ++ toString p.id.toNat ++ ":" ++
    toString p.serial.toNat ++ ":" ++ toString p.creation.toNat ++ ">")

def notKnown (name : Str) : TinchPpException :=
  ⟨bytesOf "Failed to deliver message - mailbox not known. Name = " ++ name⟩

def mailboxExpired (name : Str) : TinchPpException :=
  ⟨bytesOf ("Failed to deliver message - mailbox expired (check your lifetime management). " ++
    "Name = ") ++ name⟩

/-- `std::map::insert` leaves an entry that is there as it is. -/
def insertNew {κ : Type} [DecidableEq κ] (key : κ) (h : Handle) (table : κ → Option Handle) :
    κ → Option Handle :=
  if (table key).isSome then table else Function.update table key (some h)

def erase {κ : Type} [DecidableEq κ] (key : κ) (table : κ → Option Handle) : κ → Option Handle :=
  Function.update table key none

/-- The weak pointer does not lead anywhere any more. -/
def isExpired (n : ActualNode) (h : Handle) : Bool :=
  match n.objects[h]? with
  | some o => o.expired
  | none => true

/-- `fetch_mailbox`: an expired entry is removed on the way. -/
def fetchMailbox {κ : Type} [DecidableEq κ] (key : κ) (name : Str) (table : κ → Option Handle)
    (n : ActualNode) : Except TinchPpException Handle × (κ → Option Handle) :=
  match table key with
  | none => (.error (notKnown name), table)
  | some h =>
    if n.isExpired h then (.error (mailboxExpired name), erase key table) else (.ok h, table)

theorem fetchMailbox_of_none {κ : Type} [DecidableEq κ] {key : κ} {table : κ → Option Handle}
    (hm : table key = none) (name : Str) (n : ActualNode) :
    fetchMailbox key name table n = (.error (notKnown name), table) := by
  rw [fetchMailbox, hm]

theorem fetchMailbox_of_expired {κ : Type} [DecidableEq κ] {key : κ} {table : κ → Option Handle}
    {n : ActualNode} {h : Handle} (hm : table key = some h) (hexp : n.isExpired h = true)
    (name : Str) :
    fetchMailbox key name table n = (.error (mailboxExpired name), erase key table) := by
  rw [fetchMailbox, hm]
  exact if_pos hexp

theorem fetchMailbox_of_owned {κ : Type} [DecidableEq κ] {key : κ} {table : κ → Option Handle}
    {n : ActualNode} {h : Handle} (hm : table key = some h) (hexp : n.isExpired h = false)
    (name : Str) : fetchMailbox key name table n = (.ok h, table) := by
  rw [fetchMailbox, hm]
  exact if_neg (by simp [hexp])

/-! ### Creating mailboxes -/

/-- A node as it is constructed. -/
def create (nodeName : Str) : ActualNode :=
  ⟨nodeName, 0, .create, [], fun _ => none, fun _ => none, .create, [], []⟩

/-- The new object, and the node that has issued its pid. -/
def newMailbox (name : Str) (n : ActualNode) : MailboxObject × ActualNode :=
  match n.pidSource.makePid n.nodeName n.creation with
  | (pid, pidSource) => (⟨pid, name, .create, false⟩,
      { n with pidSource := pidSource, objects := n.objects ++ [⟨pid, name, .create, false⟩] })

/-- `create_mailbox()`; `none` when the assertion fails that the pid is new. -/
def createMailbox (n : ActualNode) : Option ActualNode :=
  match n.newMailbox [] with
  | (mbox, n') =>
    if (n.mailboxes mbox.ownPid.key).isSome then none
    else some { n' with mailboxes := insertNew mbox.ownPid.key n.objects.length n.mailboxes }

/-- `create_mailbox(registered_name)` -/
def createMailboxNamed (registeredName : Str) (n : ActualNode) : ActualNode :=
  match n.newMailbox registeredName with
  | (mbox, n') =>
    { n' with
      mailboxes := insertNew mbox.ownPid.key n.objects.length n.mailboxes
      registeredMailboxes := insertNew registeredName n.objects.length n.registeredMailboxes }

/-! ### Messages -/

/-- Act on a mailbox. -/
def onMailbox (h : Handle) (act : ActualMailbox → ActualMailbox) (n : ActualNode) : ActualNode :=
  { n with objects := n.objects.modify h fun o => { o with contents := act o.contents } }

/-- `receive_incoming(msg, to)`, to a pid -/
def receiveIncoming (msg : MsgSeq) (toPid : EPid) (n : ActualNode) : NodeResult :=
  match fetchMailbox toPid.key (keyToName toPid) n.mailboxes n with
  | (.error e, table) => (.error e, { n with mailboxes := table })
  | (.ok h, _) => (.ok (), n.onMailbox h (.onIncoming msg))

/-- `receive_incoming(msg, to)`, to a registered name -/
def receiveIncomingName (msg : MsgSeq) (toName : Str) (n : ActualNode) : NodeResult :=
  match fetchMailbox toName toName n.registeredMailboxes n with
  | (.error e, table) => (.error e, { n with registeredMailboxes := table })
  | (.ok h, _) => (.ok (), n.onMailbox h (.onIncoming msg))

/-! ### Links -/

def incomingLink (fromPid toPid : EPid) (n : ActualNode) : ActualNode :=
  { n with mailboxLinker := n.mailboxLinker.link fromPid toPid }

def incomingUnlink (fromPid toPid : EPid) (n : ActualNode) : ActualNode :=
  { n with mailboxLinker := n.mailboxLinker.unlink fromPid toPid }

/-- `incoming_exit`, and `incoming_exit2`, which treats them the same way. -/
def incomingExit (fromPid toPid : EPid) (reason : Str) (n : ActualNode) : NodeResult :=
  match fetchMailbox toPid.key (keyToName toPid) n.mailboxes n with
  | (.error e, table) => (.error e, { n with mailboxes := table })
  | (.ok h, _) =>
    (.ok (), (n.onMailbox h (.onLinkBroken reason fromPid)).incomingUnlink fromPid toPid)

/-- Ask the connection to the node of a pid to send a control message. -/
def request (net : Connections) (distributedOperation : ControlMsg) (toPid : EPid)
    (n : ActualNode) : NodeResult :=
  match net toPid with
  | .error e => (.error e, n)
  | .ok () =>
    (.ok (), { n with requested := n.requested ++ [(toPid.nodeName, distributedOperation)] })

/-- `link`: a remote link is established once it has been requested. -/
def link (net : Connections) (localPid remotePid : EPid) (n : ActualNode) : NodeResult :=
  if remotePid.nodeName ≠ n.nodeName then
    match n.request net (.link localPid remotePid) remotePid with
    | (.error e, n) => (.error e, n)
    | (.ok (), n) => (.ok (), n.incomingLink localPid remotePid)
  else (.ok (), n.incomingLink localPid remotePid)

/-- `unlink`: a remote link is gone before that has been requested. -/
def unlink (net : Connections) (localPid remotePid : EPid) (n : ActualNode) : NodeResult :=
  if remotePid.nodeName ≠ n.nodeName then
    (n.incomingUnlink localPid remotePid).request net (.unlink localPid remotePid) remotePid
  else (.ok (), n.incomingUnlink localPid remotePid)

def requestExit2 (net : Connections) (fromPid toPid : EPid) (reason : Str) (n : ActualNode) :
    NodeResult :=
  if toPid.nodeName ≠ n.nodeName then n.request net (.exit2 fromPid toPid reason) toPid
  else n.incomingExit fromPid toPid reason

/-! ### Closing mailboxes -/

/-- `std::for_each`: an exception ends it. -/
def forEach (notificationFn : EPid → ActualNode → NodeResult) : List EPid → ActualNode → NodeResult
  | [], n => (.ok (), n)
  | pid :: pids, n =>
    match notificationFn pid n with
    | (.error e, n) => (.error e, n)
    | (.ok (), n) => forEach notificationFn pids n

/-- `linker::on_broken_links` -/
def onBrokenLinks (notificationFn : EPid → ActualNode → NodeResult) (dyingProcess : EPid)
    (n : ActualNode) : NodeResult :=
  match n.mailboxLinker.removeLinksFrom dyingProcess with
  | (closedLinks, linker) => forEach notificationFn closedLinks { n with mailboxLinker := linker }

/-- `linker::close_links_for_local` -/
def closeLinksForLocal (net : Connections) (dyingProcess : EPid) (reason : Str) :
    ActualNode → NodeResult :=
  onBrokenLinks (fun pid n => n.requestExit2 net dyingProcess pid reason) dyingProcess

/-- Not all mailboxes have a registered name, but erase is fine anyway. -/
def remove (id : EPid) (name : Str) (n : ActualNode) : ActualNode :=
  { n with
    mailboxes := erase id.key n.mailboxes
    registeredMailboxes := erase name n.registeredMailboxes }

def closeMailbox (net : Connections) (id : EPid) (name reason : Str) (n : ActualNode) :
    NodeResult :=
  match n.closeLinksForLocal net id reason with
  | (.error e, n) => (.error e, n)
  | (.ok (), n) => (.ok (), n.remove id name)

def closeMailboxAsync (owner : Handle) (id : EPid) (name : Str) (n : ActualNode) : ActualNode :=
  { n with posted := n.posted ++ [⟨owner, id, name, bytesOf "error"⟩] }

/-- The last pointer that owns the mailbox is gone. -/
def expire (h : Handle) (n : ActualNode) : ActualNode :=
  { n with objects := n.objects.modify h fun o => { o with expired := true } }

end ActualNode

/-! ### Events -/

/-- What happens to a node. The mailbox an event is about is given by its handle, and it has to be
one that somebody still owns. -/
inductive NodeEvent
  | createMailbox
  | createMailboxNamed (registeredName : Str)
  | publishPort (creation : UInt32)
  | link (h : Handle) (pidToLink : EPid) (net : Connections)
  | unlink (h : Handle) (pidToUnlink : EPid) (net : Connections)
  | receive (h : Handle)
  | receiveTmo (h : Handle) (error : Option TimerError)
  | receiveIncoming (msg : MsgSeq) (toPid : EPid)
  | receiveIncomingName (msg : MsgSeq) (toName : Str)
  | incomingLink (fromPid toPid : EPid)
  | incomingUnlink (fromPid toPid : EPid)
  | incomingExit (fromPid toPid : EPid) (reason : Str)
  | close (h : Handle) (net : Connections)
  | destroy (h : Handle) (uncaughtException : Bool) (net : Connections)
  | runPosted (net : Connections)

/-- A call of `close_mailbox` that is about to be made: the mailbox it is meant for, the arguments,
and the node at that moment. -/
structure Closing where
  handle : Handle
  id : EPid
  name : Str
  reason : Str
  net : Connections
  before : ActualNode

/-- Make the call. What it raises goes no further than its caller: the client, the destructor,
which swallows it, or the I/O thread, which prints it. -/
def Closing.after (c : Closing) : ActualNode :=
  (c.before.closeMailbox c.net c.id c.name c.reason).2

namespace ActualNode

/-- A mailbox that somebody owns. -/
def owned (n : ActualNode) (h : Handle) : Option MailboxObject :=
  n.objects[h]?.filter fun o => !o.expired

/-- The close that an event makes, if it makes one. A destructor that runs because of an exception
does not close the mailbox itself. -/
def closing (n : ActualNode) : NodeEvent → Option Closing
  | .close h net =>
    (n.owned h).map fun o => ⟨h, o.ownPid, o.ownName, bytesOf "normal", net, n⟩
  | .destroy h false net =>
    (n.owned h).map fun o => ⟨h, o.ownPid, o.ownName, bytesOf "normal", net, n.expire h⟩
  | .runPosted net =>
    match n.posted with
    | [] => none
    | p :: posted => some ⟨p.owner, p.id, p.name, p.reason, net, { n with posted := posted }⟩
  | _ => none

/-- A step of a node. -/
def step (n : ActualNode) : NodeEvent → Option ActualNode
  | .createMailbox => n.createMailbox
  | .createMailboxNamed registeredName => some (n.createMailboxNamed registeredName)
  | .publishPort creation => some { n with creation := creation }
  | .link h pidToLink net => (n.owned h).map fun o => (n.link net o.ownPid pidToLink).2
  | .unlink h pidToUnlink net => (n.owned h).map fun o => (n.unlink net o.ownPid pidToUnlink).2
  | .receive h =>
    (n.owned h).bind fun o =>
      if o.contents.waitsOnEntry then none
      else some (n.onMailbox h fun m => m.pickFirstMsg.2)
  | .receiveTmo h error => (n.owned h).map fun _ => n.onMailbox h (.receiveTmo error)
  | .receiveIncoming msg toPid => some (n.receiveIncoming msg toPid).2
  | .receiveIncomingName msg toName => some (n.receiveIncomingName msg toName).2
  | .incomingLink fromPid toPid => some (n.incomingLink fromPid toPid)
  | .incomingUnlink fromPid toPid => some (n.incomingUnlink fromPid toPid)
  | .incomingExit fromPid toPid reason => some (n.incomingExit fromPid toPid reason).2
  | .destroy h true _ =>
    (n.owned h).map fun o => (n.expire h).closeMailboxAsync h o.ownPid o.ownName
  | .close h net => (n.closing (.close h net)).map Closing.after
  | .destroy h false net => (n.closing (.destroy h false net)).map Closing.after
  | .runPosted net => (n.closing (.runPosted net)).map Closing.after

/-- **A closing event makes its close**, and nothing else. -/
theorem step_of_closing {n : ActualNode} {e : NodeEvent} {c : Closing} (h : n.closing e = some c) :
    n.step e = some c.after := by
  cases e with
  | close h' net => rw [step, h, Option.map_some]
  | destroy h' uncaughtException net =>
    cases uncaughtException with
    | false => rw [step, h, Option.map_some]
    | true => simp [closing] at h
  | runPosted net => rw [step, h, Option.map_some]
  | _ => simp [closing] at h

end ActualNode

end TinchPp
