import TinchPp.Requests

/-!
# Messages between two nodes

Two nodes as in `TwoNodes`, whose clients send messages, too, from a mailbox to a pid or to a
registered name of the other node. The messages are in flight together with what is said about
links, in the order in which it has all been asked for. A connection takes them as they are: these
are the nodes as they would be if messages were messages. What becomes of them when messages are
bytes is another matter.

A call does not look at what is in flight, and adds to it (`messageStep_call`). So much is true of
every call, whatever it does to its own node. As in `TwoNodes`, a call is one event.

A mailbox is where it was found first, under its pid and under its names, until it is closed;
another mailbox of the same name that is closed takes the name with it. Otherwise what is sent to a
mailbox is what it gets, and what is on its way to it.

## Main results

* `TwoNodes.messageStep_call` — a call appends to what its node has asked for
* `ActualNode.perform_call` — what a control message does to a mailbox
* `TwoNodes.arrives_of_run` — what arrives in a mailbox, in every run
-/

namespace TinchPp

open EventSystem ActualNode Closing

/-! ### Calls of clients -/

/-- What happens to two nodes, as long as messages are messages: what there is to their links, and a
message is sent from a mailbox to a pid or to a registered name of the other node. -/
inductive MessageEvent
  | links (e : TwoNodesEvent)
  | send (i : Bool) (h : Handle) (msg : MsgSeq) (toPid : EPid)
  | sendNamed (i : Bool) (h : Handle) (msg : MsgSeq) (toName : Str)
deriving DecidableEq, Repr

namespace MessageEvent

/-- The node whose client makes a call; a delivery is no call. -/
def caller : MessageEvent → Option Bool
  | .links (.link i _ _ _) | .links (.unlink i _ _ _) | .links (.close i _ _) | .send i _ _ _
  | .sendNamed i _ _ _ => some i
  | .links (.deliver _) => none

/-- What can be seen of an event. -/
def seen (e : MessageEvent) : Option MessageEvent := e.caller.map fun _ => e

end MessageEvent

namespace TwoNodes

/-- With messages between mailboxes, over a connection that works. -/
def messageStep (signedChar : Bool) (s : TwoNodes) : MessageEvent → Option TwoNodes
  | .links e => s.step signedChar e
  | .send i h msg toPid =>
    if toPid.nodeName = (s.node (!i)).nodeName then
      (s.opened i h).map fun _ => s.setNode i ((s.node i).deliver allReachable msg toPid).2
    else none
  | .sendNamed i h msg toName =>
    (s.opened i h).map fun o => s.setNode i
      ((s.node i).deliverNamed allReachable msg toName (s.node (!i)).nodeName o.ownPid).2

def withRequested (requested : Bool → List (Str × ControlMsg)) (s : TwoNodes) : TwoNodes :=
  { s with node := fun i => (s.node i).withRequested (requested i) }

variable {signedChar : Bool} {s t : TwoNodes} {i : Bool} {e : MessageEvent}

@[simp] theorem node_withRequested (requested : Bool → List (Str × ControlMsg)) (s : TwoNodes)
    (i : Bool) : (s.withRequested requested).node i = (s.node i).withRequested (requested i) := rfl

@[simp] theorem opened_withRequested (requested : Bool → List (Str × ControlMsg)) (s : TwoNodes)
    (i : Bool) (h : Handle) : (s.withRequested requested).opened i h = s.opened i h := rfl

/-- An operation of one node, where the other one stays as it is. -/
theorem operation_withRequested {operation : ActualNode → NodeResult}
    (h : ActualNode.Asks operation (s.node i)) (closed : Bool → List Handle) : ∃ new,
      (operation (s.node i)).2.requested = (s.node i).requested ++ new ∧
      ∀ requested, TwoNodes.mk (Function.update (s.withRequested requested).node i
          (operation ((s.withRequested requested).node i)).2) closed =
        (TwoNodes.mk (Function.update s.node i (operation (s.node i)).2) closed).withRequested
          (Function.update requested i (requested i ++ new)) := by
  obtain ⟨new, hnew, hall⟩ := h.operation_eq
  refine ⟨new, hnew, fun requested => ?_⟩
  have hnode : Function.update (s.withRequested requested).node i
      (operation ((s.withRequested requested).node i)).2 = fun j =>
        (Function.update s.node i (operation (s.node i)).2 j).withRequested
          (Function.update requested i (requested i ++ new) j) := by
    funext j
    by_cases hj : j = i
    · subst hj
      rw [Function.update_self, Function.update_self, Function.update_self, node_withRequested, hall]
    · rw [Function.update_of_ne hj, Function.update_of_ne hj, Function.update_of_ne hj]
      rfl
  rw [hnode]
  rfl

/-- **A call of a client** appends to what its node has asked for, whatever that is. -/
theorem messageStep_call (he : e.caller = some i) (h : s.messageStep signedChar e = some t) :
    ∃ new, (t.node i).requested = (s.node i).requested ++ new ∧ t.node (!i) = s.node (!i) ∧
      ∀ requested, (s.withRequested requested).messageStep signedChar e =
        some (t.withRequested (Function.update requested i (requested i ++ new))) := by
  have hcall {operation : ActualNode → NodeResult} (closed : Bool → List Handle)
      (hasks : Asks operation (s.node i))
      (ht : t = ⟨Function.update s.node i (operation (s.node i)).2, closed⟩)
      (hstep : ∀ requested, (s.withRequested requested).messageStep signedChar e =
        some ⟨Function.update (s.withRequested requested).node i
          (operation ((s.withRequested requested).node i)).2, closed⟩) :
      ∃ new, (t.node i).requested = (s.node i).requested ++ new ∧ t.node (!i) = s.node (!i) ∧
        ∀ requested, (s.withRequested requested).messageStep signedChar e =
          some (t.withRequested (Function.update requested i (requested i ++ new))) := by
    obtain ⟨new, hnew, hall⟩ := operation_withRequested hasks closed
    subst ht
    refine ⟨new, ?_, Function.update_of_ne (Bool.not_ne_self i) .., fun requested => ?_⟩
    · rw [← hnew]
      exact congrArg ActualNode.requested (Function.update_self ..)
    · rw [hstep, hall]
  cases e with
  | links e =>
    cases e with
    | link i' h' k h'' =>
      obtain rfl := Option.some_inj.mp he
      have hlink : s.step signedChar (.link i' h' k h'') = some t := h
      obtain ⟨o, o', ho, ho', rfl⟩ := step_link hlink
      refine hcall s.closed (asks_link allReachable o.ownPid o'.ownPid _) rfl fun r => ?_
      have ho'' : ((s.withRequested r).node k).objects[h'']? = some o' := ho'
      rw [messageStep, step, opened_withRequested, ho, ho'']
      rfl
    | unlink i' h' k h'' =>
      obtain rfl := Option.some_inj.mp he
      have hunlink : s.step signedChar (.unlink i' h' k h'') = some t := h
      obtain ⟨o, o', ho, ho', rfl⟩ := step_unlink hunlink
      refine hcall s.closed (asks_unlink allReachable o.ownPid o'.ownPid _) rfl fun r => ?_
      have ho'' : ((s.withRequested r).node k).objects[h'']? = some o' := ho'
      rw [messageStep, step, opened_withRequested, ho, ho'']
      rfl
    | close i' h' reason =>
      obtain rfl := Option.some_inj.mp he
      have hclose : s.step signedChar (.close i' h' reason) = some t := h
      obtain ⟨o, ho, rfl⟩ := step_close hclose
      refine hcall _ (asks_closeMailbox allReachable o.ownPid o.ownName reason _) rfl fun r => ?_
      rw [messageStep, step, opened_withRequested, ho]
      rfl
    | deliver i' => cases he
  | send i' h' msg toPid =>
    obtain rfl := Option.some_inj.mp he
    rw [messageStep] at h
    split at h
    · next hto =>
      obtain ⟨o, ho, rfl⟩ := Option.map_eq_some_iff.mp h
      refine hcall s.closed (asks_request allReachable _ toPid _) rfl fun r => ?_
      have hto' : toPid.nodeName = ((s.withRequested r).node (!i')).nodeName := hto
      rw [messageStep, if_pos hto', opened_withRequested, ho]
      rfl
    · cases h
  | sendNamed i' h' msg toName =>
    obtain rfl := Option.some_inj.mp he
    obtain ⟨o, ho, rfl⟩ := Option.map_eq_some_iff.mp h
    refine hcall s.closed (asks_request allReachable _
      { o.ownPid with nodeName := (s.node (!i')).nodeName } _) rfl fun r => ?_
    rw [messageStep, opened_withRequested, ho]
    rfl

end TwoNodes

/-! ### What leaves a mailbox alone -/

/-- What a mailbox is, apart from its contents. -/
def MailboxObject.identity (o : MailboxObject) : EPid × Str × Bool :=
  (o.ownPid, o.ownName, o.expired)

namespace ActualNode

/-- The messages queued in a mailbox, the last one first. -/
def receivedMsgsOf (n : ActualNode) (h : Handle) : List MsgSeq :=
  match n.objects[h]? with
  | some o => o.contents.receivedMsgs
  | none => []

/-- The mailboxes are those that were there before, and one of them is found where it was. -/
structure StillFinds (h : Handle) (n n' : ActualNode) : Prop where
  objects : ∀ h' : Handle, n'.objects[h']?.map MailboxObject.identity =
    n.objects[h']?.map MailboxObject.identity
  mailboxes : ∀ k, n'.mailboxes k = some h ↔ n.mailboxes k = some h
  registeredMailboxes : ∀ r, n'.registeredMailboxes r = some h ↔ n.registeredMailboxes r = some h

/-- And it has got nothing. -/
structure LeavesAlone (h : Handle) (n n' : ActualNode) : Prop extends StillFinds h n n' where
  receivedMsgs : n'.receivedMsgsOf h = n.receivedMsgsOf h

variable {n n' n'' : ActualNode} {h : Handle}

theorem StillFinds.trans (hn : StillFinds h n n') (hn' : StillFinds h n' n'') :
    StillFinds h n n'' :=
  ⟨fun h' => (hn'.objects h').trans (hn.objects h'),
    fun k => (hn'.mailboxes k).trans (hn.mailboxes k),
    fun r => (hn'.registeredMailboxes r).trans (hn.registeredMailboxes r)⟩

theorem StillFinds.isExpired (hn : StillFinds h n n') (h' : Handle) :
    n'.isExpired h' = n.isExpired h' := by
  have hidentity (n : ActualNode) : n.isExpired h' =
      (n.objects[h']?.map MailboxObject.identity).elim true fun x => x.2.2 := by
    rw [ActualNode.isExpired]
    cases n.objects[h']? <;> rfl
  rw [hidentity, hidentity, hn.objects]

theorem LeavesAlone.refl (h : Handle) (n : ActualNode) : LeavesAlone h n n :=
  ⟨⟨fun _ => rfl, fun _ => Iff.rfl, fun _ => Iff.rfl⟩, rfl⟩

theorem LeavesAlone.trans (hn : LeavesAlone h n n') (hn' : LeavesAlone h n' n'') :
    LeavesAlone h n n'' :=
  ⟨hn.toStillFinds.trans hn'.toStillFinds, hn'.receivedMsgs.trans hn.receivedMsgs⟩

/-- The links and the requests of a node are no business of its mailboxes. -/
theorem LeavesAlone.of_linker (h : Handle) (linker : Linker) (requested : List (Str × ControlMsg))
    (n : ActualNode) :
    LeavesAlone h n { n with mailboxLinker := linker, requested := requested } :=
  ⟨⟨fun _ => rfl, fun _ => Iff.rfl, fun _ => Iff.rfl⟩, rfl⟩

/-- An entry that is removed is that of another mailbox. -/
theorem erase_eq_some_iff {κ : Type} [DecidableEq κ] {key : κ} {table : κ → Option Handle}
    (hkey : table key ≠ some h) (k : κ) : erase key table k = some h ↔ table k = some h := by
  by_cases hk : k = key
  · subst hk
    rw [erase, Function.update_self]
    exact ⟨fun hnone => (Option.some_ne_none h hnone.symm).elim, fun hsome => (hkey hsome).elim⟩
  · rw [erase, Function.update_of_ne hk]

/-- **A lookup**: it finds a mailbox, or another entry than that of `h` is removed. -/
theorem fetchMailbox_cases {κ : Type} [DecidableEq κ] (table : κ → Option Handle)
    (hexp : n.isExpired h = false) (key : κ) (name : Str) :
    (∃ h', fetchMailbox key name table n = (.ok h', table) ∧ table key = some h') ∨
      ∃ e table', fetchMailbox key name table n = (.error e, table') ∧ table key ≠ some h ∧
        ∀ k, table' k = some h ↔ table k = some h := by
  rcases hm : table key with _ | h'
  · exact .inr ⟨_, _, fetchMailbox_of_none hm name n, by simp, fun _ => Iff.rfl⟩
  · cases hexp' : n.isExpired h' with
    | false => exact .inl ⟨h', fetchMailbox_of_owned hm hexp' name, rfl⟩
    | true =>
      have hne : table key ≠ some h := by
        intro hkey
        obtain rfl := Option.some_inj.mp (hm.symm.trans hkey)
        cases hexp.symm.trans hexp'
      exact .inr ⟨_, _, fetchMailbox_of_expired hm hexp' name, hm ▸ hne, erase_eq_some_iff hne⟩

/-- Something is put into a mailbox. -/
theorem stillFinds_onMailbox (h h' : Handle) (act : ActualMailbox → ActualMailbox)
    (n : ActualNode) : StillFinds h n (n.onMailbox h' act) := by
  refine ⟨fun k => ?_, fun _ => Iff.rfl, fun _ => Iff.rfl⟩
  rcases ho : n.objects[k]? with _ | o
  · simp [onMailbox, List.getElem?_modify, ho]
  · by_cases hk : h' = k <;> simp [onMailbox, ho, hk, MailboxObject.identity]

theorem leavesAlone_onLinkBroken (h h' : Handle) (reason : Str) (p : EPid) (n : ActualNode) :
    LeavesAlone h n (n.onMailbox h' (.onLinkBroken reason p)) := by
  refine ⟨stillFinds_onMailbox h h' _ n, ?_⟩
  rcases ho : n.objects[h]? with _ | o
  · simp [receivedMsgsOf, onMailbox, List.getElem?_modify, ho]
  · by_cases hh : h' = h <;> simp [receivedMsgsOf, onMailbox, ho, hh]

/-! ### What arrives -/

end ActualNode

/-- The message to a mailbox that comes with a control message. -/
def ControlMsg.payloadTo (n : ActualNode) (h : Handle) : ControlMsg → Option MsgSeq
  | .send msg toPid => if n.mailboxes toPid.key = some h then some msg else none
  | .regSend msg toName _ => if n.registeredMailboxes toName = some h then some msg else none
  | .link _ _ | .unlink _ _ | .exit _ _ _ | .exit2 _ _ _ => none

namespace ActualNode

variable {n n' : ActualNode} {h : Handle}

theorem StillFinds.payloadTo (hn : StillFinds h n n') (m : ControlMsg) :
    m.payloadTo n' h = m.payloadTo n h := by
  cases m with
  | send msg toPid => simp only [ControlMsg.payloadTo, hn.mailboxes]
  | regSend msg toName fromPid => simp only [ControlMsg.payloadTo, hn.registeredMailboxes]
  | link | unlink | exit | exit2 => rfl

theorem receivedMsgsOf_onIncoming (hexp : n.isExpired h = false) (msg : MsgSeq) (h' : Handle) :
    (n.onMailbox h' (.onIncoming msg)).receivedMsgsOf h =
      (if h' = h then some msg else none).toList ++ n.receivedMsgsOf h := by
  rw [isExpired] at hexp
  rcases ho : n.objects[h]? with _ | o
  · rw [ho] at hexp
    cases hexp
  · by_cases hh : h' = h <;> simp [receivedMsgsOf, onMailbox, ho, hh]

/-- A message is put into the mailbox, or into another one, or it is dropped. -/
theorem stillFinds_receiveIncoming (hexp : n.isExpired h = false) (msg : MsgSeq) (p : EPid) :
    StillFinds h n (n.receiveIncoming msg p).2 ∧ (n.receiveIncoming msg p).2.receivedMsgsOf h =
      (if n.mailboxes p.key = some h then some msg else none).toList ++ n.receivedMsgsOf h := by
  rw [receiveIncoming]
  rcases fetchMailbox_cases n.mailboxes hexp p.key (keyToName p) with
    ⟨h', heq, hm⟩ | ⟨e, table', heq, hne, htable⟩
  · rw [heq, hm]
    refine ⟨stillFinds_onMailbox h h' _ n, ?_⟩
    rw [receivedMsgsOf_onIncoming hexp]
    simp only [Option.some_inj]
  · rw [heq, if_neg hne]
    exact ⟨⟨fun _ => rfl, htable, fun _ => Iff.rfl⟩, rfl⟩

theorem stillFinds_receiveIncomingName (hexp : n.isExpired h = false) (msg : MsgSeq) (name : Str) :
    StillFinds h n (n.receiveIncomingName msg name).2 ∧
      (n.receiveIncomingName msg name).2.receivedMsgsOf h =
        (if n.registeredMailboxes name = some h then some msg else none).toList ++
          n.receivedMsgsOf h := by
  rw [receiveIncomingName]
  rcases fetchMailbox_cases n.registeredMailboxes hexp name name with
    ⟨h', heq, hm⟩ | ⟨e, table', heq, hne, htable⟩
  · rw [heq, hm]
    refine ⟨stillFinds_onMailbox h h' _ n, ?_⟩
    rw [receivedMsgsOf_onIncoming hexp]
    simp only [Option.some_inj]
  · rw [heq, if_neg hne]
    exact ⟨⟨fun _ => rfl, fun _ => Iff.rfl, htable⟩, rfl⟩

theorem leavesAlone_incomingExit (hexp : n.isExpired h = false) (p q : EPid) (reason : Str) :
    LeavesAlone h n (n.incomingExit p q reason).2 := by
  rw [incomingExit]
  rcases fetchMailbox_cases n.mailboxes hexp q.key (keyToName q) with
    ⟨h', heq, -⟩ | ⟨e, table', heq, -, htable⟩
  · rw [heq]
    exact (leavesAlone_onLinkBroken h h' reason p n).trans (.of_linker h _ _ _)
  · rw [heq]
    exact ⟨⟨fun _ => rfl, htable, fun _ => Iff.rfl⟩, rfl⟩

/-- **What a control message does to a mailbox.** -/
theorem perform_call (hexp : n.isExpired h = false) (m : ControlMsg) :
    StillFinds h n (n.perform m.call).2 ∧ (n.perform m.call).2.receivedMsgsOf h =
      (m.payloadTo n h).toList ++ n.receivedMsgsOf h := by
  have hlinks {n' : ActualNode} (hn : LeavesAlone h n n') :
      StillFinds h n n' ∧ n'.receivedMsgsOf h = [] ++ n.receivedMsgsOf h :=
    ⟨hn.toStillFinds, hn.receivedMsgs⟩
  cases m with
  | send msg toPid => exact stillFinds_receiveIncoming hexp msg toPid
  | regSend msg toName fromPid => exact stillFinds_receiveIncomingName hexp msg toName
  | link p q => exact hlinks (.of_linker h _ _ n)
  | unlink p q => exact hlinks (.of_linker h _ _ n)
  | exit p q reason => exact hlinks (leavesAlone_incomingExit hexp p q reason)
  | exit2 p q reason => exact hlinks (leavesAlone_incomingExit hexp p q reason)

theorem leavesAlone_notifiedAll (p : EPid) (reason : Str) (pids : List EPid) (h : Handle) :
    ∀ n, LeavesAlone h n (notifiedAll p reason n pids) := by
  induction pids with
  | nil => exact .refl h
  | cons q pids ih =>
    intro n
    have hone : LeavesAlone h n (n.notified p reason q) := by
      rw [notified]
      split
      · exact .of_linker h _ _ n
      · split
        · exact leavesAlone_onLinkBroken h _ reason p n
        · exact .refl h n
    exact hone.trans (ih _)

end ActualNode

/-- **A close of another mailbox**, if that has another pid and another name. -/
theorem Closing.leavesAlone_after {c : Closing} {h : Handle} (hexp : c.before.isExpired h = false)
    (hkey : c.before.mailboxes c.id.key ≠ some h)
    (hname : c.before.registeredMailboxes c.name ≠ some h) : LeavesAlone h c.before c.after := by
  have hdetached : LeavesAlone h c.before c.detached := .of_linker h _ _ c.before
  rcases all_notifiable_or_first c.net c.before c.linkedPids with
    hall | ⟨pre, p, rest, hl, hpre, hp⟩
  · have hn := hdetached.trans (leavesAlone_notifiedAll c.id c.reason c.linkedPids h c.detached)
    rw [after_of_notifiable hall]
    refine ⟨⟨hn.objects, fun k => ?_, fun r => ?_⟩, hn.receivedMsgs⟩
    · exact (erase_eq_some_iff (fun hk => hkey ((hn.mailboxes _).mp hk)) k).trans (hn.mailboxes k)
    · exact (erase_eq_some_iff (fun hr => hname ((hn.registeredMailboxes _).mp hr)) r).trans
        (hn.registeredMailboxes r)
  · have hn := hdetached.trans (leavesAlone_notifiedAll c.id c.reason pre h c.detached)
    rw [after_of_not_notifiable hl hpre hp]
    refine hn.trans ?_
    rw [withoutExpired]
    split
    · next h' hr =>
      split
      · next hexp' =>
        refine ⟨⟨fun _ => rfl, erase_eq_some_iff fun hk => ?_, fun _ => Iff.rfl⟩, rfl⟩
        obtain rfl := Option.some_inj.mp ((mailboxes_of_resolve hr).symm.trans hk)
        rw [hn.isExpired, hexp] at hexp'
        cases hexp'
      · exact .refl h _
    · exact .refl h _

/-! ### What is sent to a mailbox -/

/-- The message that a client of the other node sends to mailbox `h` of node `i`, where this is where
the mailboxes of the node are found. -/
def MessageEvent.payloadTo (n : ActualNode) (i : Bool) (h : Handle) : MessageEvent → Option MsgSeq
  | .send j _ msg toPid => if j = (!i) ∧ n.mailboxes toPid.key = some h then some msg else none
  | .sendNamed j _ msg toName =>
    if j = (!i) ∧ n.registeredMailboxes toName = some h then some msg else none
  | .links _ => none

/-- No other mailbox has a name under which this one is registered. -/
def ActualNode.OwnsNames (n : ActualNode) (h : Handle) : Prop :=
  ∀ (h' : Handle) (o : MailboxObject), n.objects[h']? = some o →
    n.registeredMailboxes o.ownName = some h → h' = h

namespace TwoNodes

/-- What is in flight fits its fields. -/
def InFlightFits (s : TwoNodes) : Prop := ∀ i, ∀ m ∈ (s.node i).requested, m.2.InWireRange

/-- The messages to the mailbox that are in flight. -/
def inFlightTo (n : ActualNode) (i : Bool) (h : Handle) (s : TwoNodes) : List MsgSeq :=
  (s.node (!i)).requested.filterMap fun m => m.2.payloadTo n h

/-- Where a mailbox is found, and what it has got, after this has happened. Where characters are
signed it gets nothing. -/
structure Arrives (signedChar : Bool) (n : ActualNode) (i : Bool) (h : Handle)
    (es : List MessageEvent) (s : TwoNodes) : Prop where
  finds : StillFinds h n (s.node i)
  unheard : signedChar = true → (s.node i).receivedMsgsOf h = n.receivedMsgsOf h
  heard : signedChar = false → ((s.node i).receivedMsgsOf h).reverse ++ s.inFlightTo n i h =
    (n.receivedMsgsOf h).reverse ++ es.filterMap (MessageEvent.payloadTo n i h)

variable {signedChar : Bool} {n : ActualNode} {i : Bool} {h : Handle} {es : List MessageEvent}
  {s t : TwoNodes} {e : MessageEvent}

/-- A call at the node of the mailbox: it is not told, and it is nothing that is sent to it. -/
theorem Arrives.call_here (hs : Arrives signedChar n i h es s)
    (halone : LeavesAlone h (s.node i) (t.node i)) (hother : t.node (!i) = s.node (!i))
    (he : e.payloadTo n i h = none) : Arrives signedChar n i h (es ++ [e]) t := by
  refine ⟨hs.finds.trans halone.toStillFinds, fun hchar => ?_, fun hchar => ?_⟩
  · rw [halone.receivedMsgs, hs.unheard hchar]
  · have hflight : t.inFlightTo n i h = s.inFlightTo n i h := by
      rw [inFlightTo, hother, inFlightTo]
    rw [halone.receivedMsgs, hflight, hs.heard hchar, List.filterMap_append]
    simp [he]

/-- A call at the other node. -/
theorem Arrives.call_there (hs : Arrives signedChar n i h es s) {new : List (Str × ControlMsg)}
    (hsame : t.node i = s.node i)
    (hrequested : (t.node (!i)).requested = (s.node (!i)).requested ++ new)
    (hnew : new.filterMap (fun m => m.2.payloadTo n h) = (e.payloadTo n i h).toList) :
    Arrives signedChar n i h (es ++ [e]) t := by
  refine ⟨by rw [hsame]; exact hs.finds, fun hchar => ?_, fun hchar => ?_⟩
  · rw [hsame, hs.unheard hchar]
  · have hflight : t.inFlightTo n i h = s.inFlightTo n i h ++ (e.payloadTo n i h).toList := by
      rw [inFlightTo, hrequested, List.filterMap_append, hnew, inFlightTo]
    rw [hsame, hflight, ← List.append_assoc, hs.heard hchar, List.append_assoc,
      List.filterMap_append]
    cases hp : e.payloadTo n i h <;> simp [hp]

/-- A call that is about links. -/
theorem Arrives.call (hs : Arrives signedChar n i h es s) {j : Bool} {n' : ActualNode}
    (closed : Bool → List Handle) {new : List (Str × ControlMsg)} {le : TwoNodesEvent}
    (halone : j = i → LeavesAlone h (s.node i) n')
    (hrequested : n'.requested = (s.node j).requested ++ new)
    (hnew : ∀ m ∈ new, m.2.payloadTo n h = none) :
    Arrives signedChar n i h (es ++ [.links le]) ⟨Function.update s.node j n', closed⟩ := by
  by_cases hj : j = i
  · subst hj
    refine hs.call_here ?_ (Function.update_of_ne (Bool.not_ne_self j) ..) rfl
    have hself : Function.update s.node j n' j = n' := Function.update_self ..
    dsimp only
    rw [hself]
    exact halone rfl
  · obtain rfl : j = !i := Bool.eq_not.mpr hj
    refine hs.call_there (Function.update_of_ne (Bool.not_ne_self i).symm ..) ?_
      (List.filterMap_eq_nil_iff.mpr hnew)
    dsimp only
    rw [Function.update_self]
    exact hrequested

/-- **A delivery**: the oldest message arrives. -/
theorem Arrives.deliver (hs : Arrives signedChar n i h es s) (hexp : n.isExpired h = false)
    (hfits : s.InFlightFits) {j : Bool} (ht : s.step signedChar (.deliver j) = some t) :
    Arrives signedChar n i h (es ++ [.links (.deliver j)]) t := by
  obtain ⟨to_, m, rest, hrequested, rfl⟩ := step_deliver ht
  have hes : (es ++ [MessageEvent.links (.deliver j)]).filterMap (MessageEvent.payloadTo n i h) =
      es.filterMap (MessageEvent.payloadTo n i h) := by
    rw [List.filterMap_append]
    exact List.append_nil _
  by_cases hj : j = i
  · -- a message of the node itself
    subst hj
    set s' := (s.setNode j { s.node j with requested := rest }).setNode (!j)
      ((s.node (!j)).onFrame signedChar m)
    have hnode : s'.node j = { s.node j with requested := rest } := by
      rw [setNode_node_of_ne _ (Bool.not_ne_self j).symm, setNode_node_self]
    have hflight : s'.inFlightTo n j h = s.inFlightTo n j h := by
      rw [inFlightTo, setNode_node_self, requested_onFrame, inFlightTo]
    have halone : LeavesAlone h (s.node j) (s'.node j) := by
      rw [hnode]
      exact .of_linker h _ _ _
    refine ⟨hs.finds.trans halone.toStillFinds, fun hchar => ?_, fun hchar => ?_⟩
    · rw [halone.receivedMsgs, hs.unheard hchar]
    · rw [halone.receivedMsgs, hflight, hs.heard hchar, hes]
  · -- a message to the node
    obtain rfl : j = !i := Bool.eq_not.mpr hj
    rw [Bool.not_not]
    set s' := (s.setNode (!i) { s.node (!i) with requested := rest }).setNode i
      ((s.node i).onFrame signedChar m)
    have hnode : s'.node i = (s.node i).onFrame signedChar m := setNode_node_self _
    have hflight : s.inFlightTo n i h = (m.payloadTo n h).toList ++ s'.inFlightTo n i h := by
      rw [inFlightTo, hrequested, inFlightTo, setNode_node_not, setNode_node_self]
      cases hp : m.payloadTo n h <;> simp [hp]
    cases signedChar with
    | true =>
      rw [onFrame_true] at hnode
      refine ⟨by rw [hnode]; exact hs.finds, fun hchar => ?_, by rintro ⟨⟩⟩
      rw [hnode, hs.unheard hchar]
    | false =>
      obtain ⟨hfinds, hmsgs⟩ := perform_call (h := h) (n := s.node i)
        ((hs.finds.isExpired h).trans hexp) m
      have hm : m.InWireRange := hfits (!i) _ (by rw [hrequested]; exact List.mem_cons_self)
      rw [onFrame_of_inWireRange hm] at hnode
      refine ⟨by rw [hnode]; exact hs.finds.trans hfinds, by rintro ⟨⟩, fun hchar => ?_⟩
      rw [hnode, hmsgs, hs.finds.payloadTo, hes, ← hs.heard hchar, hflight, List.reverse_append,
        List.append_assoc]
      cases m.payloadTo n h <;> rfl

/-- **What a step does to an open mailbox** that owns its names. -/
theorem Arrives.step (hfresh : ∀ (h' : Handle) (o : MailboxObject), n.objects[h']? = some o →
      n.mailboxes o.ownPid.key = some h') (hnames : n.OwnsNames h) (hexp : n.isExpired h = false)
    (hs : Arrives signedChar n i h es s) (hfits : s.InFlightFits)
    (ht : s.messageStep signedChar e = some t) (hopen : h ∉ t.closed i) : Arrives signedChar n i h (es ++ [e]) t := by
  cases e with
  | links le =>
    rw [messageStep] at ht
    cases le with
    | link j h' k h'' =>
      obtain ⟨o, o', -, -, rfl⟩ := step_link ht
      rw [link_allReachable]
      refine hs.call s.closed (fun hj => hj ▸ .of_linker h _ _ _) rfl fun m hm => ?_
      split at hm
      · rw [List.mem_singleton.mp hm]
        rfl
      · cases hm
    | unlink j h' k h'' =>
      obtain ⟨o, o', -, -, rfl⟩ := step_unlink ht
      rw [unlink_allReachable]
      refine hs.call s.closed (fun hj => hj ▸ .of_linker h _ _ _) rfl fun m hm => ?_
      split at hm
      · rw [List.mem_singleton.mp hm]
        rfl
      · cases hm
    | close j h' reason =>
      obtain ⟨o, ho, rfl⟩ := step_close ht
      refine hs.call _ (fun hj => ?_) (delivers_reached _).requested fun m hm => ?_
      · subst hj
        have hne : h ≠ h' := by
          rintro rfl
          exact hopen (by simp)
        have hobject := (opened_eq_some.mp ho).2
        obtain ⟨o₀, ho₀, hidentity⟩ : ∃ o₀, n.objects[h']? = some o₀ ∧
            o₀.identity = o.identity := by
          have hsame := hs.finds.objects h'
          rw [hobject] at hsame
          exact Option.map_eq_some_iff.mp hsame.symm
        obtain ⟨hpid, hname, -⟩ : o₀.ownPid = o.ownPid ∧ o₀.ownName = o.ownName ∧ _ := by
          simpa [MailboxObject.identity] using hidentity
        refine Closing.leavesAlone_after (c := s.closing j h' o reason)
          ((hs.finds.isExpired h).trans hexp) (fun hkey => ?_) fun hname' => ?_
        · have hkey' := (hs.finds.mailboxes _).mp hkey
          rw [closing, ← hpid, hfresh h' o₀ ho₀] at hkey'
          exact hne (Option.some_inj.mp hkey').symm
        · have hname'' := (hs.finds.registeredMailboxes _).mp hname'
          rw [closing, ← hname] at hname''
          exact hne (hnames h' o₀ ho₀ hname'').symm
      · obtain ⟨q, -, rfl⟩ := List.mem_map.mp hm
        rfl
    | deliver j => exact hs.deliver hexp hfits ht
  | send j h' msg toPid =>
    rw [messageStep] at ht
    split at ht
    · obtain ⟨o, -, rfl⟩ := Option.map_eq_some_iff.mp ht
      by_cases hj : j = i
      · subst hj
        refine hs.call_here ?_ (setNode_node_not _) (by simp [MessageEvent.payloadTo])
        rw [setNode_node_self]
        exact .of_linker h _ _ _
      · obtain rfl : j = !i := Bool.eq_not.mpr hj
        refine hs.call_there (setNode_node_of_ne _ (Bool.not_ne_self i).symm)
          (congrArg ActualNode.requested (setNode_node_self _)) ?_
        by_cases hkey : n.mailboxes toPid.key = some h <;>
          simp [MessageEvent.payloadTo, ControlMsg.payloadTo, hkey]
    · cases ht
  | sendNamed j h' msg toName =>
    obtain ⟨o, -, rfl⟩ := Option.map_eq_some_iff.mp ht
    by_cases hj : j = i
    · subst hj
      refine hs.call_here ?_ (setNode_node_not _) (by simp [MessageEvent.payloadTo])
      rw [setNode_node_self]
      exact .of_linker h _ _ _
    · obtain rfl : j = !i := Bool.eq_not.mpr hj
      refine hs.call_there (setNode_node_of_ne _ (Bool.not_ne_self i).symm)
        (congrArg ActualNode.requested (setNode_node_self _)) ?_
      by_cases hname : n.registeredMailboxes toName = some h <;>
        simp [MessageEvent.payloadTo, ControlMsg.payloadTo, hname]

/-- A mailbox that has been closed stays closed. -/
theorem closed_subset_of_messageStep (ht : s.messageStep signedChar e = some t) (j : Bool) :
    s.closed j ⊆ t.closed j := by
  cases e with
  | links le =>
    rw [messageStep] at ht
    cases le with
    | link j' h' k h'' =>
      obtain ⟨o, o', -, -, rfl⟩ := step_link ht
      exact List.Subset.refl _
    | unlink j' h' k h'' =>
      obtain ⟨o, o', -, -, rfl⟩ := step_unlink ht
      exact List.Subset.refl _
    | close j' h' reason =>
      obtain ⟨o, -, rfl⟩ := step_close ht
      by_cases hj : j = j'
      · subst hj
        simp
      · simp [hj]
    | deliver j' =>
      obtain ⟨to_, m, rest, -, rfl⟩ := step_deliver ht
      exact List.Subset.refl _
  | send j' h' msg toPid =>
    rw [messageStep] at ht
    split at ht
    · obtain ⟨o, -, rfl⟩ := Option.map_eq_some_iff.mp ht
      exact List.Subset.refl _
    · cases ht
  | sendNamed j' h' msg toName =>
    obtain ⟨o, -, rfl⟩ := Option.map_eq_some_iff.mp ht
    exact List.Subset.refl _

/-- **What arrives in a mailbox** that is open and owns its names, in every run. -/
theorem arrives_of_run (hs : s.Fresh) (hmailbox : h < (s.node i).objects.length)
    (hnames : (s.node i).OwnsNames h) (hrun : run (messageStep signedChar) s es = some t)
    (hfits : EveryStep (messageStep signedChar) (fun u _ => u.InFlightFits) s es)
    (hopen : h ∉ t.closed i) : Arrives signedChar (s.node i) i h es t := by
  have hexp : (s.node i).isExpired h = false := by
    have hobject := List.getElem?_eq_getElem hmailbox
    rw [isExpired, hobject]
    exact (hs.mailboxes i h _ hobject).1
  have hall : EveryStep (messageStep signedChar) (fun u _ => u.InFlightFits) s es →
      h ∉ t.closed i → Arrives signedChar (s.node i) i h es t := by
    refine run_history_induction (P := fun es u => run (messageStep signedChar) s es = some u ∧
      (EveryStep (messageStep signedChar) (fun u _ => u.InFlightFits) s es → h ∉ u.closed i →
        Arrives signedChar (s.node i) i h es u)) ⟨rfl, fun _ _ => ?_⟩
      (fun es u e v hu huv => ⟨run_concat_eq_some.mpr ⟨u, hu.1, huv⟩, fun hfits hv => ?_⟩) hrun |>.2
    · refine ⟨⟨fun _ => rfl, fun _ => Iff.rfl, fun _ => Iff.rfl⟩, fun _ => rfl, fun _ => ?_⟩
      rw [inFlightTo, hs.quiet]
      rfl
    · have hu' := hu.2 (everyStep_append.mp hfits).1 fun hmem =>
        hv (closed_subset_of_messageStep huv i hmem)
      exact hu'.step (fun h' o ho => (hs.mailboxes i h' o ho).2.2) hnames hexp
        (hfits es e (List.prefix_refl _) u hu.1) huv hv
  exact hall hfits hopen

end TwoNodes

end TinchPp
