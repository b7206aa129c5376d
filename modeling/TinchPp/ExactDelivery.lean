import TinchPp.CompleteClosing

/-!
# Deliveries to a pid

A message or an exit signal for a pid finds its mailbox in the table that `operator<` orders, and
that does not look at the name and the creation number of a pid. All mailboxes of a node have the
name of the node in their pids, so what decides is whether the pid that is asked for has it too, and
whether its creation number is that of the mailbox.

`publish_port` changes the creation number under which new pids are issued, and pids of an earlier
incarnation of the node are still around in other nodes then.

## Main results

* `ActualNode.pids_of_run` — the mailboxes of a node have the pids that it has issued, in order
* `ActualNode.exactDelivery_iff` — a delivery reaches the very mailbox it is for, or raises, exactly
  if what the table has under the id and the serial number agrees in the other two fields
-/

namespace TinchPp

open EventSystem Closing

namespace ActualNode

/-! ### The pids of the mailboxes -/

/-- The pids of all mailboxes that have ever been created. -/
def pids (n : ActualNode) : List EPid := n.objects.map (·.ownPid)

/-- No mailbox has been added, and no pid issued. -/
structure SamePids (n n' : ActualNode) : Prop where
  pids : n'.pids = n.pids
  pidSource : n'.pidSource = n.pidSource
  nodeName : n'.nodeName = n.nodeName

theorem SamePids.refl (n : ActualNode) : SamePids n n := ⟨rfl, rfl, rfl⟩

theorem SamePids.trans {n n' n'' : ActualNode} (h : SamePids n n') (h' : SamePids n' n'') :
    SamePids n n'' :=
  ⟨h'.1.trans h.1, h'.2.trans h.2, h'.3.trans h.3⟩

theorem map_ownPid_modify (objects : List MailboxObject) (h : Handle)
    {f : MailboxObject → MailboxObject} (hf : ∀ o, (f o).ownPid = o.ownPid) :
    (objects.modify h f).map (·.ownPid) = objects.map (·.ownPid) := by
  refine List.ext_getElem? fun i => ?_
  rw [List.getElem?_map, List.getElem?_map, List.getElem?_modify]
  rcases objects[i]? with _ | o
  · rfl
  · by_cases hi : h = i <;> simp [hi, hf]

theorem samePids_onMailbox (h : Handle) (act : ActualMailbox → ActualMailbox) (n : ActualNode) :
    SamePids n (n.onMailbox h act) :=
  ⟨map_ownPid_modify n.objects h fun _ => rfl, rfl, rfl⟩

theorem samePids_expire (h : Handle) (n : ActualNode) : SamePids n (n.expire h) :=
  ⟨map_ownPid_modify n.objects h fun _ => rfl, rfl, rfl⟩

theorem samePids_request (net : Connections) (op : ControlMsg) (p : EPid) (n : ActualNode) :
    SamePids n (n.request net op p).2 := by
  rw [request]
  split <;> exact ⟨rfl, rfl, rfl⟩

theorem samePids_link (net : Connections) (p q : EPid) (n : ActualNode) :
    SamePids n (n.link net p q).2 := by
  have hrequest := samePids_request net (.link p q) q n
  rw [link]
  split
  · split
    · next hr => exact hr ▸ hrequest
    · next hr => exact (hr ▸ hrequest).trans ⟨rfl, rfl, rfl⟩
  · exact ⟨rfl, rfl, rfl⟩

theorem samePids_unlink (net : Connections) (p q : EPid) (n : ActualNode) :
    SamePids n (n.unlink net p q).2 := by
  have hunlink : SamePids n (n.incomingUnlink p q) := ⟨rfl, rfl, rfl⟩
  rw [unlink]
  split
  · exact hunlink.trans (samePids_request net _ q _)
  · exact hunlink

theorem samePids_receiveIncoming (msg : MsgSeq) (p : EPid) (n : ActualNode) :
    SamePids n (n.receiveIncoming msg p).2 := by
  rw [receiveIncoming]
  split
  · exact ⟨rfl, rfl, rfl⟩
  · exact samePids_onMailbox _ _ n

theorem samePids_receiveIncomingName (msg : MsgSeq) (name : Str) (n : ActualNode) :
    SamePids n (n.receiveIncomingName msg name).2 := by
  rw [receiveIncomingName]
  split
  · exact ⟨rfl, rfl, rfl⟩
  · exact samePids_onMailbox _ _ n

theorem samePids_incomingExit (p q : EPid) (reason : Str) (n : ActualNode) :
    SamePids n (n.incomingExit p q reason).2 := by
  rw [incomingExit]
  split
  · exact ⟨rfl, rfl, rfl⟩
  · exact (samePids_onMailbox _ _ n).trans ⟨rfl, rfl, rfl⟩

theorem samePids_requestExit2 (net : Connections) (p q : EPid) (reason : Str) (n : ActualNode) :
    SamePids n (n.requestExit2 net p q reason).2 := by
  rw [requestExit2]
  split
  · exact samePids_request net _ q n
  · exact samePids_incomingExit p q reason n

theorem samePids_forEach (net : Connections) (fromPid : EPid) (reason : Str) (toPids : List EPid) :
    ∀ n, SamePids n (forEach (fun p n => n.requestExit2 net fromPid p reason) toPids n).2 := by
  induction toPids with
  | nil => exact .refl
  | cons p toPids ih =>
    intro n
    have hone := samePids_requestExit2 net fromPid p reason n
    rw [forEach]
    split
    · next hr => exact hr ▸ hone
    · next hr => exact (hr ▸ hone).trans (ih _)

theorem samePids_after (c : Closing) : SamePids c.before c.after := by
  have hdetached : SamePids c.before c.detached := ⟨rfl, rfl, rfl⟩
  have hclose : SamePids c.before (c.before.closeLinksForLocal c.net c.id c.reason).2 :=
    hdetached.trans (samePids_forEach c.net c.id c.reason c.linkedPids c.detached)
  rw [Closing.after, closeMailbox]
  split
  · next hr => exact hr ▸ hclose
  · next hr => exact (hr ▸ hclose).trans ⟨rfl, rfl, rfl⟩

theorem samePids_before {n : ActualNode} {e : NodeEvent} {c : Closing}
    (hc : n.closing e = some c) : SamePids n c.before := by
  cases e with
  | close h net =>
    obtain ⟨o, -, rfl⟩ := Option.map_eq_some_iff.mp hc
    exact .refl n
  | destroy h uncaughtException net =>
    cases uncaughtException with
    | false =>
      obtain ⟨o, -, rfl⟩ := Option.map_eq_some_iff.mp hc
      exact samePids_expire h n
    | true => simp [closing] at hc
  | runPosted net =>
    rw [closing] at hc
    split at hc
    · exact absurd hc (by simp)
    · obtain rfl := Option.some_inj.mp hc
      exact ⟨rfl, rfl, rfl⟩
  | _ => simp [closing] at hc

/-- One call of `make_pid`, for a new mailbox. -/
structure IssuesPid (n n' : ActualNode) : Prop where
  pids : n'.pids = n.pids ++ [(n.pidSource.makePid n.nodeName n.creation).1]
  pidSource : n'.pidSource = n.pidSource.updatePidFields
  nodeName : n'.nodeName = n.nodeName

/-- **Only a new mailbox has a new pid**, and it is the next one. -/
theorem samePids_or_issuesPid {n t : ActualNode} {e : NodeEvent} (h : n.step e = some t) :
    SamePids n t ∨ IssuesPid n t := by
  have hclose : ∀ {e'}, (n.closing e').map Closing.after = some t → SamePids n t := by
    intro e' h
    obtain ⟨c, hc, rfl⟩ := Option.map_eq_some_iff.mp h
    exact (samePids_before hc).trans (samePids_after c)
  cases e with
  | createMailbox =>
    rw [step, createMailbox] at h
    split at h
    split at h
    · cases h
    · next hnew _ =>
      obtain rfl := Option.some_inj.mp h
      obtain ⟨rfl, rfl⟩ := Prod.mk.inj hnew
      exact .inr ⟨List.map_append, rfl, rfl⟩
  | createMailboxNamed registeredName =>
    obtain rfl := Option.some_inj.mp h
    exact .inr ⟨List.map_append, rfl, rfl⟩
  | publishPort creation =>
    obtain rfl := Option.some_inj.mp h
    exact .inl ⟨rfl, rfl, rfl⟩
  | link h' pidToLink net =>
    obtain ⟨o, -, rfl⟩ := Option.map_eq_some_iff.mp h
    exact .inl (samePids_link net o.ownPid pidToLink n)
  | unlink h' pidToUnlink net =>
    obtain ⟨o, -, rfl⟩ := Option.map_eq_some_iff.mp h
    exact .inl (samePids_unlink net o.ownPid pidToUnlink n)
  | receive h' =>
    obtain ⟨o, -, h⟩ := Option.bind_eq_some_iff.mp h
    split at h
    · cases h
    · obtain rfl := Option.some_inj.mp h
      exact .inl (samePids_onMailbox _ _ n)
  | receiveTmo h' error =>
    obtain ⟨o, -, rfl⟩ := Option.map_eq_some_iff.mp h
    exact .inl (samePids_onMailbox _ _ n)
  | receiveIncoming msg toPid =>
    obtain rfl := Option.some_inj.mp h
    exact .inl (samePids_receiveIncoming msg toPid n)
  | receiveIncomingName msg toName =>
    obtain rfl := Option.some_inj.mp h
    exact .inl (samePids_receiveIncomingName msg toName n)
  | incomingLink fromPid toPid =>
    obtain rfl := Option.some_inj.mp h
    exact .inl ⟨rfl, rfl, rfl⟩
  | incomingUnlink fromPid toPid =>
    obtain rfl := Option.some_inj.mp h
    exact .inl ⟨rfl, rfl, rfl⟩
  | incomingExit fromPid toPid reason =>
    obtain rfl := Option.some_inj.mp h
    exact .inl (samePids_incomingExit fromPid toPid reason n)
  | close h' net => exact .inl (hclose h)
  | destroy h' uncaughtException net =>
    cases uncaughtException with
    | false => exact .inl (hclose h)
    | true =>
      obtain ⟨o, -, rfl⟩ := Option.map_eq_some_iff.mp h
      exact .inl ((samePids_expire h' n).trans ⟨rfl, rfl, rfl⟩)
  | runPosted net => exact .inl (hclose h)

/-- The node has issued the pids of its mailboxes one after the other, under changing creation
numbers. -/
structure HasIssued (nodeName : Str) (creation : ℕ → UInt32) (n : ActualNode) : Prop where
  name_eq : n.nodeName = nodeName
  pidSource : n.pidSource = .after n.pids.length
  pids : n.pids = (List.range n.pids.length).map (issued nodeName creation)

theorem HasIssued.issuesPid {nodeName : Str} {creation : ℕ → UInt32} {n t : ActualNode}
    (hn : n.HasIssued nodeName creation) (h : IssuesPid n t) :
    t.HasIssued nodeName (Function.update creation n.pids.length n.creation) where
  name_eq := h.nodeName.trans hn.name_eq
  pidSource := by
    rw [h.pidSource, hn.pidSource, h.pids, List.length_append, List.length_singleton,
      PidSource.after_succ]
  pids := by
    have hold : (List.range n.pids.length).map (issued nodeName creation) =
        (List.range n.pids.length).map
          (issued nodeName (Function.update creation n.pids.length n.creation)) := by
      refine List.map_congr_left fun i hi => ?_
      rw [issued, issued, Function.update_of_ne (List.mem_range.mp hi).ne]
    have hnew : issued nodeName (Function.update creation n.pids.length n.creation)
        n.pids.length = (n.pidSource.makePid n.nodeName n.creation).1 := by
      rw [issued, Function.update_self, hn.pidSource, hn.name_eq]
    rw [h.pids, List.length_append, List.length_singleton, List.range_succ, List.map_append,
      List.map_singleton, hnew, ← hold, ← hn.pids]

/-- **The mailboxes of a node have the pids that it has issued.** -/
theorem pids_of_run {nodeName : Str} {es : List NodeEvent} {n : ActualNode}
    (h : run step (create nodeName) es = some n) : ∃ creation, n.HasIssued nodeName creation := by
  refine run_induction (P := fun n => ∃ creation, n.HasIssued nodeName creation) ?_
    ⟨fun _ => 0, rfl, rfl, rfl⟩ h
  rintro s e t ⟨creation, hs⟩ hst
  rcases samePids_or_issuesPid hst with hsame | hissues
  · refine ⟨creation, hsame.nodeName.trans hs.name_eq, ?_, ?_⟩
    · rw [hsame.pidSource, hsame.pids, hs.pidSource]
    · rw [hsame.pids]
      exact hs.pids
  · exact ⟨_, hs.issuesPid hissues⟩

/-- The name in the pid of a mailbox is that of its node. -/
theorem HasIssued.nodeName_ownPid {nodeName : Str} {creation : ℕ → UInt32} {n : ActualNode}
    (hn : n.HasIssued nodeName creation) {h : Handle} {o : MailboxObject}
    (ho : n.objects[h]? = some o) : o.ownPid.nodeName = nodeName := by
  have hmem : o.ownPid ∈ n.pids := List.mem_map_of_mem (List.mem_of_getElem? ho)
  rw [hn.pids] at hmem
  obtain ⟨i, -, hi⟩ := List.mem_map.mp hmem
  rw [← hi]
  rfl

/-! ### What a delivery reaches -/

/-- The call raises and leaves the mailboxes alone, or the one mailbox that it may change has this
very pid, as `operator==` sees it. -/
def ReachesOnly (toPid : EPid) (n : ActualNode) (r : NodeResult) : Prop :=
  (∃ e, r.1 = .error e ∧ r.2.objects = n.objects) ∨
    r.1 = .ok () ∧ ∃ h o, n.owned h = some o ∧ o.ownPid = toPid ∧
      ∀ h', h' ≠ h → r.2.objects[h']? = n.objects[h']?

/-- What the table has under the id and the serial number of the pid, if it is still owned, has the
creation number of the pid too, and the name in the pid is that of the node. -/
def AddressedExactly (n : ActualNode) (toPid : EPid) : Prop :=
  ∀ h o, n.mailboxes toPid.key = some h → n.owned h = some o →
    toPid.nodeName = n.nodeName ∧ toPid.creation = o.ownPid.creation

/-- A table entry does not lead to an owned mailbox. -/
theorem isExpired_of_owned {n : ActualNode} {h : Handle} :
    n.isExpired h = true ↔ n.owned h = none := by
  rw [isExpired, owned]
  rcases n.objects[h]? with _ | o
  · simp
  · cases ho : o.expired <;> simp [ho, Option.filter]

variable {n : ActualNode} {toPid : EPid}

theorem objects_onMailbox_of_ne {h h' : Handle} (hne : h' ≠ h)
    (act : ActualMailbox → ActualMailbox) (n : ActualNode) :
    (n.onMailbox h act).objects[h']? = n.objects[h']? := by
  rw [onMailbox, List.getElem?_modify_ne _ _ (Ne.symm hne)]

theorem objects_onMailbox_self {h : Handle} {o : MailboxObject} (ho : n.objects[h]? = some o)
    (act : ActualMailbox → ActualMailbox) :
    (n.onMailbox h act).objects[h]? = some { o with contents := act o.contents } := by
  rw [onMailbox, List.getElem?_modify_eq, ho]
  rfl

/-- The pid of a mailbox on file, from what the lookup does not compare. -/
theorem ownPid_eq_iff {nodeName : Str} {creation : ℕ → UInt32} (hn : n.HasIssued nodeName creation)
    (hwf : n.Wf) {h : Handle} {o : MailboxObject} (hfile : n.mailboxes toPid.key = some h)
    (ho : n.objects[h]? = some o) : o.ownPid = toPid ↔
      toPid.nodeName = n.nodeName ∧ toPid.creation = o.ownPid.creation := by
  have hname : o.ownPid.nodeName = n.nodeName := (hn.nodeName_ownPid ho).trans hn.name_eq.symm
  have hkey : o.ownPid.key = toPid.key := by
    obtain ⟨o', ho', hkey⟩ := hwf.filed _ _ hfile
    obtain rfl : o' = o := Option.some_inj.mp (ho'.symm.trans ho)
    exact hkey
  constructor
  · rintro rfl
    exact ⟨hname, rfl⟩
  · rintro ⟨hto, hcreation⟩
    obtain ⟨name, id, serial, creation⟩ := toPid
    obtain ⟨hid, hserial⟩ := Prod.mk.inj hkey
    rw [EPid.mk.injEq]
    exact ⟨hname.trans hto.symm, hid, hserial, hcreation.symm⟩

/-- A call that looks a pid up, and acts on the mailbox it finds in a way that can be seen. -/
theorem reachesOnly_iff {nodeName : Str} {creation : ℕ → UInt32}
    (hn : n.HasIssued nodeName creation) (hwf : n.Wf) {r : NodeResult}
    {act : ActualMailbox → ActualMailbox} (hact : ∀ m, act m ≠ m)
    (hraises : ∀ e table, fetchMailbox toPid.key (keyToName toPid) n.mailboxes n =
      (.error e, table) → r = (.error e, { n with mailboxes := table }))
    (hfinds : ∀ h table, fetchMailbox toPid.key (keyToName toPid) n.mailboxes n =
      (.ok h, table) → r.1 = .ok () ∧ r.2.objects = (n.onMailbox h act).objects) :
    ReachesOnly toPid n r ↔ n.AddressedExactly toPid := by
  rcases hfile : n.mailboxes toPid.key with _ | h
  · have hr := hraises _ _ (fetchMailbox_of_none hfile _ n)
    refine iff_of_true (.inl ⟨_, by rw [hr], by rw [hr]⟩) fun h o hfile' => ?_
    rw [hfile] at hfile'
    cases hfile'
  rcases howned : n.owned h with _ | o
  · have hr := hraises _ _ (fetchMailbox_of_expired hfile (isExpired_of_owned.mpr howned) _)
    refine iff_of_true (.inl ⟨_, by rw [hr], by rw [hr]⟩) fun h' o hfile' howned' => ?_
    obtain rfl : h = h' := Option.some_inj.mp (hfile.symm.trans hfile')
    rw [howned] at howned'
    cases howned'
  -- the mailbox on file is owned, and the call acts on it
  have ho : n.objects[h]? = some o := (Option.filter_eq_some_iff.mp howned).1
  have hexp : n.isExpired h = false := by
    rw [← Bool.not_eq_true, isExpired_of_owned, howned]
    exact Option.some_ne_none o
  obtain ⟨hok, hobjects⟩ := hfinds _ _ (fetchMailbox_of_owned hfile hexp _)
  have haddressed : n.AddressedExactly toPid ↔ o.ownPid = toPid := by
    rw [ownPid_eq_iff hn hwf hfile ho]
    refine ⟨fun ha => ha h o hfile howned, fun heq h' o' hfile' howned' => ?_⟩
    obtain rfl : h = h' := Option.some_inj.mp (hfile.symm.trans hfile')
    obtain rfl : o = o' := Option.some_inj.mp (howned.symm.trans howned')
    exact heq
  rw [haddressed]
  constructor
  · rintro (⟨e, he, -⟩ | ⟨-, h', o', howned', hpid, hothers⟩)
    · rw [hok] at he
      cases he
    · by_cases hh : h = h'
      · subst hh
        obtain rfl : o = o' := Option.some_inj.mp (howned.symm.trans howned')
        exact hpid
      · -- the mailbox it has acted on is another one, which is changed
        have hsame := hothers h hh
        rw [hobjects, objects_onMailbox_self ho, ho, Option.some_inj] at hsame
        exact absurd (congrArg MailboxObject.contents hsame) (hact o.contents)
  · intro hpid
    refine .inr ⟨hok, h, o, howned, hpid, fun h' hne => ?_⟩
    rw [hobjects, objects_onMailbox_of_ne hne]

theorem onIncoming_ne (msg : MsgSeq) (m : ActualMailbox) : m.onIncoming msg ≠ m := fun h => by
  have hlength := congrArg (fun m : ActualMailbox => m.receivedMsgs.length) h
  simp at hlength

theorem onLinkBroken_ne (reason : Str) (pid : EPid) (m : ActualMailbox) :
    m.onLinkBroken reason pid ≠ m := fun h => by
  have hlength := congrArg (fun m : ActualMailbox => m.brokenLinks.length) h
  simp at hlength

/-- **A delivery to a pid is exact** where the lookup compares all that there is to compare: in
every state of a node, for every message, every exit signal and every pid. -/
theorem exactDelivery_iff {nodeName : Str} {es : List NodeEvent}
    (h : run step (create nodeName) es = some n) (toPid fromPid : EPid) (msg : MsgSeq)
    (reason : Str) :
    (ReachesOnly toPid n (n.receiveIncoming msg toPid) ↔ n.AddressedExactly toPid) ∧
      (ReachesOnly toPid n (n.incomingExit fromPid toPid reason) ↔ n.AddressedExactly toPid) := by
  obtain ⟨creation, hn⟩ := pids_of_run h
  have hwf : n.Wf := run_induction (P := Wf) (fun _ _ _ => Wf.step) (wf_create nodeName) h
  constructor
  · refine reachesOnly_iff hn hwf (onIncoming_ne msg) (fun e table hfetch => ?_)
      fun h table hfetch => ?_
    · rw [receiveIncoming, hfetch]
    · rw [receiveIncoming, hfetch]
      exact ⟨rfl, rfl⟩
  · refine reachesOnly_iff hn hwf (onLinkBroken_ne reason fromPid) (fun e table hfetch => ?_)
      fun h table hfetch => ?_
    · rw [incomingExit, hfetch]
    · rw [incomingExit, hfetch]
      exact ⟨rfl, rfl⟩

theorem exactDelivery_own : ∃ n, run step (create (bytesOf "n@h")) [.publishPort 2,
    .createMailbox] = some n ∧
    ReachesOnly ⟨bytesOf "n@h", 1, 0, 2⟩ n
      (n.receiveIncoming [131] ⟨bytesOf "n@h", 1, 0, 2⟩) := by
  have hrun : run step (create (bytesOf "n@h")) [.publishPort 2, .createMailbox] = some _ := rfl
  refine ⟨_, rfl, (exactDelivery_iff hrun _ .invalid _ []).1.mpr fun h o hfile howned => ?_⟩
  obtain rfl : 0 = h := Option.some_inj.mp hfile
  obtain rfl := Option.some_inj.mp howned
  exact ⟨rfl, rfl⟩

/-- The node has been published as its second incarnation, and a message for a pid of the first one
arrives in a mailbox of the second. -/
theorem not_exactDelivery_earlier : ∃ n, run step (create (bytesOf "n@h")) [.publishPort 2,
    .createMailbox] = some n ∧
    ¬ ReachesOnly ⟨bytesOf "n@h", 1, 0, 1⟩ n
      (n.receiveIncoming [131] ⟨bytesOf "n@h", 1, 0, 1⟩) ∧
    (n.receiveIncoming [131] ⟨bytesOf "n@h", 1, 0, 1⟩).2.objects =
      [⟨⟨bytesOf "n@h", 1, 0, 2⟩, [], ⟨[[131]], true, []⟩, false⟩] := by
  refine ⟨_, rfl, ?_, rfl⟩
  rintro (⟨e, he, -⟩ | ⟨-, h, o, howned, hpid, -⟩)
  · cases he
  · cases h with
    | zero =>
      obtain rfl := Option.some_inj.mp howned
      exact absurd hpid (by decide)
    | succ h => cases howned

end ActualNode

end TinchPp
