import TinchPp.EndedLinks

/-!
# Whether an unlink is final

A mailbox that has unlinked another one does not want to hear of its end. A node that receives an
exit signal does not look into its linker, though: it tells the mailbox in any case and takes the
link away afterwards, if there is one. So what counts is whether an exit signal can be underway. One
that is in flight when the mailbox is unlinked arrives all the same, and so does one that is sent
because the UNLINK has not arrived yet. The same goes for a call that is interrupted before the
UNLINK has been sent.

An exit signal leads to a mailbox if it is for its pid. That it can lead nowhere else is one more
thing to know about every run: links and messages are about pids of mailboxes, and messages go to
the other node (`Known`).

## Main results

* `TwoNodes.notices_step` — only an exit signal that is underway is told to a mailbox
* `TwoNodes.heeds_iff` — the events that send none
* `TwoNodes.afterUnlinks_heeds_iff` — the runs of whole calls after which nothing is told
* `CallingNodes.unlinkIsFinal_of_heeds` — the runs in which an unlink is final
-/

namespace TinchPp

open EventSystem ActualNode

namespace ControlMsg

/-- An exit signal from the one pid to the other. -/
def IsExit (y x : EPid) : ControlMsg → Prop
  | .exit p q _ | .exit2 p q _ => p = y ∧ q = x
  | _ => False

@[simp] theorem isExit_received {y x : EPid} {m : ControlMsg} :
    m.received.IsExit y x ↔ m.IsExit y x := by
  cases m <;> rfl

theorem IsExit.ends {y x : EPid} {m : ControlMsg} (hm : m.IsExit y x) :
    m.ends = some (y, x) := by
  cases m with
  | exit p q reason => rw [ControlMsg.ends, hm.1, hm.2]
  | exit2 p q reason => rw [ControlMsg.ends, hm.1, hm.2]
  | _ => cases hm

end ControlMsg

namespace TwoNodes

/-- The notifications in mailbox `h` of node `i` that a link to `y` is broken. -/
def notices (s : TwoNodes) (i : Bool) (h : Handle) (y : EPid) : List (Str × EPid) :=
  ((s.node i).brokenLinksOf h).filter (·.2 = y)

/-- An exit signal from `y` is underway to `x`, a pid of node `i`, and will be heard. -/
def Underway (signedChar : Bool) (s : TwoNodes) (i : Bool) (y x : EPid) : Prop :=
  signedChar = false ∧ ∃ m ∈ (s.node (!i)).requested, m.2.IsExit y x

/-- No exit signal from mailbox `h'` of the other node is underway to mailbox `h` of node `i`, if it
can still be found. -/
def Clear (signedChar : Bool) (i : Bool) (h h' : Handle) (s : TwoNodes) : Prop :=
  ∀ x y, s.pidOf i h = some x → s.pidOf (!i) h' = some y →
    (s.node i).mailboxes x.key = some h → ¬ s.Underway signedChar i y x

/-- The event tells mailbox `h` of node `i` nothing about mailbox `h'` of the other node. -/
def NoNotice (signedChar : Bool) (i : Bool) (h h' : Handle) (s : TwoNodes) (e : TwoNodesEvent) :
    Prop :=
  ∀ t y, s.pidOf (!i) h' = some y → s.step signedChar e = some t →
    t.notices i h y = s.notices i h y

/-- Nor is there anything underway that would. -/
def Untold (signedChar : Bool) (i : Bool) (h h' : Handle) (s : TwoNodes) : Prop :=
  ∀ ds, OnlyDeliveries ds → EveryStep (step signedChar) (NoNotice signedChar i h h') s ds

/-- Mailbox `h'` is not closed while this would be heard by mailbox `h` of node `i`: while the linker
of its node still has the link, and the mailbox can be found. -/
def Heeds (signedChar : Bool) (i : Bool) (h h' : Handle) (s : TwoNodes) : TwoNodesEvent → Prop
  | .close k g reason => k = (!i) → g = h' → ∀ x o, s.pidOf i h = some x → s.opened k g = some o →
    (s.node i).mailboxes x.key = some h → x ∉ (s.closing k g o reason).heard signedChar
  | .link _ _ _ _ | .unlink _ _ _ _ | .deliver _ => True

/-- What node `i` has said about the link has arrived. -/
def Arrived (signedChar : Bool) (i : Bool) (h h' : Handle) (s : TwoNodes) : Prop :=
  ∀ x y, s.pidOf i h = some x → s.pidOf (!i) h' = some y →
    (s.pair signedChar x y).inFlight i = []

/-- The two mailboxes are linked, from either side. -/
def Relinks (i : Bool) (h h' : Handle) : TwoNodesEvent → Prop
  | .link k g l g' => k = i ∧ g = h ∧ l = (!i) ∧ g' = h' ∨ k = (!i) ∧ g = h' ∧ l = i ∧ g' = h
  | _ => False

/-- Whenever a mailbox is unlinked in the run, `Q` is true of the state before, the state after and
what comes then, up to where the two are linked again. -/
def AfterUnlinks (signedChar : Bool) (s : TwoNodes) (es : List TwoNodesEvent)
    (Q : Bool → Handle → Handle → TwoNodes → TwoNodes → List TwoNodesEvent → Prop) : Prop :=
  ∀ pre i h h' mid t u, pre ++ [.unlink i h (!i) h'] ++ mid <+: es →
    (∀ e ∈ mid, ¬ Relinks i h h' e) → run (step signedChar) s pre = some t →
      t.step signedChar (.unlink i h (!i) h') = some u → Q i h h' t u mid

/-! ### Whom links and messages are about -/

/-- The pid of a mailbox. -/
def IsPid (s : TwoNodes) (p : EPid) : Prop := ∃ i h, s.pidOf i h = some p

/-- Links and messages are about mailboxes, messages are for the other node, and under the pid of a
mailbox no other one is found. -/
structure Known (s : TwoNodes) : Prop where
  filed : ∀ i h h' p, s.pidOf i h = some p → (s.node i).mailboxes p.key = some h' → h' = h
  links : ∀ i p q, (s.node i).mailboxLinker.Linked p q → s.IsPid p
  sent : ∀ i, ∀ m ∈ (s.node i).requested, ∀ p q, m.2.ends = some (p, q) →
    s.IsPid p ∧ s.IsPid q ∧ q.nodeName ≠ (s.node i).nodeName

variable {signedChar : Bool} {s t u : TwoNodes} {i j k : Bool} {x y p q : EPid}
  {h h' g g' : Handle}

theorem Fresh.known (hs : s.Fresh) : s.Known where
  filed i h h' p hp hh' := by
    obtain ⟨o, ho, rfl⟩ := Option.map_eq_some_iff.mp hp
    exact Option.some_inj.mp (hh'.symm.trans (hs.mailboxes i h o ho).2.2)
  links i p q hlinked := by
    rw [hs.linker i] at hlinked
    exact absurd hlinked Linker.not_linked_create
  sent i m hm := by
    rw [hs.quiet i] at hm
    cases hm

theorem isPid_of_object {o : MailboxObject} (ho : (s.node i).objects[h]? = some o) :
    s.IsPid o.ownPid :=
  ⟨i, h, pidOf_of_object ho⟩

/-- What the messages that go out when a mailbox is closed are about. -/
theorem ends_remoteExits {n : ActualNode} {reason : Str} {pids : List EPid} {m : Str × ControlMsg}
    (hm : m ∈ remoteExits p reason n pids) {a b : EPid} (hends : m.2.ends = some (a, b)) :
    a = p ∧ b ∈ pids ∧ b.nodeName ≠ n.nodeName := by
  obtain ⟨q, hq, rfl⟩ := List.mem_map.mp hm
  obtain ⟨hmem, hremote⟩ := List.mem_filter.mp hq
  obtain ⟨rfl, rfl⟩ := Prod.mk.inj (Option.some_inj.mp hends)
  exact ⟨rfl, hmem, of_decide_eq_true hremote⟩

theorem within_perform {m : ControlMsg} {nodeName : Str} (hm : m.IsFrom nodeName) (n : ActualNode) :
    Within (n.perform m.call).2.mailboxes n.mailboxes := by
  have hexit (p q : EPid) (reason : Str) :
      Within (n.incomingExit p q reason).2.mailboxes n.mailboxes := by
    have hfetch := within_fetchMailbox q.key (keyToName q) n.mailboxes n
    rw [incomingExit]
    split
    · next heq =>
      rw [heq] at hfetch
      exact hfetch
    · exact fun _ _ h => h
  cases m with
  | send payload toPid => cases hm
  | regSend payload toName fromPid => cases hm
  | link p q => exact fun _ _ h => h
  | unlink p q => exact fun _ _ h => h
  | exit p q reason => exact hexit p q reason
  | exit2 p q reason => exact hexit p q reason

theorem within_onFrame (signedChar : Bool) {m : ControlMsg} {nodeName : Str}
    (hm : m.IsFrom nodeName) (n : ActualNode) :
    Within (n.onFrame signedChar m).mailboxes n.mailboxes := by
  cases signedChar with
  | true =>
    rw [onFrame_true]
    exact fun _ _ h => h
  | false =>
    rw [onFrame_false hm]
    exact within_perform hm.received n

theorem within_after (c : Closing) : Within c.after.mailboxes c.before.mailboxes := by
  rcases all_notifiable_or_first c.net c.before c.linkedPids with
    hall | ⟨pre, p, rest, hl, hpre, hp⟩
  · rw [Closing.mailboxes_of_notifiable hall]
    exact within_erase c.id.key c.before.mailboxes
  · have hsame := sameTables_notifiedAll c.id c.reason pre c.detached
    rw [Closing.after_of_not_notifiable hl hpre hp]
    intro k h hk
    have hmailboxes := within_withoutExpired _ p k h hk
    rw [hsame.mailboxes] at hmailboxes
    exact hmailboxes

/-- What the state of a node consists of afterwards, if it was about mailboxes before. -/
theorem Known.setNode (hs : s.Known) {n : ActualNode} (hpids : (s.setNode i n).pidOf = s.pidOf)
    (hmailboxes : Within n.mailboxes (s.node i).mailboxes)
    (hlinks : ∀ p q, n.mailboxLinker.Linked p q → s.IsPid p)
    (hsent : ∀ m ∈ n.requested, ∀ p q, m.2.ends = some (p, q) →
      s.IsPid p ∧ s.IsPid q ∧ q.nodeName ≠ n.nodeName) : (s.setNode i n).Known := by
  have hpid (p : EPid) : (s.setNode i n).IsPid p ↔ s.IsPid p := by
    rw [IsPid, hpids, IsPid]
  refine ⟨fun j h h' p hp hh' => ?_, ?_, ?_⟩
  · rw [hpids] at hp
    by_cases hj : j = i
    · subst hj
      rw [setNode_node_self] at hh'
      exact hs.filed j h h' p hp (hmailboxes _ _ hh')
    · rw [setNode_node_of_ne n hj] at hh'
      exact hs.filed j h h' p hp hh'
  · intro j p q hlinked
    rw [hpid]
    by_cases hj : j = i
    · subst hj
      rw [setNode_node_self] at hlinked
      exact hlinks p q hlinked
    · rw [setNode_node_of_ne n hj] at hlinked
      exact hs.links j p q hlinked
  · intro j m hm p q hends
    rw [hpid, hpid]
    by_cases hj : j = i
    · subst hj
      rw [setNode_node_self] at hm ⊢
      exact hsent m hm p q hends
    · rw [setNode_node_of_ne n hj] at hm ⊢
      exact hs.sent j m hm p q hends

/-- A call of a mailbox is about this mailbox and another one. -/
theorem Known.call (hs : s.Known) {n : ActualNode} {linker : Linker} {m : ControlMsg}
    (hn : n = { s.node i with
      mailboxLinker := linker
      requested := (s.node i).requested ++
        if q.nodeName ≠ (s.node i).nodeName then [(q.nodeName, m)] else [] })
    (hm : m.ends = some (p, q)) (hp : s.IsPid p) (hq : s.IsPid q)
    (hlinked : ∀ a b, linker.Linked a b → (s.node i).mailboxLinker.Linked a b ∨
      Linker.SamePair (a, b) (p, q)) : (s.setNode i n).Known := by
  subst hn
  refine hs.setNode (pidOf_update s.closed fun _ => rfl) (fun _ _ h => h) (fun a b hab => ?_)
    fun x hx a b hends => ?_
  · rcases hlinked a b hab with hab | hsame | hsame
    · exact hs.links i a b hab
    · rw [(Prod.mk.inj hsame).1]
      exact hp
    · rw [(Prod.mk.inj hsame).1]
      exact hq
  · rcases List.mem_append.mp hx with hx | hx
    · exact hs.sent i x hx a b hends
    · split at hx
      · next hremote =>
        obtain rfl := List.mem_singleton.mp hx
        obtain ⟨rfl, rfl⟩ := Prod.mk.inj (Option.some_inj.mp (hm.symm.trans hends))
        exact ⟨hp, hq, hremote⟩
      · cases hx

/-- **So it is in every run.** -/
theorem Known.step (hs : s.Known) (hwf : s.Wf) {e : TwoNodesEvent}
    (ht : s.step signedChar e = some t) : t.Known := by
  cases e with
  | link i h k h' =>
    obtain ⟨o, o', ho, ho', rfl⟩ := step_link ht
    exact hs.call (m := .link o.ownPid o'.ownPid) (link_allReachable _ _ _) rfl
      (isPid_of_object (opened_eq_some.mp ho).2) (isPid_of_object ho')
      fun a b hab => (Linker.linked_link.mp hab).symm
  | unlink i h k h' =>
    obtain ⟨o, o', ho, ho', rfl⟩ := step_unlink ht
    exact hs.call (m := .unlink o.ownPid o'.ownPid) (unlink_allReachable _ _ _) rfl
      (isPid_of_object (opened_eq_some.mp ho).2) (isPid_of_object ho')
      fun a b hab => .inl (Linker.linked_unlink.mp hab).1
  | close i h reason =>
    have hpids := pidOf_of_step hwf ht
    obtain ⟨o, ho, rfl⟩ := step_close ht
    have hself := isPid_of_object (opened_eq_some.mp ho).2
    have hknown := hs.setNode (i := i) (n := (s.closing i h o reason).after) hpids
      (within_after _) (fun a b hab => ?_) fun m hm a b hends => ?_
    · exact ⟨hknown.filed, hknown.links, hknown.sent⟩
    · rw [Closing.mailboxLinker_after] at hab
      exact hs.links i a b (Linker.linked_removeLinksFrom.mp hab).1
    · rw [(Closing.delivers_reached _).requested] at hm
      rw [Closing.nodeName_after]
      rcases List.mem_append.mp hm with hm | hm
      · exact hs.sent i m hm a b hends
      · obtain ⟨rfl, hb, hremote⟩ := ends_remoteExits hm hends
        have hlinked : (s.node i).mailboxLinker.Linked b o.ownPid :=
          (Linker.mem_linkedPids.mp (List.takeWhile_subset _ hb)).symm
        exact ⟨hself, hs.links i b _ hlinked, hremote⟩
  | deliver i =>
    obtain ⟨to_, m, rest, hrequested, rfl⟩ := step_deliver ht
    have hfrom := hwf.isFrom_of_requested hrequested
    have hm : (to_, m) ∈ (s.node i).requested := by
      rw [hrequested]
      exact List.mem_cons_self
    have hsender : (s.setNode i { s.node i with requested := rest }).Known :=
      hs.setNode (pidOf_update s.closed fun _ => rfl) (fun _ _ h => h) (hs.links i) fun x hx =>
        hs.sent i x (by rw [hrequested]; exact List.mem_cons_of_mem _ hx)
    obtain ⟨hsame, hrequested'⟩ := onFrame_frame signedChar hfrom (s.node (!i))
    have hpids : (s.setNode i { s.node i with requested := rest }).pidOf = s.pidOf :=
      pidOf_update s.closed fun _ => rfl
    have hpid (p : EPid) : (s.setNode i { s.node i with requested := rest }).IsPid p ↔
        s.IsPid p := by
      rw [IsPid, hpids, IsPid]
    refine hsender.setNode ?_ ?_ (fun a b hab => ?_) fun x hx a b hends => ?_
    · refine pidOf_update s.closed ?_
      rw [setNode_node_not]
      exact hsame.objects
    · rw [setNode_node_not]
      exact within_onFrame signedChar hfrom _
    · rw [hpid]
      rcases linked_of_onFrame hfrom hab with hab | ⟨c, d, hends, hpair | hpair⟩
      · exact hs.links (!i) a b hab
      · rw [(Prod.mk.inj hpair).1]
        exact (hs.sent i _ hm c d hends).1
      · rw [(Prod.mk.inj hpair).1]
        exact (hs.sent i _ hm c d hends).2.1
    · rw [hrequested'] at hx
      rw [hpid, hpid, hsame.nodeName]
      exact hs.sent (!i) x hx a b hends

/-- The pid under which a message finds a mailbox is the pid of this mailbox. -/
theorem Known.eq_of_filed (hs : s.Known) (hwf : s.Wf) (hx : s.pidOf i h = some x)
    (hq : s.IsPid q) (hremote : q.nodeName ≠ (s.node (!i)).nodeName)
    (hfiled : (s.node i).mailboxes q.key = some h) : q = x := by
  obtain ⟨j, g, hpid⟩ := hq
  by_cases hj : j = i
  · subst hj
    obtain rfl := hs.filed j g h q hpid hfiled
    exact Option.some_inj.mp (hpid.symm.trans hx)
  · obtain rfl : j = !i := Bool.eq_not_of_ne hj
    obtain ⟨o, ho, rfl⟩ := Option.map_eq_some_iff.mp hpid
    exact absurd (hwf.here (!i) g o ho).2 hremote

/-! ### What a mailbox is told -/

theorem brokenLinksOf_congr {n n' : ActualNode} (hobjects : n'.objects = n.objects) (h : Handle) :
    n'.brokenLinksOf h = n.brokenLinksOf h := by
  rw [brokenLinksOf, hobjects, brokenLinksOf]

theorem notices_setNode_of_ne (n : ActualNode) (hne : i ≠ k) :
    (s.setNode k n).notices i h y = s.notices i h y := by
  rw [notices, setNode_node_of_ne n hne, notices]

theorem notices_setNode {n : ActualNode} (hobjects : n.objects = (s.node k).objects) :
    (s.setNode k n).notices i h y = s.notices i h y := by
  by_cases hi : i = k
  · subst hi
    rw [notices, setNode_node_self, brokenLinksOf_congr hobjects, notices]
  · exact notices_setNode_of_ne n hi

/-- An exit signal that does not come from `y`, or is not for the mailbox. -/
theorem notices_incomingExit {n : ActualNode} (reason : Str)
    (hno : p = y → n.mailboxes q.key ≠ some h) :
    ((n.incomingExit p q reason).2.brokenLinksOf h).filter (·.2 = y) =
      (n.brokenLinksOf h).filter (·.2 = y) := by
  rcases incomingExit_cases p q reason n with ⟨g, hg, hexp, heq⟩ | ⟨-, table, heq, -⟩
  · have htold : (n.incomingExit p q reason).2.brokenLinksOf h =
        n.brokenLinksOf h ++ if g = h then [(reason, p)] else [] := by
      rw [heq]
      exact brokenLinksOf_onMailbox hexp reason p h
    rw [htold, List.filter_append]
    by_cases hgh : g = h
    · have hp : p ≠ y := fun hp => hno hp (hgh ▸ hg)
      rw [if_pos hgh, List.filter_cons_of_neg (by simpa using hp), List.filter_nil,
        List.append_nil]
    · rw [if_neg hgh, List.filter_nil, List.append_nil]
  · rw [heq]
    rfl

/-- A message that is no exit signal from `y` to the mailbox. -/
theorem notices_perform {n : ActualNode} {m : ControlMsg} {nodeName : Str} (hm : m.IsFrom nodeName)
    (hno : ∀ q, m.IsExit y q → n.mailboxes q.key ≠ some h) :
    ((n.perform m.call).2.brokenLinksOf h).filter (·.2 = y) =
      (n.brokenLinksOf h).filter (·.2 = y) := by
  cases m with
  | send payload toPid => cases hm
  | regSend payload toName fromPid => cases hm
  | link p q => rfl
  | unlink p q => rfl
  | exit p q reason => exact notices_incomingExit reason fun hp => hno q ⟨hp, rfl⟩
  | exit2 p q reason => exact notices_incomingExit reason fun hp => hno q ⟨hp, rfl⟩

/-- An exit signal from `y` to the mailbox. -/
theorem notices_perform_exit {n : ActualNode} {m : ControlMsg} (hm : m.IsExit y x)
    (hfiled : n.mailboxes x.key = some h) (hexp : n.isExpired h = false) :
    ((n.perform m.call).2.brokenLinksOf h).filter (·.2 = y) ≠
      (n.brokenLinksOf h).filter (·.2 = y) := by
  have hexit (reason : Str) : ((n.incomingExit y x reason).2.brokenLinksOf h).filter (·.2 = y) ≠
      (n.brokenLinksOf h).filter (·.2 = y) := by
    rw [brokenLinksOf_incomingExit hfiled hexp, List.filter_append]
    simp
  cases m with
  | exit p q reason =>
    obtain ⟨rfl, rfl⟩ := hm
    exact hexit reason
  | exit2 p q reason =>
    obtain ⟨rfl, rfl⟩ := hm
    exact hexit reason
  | _ => cases hm

/-- **Only an exit signal that is underway is told** to a mailbox. -/
theorem notices_step (hs : s.Wf) (hknown : s.Known)
    (hclear : s.Clear signedChar i h h') (e : TwoNodesEvent)
    (hx : s.pidOf i h = some x) : s.NoNotice signedChar i h h' e := by
  intro t y hy ht
  cases e with
  | link k g l g' =>
    obtain ⟨o, o', -, -, rfl⟩ := step_link ht
    exact notices_setNode (by rw [link_allReachable])
  | unlink k g l g' =>
    obtain ⟨o, o', -, -, rfl⟩ := step_unlink ht
    exact notices_setNode (by rw [unlink_allReachable])
  | close k g reason =>
    obtain ⟨o, ho, rfl⟩ := step_close ht
    show (s.setNode k (s.closing k g o reason).after).notices i h y = s.notices i h y
    by_cases hi : i = k
    · -- what a close says on its own node comes from this node
      subst hi
      have howner := (hs.here i g o (opened_eq_some.mp ho).2).2
      obtain ⟨o', ho', rfl⟩ := Option.map_eq_some_iff.mp hy
      have hne : o.ownPid ≠ o'.ownPid := by
        intro heq
        rw [heq, (hs.here (!i) h' o' ho').2] at howner
        exact hs.names i howner
      have hlocal (pids : List EPid) : (localExits o.ownPid reason (s.node i) pids h).filter
          (·.2 = o'.ownPid) = [] := by
        refine List.filter_eq_nil_iff.mpr fun l hl => ?_
        obtain ⟨q, -, rfl⟩ := List.mem_map.mp hl
        simpa using hne
      rw [notices, setNode_node_self, (Closing.delivers_reached _).brokenLinks, List.filter_append,
        notices]
      exact (congrArg _ (hlocal _)).trans (List.append_nil _)
    · exact notices_setNode_of_ne _ hi
  | deliver j =>
    obtain ⟨to_, m, rest, hrequested, rfl⟩ := step_deliver ht
    have hfrom := hs.isFrom_of_requested hrequested
    by_cases hj : j = i
    · subst hj
      rw [notices_setNode_of_ne _ (Bool.not_ne_self j).symm]
      exact notices_setNode rfl
    · obtain rfl : j = !i := Bool.eq_not_of_ne hj
      have hnode : (((s.setNode (!i) { s.node (!i) with requested := rest }).setNode (!!i)
          ((s.node (!!i)).onFrame signedChar m)).node i) = (s.node i).onFrame signedChar m := by
        rw [Bool.not_not, setNode_node_self]
      rw [notices, hnode, notices]
      cases signedChar with
      | true => rw [onFrame_true]
      | false =>
        rw [onFrame_false hfrom]
        refine notices_perform hfrom.received fun q hq hfiled => ?_
        rw [ControlMsg.isExit_received] at hq
        have hm : (to_, m) ∈ (s.node (!i)).requested := by
          rw [hrequested]
          exact List.mem_cons_self
        obtain ⟨-, hpid, hremote⟩ := hknown.sent (!i) _ hm y q hq.ends
        obtain rfl := hknown.eq_of_filed hs hx hpid hremote hfiled
        exact hclear q y hx hy hfiled ⟨rfl, _, hm, hq⟩

/-! ### What sends exit signals -/

/-- Mailboxes are not found again once they are not found. -/
theorem within_step (hs : s.Wf) {e : TwoNodesEvent} (ht : s.step signedChar e = some t) (j : Bool) :
    Within (t.node j).mailboxes (s.node j).mailboxes := by
  have hset {k : Bool} {n : ActualNode} (hn : Within n.mailboxes (s.node k).mailboxes) :
      Within ((s.setNode k n).node j).mailboxes (s.node j).mailboxes := by
    by_cases hj : j = k
    · subst hj
      rw [setNode_node_self]
      exact hn
    · rw [setNode_node_of_ne n hj]
      exact fun _ _ h => h
  cases e with
  | link i h l h' =>
    obtain ⟨o, o', -, -, rfl⟩ := step_link ht
    refine hset ?_
    rw [link_allReachable]
    exact fun _ _ h => h
  | unlink i h l h' =>
    obtain ⟨o, o', -, -, rfl⟩ := step_unlink ht
    refine hset ?_
    rw [unlink_allReachable]
    exact fun _ _ h => h
  | close i h reason =>
    obtain ⟨o, -, rfl⟩ := step_close ht
    exact hset (n := (s.closing i h o reason).after) (within_after _)
  | deliver i =>
    obtain ⟨to_, m, rest, hrequested, rfl⟩ := step_deliver ht
    have hframe := within_onFrame signedChar (hs.isFrom_of_requested hrequested) (s.node (!i))
    by_cases hj : j = !i
    · subst hj
      rw [setNode_node_self]
      exact hframe
    · rw [setNode_node_of_ne _ hj]
      exact hset fun _ _ h => h

/-- **Only a close sends exit signals**, to the pids that it reaches. -/
theorem exit_of_step (hs : s.Wf) {e : TwoNodesEvent} (ht : s.step signedChar e = some t)
    {m : Str × ControlMsg} (hm : m ∈ (t.node j).requested) (hexit : m.2.IsExit y x) :
    m ∈ (s.node j).requested ∨ ∃ g reason o, e = .close j g reason ∧ s.opened j g = some o ∧
      y = o.ownPid ∧ x ∈ (s.closing j g o reason).reached := by
  have hcall {k : Bool} {n : ActualNode} {to_ : EPid} {c : ControlMsg} (hc : ¬ c.IsExit y x)
      (hn : n.requested = (s.node k).requested ++
        if to_.nodeName ≠ (s.node k).nodeName then [(to_.nodeName, c)] else [])
      (hm : m ∈ ((s.setNode k n).node j).requested) : m ∈ (s.node j).requested := by
    by_cases hj : j = k
    · subst hj
      rw [setNode_node_self, hn] at hm
      rcases List.mem_append.mp hm with hm | hm
      · exact hm
      · split at hm
        · rw [List.mem_singleton.mp hm] at hexit
          exact absurd hexit hc
        · cases hm
    · rwa [setNode_node_of_ne n hj] at hm
  cases e with
  | link i h l h' =>
    obtain ⟨o, o', -, -, rfl⟩ := step_link ht
    exact .inl (hcall (c := .link o.ownPid o'.ownPid) id (by rw [link_allReachable]) hm)
  | unlink i h l h' =>
    obtain ⟨o, o', -, -, rfl⟩ := step_unlink ht
    exact .inl (hcall (c := .unlink o.ownPid o'.ownPid) id (by rw [unlink_allReachable]) hm)
  | close i g reason =>
    obtain ⟨o, ho, rfl⟩ := step_close ht
    dsimp only at hm
    by_cases hj : j = i
    · subst hj
      rw [Function.update_self, (Closing.delivers_reached _).requested] at hm
      refine (List.mem_append.mp hm).imp id fun hm => ?_
      obtain ⟨rfl, hreached, -⟩ := ends_remoteExits hm hexit.ends
      exact ⟨g, reason, o, rfl, ho, rfl, hreached⟩
    · rw [Function.update_of_ne hj] at hm
      exact .inl hm
  | deliver i =>
    obtain ⟨to_, c, rest, hrequested, rfl⟩ := step_deliver ht
    obtain ⟨-, hrequested'⟩ := onFrame_frame signedChar (hs.isFrom_of_requested hrequested)
      (s.node (!i))
    by_cases hj : j = i
    · subst hj
      rw [setNode_node_of_ne _ (Bool.not_ne_self j).symm, setNode_node_self] at hm
      rw [hrequested]
      exact .inl (List.mem_cons_of_mem _ hm)
    · obtain rfl : j = !i := Bool.eq_not_of_ne hj
      rw [setNode_node_self, hrequested'] at hm
      exact .inl hm

/-- **The events that send no exit signal** from the one mailbox to the other. -/
theorem heeds_iff (hs : s.Wf) (hclear : s.Clear signedChar i h h') (e : TwoNodesEvent) :
    s.Heeds signedChar i h h' e ↔ ∀ t, s.step signedChar e = some t → t.Clear signedChar i h h' := by
  constructor
  · rintro hheeds t ht x y hx hy hfiled ⟨rfl, m, hm, hexit⟩
    rw [pidOf_of_step hs ht] at hx hy
    have hfiled := within_step hs ht i _ _ hfiled
    rcases exit_of_step hs ht hm hexit with hm | ⟨g, reason, o, rfl, ho, rfl, hreached⟩
    · exact hclear x y hx hy hfiled ⟨rfl, m, hm, hexit⟩
    · obtain rfl := hs.eq_of_pidOf (pidOf_of_object (opened_eq_some.mp ho).2) hy
      exact hheeds rfl rfl x o hx ho hfiled hreached
  · intro hall
    cases e with
    | close k g reason =>
      rintro rfl rfl x o hx ho hfiled hheard
      have ht : s.step signedChar (.close (!i) g reason) =
          some ⟨Function.update s.node (!i) (s.closing (!i) g o reason).after,
            Function.update s.closed (!i) (g :: s.closed (!i))⟩ := by
        rw [step, ho]
        rfl
      have hy := pidOf_of_object (opened_eq_some.mp ho).2
      have hthen := hall _ ht x o.ownPid (by rw [pidOf_of_step hs ht]; exact hx)
        (by rw [pidOf_of_step hs ht]; exact hy)
        (by dsimp only; rw [Function.update_of_ne (Bool.not_ne_self i).symm]; exact hfiled)
      cases signedChar with
      | true => cases hheard
      | false =>
        have hremote : x.nodeName ≠ (s.node (!i)).nodeName := by
          obtain ⟨o', ho', rfl⟩ := Option.map_eq_some_iff.mp hx
          rw [(hs.here i h o' ho').2]
          exact (hs.names i).symm
        refine hthen ⟨rfl, (x.nodeName, .exit2 o.ownPid x reason), ?_, rfl, rfl⟩
        dsimp only
        rw [Function.update_self, (Closing.delivers_reached _).requested]
        refine List.mem_append_right _ (List.mem_map.mpr ⟨x, ?_, rfl⟩)
        exact List.mem_filter.mpr ⟨hheard, decide_eq_true hremote⟩
    | _ => exact trivial

/-! ### Runs -/

/-- No exit signal is underway as long as none is sent. -/
theorem throughout_clear (hs : s.Wf) (hknown : s.Known) (hx : s.pidOf i h = some x)
    (hclear : s.Clear signedChar i h h') {es : List TwoNodesEvent}
    (hes : EveryStep (step signedChar) (Heeds signedChar i h h') s es) :
    Throughout (step signedChar) (fun t => t.Wf ∧ t.Known ∧ t.pidOf i h = some x ∧
      t.Clear signedChar i h h') s es := by
  refine throughout_of_everyStep (fun t e u ht he hu => ?_) ⟨hs, hknown, hx, hclear⟩ hes
  obtain ⟨hwf, hknown, hx, hclear⟩ := ht
  refine ⟨hwf.step hu, hknown.step hwf hu, ?_, (heeds_iff hwf hclear e).mp he u hu⟩
  rw [pidOf_of_step hwf hu]
  exact hx

/-- As long as no exit signal is sent, nothing is told. -/
theorem everyStep_noNotice (hs : s.Wf) (hknown : s.Known) (hx : s.pidOf i h = some x)
    (hclear : s.Clear signedChar i h h') {es : List TwoNodesEvent}
    (hes : EveryStep (step signedChar) (Heeds signedChar i h h') s es) :
    EveryStep (step signedChar) (NoNotice signedChar i h h') s es := by
  intro done e hd t ht
  obtain ⟨hwf, hknown, hx, hclear⟩ :=
    throughout_clear hs hknown hx hclear hes done ((List.prefix_append _ _).trans hd) t ht
  exact notices_step hwf hknown hclear e hx

/-- An exit signal that is underway arrives, and then it is told. -/
theorem not_untold (hs : s.Wf) (hx : s.pidOf i h = some x) (hy : s.pidOf (!i) h' = some y)
    (hfiled : (s.node i).mailboxes x.key = some h) {m : Str × ControlMsg}
    (hm : m ∈ (s.node (!i)).requested) (hexit : m.2.IsExit y x) : ¬ s.Untold false i h h' := by
  induction hrequested : (s.node (!i)).requested generalizing s with
  | nil =>
    rw [hrequested] at hm
    cases hm
  | cons c rest ih =>
    intro huntold
    have hhead : (s.node (!i)).requested = (c.1, c.2) :: rest := hrequested
    have hfrom := hs.isFrom_of_requested hhead
    have ht : s.step false (.deliver (!i)) = some ((s.setNode (!i) { s.node (!i) with
        requested := rest }).setNode (!!i) ((s.node (!!i)).onFrame false c.2)) := by
      rw [step, hrequested]
    have hnode (n : ActualNode) : ((s.setNode (!i) { s.node (!i) with
        requested := rest }).setNode (!!i) n).node i = n := by
      rw [Bool.not_not, setNode_node_self]
    obtain ⟨hsame, -⟩ := onFrame_frame false hfrom (s.node (!!i))
    rw [Bool.not_not] at hsame
    obtain ⟨o, ho, rfl⟩ := Option.map_eq_some_iff.mp hx
    have hexp := hs.isExpired ho
    rw [hrequested] at hm
    rcases List.mem_cons.mp hm with rfl | hm
    · -- it is next
      have hnext := huntold [.deliver (!i)] (by simp [OnlyDeliveries]) [] (.deliver (!i))
        (List.prefix_refl _) s rfl _ y hy ht
      rw [notices, hnode, Bool.not_not, onFrame_false hfrom, notices] at hnext
      exact notices_perform_exit (ControlMsg.isExit_received.mpr hexit) hfiled hexp hnext
    · refine ih (hs.step ht) ?_ ?_ ?_ ?_ ?_ ?_
      · rw [pidOf_of_step hs ht]
        exact pidOf_of_object ho
      · rw [pidOf_of_step hs ht]
        exact hy
      · rw [hnode, Bool.not_not]
        exact hsame.mailboxes _ _ hfiled hexp
      · rw [setNode_node_of_ne _ (by simp), setNode_node_self]
        exact hm
      · rw [setNode_node_of_ne _ (by simp), setNode_node_self]
      · intro ds hds
        have hall := huntold (.deliver (!i) :: ds) fun e he => ?_
        · exact (everyStep_cons.mp hall).2 _ ht
        · rcases List.mem_cons.mp he with rfl | he
          · exact ⟨_, rfl⟩
          · exact hds e he

theorem untold_iff (hs : s.Wf) (hknown : s.Known) (hx : s.pidOf i h = some x) :
    s.Untold signedChar i h h' ↔ s.Clear signedChar i h h' := by
  constructor
  · rintro huntold x y hx hy hfiled ⟨rfl, m, hm, hexit⟩
    exact not_untold hs hx hy hfiled hm hexit huntold
  · intro hclear ds hds
    refine everyStep_noNotice hs hknown hx hclear fun done e hd t _ => ?_
    obtain ⟨j, rfl⟩ := hds e (hd.subset (List.mem_append_right _ List.mem_cons_self))
    exact trivial

/-! ### When the UNLINK has arrived -/

theorem Wf.nodeName_of_pidOf (hs : s.Wf) (hx : s.pidOf i h = some x) :
    x.nodeName = (s.node i).nodeName := by
  obtain ⟨o, ho, rfl⟩ := Option.map_eq_some_iff.mp hx
  exact (hs.here i h o ho).2

theorem Wf.nodeName_ne_of_pidOf (hs : s.Wf) (hx : s.pidOf i h = some x)
    (hy : s.pidOf (!i) h' = some y) : x.nodeName ≠ y.nodeName := by
  rw [hs.nodeName_of_pidOf hx, hs.nodeName_of_pidOf hy]
  exact (hs.names i).symm

/-- A call of a mailbox that is about a link between the two is made by one of them. -/
theorem Wf.handles_of_samePair (hs : s.Wf) (hx : s.pidOf i h = some x)
    (hy : s.pidOf (!i) h' = some y) {o o' : MailboxObject} (ho : (s.node k).objects[g]? = some o)
    {l : Bool} (ho' : (s.node l).objects[g']? = some o')
    (hsame : Linker.SamePair (x, y) (o.ownPid, o'.ownPid)) :
    k = i ∧ g = h ∧ l = (!i) ∧ g' = h' ∨ k = (!i) ∧ g = h' ∧ l = i ∧ g' = h := by
  have hown := pidOf_of_object ho
  have hown' := pidOf_of_object ho'
  have hnode {j j' : Bool} {a b : Handle} {z : EPid} (ha : s.pidOf j a = some z)
      (hb : s.pidOf j' b = some z) : j = j' ∧ a = b := by
    obtain rfl : j = j' := hs.eq_of_nodeName
      ((hs.nodeName_of_pidOf ha).symm.trans (hs.nodeName_of_pidOf hb))
    exact ⟨rfl, hs.eq_of_pidOf ha hb⟩
  rcases hsame with hsame | hsame
  · obtain ⟨rfl, rfl⟩ := Prod.mk.inj hsame
    obtain ⟨rfl, rfl⟩ := hnode hown hx
    obtain ⟨rfl, rfl⟩ := hnode hown' hy
    exact .inl ⟨rfl, rfl, rfl, rfl⟩
  · obtain ⟨rfl, rfl⟩ := Prod.mk.inj hsame
    obtain ⟨rfl, rfl⟩ := hnode hown' hx
    obtain ⟨rfl, rfl⟩ := hnode hown hy
    exact .inr ⟨rfl, rfl, rfl, rfl⟩

/-- **The other node is going to have no link** until one is made again. -/
theorem settled_step (hs : s.Wf) (hx : s.pidOf i h = some x) (hy : s.pidOf (!i) h' = some y)
    (hsettled : (s.pair false x y).settled (!i) = false) {e : TwoNodesEvent}
    (he : ¬ Relinks i h h' e) (ht : s.step false e = some t) (hopen : t.Opened (!i) y) :
    (t.pair false x y).settled (!i) = false := by
  have hxy := hs.nodeName_ne_of_pidOf hx hy
  cases e with
  | link k g l g' =>
    obtain ⟨o, o', ho, ho', rfl⟩ := step_link ht
    have hobject := (opened_eq_some.mp ho).2
    rw [pair_link (hs.here k g o hobject).2 hxy, if_neg]
    · exact hsettled
    · exact fun hsame => he (hs.handles_of_samePair hx hy hobject ho' hsame)
  | unlink k g l g' =>
    obtain ⟨o, o', ho, ho', rfl⟩ := step_unlink ht
    rw [pair_unlink (hs.here k g o (opened_eq_some.mp ho).2).2 hxy]
    split
    · by_cases hk : k = i
      · subst hk
        exact Replicas.settled_write_not _
      · obtain rfl : k = !i := Bool.eq_not_of_ne hk
        rw [Replicas.settled_write_self]
        cases hlast : ((s.pair false x y).inFlight (!!i)).getLast? with
        | none => rfl
        | some v =>
          rw [Replicas.settled, hlast] at hsettled
          exact hsettled
    · exact hsettled
  | close k g reason =>
    obtain ⟨o, ho, rfl⟩ := step_close ht
    have hyo := ((opened_iff_of_close hs ho ht).mp hopen).2
    rw [pair_comm, settled_close hs ho reason (hs.nodeName_of_pidOf hy) hyo]
    · split
      · rfl
      · rw [pair_comm]
        exact hsettled
    · rw [hs.nodeName_of_pidOf hx]
      exact (hs.names i).symm
  | deliver k =>
    rw [opened_iff_of_step (e := .deliver k) hs (by rintro _ _ _ ⟨⟩) ht] at hopen
    rw [pair_comm, settled_deliver hs ht hopen, pair_comm]
    exact hsettled

theorem settled_unlink (hs : s.Wf) (hx : s.pidOf i h = some x) (hy : s.pidOf (!i) h' = some y)
    (ht : s.step false (.unlink i h (!i) h') = some t) :
    (t.pair false x y).settled (!i) = false := by
  obtain ⟨o, o', ho, ho', rfl⟩ := step_unlink ht
  obtain ⟨-, hobject⟩ := opened_eq_some.mp ho
  obtain rfl := Option.some_inj.mp ((pidOf_of_object hobject).symm.trans hx)
  obtain rfl := Option.some_inj.mp ((pidOf_of_object ho').symm.trans hy)
  rw [pair_unlink (hs.here i h o hobject).2 (hs.nodeName_ne_of_pidOf hx hy), if_pos (.inl rfl)]
  exact Replicas.settled_write_not _

/-- **Once the UNLINK has arrived**, the mailbox may be closed. -/
theorem heeds_of_arrived (hy : s.pidOf (!i) h' = some y)
    (hsettled : ∀ x, s.pidOf i h = some x → s.Opened (!i) y →
      (s.pair false x y).settled (!i) = false)
    (harrived : s.Arrived signedChar i h h') (e : TwoNodesEvent) :
    s.Heeds signedChar i h h' e := by
  cases e with
  | close k g reason =>
    rintro rfl rfl x o hx ho - hheard
    cases signedChar with
    | true => cases hheard
    | false =>
      obtain rfl := Option.some_inj.mp ((pidOf_of_object (opened_eq_some.mp ho).2).symm.trans hy)
      have hlinked : (s.node (!i)).mailboxLinker.Linked x o.ownPid :=
        (Linker.mem_linkedPids.mp (List.takeWhile_subset _ hheard)).symm
      have hgone := hsettled x hx (opened_of_eq_some ho)
      rw [Replicas.value_of_quiet] at hgone
      · exact of_decide_eq_false hgone hlinked
      · rw [Bool.not_not]
        exact harrived x _ hx hy
  | _ => exact trivial

theorem opened_of_step (hs : s.Wf) {e : TwoNodesEvent} (ht : s.step signedChar e = some t)
    (hopen : t.Opened j p) : s.Opened j p := by
  by_cases hclose : ∃ k g reason, e = .close k g reason
  · obtain ⟨k, g, reason, rfl⟩ := hclose
    obtain ⟨o, ho, -⟩ := step_close ht
    exact ((opened_iff_of_close hs ho ht).mp hopen).1
  · refine (opened_iff_of_step hs (fun k g reason he => hclose ⟨k, g, reason, he⟩) ht).mp hopen

theorem everyStep_arrived (hs : s.Wf) (hx : s.pidOf i h = some x) (hy : s.pidOf (!i) h' = some y)
    (ht : s.step signedChar (.unlink i h (!i) h') = some t) {es : List TwoNodesEvent}
    (hes : ∀ e ∈ es, ¬ Relinks i h h' e) :
    EveryStep (step signedChar)
      (fun u e => u.Arrived signedChar i h h' → u.Heeds signedChar i h h' e) t es := by
  have hall : Throughout (step signedChar) (fun u => u.Wf ∧ u.pidOf = s.pidOf ∧
      (signedChar = false → u.Opened (!i) y → (u.pair false x y).settled (!i) = false)) t es := by
    refine throughout_of_everyStep (G := fun _ e => ¬ Relinks i h h' e) (fun u e v hu he hv => ?_)
      ⟨hs.step ht, pidOf_of_step hs ht, ?_⟩
      fun done e hd _ _ => hes e (hd.subset (List.mem_append_right _ List.mem_cons_self))
    · obtain ⟨hwf, hpids, hsettled⟩ := hu
      refine ⟨hwf.step hv, (pidOf_of_step hwf hv).trans hpids, ?_⟩
      rintro rfl hopen
      rw [← hpids] at hx hy
      exact settled_step hwf hx hy (hsettled rfl (opened_of_step hwf hv hopen)) he hv hopen
    · rintro rfl -
      exact settled_unlink hs hx hy ht
  intro done e hd u hu harrived
  obtain ⟨-, hpids, hsettled⟩ := hall done ((List.prefix_append _ _).trans hd) u hu
  cases signedChar with
  | true =>
    cases e with
    | close k g reason =>
      rintro rfl rfl x o - - - hheard
      cases hheard
    | _ => exact trivial
  | false =>
    rw [← hpids] at hx hy
    refine heeds_of_arrived hy (fun x' hx' hopen => ?_) harrived e
    obtain rfl := Option.some_inj.mp (hx.symm.trans hx')
    exact hsettled rfl hopen

/-! ### When an unlink is final -/

/-- The invariants, and that mailboxes keep their pids. -/
theorem known_of_run (hs : s.Wf) (hknown : s.Known) {es : List TwoNodesEvent}
    (ht : run (step signedChar) s es = some t) : t.Wf ∧ t.Known ∧ t.pidOf = s.pidOf := by
  refine run_induction (P := fun t => t.Wf ∧ t.Known ∧ t.pidOf = s.pidOf) (fun t e u ht hu => ?_)
    ⟨hs, hknown, rfl⟩ ht
  obtain ⟨hwf, hknown, hpids⟩ := ht
  exact ⟨hwf.step hu, hknown.step hwf hu, (pidOf_of_step hwf hu).trans hpids⟩

/-- **Nothing is underway at any time** if nothing is underway at first, and nothing is sent. -/
theorem throughout_untold_iff (hs : s.Wf) (hknown : s.Known) (hx : s.pidOf i h = some x)
    (es : List TwoNodesEvent) : s.Clear signedChar i h h' ∧
      EveryStep (step signedChar) (Heeds signedChar i h h') s es ↔
        Throughout (step signedChar) (Untold signedChar i h h') s es := by
  have huntold : Throughout (step signedChar) (Untold signedChar i h h') s es ↔
      Throughout (step signedChar) (fun t => t.Wf ∧ t.Clear signedChar i h h') s es := by
    refine forall_congr' fun done => forall_congr' fun _ => forall_congr' fun t =>
      forall_congr' fun ht => ?_
    obtain ⟨hwf, hknown', hpids⟩ := known_of_run hs hknown ht
    rw [untold_iff hwf hknown' (by rw [hpids]; exact hx)]
    exact (and_iff_right hwf).symm
  have hstep (hclear : s.Clear signedChar i h h') :
      Throughout (step signedChar) (fun t => t.Wf ∧ t.Clear signedChar i h h') s es ↔
        EveryStep (step signedChar) (Heeds signedChar i h h') s es := by
    refine throughout_iff_everyStep (fun t e ht => ?_) ⟨hs, hclear⟩
    rw [heeds_iff ht.1 ht.2 e]
    exact forall_congr' fun u => forall_congr' fun hu => (and_iff_right (ht.1.step hu)).symm
  rw [huntold]
  constructor
  · rintro ⟨hclear, hheeds⟩
    exact (hstep hclear).mpr hheeds
  · intro hall
    exact ⟨hall.start.2, (hstep hall.start.2).mp hall⟩

/-- A call of `unlink` sends no exit signal, and stops none. -/
theorem clear_unlink (hs : s.Wf) (ht : s.step signedChar (.unlink i h (!i) h') = some t) :
    t.Clear signedChar i h h' ↔ s.Clear signedChar i h h' := by
  refine ⟨fun hclear => ?_,
    fun hclear => (heeds_iff hs hclear (.unlink i h (!i) h')).mp trivial t ht⟩
  have hpids := pidOf_of_step hs ht
  obtain ⟨o, o', -, -, rfl⟩ := step_unlink ht
  rintro x y hx hy hfiled ⟨rfl, m, hm, hexit⟩
  refine hclear x y (by rw [hpids]; exact hx) (by rw [hpids]; exact hy) ?_ ⟨rfl, m, ?_, hexit⟩
  · rw [setNode_node_self, unlink_allReachable]
    exact hfiled
  · rw [setNode_node_not]
    exact hm

/-- **The runs of whole calls after which nothing is told** at any time, if everything were to arrive
that is in flight. Once the UNLINK has arrived, no exit signal can be sent. -/
theorem afterUnlinks_heeds_iff (signedChar : Bool) (hs : s.Wf) (hknown : s.Known)
    (es : List TwoNodesEvent) : s.AfterUnlinks signedChar es fun i h h' t u mid =>
      (t.Clear signedChar i h h' ∧ EveryStep (step signedChar) (Heeds signedChar i h h') u mid ↔
        Throughout (step signedChar) (Untold signedChar i h h') u mid) ∧
      EveryStep (step signedChar)
        (fun v e => v.Arrived signedChar i h h' → v.Heeds signedChar i h h' e) u mid := by
  intro pre i h h' mid t u hprefix hmid ht hu
  obtain ⟨hwf, hknown, -⟩ := known_of_run hs hknown ht
  have hpids := pidOf_of_step hwf hu
  obtain ⟨o, o', ho, ho', -⟩ := step_unlink hu
  have hx := pidOf_of_object (opened_eq_some.mp ho).2
  refine ⟨?_, everyStep_arrived hwf hx (pidOf_of_object ho') hu hmid⟩
  rw [← clear_unlink hwf hu]
  exact throughout_untold_iff (hwf.step hu) (hknown.step hwf hu) (by rw [hpids]; exact hx) mid

end TwoNodes

namespace CallingNodes

variable {signedChar : Bool} {nodes : TwoNodes} {s t u : CallingNodes} {i j : Bool} {x y : EPid}
  {h h' : Handle}

/-! ### Calls of `unlink` that return -/

/-- The event tells mailbox `h` of node `i` nothing about mailbox `h'` of the other node. -/
def NoNotice (signedChar : Bool) (i : Bool) (h h' : Handle) (s : CallingNodes) (e : CallingEvent) :
    Prop :=
  ∀ t y, s.nodes.pidOf (!i) h' = some y → s.step signedChar e = some t →
    t.nodes.notices i h y = s.nodes.notices i h y

/-- The two mailboxes are linked, from either side. -/
def Relinks (i : Bool) (h h' : Handle) (e : CallingEvent) : Prop :=
  ∃ e', e = .event e' ∧ TwoNodes.Relinks i h h' e'

/-- The two mailboxes of a call of `link` or `unlink` that is half done are not linked at the other
node. -/
def LinksApart (s : CallingNodes) : CallingEvent → Prop
  | .event (.link j h k h') => ∀ o o', s.nodes.opened j h = some o →
    (s.nodes.node k).objects[h']? = some o' →
      ∀ c ∈ s.begun (!j), ∀ xy, c.ends = some xy → ¬ Linker.SamePair xy (o.ownPid, o'.ownPid)
  | _ => True

/-- A call is not interrupted, and its link is not made meanwhile. -/
def Calm (s : CallingNodes) (e : CallingEvent) : Prop := s.Undisturbed e ∧ s.LinksApart e

/-- Whenever a mailbox is unlinked in the run, `Q` is true of the state before the first step of the
call, the state after it and what comes then, up to where the two are linked again. -/
def AfterUnlinks (signedChar : Bool) (s : CallingNodes) (es : List CallingEvent)
    (Q : Bool → Handle → Handle → CallingNodes → CallingNodes → List CallingEvent → Prop) : Prop :=
  ∀ pre i h h' mid t u, pre ++ [.event (.unlink i h (!i) h')] ++ mid <+: es →
    (∀ e ∈ mid, ¬ Relinks i h h' e) → run (step signedChar) s pre = some t →
      t.step signedChar (.event (.unlink i h (!i) h')) = some u → Q i h h' t u mid

/-- **An unlink is final**: once the call has returned, and until the two are linked again, the
mailbox is told nothing about the other one. -/
def UnlinkIsFinal (signedChar : Bool) (s : CallingNodes) (es : List CallingEvent) : Prop :=
  ∀ pre i n mid t u x y h h', pre ++ [.advance i n] ++ mid <+: es →
    run (step signedChar) s pre = some t → (t.begun i)[n]? = some (.send x y) →
      t.nodes.pidOf i h = some x → t.nodes.pidOf (!i) h' = some y →
        t.step signedChar (.advance i n) = some u → (∀ e ∈ mid, ¬ Relinks i h h' e) →
          EveryStep (step signedChar) (NoNotice signedChar i h h') u mid

/-! ### What a call leaves alone -/

theorem pidOf_setNode {n : ActualNode}
    (hobjects : ∀ h : Handle, n.objects[h]?.map (fun o => (o.ownPid, o.expired)) =
      (s.nodes.node i).objects[h]?.map fun o => (o.ownPid, o.expired)) :
    (s.nodes.setNode i n).pidOf = s.nodes.pidOf :=
  TwoNodes.pidOf_update s.nodes.closed hobjects

theorem pidOf_of_step (hs : s.Wf) {e : CallingEvent} (ht : s.step signedChar e = some t) :
    t.nodes.pidOf = s.nodes.pidOf := by
  cases e with
  | event e =>
    cases e with
    | link i h k h' =>
      obtain ⟨o, o', -, -, rfl⟩ := step_link ht
      exact pidOf_setNode fun g => by rw [objects_beginLink]
    | unlink i h k h' =>
      obtain ⟨o, o', -, -, rfl⟩ := step_unlink ht
      exact pidOf_setNode fun g => by rw [beginUnlink_fst]; rfl
    | close i h reason =>
      obtain ⟨o, -, rfl⟩ := step_close ht
      exact TwoNodes.pidOf_update (s := s.nodes) _ fun _ => rfl
    | deliver i =>
      obtain ⟨nodes, hnodes, rfl⟩ := step_deliver ht
      exact TwoNodes.pidOf_of_step hs.nodes hnodes
  | advance i n =>
    obtain ⟨c, -, rfl⟩ := step_advance ht
    exact pidOf_setNode (objects_advance _ c)

theorem wf_pidOf_of_run (hs : s.Wf) {es : List CallingEvent}
    (ht : run (step signedChar) s es = some t) : t.Wf ∧ t.nodes.pidOf = s.nodes.pidOf := by
  refine run_induction (P := fun t => t.Wf ∧ t.nodes.pidOf = s.nodes.pidOf) (fun t e u ht hu => ?_)
    ⟨hs, rfl⟩ ht
  exact ⟨ht.1.step hu, (pidOf_of_step ht.1 hu).trans ht.2⟩

/-! ### What a call tells the mailboxes of its node -/

/-- Nobody hears of `y` from a call that is not about its end. -/
theorem notices_advance {n : ActualNode} {c : HalfCall} (hc : c.dying ≠ some y) :
    ((n.advance c).1.brokenLinksOf h).filter (·.2 = y) = (n.brokenLinksOf h).filter (·.2 = y) := by
  cases c with
  | store p q => rfl
  | send p q => rfl
  | notify id name reason pids =>
    cases pids with
    | nil => rfl
    | cons pid pids =>
      rw [(advance_notify _ _ _ _ _ _).1, requestExit2]
      split
      · rfl
      · exact TwoNodes.notices_incomingExit reason fun hid => absurd (congrArg some hid) hc

/-- A call at a node is not about the end of a mailbox of the other one. -/
theorem Wf.dying_ne (hs : s.Wf) {c : HalfCall} (hc : s.nodes.Begun i c)
    (hy : s.nodes.pidOf (!i) h' = some y) : c.dying ≠ some y := by
  cases c with
  | store p q => rintro ⟨⟩
  | send p q => rintro ⟨⟩
  | notify id name reason pids =>
    intro hid
    obtain rfl := Option.some_inj.mp hid
    exact hs.nodes.names i
      ((hs.nodes.nodeName_of_pidOf hy).symm.trans (hs.nodes.nodeName_of_closed hc.1))

theorem notices_completed (hs : s.Wf) (hy : s.nodes.pidOf (!i) h' = some y) :
    s.completed.notices i h y = s.nodes.notices i h y := by
  refine foldl_finish_induction (Q := fun c => c.dying ≠ some y)
    (P := fun n => (n.brokenLinksOf h).filter (·.2 = y) = s.nodes.notices i h y)
    (fun n c hn hc => ⟨(notices_advance hc).trans hn, fun d hd => ?_⟩) rfl
    fun c hc => hs.dying_ne (hs.begun i c hc) hy
  rw [dying_of_mem_advance hd]
  exact hc

/-! ### Where a call has begun -/

/-- What an event does to the calls that are half done at a node, if one of them is a call of `unlink`
afterwards: the event has begun it, or it comes from elsewhere. -/
theorem begun_of_step (hone : s.OneCall) {e : CallingEvent} (he : s.Calm e)
    (ht : s.step signedChar e = some t) (hbegun : t.begun i = [.send x y]) :
    (∃ h k h', e = .event (.unlink i h k h') ∧ s.nodes.pidOf i h = some x ∧
        s.nodes.pidOf k h' = some y ∧ y.nodeName ≠ (s.nodes.node i).nodeName) ∨
      s.begun i = [.send x y] ∧ ∀ h h', s.nodes.pidOf i h = some x → s.nodes.pidOf (!i) h' = some y →
        ¬ Relinks i h h' e := by
  have hother {e' : TwoNodesEvent} (hne : ∀ j g l g', e' ≠ .link j g l g') (h h' : Handle) :
      ¬ Relinks i h h' (.event e') := by
    rintro ⟨e'', hevent, hrelinks⟩
    cases hevent
    cases e' with
    | link j g l g' => exact hne j g l g' rfl
    | _ => cases hrelinks
  cases e with
  | event e =>
    cases e with
    | link j g l g' =>
      obtain ⟨o, o', ho, ho', rfl⟩ := step_link ht
      by_cases hj : i = j
      · subst hj
        -- a call of `link` leaves something else to do
        have hnone : s.begun i = [] := he.1
        rw [begun_afterBegin_self, hnone, List.nil_append, beginLink] at hbegun
        split at hbegun <;> cases hbegun
      · rw [begun_afterBegin_of_ne _ hj] at hbegun
        obtain rfl : j = !i := Bool.eq_not_of_ne (Ne.symm hj)
        refine .inr ⟨hbegun, fun h h' hx hy => ?_⟩
        rintro ⟨e', hevent, hrelinks⟩
        cases hevent
        rcases hrelinks with ⟨hself, -⟩ | ⟨-, rfl, rfl, rfl⟩
        · exact Bool.not_ne_self i hself
        · have hapart := he.2 o o' ho ho' (.send x y) (by
            rw [Bool.not_not, hbegun]
            exact List.mem_cons_self) _ rfl
          obtain rfl := Option.some_inj.mp
            ((TwoNodes.pidOf_of_object (TwoNodes.opened_eq_some.mp ho).2).symm.trans hy)
          obtain rfl := Option.some_inj.mp ((TwoNodes.pidOf_of_object ho').symm.trans hx)
          exact hapart (.inr rfl)
    | unlink j g l g' =>
      obtain ⟨o, o', ho, ho', rfl⟩ := step_unlink ht
      by_cases hj : i = j
      · subst hj
        have hnone : s.begun i = [] := he.1
        rw [begun_afterBegin_self, hnone, List.nil_append, beginUnlink] at hbegun
        split at hbegun
        · next hremote =>
          obtain ⟨rfl, rfl⟩ := HalfCall.send.inj (List.singleton_inj.mp hbegun)
          exact .inl ⟨g, l, g', rfl, TwoNodes.pidOf_of_object (TwoNodes.opened_eq_some.mp ho).2,
            TwoNodes.pidOf_of_object ho', hremote⟩
        · cases hbegun
      · rw [begun_afterBegin_of_ne _ hj] at hbegun
        exact .inr ⟨hbegun, fun h h' _ _ => hother (by rintro _ _ _ _ ⟨⟩) h h'⟩
    | close j g reason =>
      obtain ⟨o, -, rfl⟩ := step_close ht
      by_cases hj : i = j
      · subst hj
        -- and neither is this what a close leaves to do
        have hnone : s.begun i = [] := he.1
        rw [begun_afterBegin_self] at hbegun
        dsimp only at hbegun
        rw [hnone] at hbegun
        cases hbegun
      · rw [begun_afterBegin_of_ne _ hj] at hbegun
        exact .inr ⟨hbegun, fun h h' _ _ => hother (by rintro _ _ _ _ ⟨⟩) h h'⟩
    | deliver j =>
      obtain ⟨nodes, -, rfl⟩ := step_deliver ht
      exact .inr ⟨hbegun, fun h h' _ _ => hother (by rintro _ _ _ _ ⟨⟩) h h'⟩
  | advance j n =>
    obtain ⟨c, hc, rfl⟩ := step_advance ht
    dsimp only at hbegun
    by_cases hj : i = j
    · subst hj
      -- there is no other one, and this is not what is left of it
      obtain ⟨rfl, hone⟩ := begun_eq_of_oneCall hone hc
      rw [Function.update_self, hone, List.eraseIdx_cons_zero, List.nil_append] at hbegun
      have hleft : HalfCall.send x y ∈ ((s.nodes.node i).advance c).2 := by
        rw [hbegun]
        exact List.mem_cons_self
      obtain ⟨id, name, reason, pid, pids, -, hsend⟩ := exists_of_mem_advance hleft
      cases hsend
    · rw [Function.update_of_ne hj] at hbegun
      refine .inr ⟨hbegun, fun h h' _ _ => ?_⟩
      rintro ⟨e', hevent, -⟩
      cases hevent

/-- **A call of `unlink` that is half done has begun**, and nothing has linked the two since. -/
theorem exists_unlink (hs : s.Wf) (hone : s.OneCall) (hnone : s.begun i = [])
    {pre : List CallingEvent} (hpre : EveryStep (step signedChar) Calm s pre)
    (ht : run (step signedChar) s pre = some t) (hbegun : t.begun i = [.send x y])
    (hx : t.nodes.pidOf i h = some x) (hy : t.nodes.pidOf (!i) h' = some y) :
    ∃ before between v, pre = before ++ [.event (.unlink i h (!i) h')] ++ between ∧
      run (step signedChar) s before = some v ∧ ∀ e ∈ between, ¬ Relinks i h h' e := by
  induction pre using List.reverseRecOn generalizing t with
  | nil =>
    obtain rfl := Option.some_inj.mp ht
    rw [hnone] at hbegun
    cases hbegun
  | append_singleton pre e ih =>
    obtain ⟨v, hv, ht⟩ := run_concat_eq_some.mp ht
    obtain ⟨hpre', hlast⟩ := everyStep_append.mp hpre
    have he := (everyStep_cons.mp (hlast v hv)).1
    obtain ⟨hvwf, -⟩ := wf_pidOf_of_run hs hv
    obtain ⟨hvone, -⟩ := completed_run hone (fun d e hd u hu => (hpre' d e hd u hu).1) hv
    rw [pidOf_of_step hvwf ht] at hx hy
    rcases begun_of_step hvone he ht hbegun with
      ⟨g, k, g', rfl, hgx, hgy, hremote⟩ | ⟨hbegun, hapart⟩
    · obtain rfl := hvwf.nodes.eq_of_pidOf hx hgx
      obtain rfl : k = !i := by
        refine Bool.eq_not_of_ne fun hk => ?_
        subst hk
        exact hremote (hvwf.nodes.nodeName_of_pidOf hgy)
      obtain rfl := hvwf.nodes.eq_of_pidOf hy hgy
      exact ⟨pre, [], v, by rw [List.append_nil], hv, by rintro _ ⟨⟩⟩
    · obtain ⟨before, between, w, rfl, hw, hbetween⟩ := ih hpre' hv hbegun hx hy
      refine ⟨before, between ++ [e], w, by rw [← List.append_assoc], hw, fun d hd => ?_⟩
      rcases List.mem_append.mp hd with hd | hd
      · exact hbetween d hd
      · rw [List.mem_singleton.mp hd]
        exact hapart h h' hx hy

/-! ### When an unlink is final -/

/-- What a mailbox is told in a step is what it is told in the step of the completed nodes. -/
theorem noNotice_of_completed (hs : s.Wf) (hone : s.OneCall) {e : CallingEvent} (he : s.Undisturbed e)
    (hnotice : ∀ e', e = .event e' → s.completed.NoNotice signedChar i h h' e') :
    s.NoNotice signedChar i h h' e := by
  intro t y hy ht
  obtain ⟨-, hstep⟩ := completed_step hone he ht
  cases e with
  | event e =>
    have hstep' : run (TwoNodes.step signedChar) s.completed [e] = some t.completed := hstep
    obtain ⟨u, hu, hut⟩ := Option.bind_eq_some_iff.mp hstep'
    obtain rfl := Option.some_inj.mp hut
    have hnone := hnotice e rfl _ y (by rw [pidOf_completed]; exact hy) hu
    rwa [notices_completed hs hy, notices_completed (hs.step ht)
      (by rw [pidOf_of_step hs ht]; exact hy)] at hnone
  | advance j n =>
    obtain ⟨c, hc, rfl⟩ := step_advance ht
    by_cases hj : i = j
    · subst hj
      rw [TwoNodes.notices, TwoNodes.setNode_node_self, TwoNodes.notices]
      exact notices_advance (hs.dying_ne (hs.begun i c (List.mem_of_getElem? hc)) hy)
    · exact TwoNodes.notices_setNode_of_ne _ hj

/-- **In which runs an unlink is final.** In those in which no call is interrupted, no exit signal
from the other mailbox is underway when a mailbox is unlinked, and none is sent before the two are
linked again. As for whole calls, these are also exactly the runs in which nothing would be told at
any time, if everything were to arrive that is in flight. Once the UNLINK has arrived, no exit signal
can be sent. -/
theorem unlinkIsFinal_of_heeds (signedChar : Bool) (hs : nodes.Fresh) (hfit : nodes.PidsFit) :
    (∀ es, EveryStep (step signedChar) Calm (ofNodes nodes) es →
      (ofNodes nodes).AfterUnlinks signedChar es (fun i h h' t u mid =>
        t.completed.Clear signedChar i h h' ∧ EveryStep (step signedChar)
          (Meets (TwoNodes.Heeds signedChar i h h')) u mid) →
        UnlinkIsFinal signedChar (ofNodes nodes) es) ∧
    ∀ es, nodes.AfterUnlinks signedChar es fun i h h' t u mid =>
      (t.Clear signedChar i h h' ∧
          EveryStep (TwoNodes.step signedChar) (TwoNodes.Heeds signedChar i h h') u mid ↔
        Throughout (TwoNodes.step signedChar) (TwoNodes.Untold signedChar i h h') u mid) ∧
      EveryStep (TwoNodes.step signedChar)
        (fun v e => v.Arrived signedChar i h h' → v.Heeds signedChar i h h' e) u mid := by
  have hwf := wf_ofNodes (hs.wf hfit)
  refine ⟨fun es hcalm hcond => ?_, TwoNodes.afterUnlinks_heeds_iff signedChar (hs.wf hfit) hs.known⟩
  intro pre i n mid t u x y h h' hprefix ht hc hx hy hu hmid
  have hpre : EveryStep (step signedChar) Calm (ofNodes nodes) (pre ++ [.advance i n] ++ mid) :=
    fun d e hd => hcalm d e (hd.trans hprefix)
  -- at most one call is half done at the node, and it is this one
  have hundisturbed : EveryStep (step signedChar) Undisturbed (ofNodes nodes)
      (pre ++ [.advance i n] ++ mid) := fun d e hd v hv => (hpre d e hd v hv).1
  have hpre' := (everyStep_append.mp (everyStep_append.mp hundisturbed).1).1
  obtain ⟨htone, -⟩ := completed_run (oneCall_ofNodes nodes) hpre' ht
  have hbegun : t.begun i = [.send x y] := (begun_eq_of_oneCall htone hc).2
  obtain ⟨before, between, v, rfl, hv, hbetween⟩ := exists_unlink hwf (oneCall_ofNodes nodes) rfl
    (everyStep_append.mp (everyStep_append.mp hpre).1).1 ht hbegun hx hy
  -- from the first step of the call on
  rw [List.append_assoc, run_append, hv, Option.bind_some, List.singleton_append, run_cons] at ht
  obtain ⟨w, hw, ht⟩ := Option.bind_eq_some_iff.mp ht
  set after := between ++ [CallingEvent.advance i n] ++ mid
  have hsplit : before ++ [.event (.unlink i h (!i) h')] ++ between ++ [.advance i n] ++ mid =
      before ++ [.event (.unlink i h (!i) h')] ++ after := by
    simp only [after, List.append_assoc]
  rw [hsplit] at hprefix hundisturbed
  have hafter : ∀ e ∈ after, ¬ Relinks i h h' e := by
    intro e he
    rcases List.mem_append.mp he with he | he
    · rcases List.mem_append.mp he with he | he
      · exact hbetween e he
      · rw [List.mem_singleton.mp he]
        rintro ⟨e', hevent, -⟩
        cases hevent
    · exact hmid e he
  obtain ⟨hclear, hheeds⟩ := hcond before i h h' after v w hprefix hafter hv hw
  obtain ⟨hvwf, -⟩ := wf_pidOf_of_run hwf hv
  have hvundisturbed := (everyStep_append.mp (everyStep_append.mp hundisturbed).1)
  obtain ⟨hvone, hvrun⟩ := completed_run (oneCall_ofNodes nodes) hvundisturbed.1 hv
  obtain ⟨hwone, hwstep⟩ := completed_step hvone (everyStep_cons.mp (hvundisturbed.2 v hv)).1 hw
  have hwstep' : v.completed.step signedChar (.unlink i h (!i) h') = some w.completed := by
    obtain ⟨w', hw', heq⟩ := Option.bind_eq_some_iff.mp hwstep
    rw [hw', Option.some_inj.mp heq]
  rw [completed_ofNodes] at hvrun
  obtain ⟨hvcwf, hvcknown, -⟩ := TwoNodes.known_of_run (hs.wf hfit) hs.known hvrun
  have hwclear := (TwoNodes.clear_unlink hvcwf hwstep').mpr hclear
  have hwx : w.completed.pidOf i h = some x := by
    obtain ⟨-, htpids⟩ := wf_pidOf_of_run (hvwf.step hw) ht
    rw [pidOf_completed, ← htpids]
    exact hx
  -- what comes after the call has returned
  intro done e hd u' hu'
  have hrun : run (step signedChar) w (between ++ [.advance i n] ++ done) = some u' := by
    rw [run_append, run_append, ht, Option.bind_some, run_cons, hu]
    exact hu'
  obtain ⟨huwf, -⟩ := wf_pidOf_of_run (hvwf.step hw) hrun
  have hsub : between ++ [.advance i n] ++ done ++ [e] <+: after := by
    rw [List.append_assoc]
    exact List.prefix_append_right_inj _ |>.mpr hd
  have hmeets : EveryStep (step signedChar) (Meets (TwoNodes.Heeds signedChar i h h')) w
      (between ++ [.advance i n] ++ done) :=
    fun d e' hd' => hheeds d e' (hd'.trans ((List.prefix_append _ _).trans hsub))
  have hwhole := everyStep_whole hwone hmeets hrun
  obtain ⟨huone, hurun⟩ := completed_run hwone
    (fun d e' hd' z hz => (hmeets d e' hd' z hz).1) hrun
  obtain ⟨hucwf, hucknown, hucx, hucclear⟩ := TwoNodes.throughout_clear (hvcwf.step hwstep')
    (hvcknown.step hvcwf hwstep') hwx hwclear hwhole _ (List.prefix_refl _) _ hurun
  refine noNotice_of_completed huwf huone (hheeds _ e hsub u' hrun).1 fun e' _ => ?_
  exact TwoNodes.notices_step hucwf hucknown hucclear e' hucx

/-- A link that is made and taken away, and has arrived both times when the other end is closed. -/
theorem unlinkIsFinal_of_heeds_arrived :
    UnlinkIsFinal false (ofNodes (TwoNodes.oneEach TwoNodes.nodeNames))
      [.event (.link false 0 true 0), .advance false 0, .event (.unlink false 0 true 0),
        .advance false 0, .event (.deliver false), .event (.deliver false),
        .event (.close true 0 (bytesOf "normal")), .advance true 0] := by
  refine (unlinkIsFinal_of_heeds false TwoNodes.fresh_oneEach TwoNodes.pidsFit_oneEach).1 _ ?_ ?_
  · refine everyStep_cons.mpr ⟨⟨rfl, ?_⟩, fun a ha => everyStep_cons.mpr ⟨⟨trivial, trivial⟩,
      fun b hb => everyStep_cons.mpr ⟨⟨?_, trivial⟩, fun c hc => everyStep_cons.mpr
        ⟨⟨trivial, trivial⟩, fun d hd => everyStep_cons.mpr ⟨⟨?_, trivial⟩, fun e he =>
          everyStep_cons.mpr ⟨⟨?_, trivial⟩, fun f hf => everyStep_cons.mpr
            ⟨⟨?_, trivial⟩, fun _ _ => everyStep_cons.mpr
              ⟨⟨trivial, trivial⟩, fun _ _ => everyStep_nil⟩⟩⟩⟩⟩⟩⟩⟩
    · rintro o o' - - c ⟨⟩
    all_goals obtain rfl := Option.some_inj.mp ha
    all_goals obtain rfl := Option.some_inj.mp hb
    · rfl
    all_goals obtain rfl := Option.some_inj.mp hc
    all_goals obtain rfl := Option.some_inj.mp hd
    · rfl
    all_goals obtain rfl := Option.some_inj.mp he
    · rfl
    · obtain rfl := Option.some_inj.mp hf
      rfl
  · intro pre i h h' mid t u hprefix hmid ht hu
    rcases pre with _ | ⟨e₁, _ | ⟨e₂, _ | ⟨e₃, pre⟩⟩⟩
    · simp at hprefix
    · simp at hprefix
    · simp only [List.cons_append, List.nil_append, List.cons_prefix_cons, CallingEvent.event.injEq,
        TwoNodesEvent.unlink.injEq] at hprefix
      obtain ⟨rfl, rfl, ⟨rfl, rfl, -, rfl⟩, hrest⟩ := hprefix
      obtain rfl := Option.some_inj.mp ht
      obtain rfl := Option.some_inj.mp hu
      constructor
      · rintro x y - - - ⟨-, m, hm, -⟩
        cases hm
      · intro done e hd
        refine everyStep_cons.mpr ⟨⟨trivial, ?_⟩, fun v hv => everyStep_cons.mpr ⟨⟨?_, ?_⟩,
          fun w hw => everyStep_cons.mpr ⟨⟨?_, ?_⟩, fun z hz => everyStep_cons.mpr
            ⟨⟨?_, ?_⟩, fun _ _ => everyStep_cons.mpr ⟨⟨trivial, ?_⟩,
              fun _ _ => everyStep_nil⟩⟩⟩⟩⟩ done e (hd.trans hrest)
        · rintro _ ⟨⟩
        all_goals obtain rfl := Option.some_inj.mp hv
        · rfl
        · rintro _ ⟨⟩
          trivial
        all_goals obtain rfl := Option.some_inj.mp hw
        · rfl
        · rintro _ ⟨⟩
          trivial
        all_goals obtain rfl := Option.some_inj.mp hz
        · rfl
        · rintro _ ⟨⟩ - - x o hx ho -
          obtain rfl := Option.some_inj.mp hx
          obtain rfl := Option.some_inj.mp ho
          decide
        · rintro _ ⟨⟩
    · rcases pre with _ | ⟨e₄, _ | ⟨e₅, _ | ⟨e₆, _ | ⟨e₇, _ | ⟨e₈, pre⟩⟩⟩⟩⟩ <;> simp at hprefix

/-- A mailbox is closed before its node has heard that there is no link to it any more. -/
def underway : List CallingEvent :=
  [.event (.link false 0 true 0), .advance false 0, .event (.deliver false),
    .event (.unlink false 0 true 0), .advance false 0, .event (.close true 0 (bytesOf "normal")),
    .advance true 0, .advance true 0, .event (.deliver true)]

/-- A mailbox is unlinked when the exit signal is in flight. -/
def inFlightAlready : List CallingEvent :=
  [.event (.link false 0 true 0), .advance false 0, .event (.deliver false),
    .event (.close true 0 (bytesOf "normal")), .advance true 0, .advance true 0,
    .event (.unlink false 0 true 0), .advance false 0, .event (.deliver true)]

/-- **An exit signal that arrives after the call of `unlink`** is told to the mailbox, whether the
other one was closed after the call or before. -/
theorem not_unlinkIsFinal_underway :
    ¬ UnlinkIsFinal false (ofNodes (TwoNodes.oneEach TwoNodes.nodeNames)) underway ∧
    ¬ UnlinkIsFinal false (ofNodes (TwoNodes.oneEach TwoNodes.nodeNames)) inFlightAlready := by
  constructor
  · intro hfinal
    have hstep := hfinal (underway.take 4) false 0 (underway.drop 5) _ _ _ _ 0 0
      (List.prefix_refl _) rfl rfl rfl rfl rfl (by simp [underway, Relinks, TwoNodes.Relinks])
      [.event (.close true 0 (bytesOf "normal")), .advance true 0, .advance true 0]
      (.event (.deliver true)) (List.prefix_refl _) _ rfl _ _ rfl rfl
    exact absurd hstep (by decide)
  · intro hfinal
    have hstep := hfinal (inFlightAlready.take 7) false 0 (inFlightAlready.drop 8) _ _ _ _ 0 0
      (List.prefix_refl _) rfl rfl rfl rfl rfl
      (by simp [inFlightAlready, Relinks, TwoNodes.Relinks]) [] (.event (.deliver true))
      (List.prefix_refl _) _ rfl _ _ rfl rfl
    exact absurd hstep (by decide)

end CallingNodes

end TinchPp
