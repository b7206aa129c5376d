import TinchPp.HalfCalls

/-!
# Links to mailboxes of the other node that have been closed

When a mailbox is closed, its node sends an exit signal to every mailbox of the other node that is
linked to it in the node's own linker. A mailbox whose LINK is still in flight is not among these:
it keeps a link to a mailbox that is gone, and it is never told. The same goes for one that is
linked to a mailbox after its end, since nobody answers a LINK, for one that comes after a mailbox
of the closing node that cannot be told, and for all of them where no message gets through. And it
goes for one that stores the link after the exit signal, because the call has been interrupted.

What a mailbox is told it is told in time: a link to a closed mailbox does not go away silently.

## Main results

* `TwoNodes.leavesNoLink_iff` — the events that leave no link to a closed mailbox behind
* `CallingNodes.notSilent` — a link to a closed mailbox goes away with a notification, or because one
  of its ends has taken it away
* `CallingNodes.endsAreOpen_of_leavesNoLink` — the runs in which both ends of the links are open
-/

namespace TinchPp

open EventSystem ActualNode

namespace TwoNodes

variable {signedChar : Bool} {s t : TwoNodes} {i j : Bool} {x y : EPid} {h h' : Handle}

/-- A link of an open mailbox to a mailbox of the other node is one to an open mailbox. -/
def EndsAreOpen (s : TwoNodes) : Prop :=
  ∀ j a b h, s.Opened j a → s.pidOf (!j) h = some b → (s.node j).mailboxLinker.Linked a b →
    s.Opened (!j) b

/-- So it will be. -/
def EndsSettle (signedChar : Bool) (s : TwoNodes) : Prop :=
  ∀ j x y, s.Opened j x → s.Closed (!j) y → (s.pair signedChar x y).settled j = false

/-- An event after which no open mailbox will have a link to a closed one. When a mailbox is linked
to one that has been closed, the last thing that the other node has said about the two must be
underway, and must be that there is no link. When a mailbox is closed, all mailboxes of the other
node that will have a link to it must hear of it. -/
def LeavesNoLink (signedChar : Bool) (s : TwoNodes) : TwoNodesEvent → Prop
  | .link i h k h' => k = !i → ∀ o o', s.opened i h = some o →
    (s.node k).objects[h']? = some o' → h' ∈ s.closed k →
      ((s.pair signedChar o.ownPid o'.ownPid).inFlight (!i)).getLast? = some false
  | .close i h reason => ∀ o x, s.opened i h = some o → s.Opened (!i) x →
    (s.pair signedChar x o.ownPid).settled (!i) = true →
      x ∈ (s.closing i h o reason).heard signedChar
  | .unlink _ _ _ _ | .deliver _ => True

/-- One end of the link takes it away: the mailbox itself, or an UNLINK of the other one arrives. -/
def TakesAway (s : TwoNodes) (j : Bool) (h : Handle) (x y : EPid) (e : TwoNodesEvent) : Prop :=
  (∃ h', e = .unlink j h (!j) h' ∧ s.pidOf (!j) h' = some y) ∨
    ∃ to_ rest, e = .deliver (!j) ∧ (s.node (!j)).requested = (to_, .unlink y x) :: rest

/-! ### Nobody is left in the dark -/

theorem Wf.nodeName_of_closed (hs : s.Wf) (hy : s.Closed j y) :
    y.nodeName = (s.node j).nodeName := by
  obtain ⟨h, -, hpid⟩ := hy
  obtain ⟨o, ho, rfl⟩ := Option.map_eq_some_iff.mp hpid
  exact (hs.here j h o ho).2

/-- A call of a mailbox is about a link between an open and a closed one only if it is a call of the
open one. -/
theorem Wf.ends_of_closed (hs : s.Wf) {k : Bool} {o o' : MailboxObject}
    (ho : s.opened i h = some o) (ho' : (s.node k).objects[h']? = some o') (hx : s.Opened j x)
    (hy : s.Closed (!j) y) (hsame : Linker.SamePair (x, y) (o.ownPid, o'.ownPid)) :
    i = j ∧ k = (!j) ∧ x = o.ownPid ∧ y = o'.ownPid ∧ h' ∈ s.closed k := by
  obtain ⟨-, hobject⟩ := opened_eq_some.mp ho
  have hnode := hs.nodeName_of_closed hy
  rcases hsame with hsame | hsame
  · obtain ⟨rfl, rfl⟩ := Prod.mk.inj hsame
    obtain rfl := hs.eq_of_opened hobject hx
    obtain rfl : k = !j := hs.eq_of_nodeName ((hs.here k h' o' ho').2.symm.trans hnode)
    obtain ⟨h'', hclosed, hpid⟩ := hy
    refine ⟨rfl, rfl, rfl, rfl, ?_⟩
    rw [hs.eq_of_pidOf (pidOf_of_object ho') hpid]
    exact hclosed
  · obtain ⟨rfl, rfl⟩ := Prod.mk.inj hsame
    obtain rfl : i = !j := hs.eq_of_nodeName ((hs.here i h o hobject).2.symm.trans hnode)
    exact absurd hy (hs.not_closed_of_opened (opened_of_eq_some ho))

/-- An exit signal that takes away a link of an open mailbox is told to it. -/
theorem brokenLinksOf_incomingExit {n : ActualNode} (hfiled : n.mailboxes x.key = some h)
    (hexp : n.isExpired h = false) (p : EPid) (reason : Str) :
    (n.incomingExit p x reason).2.brokenLinksOf h = n.brokenLinksOf h ++ [(reason, p)] := by
  rcases incomingExit_cases p x reason n with ⟨h', hm, -, heq⟩ | ⟨hall, -⟩
  · obtain rfl := Option.some_inj.mp (hm.symm.trans hfiled)
    rw [heq]
    have htold := brokenLinksOf_onMailbox hexp reason p h'
    rw [if_pos rfl] at htold
    exact htold
  · rw [hall h hfiled] at hexp
    cases hexp

/-- **What takes away a link of an open mailbox when it arrives**: an UNLINK of the other end, or an
exit signal that is told to the mailbox. -/
theorem perform_takesAway {n : ActualNode} {m : ControlMsg} {nodeName : Str}
    (hm : m.IsFrom nodeName) (hx : x.nodeName ≠ nodeName) (hfiled : n.mailboxes x.key = some h)
    (hexp : n.isExpired h = false) (hlinked : n.mailboxLinker.Linked x y)
    (hgone : ¬ (n.perform m.call).2.mailboxLinker.Linked x y) :
    m = .unlink y x ∨
      ∃ reason, (n.perform m.call).2.brokenLinksOf h = n.brokenLinksOf h ++ [(reason, y)] := by
  rw [linked_perform hm hx hfiled hexp, decide_eq_true hlinked] at hgone
  -- the message is about the link, and it comes from the other end
  have hends {p q : EPid} (hp : p.nodeName = nodeName) (hsame : Linker.SamePair (x, y) (p, q)) :
      p = y ∧ q = x := by
    rcases hsame with hsame | hsame
    · exact absurd ((Prod.mk.inj hsame).1 ▸ hp) hx
    · exact ⟨(Prod.mk.inj hsame).2.symm, (Prod.mk.inj hsame).1.symm⟩
  cases m with
  | send payload toPid => cases hm
  | regSend payload toName fromPid => cases hm
  | link p q =>
    rw [ControlMsg.relinks] at hgone
    split at hgone <;> exact absurd rfl hgone
  | unlink p q =>
    rw [ControlMsg.relinks] at hgone
    split at hgone
    · next hsame =>
      obtain ⟨rfl, rfl⟩ := hends hm.1 hsame
      exact .inl rfl
    · exact absurd rfl hgone
  | exit p q reason | exit2 p q reason =>
    rw [ControlMsg.relinks] at hgone
    split at hgone
    · next hsame =>
      obtain ⟨rfl, rfl⟩ := hends hm.1 hsame
      exact .inr ⟨reason, brokenLinksOf_incomingExit hfiled hexp p reason⟩
    · exact absurd rfl hgone

/-- **A delivery takes no link away silently.** -/
theorem takesAway_of_deliver (hs : s.Wf) {o : MailboxObject}
    (ht : s.step signedChar (.deliver i) = some t) (ho : s.opened j h = some o)
    (hlinked : (s.node j).mailboxLinker.Linked o.ownPid y)
    (hgone : ¬ (t.node j).mailboxLinker.Linked o.ownPid y) :
    s.TakesAway j h o.ownPid y (.deliver i) ∨
      ∃ reason, (t.node j).brokenLinksOf h = (s.node j).brokenLinksOf h ++ [(reason, y)] := by
  obtain ⟨to_, m, rest, hrequested, rfl⟩ := step_deliver ht
  by_cases hj : j = i
  · subst hj
    rw [setNode_node_of_ne _ (Bool.not_ne_self j).symm, setNode_node_self] at hgone
    exact absurd hlinked hgone
  · obtain rfl : j = !i := Bool.eq_not_of_ne hj
    rw [setNode_node_self] at hgone ⊢
    cases signedChar with
    | true =>
      rw [onFrame_true] at hgone
      exact absurd hlinked hgone
    | false =>
      have hremote : o.ownPid.nodeName ≠ (s.node i).nodeName := by
        rw [hs.nodeName_of_opened (opened_of_eq_some ho)]
        exact hs.names i
      have hfrom := hs.isFrom_of_requested hrequested
      rw [onFrame_false hfrom] at hgone ⊢
      refine (perform_takesAway hfrom.received hremote (hs.filed (!i) h o ho)
        (hs.isExpired (opened_eq_some.mp ho).2) hlinked hgone).imp_left fun hunlink => ?_
      obtain rfl := ControlMsg.eq_unlink_of_received hunlink
      rw [TakesAway, Bool.not_not]
      exact .inr ⟨to_, rest, rfl, hrequested⟩

/-! ### What leaves no link behind -/

/-- What a call of an open mailbox leaves of its links to closed ones. -/
theorem endsSettle_write {n : ActualNode} {k v : Bool} {o o' : MailboxObject} (hs : s.Wf)
    (hends : s.EndsSettle signedChar) (ho : s.opened i h = some o)
    (ho' : (s.node k).objects[h']? = some o')
    (hopened : ∀ j x, (s.setNode i n).Opened j x ↔ s.Opened j x)
    (hclosed : ∀ j x, (s.setNode i n).Closed j x ↔ s.Closed j x)
    (hpair : ∀ x y, x.nodeName ≠ y.nodeName → (s.setNode i n).pair signedChar x y =
      if Linker.SamePair (x, y) (o.ownPid, o'.ownPid) then
        (s.pair signedChar x y).write (!signedChar) i v
      else s.pair signedChar x y) :
    (s.setNode i n).EndsSettle signedChar ↔ (k = !i → h' ∈ s.closed k →
      ((s.pair signedChar o.ownPid o'.ownPid).inFlight (!i)).getLast?.getD v = false) := by
  have hne {j : Bool} {x y : EPid} (hx : s.Opened j x) (hy : s.Closed (!j) y) :
      x.nodeName ≠ y.nodeName := by
    rw [hs.nodeName_of_opened hx, hs.nodeName_of_closed hy]
    exact (hs.names j).symm
  constructor
  · rintro hall rfl hmem
    have hx := opened_of_eq_some ho
    have hy : s.Closed (!i) o'.ownPid := ⟨h', hmem, pidOf_of_object ho'⟩
    have hpairs := hall i _ _ ((hopened i _).mpr hx) ((hclosed _ _).mpr hy)
    rwa [hpair _ _ (hne hx hy), if_pos (.inl rfl), Replicas.settled_write_self] at hpairs
  · intro hlast j x y hx hy
    rw [hopened] at hx
    rw [hclosed] at hy
    rw [hpair x y (hne hx hy)]
    split
    · next hsame =>
      obtain ⟨rfl, hk, rfl, rfl, hmem⟩ := hs.ends_of_closed ho ho' hx hy hsame
      rw [Replicas.settled_write_self]
      exact hlast hk hmem
    · exact hends j x y hx hy

/-- **The events that leave no link to a closed mailbox behind.** -/
theorem leavesNoLink_iff (hs : s.Wf) (hends : s.EndsSettle signedChar) (e : TwoNodesEvent) :
    s.LeavesNoLink signedChar e ↔ ∀ t, s.step signedChar e = some t → t.EndsSettle signedChar := by
  cases e with
  | link i h k h' =>
    have hcall {o o' : MailboxObject} (ho : s.opened i h = some o)
        (ho' : (s.node k).objects[h']? = some o') :
        (s.setNode i ((s.node i).link allReachable o.ownPid o'.ownPid).2).EndsSettle signedChar ↔
          (k = !i → h' ∈ s.closed k →
            ((s.pair signedChar o.ownPid o'.ownPid).inFlight (!i)).getLast? = some false) := by
      have ht : s.step signedChar (.link i h k h') =
          some (s.setNode i ((s.node i).link allReachable o.ownPid o'.ownPid).2) := by
        rw [step, ho, ho']
      rw [endsSettle_write (v := true) hs hends ho ho'
        (fun j x => opened_iff_of_step hs (by rintro _ _ _ ⟨⟩) ht)
        (fun j x => closed_iff_of_step hs (by rintro _ _ _ ⟨⟩) ht)
        fun x y hxy => pair_link (hs.here i h o (opened_eq_some.mp ho).2).2 hxy]
      cases ((s.pair signedChar o.ownPid o'.ownPid).inFlight (!i)).getLast? <;> simp
    constructor
    · intro hlast t ht
      obtain ⟨o, o', ho, ho', rfl⟩ := step_link ht
      exact (hcall ho ho').mpr fun hk hmem => hlast hk o o' ho ho' hmem
    · intro hall hk o o' ho ho' hmem
      exact (hcall ho ho').mp (hall _ (by rw [step, ho, ho'])) hk hmem
  | unlink i h k h' =>
    refine iff_of_true trivial fun t ht => ?_
    obtain ⟨o, o', ho, ho', rfl⟩ := step_unlink ht
    refine (endsSettle_write (v := false) hs hends ho ho'
      (fun j x => opened_iff_of_step hs (by rintro _ _ _ ⟨⟩) ht)
      (fun j x => closed_iff_of_step hs (by rintro _ _ _ ⟨⟩) ht)
      fun x y hxy => pair_unlink (hs.here i h o (opened_eq_some.mp ho).2).2 hxy).mpr ?_
    rintro rfl hmem
    have hsettled := hends i o.ownPid o'.ownPid (opened_of_eq_some ho)
      ⟨h', hmem, pidOf_of_object ho'⟩
    rw [Replicas.settled] at hsettled
    cases hlast : ((s.pair signedChar o.ownPid o'.ownPid).inFlight (!i)).getLast? with
    | none => rfl
    | some w =>
      rw [hlast] at hsettled
      exact hsettled
  | close i h reason =>
    constructor
    · intro hheard t ht j x y hx hy
      obtain ⟨o, ho, rfl⟩ := step_close ht
      obtain ⟨hx, hxo⟩ := (opened_iff_of_close hs ho ht).mp hx
      rw [closed_iff_of_close hs ho ht] at hy
      have hobject := (opened_eq_some.mp ho).2
      have hyname : y.nodeName = (s.node (!j)).nodeName := by
        rcases hy with hy | ⟨rfl, rfl⟩
        · exact hs.nodeName_of_closed hy
        · exact (hs.here _ h o hobject).2
      rw [settled_close hs ho reason (hs.nodeName_of_opened hx) hxo
        (by rw [hyname]; exact hs.names j)]
      split
      · rfl
      · next hnot =>
        rcases hy with hy | ⟨rfl, rfl⟩
        · exact hends j x y hx hy
        · -- `x` will not have a link to what is closed, or else it would be told
          rw [← Bool.not_eq_true]
          intro hsettled
          refine hnot ⟨rfl, hheard o x ho ?_ ?_⟩
          · rwa [Bool.not_not]
          · rwa [Bool.not_not]
    · intro hall o x ho hx hsettled
      have ht : s.step signedChar (.close i h reason) =
          some ⟨Function.update s.node i (s.closing i h o reason).after,
            Function.update s.closed i (h :: s.closed i)⟩ := by
        rw [step, ho]
        rfl
      have hobject := (opened_eq_some.mp ho).2
      have hxo : x ≠ o.ownPid := by
        rintro rfl
        exact Bool.not_ne_self i (hs.eq_of_opened hobject hx)
      have hstill := (opened_iff_of_close hs ho ht).mpr ⟨hx, hxo⟩
      have hclosed := (closed_iff_of_close (j := !(!i)) hs ho ht).mpr
        (.inr ⟨Bool.not_not i, rfl⟩)
      have hthen := hall _ ht (!i) x o.ownPid hstill hclosed
      rw [settled_close hs ho reason (hs.nodeName_of_opened hx) hxo
        (by rw [(hs.here i h o hobject).2]; exact (hs.names i).symm)] at hthen
      by_contra hnot
      rw [if_neg fun hheard => hnot hheard.2, hsettled] at hthen
      cases hthen
  | deliver i =>
    refine iff_of_true trivial fun t ht j x y hx hy => ?_
    rw [opened_iff_of_step (e := .deliver i) hs (by rintro _ _ _ ⟨⟩) ht] at hx
    rw [closed_iff_of_step (e := .deliver i) hs (by rintro _ _ _ ⟨⟩) ht] at hy
    rw [settled_deliver hs ht hx]
    exact hends j x y hx hy

/-! ### Runs -/

/-- A mailbox has been closed if it is not open. -/
theorem endsAreOpen_iff (hs : s.Wf) : s.EndsAreOpen ↔
    ∀ j x y, s.Opened j x → s.Closed (!j) y → ¬ (s.node j).mailboxLinker.Linked x y := by
  constructor
  · intro hends j x y hx hy hlinked
    obtain ⟨h, hclosed, hpid⟩ := hy
    exact hs.not_closed_of_opened (hends j x y h hx hpid hlinked) ⟨h, hclosed, hpid⟩
  · intro hends j x y h hx hpid hlinked
    by_contra hnot
    refine hends j x y hx ⟨h, ?_, hpid⟩ hlinked
    by_contra hopen
    exact hnot ⟨h, hopen, hpid⟩

/-- What the linkers have when everything has arrived. -/
theorem onceQuiet_endsAreOpen_iff (hs : s.Wf) :
    s.OnceQuiet signedChar EndsAreOpen ↔ s.EndsSettle signedChar := by
  refine onceQuiet_iff hs fun t hst ht => ?_
  rw [endsAreOpen_iff hst.wf]
  refine forall_congr' fun j => forall_congr' fun x => forall_congr' fun y => ?_
  rw [hst.opened, hst.closed]
  refine forall_congr' fun hx => forall_congr' fun _ => ?_
  rw [← hst.settled j x y hx, settled_of_quiet ht, decide_eq_false_iff_not]

theorem Fresh.endsSettle (hs : s.Fresh) : s.EndsSettle signedChar := by
  rintro j x y - ⟨h, hclosed, -⟩
  rw [hs.closed] at hclosed
  cases hclosed

/-- **The runs of whole calls that leave no link to a closed mailbox behind**: at any time they
would not, if everything were to arrive that is in flight. -/
theorem everyStep_leavesNoLink_iff (signedChar : Bool) (hs : s.Wf) (hends : s.EndsSettle signedChar)
    (es : List TwoNodesEvent) : EveryStep (step signedChar) (LeavesNoLink signedChar) s es ↔
      Throughout (step signedChar) (OnceQuiet signedChar EndsAreOpen) s es :=
  everyStep_iff_onceQuiet signedChar (fun _ e hs hI => leavesNoLink_iff hs hI e)
    (fun _ hs => onceQuiet_endsAreOpen_iff hs) hs hends es

end TwoNodes

namespace CallingNodes

variable {signedChar : Bool} {nodes : TwoNodes} {s t : CallingNodes} {x y : EPid}

/-- A link of an open mailbox to a closed one of the other node does not go away silently, whether
calls are interrupted or not. -/
def NotSilent (signedChar : Bool) (s : CallingNodes) (e : CallingEvent) : Prop :=
  ∀ t, s.step signedChar e = some t → ∀ j h o y, s.nodes.opened j h = some o →
    h ∉ t.nodes.closed j → s.nodes.Closed (!j) y →
    (s.nodes.node j).mailboxLinker.Linked o.ownPid y →
    ¬ (t.nodes.node j).mailboxLinker.Linked o.ownPid y →
      (∃ e', e = .event e' ∧ s.nodes.TakesAway j h o.ownPid y e') ∨
        ∃ reason, (t.nodes.node j).brokenLinksOf h =
          (s.nodes.node j).brokenLinksOf h ++ [(reason, y)]

/-- **Links to closed mailboxes do not go away silently.** -/
theorem notSilent (hs : s.Wf) (e : CallingEvent) : s.NotSilent signedChar e := by
  intro t ht j h o y ho hopen hy hlinked hgone
  have hx := TwoNodes.opened_of_eq_some ho
  have hnode := hs.nodes.nodeName_of_closed hy
  -- what a node does that leaves the link alone
  have hkeeps {k : Bool} {n : ActualNode} (hsame : t.nodes.node = Function.update s.nodes.node k n)
      (hn : j = k → (s.nodes.node k).mailboxLinker.Linked o.ownPid y →
        n.mailboxLinker.Linked o.ownPid y) : False := by
    rw [hsame] at hgone
    by_cases hj : j = k
    · subst hj
      rw [Function.update_self] at hgone
      exact hgone (hn rfl hlinked)
    · rw [Function.update_of_ne hj] at hgone
      exact hgone hlinked
  -- a closed mailbox of the same node is not at either end of it
  have hother {k : Bool} {id : EPid} (hj : j = k) (hid : s.nodes.Closed k id) :
      o.ownPid ≠ id ∧ y ≠ id := by
    subst hj
    constructor
    · rintro rfl
      exact hs.nodes.not_closed_of_opened hx hid
    · rintro rfl
      exact hs.nodes.names j (hnode.symm.trans (hs.nodes.nodeName_of_closed hid))
  cases e with
  | event e =>
    cases e with
    | link k g l g' =>
      obtain ⟨o₁, o₂, -, -, rfl⟩ := step_link ht
      refine (hkeeps rfl fun _ hlinked => ?_).elim
      rw [beginLink]
      split
      · exact hlinked
      · exact Linker.linked_link.mpr (.inr hlinked)
    | unlink k g l g' =>
      obtain ⟨o₁, o₂, ho₁, ho₂, rfl⟩ := step_unlink ht
      by_cases hpair : j = k ∧ Linker.SamePair (o.ownPid, y) (o₁.ownPid, o₂.ownPid)
      · -- the mailbox takes it away itself
        obtain ⟨rfl, hpair⟩ := hpair
        obtain ⟨-, rfl, hpid, rfl, -⟩ := hs.nodes.ends_of_closed ho₁ ho₂ hx hy hpair
        have hg : h = g := hs.nodes.unique j h g o o₁ (TwoNodes.opened_eq_some.mp ho).2
          (TwoNodes.opened_eq_some.mp ho₁).2 (congrArg EPid.key hpid)
        subst hg
        exact .inl ⟨_, rfl, .inl ⟨g', rfl, TwoNodes.pidOf_of_object ho₂⟩⟩
      · refine (hkeeps rfl fun hj hlinked => ?_).elim
        rw [beginUnlink_fst]
        exact Linker.linked_unlink.mpr ⟨hlinked, fun hsame => hpair ⟨hj, hsame⟩⟩
    | close k g reason =>
      obtain ⟨o₁, ho₁, rfl⟩ := step_close ht
      have hobject₁ := (TwoNodes.opened_eq_some.mp ho₁).2
      refine (hkeeps rfl fun hj hlinked => ?_).elim
      subst hj
      refine Linker.linked_removeLinksFrom.mpr ⟨hlinked, ?_, ?_⟩
      · intro hpid
        -- the mailbox is not the one that is closed
        have hg : h = g := hs.nodes.unique j h g o o₁ (TwoNodes.opened_eq_some.mp ho).2 hobject₁
          (congrArg EPid.key hpid)
        subst hg
        refine hopen ?_
        show h ∈ Function.update s.nodes.closed j (h :: s.nodes.closed j) j
        rw [Function.update_self]
        exact List.mem_cons_self
      · rintro rfl
        exact hs.nodes.names j (hnode.symm.trans (hs.nodes.here j g o₁ hobject₁).2)
    | deliver k =>
      obtain ⟨nodes, hnodes, rfl⟩ := step_deliver ht
      exact (TwoNodes.takesAway_of_deliver hs.nodes hnodes ho hlinked hgone).imp_left
        fun htakes => ⟨_, rfl, htakes⟩
  | advance k n =>
    obtain ⟨c, hc, rfl⟩ := step_advance ht
    have hbegun := hs.begun k c (List.mem_of_getElem? hc)
    refine (hkeeps rfl fun hj hlinked => ?_).elim
    cases c with
    | store p q => exact Linker.linked_link.mpr (.inr hlinked)
    | send p q => exact hlinked
    | notify id name reason pids =>
      obtain ⟨hxid, hyid⟩ := hother hj hbegun.1
      cases pids with
      | nil => exact hlinked
      | cons pid pids =>
        rw [(advance_notify _ _ _ _ _ _).1]
        exact linked_requestExit2 hxid hyid hlinked

/-- **In which runs no exit notification is lost.** What goes away goes away with a notification, in
every run. Nothing is left behind when nothing is in flight and no call is half done in those runs in
which no call is interrupted and each event leaves no link to a closed mailbox behind. As for whole
calls, these are also exactly the runs in which nothing would be left behind at any time, if
everything were to arrive that is in flight. -/
theorem endsAreOpen_of_leavesNoLink (signedChar : Bool) (hs : nodes.Fresh) (hfit : nodes.PidsFit) :
    (∀ es, EveryStep (step signedChar) (NotSilent signedChar) (ofNodes nodes) es) ∧
    (∀ es, EveryStep (step signedChar) (Meets (TwoNodes.LeavesNoLink signedChar))
        (ofNodes nodes) es →
      Throughout (step signedChar) (fun t => t.Quiet → t.nodes.EndsAreOpen) (ofNodes nodes) es) ∧
    ∀ es, EveryStep (TwoNodes.step signedChar) (TwoNodes.LeavesNoLink signedChar) nodes es ↔
      Throughout (TwoNodes.step signedChar) (TwoNodes.OnceQuiet signedChar TwoNodes.EndsAreOpen)
        nodes es := by
  have honce := TwoNodes.everyStep_leavesNoLink_iff signedChar (hs.wf hfit) hs.endsSettle
  refine ⟨fun es done e _ t ht => ?_, fun es => throughout_quiet fun ws hws => ?_, honce⟩
  · exact notSilent (run_induction (fun _ _ _ hs ht => hs.step ht) (wf_ofNodes (hs.wf hfit)) ht) e
  · exact ((honce ws).mp hws).mono fun t ht => ht.of_quiet

/-- A close that is heard on the other side. -/
theorem endsAreOpen_of_leavesNoLink_close :
    Throughout (step false) (fun t => t.Quiet → t.nodes.EndsAreOpen)
      (ofNodes (TwoNodes.oneEach TwoNodes.nodeNames))
      [.event (.link false 0 true 0), .advance false 0, .event (.deliver false),
        .event (.close true 0 (bytesOf "normal")), .advance true 0, .advance true 0,
        .event (.deliver true)] := by
  refine (endsAreOpen_of_leavesNoLink false TwoNodes.fresh_oneEach
    TwoNodes.pidsFit_oneEach).2.1 _ ?_
  refine everyStep_cons.mpr ⟨⟨rfl, ?_⟩, fun s hs => everyStep_cons.mpr
    ⟨⟨trivial, by rintro _ ⟨⟩⟩, fun t ht => everyStep_cons.mpr ⟨⟨?_, ?_⟩, fun u hu => ?_⟩⟩⟩
  · rintro _ ⟨⟩ - o o' - - hmem
    cases hmem
  · obtain rfl := Option.some_inj.mp hs
    obtain rfl := Option.some_inj.mp ht
    rfl
  · rintro _ ⟨⟩
    trivial
  · obtain rfl := Option.some_inj.mp hs
    obtain rfl := Option.some_inj.mp ht
    obtain rfl := Option.some_inj.mp hu
    refine everyStep_cons.mpr ⟨⟨rfl, ?_⟩, fun s hs => everyStep_cons.mpr
      ⟨⟨trivial, by rintro _ ⟨⟩⟩, fun t ht => everyStep_cons.mpr
        ⟨⟨trivial, by rintro _ ⟨⟩⟩, fun u hu => everyStep_cons.mpr
          ⟨⟨?_, ?_⟩, fun _ _ => everyStep_nil⟩⟩⟩⟩
    · rintro _ ⟨⟩ o x ho ⟨h, -, hpid⟩ -
      obtain rfl := Option.some_inj.mp ho
      cases h with
      | zero =>
        obtain rfl := Option.some_inj.mp hpid
        decide
      | succ h => cases hpid
    · obtain rfl := Option.some_inj.mp hs
      obtain rfl := Option.some_inj.mp ht
      obtain rfl := Option.some_inj.mp hu
      rfl
    · rintro _ ⟨⟩
      trivial

/-- A mailbox that is closed before it has heard of the link to it. -/
def tooLate : List CallingEvent :=
  [.event (.link false 0 true 0), .advance false 0, .event (.close true 0 (bytesOf "normal")),
    .advance true 0, .event (.deliver false)]

/-- A mailbox that is closed once it has heard of the link to it, and before the other end has stored
it. -/
def tooEarly : List CallingEvent :=
  [.event (.link false 0 true 0), .event (.deliver false),
    .event (.close true 0 (bytesOf "normal")), .advance true 0, .advance true 0,
    .event (.deliver true), .advance false 0]

theorem not_endsAreOpen_of_run {es : List CallingEvent}
    (ht : run (step signedChar) (ofNodes (TwoNodes.oneEach TwoNodes.nodeNames)) es = some t)
    (hquiet : t.Quiet) (hpids : t.nodes.pidOf false 0 = some x ∧ t.nodes.pidOf true 0 = some y)
    (hclosed : 0 ∉ t.nodes.closed false ∧ 0 ∈ t.nodes.closed true)
    (hlinked : (t.nodes.node false).mailboxLinker.Linked x y) :
    ¬ Throughout (step signedChar) (fun t => t.Quiet → t.nodes.EndsAreOpen)
      (ofNodes (TwoNodes.oneEach TwoNodes.nodeNames)) es := by
  intro hall
  have hwf : t.Wf := run_induction (fun _ _ _ hs ht => hs.step ht)
    (wf_ofNodes (TwoNodes.fresh_oneEach.wf TwoNodes.pidsFit_oneEach)) ht
  have hends := hall es (List.prefix_refl _) t ht hquiet
  have hopen := hends false x y 0 ⟨0, hclosed.1, hpids.1⟩ hpids.2 hlinked
  exact hwf.nodes.not_closed_of_opened hopen ⟨0, hclosed.2, hpids.2⟩

/-- **A LINK that is in flight while its mailbox is closed** is not answered, and nobody is told. -/
theorem not_endsAreOpen_tooLate :
    ¬ Throughout (step false) (fun t => t.Quiet → t.nodes.EndsAreOpen)
      (ofNodes (TwoNodes.oneEach TwoNodes.nodeNames)) tooLate ∧
    ¬ Throughout (step true) (fun t => t.Quiet → t.nodes.EndsAreOpen)
      (ofNodes (TwoNodes.oneEach TwoNodes.nodeNames)) tooLate := by
  constructor
  · refine not_endsAreOpen_of_run rfl ?_ ⟨rfl, rfl⟩ ⟨List.not_mem_nil, List.mem_cons_self⟩ ?_
    · constructor <;> (intro i; cases i <;> rfl)
    · decide
  · refine not_endsAreOpen_of_run rfl ?_ ⟨rfl, rfl⟩ ⟨List.not_mem_nil, List.mem_cons_self⟩ ?_
    · constructor <;> (intro i; cases i <;> rfl)
    · decide

/-- **A call that is interrupted by the end of the other mailbox** stores a link to it when its end
has already been told. -/
theorem not_endsAreOpen_tooEarly : ¬ Throughout (step false) (fun t => t.Quiet → t.nodes.EndsAreOpen)
    (ofNodes (TwoNodes.oneEach TwoNodes.nodeNames)) tooEarly := by
  refine not_endsAreOpen_of_run rfl ?_ ⟨rfl, rfl⟩ ⟨List.not_mem_nil, List.mem_cons_self⟩ ?_
  · constructor <;> (intro i; cases i <;> rfl)
  · decide

end CallingNodes

end TinchPp
