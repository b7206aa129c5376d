import TinchPp.HalfCalls

/-!
# Whether two nodes agree on their links

A link is bidirectional, so the linkers of the two nodes should have the same links between open
mailboxes as soon as nothing is in flight any more. A node that makes or takes away a link does so
in its own linker at once and does not wait for the other one. When it does so while an earlier
message of the other node that says the opposite is still in flight, each node ends up with what the
other one wanted.

The same happens without a crossing when the message of the other node arrives between the two steps
of a call.

Where no message gets through, the nodes agree as long as no call changes anything: as long as they
leave the links between them alone.

## Main results

* `TwoNodes.uncrossed_iff` — the events that keep two nodes in step
* `CallingNodes.agrees_of_uncrossed` — the runs in which they agree
-/

namespace TinchPp

open EventSystem

namespace TwoNodes

variable {signedChar : Bool} {s t : TwoNodes} {i j : Bool} {x y : EPid} {h h' : Handle}

/-- The linkers have the same links between the open mailboxes of the two nodes. -/
def Agrees (s : TwoNodes) : Prop :=
  ∀ a b, s.Opened false a → s.Opened true b →
    ((s.node false).mailboxLinker.Linked a b ↔ (s.node true).mailboxLinker.Linked a b)

/-- The linkers will have the same links. -/
def InStep (signedChar : Bool) (s : TwoNodes) : Prop :=
  ∀ i x y, s.Opened i x → s.Opened (!i) y → (s.pair signedChar x y).InStep

/-- What the other node has said last about the link, if that is still in flight, is what the
mailbox is about to say itself. If nothing that is said is heard, it is what the other node has. -/
def Concurs (signedChar : Bool) (s : TwoNodes) (i : Bool) (h : Handle) (k : Bool) (h' : Handle)
    (v : Bool) : Prop :=
  k = !i → ∀ o o', s.opened i h = some o → s.opened k h' = some o' →
    match signedChar with
    | false => ∀ w, ((s.pair false o.ownPid o'.ownPid).inFlight k).getLast? = some w → w = v
    | true => decide ((s.node k).mailboxLinker.Linked o.ownPid o'.ownPid) = v

/-- What a mailbox says about a link is not the opposite of what is underway to it. -/
def Uncrossed (signedChar : Bool) (s : TwoNodes) : TwoNodesEvent → Prop
  | .link i h k h' => s.Concurs signedChar i h k h' true
  | .unlink i h k h' => s.Concurs signedChar i h k h' false
  | .close _ _ _ | .deliver _ => True

/-! ### What keeps the nodes in step -/

/-- What settles nothing new between open mailboxes keeps the nodes in step. -/
theorem inStep_of_settled (hs : s.InStep signedChar) (hopened : ∀ i x, t.Opened i x → s.Opened i x)
    (hsettled : ∀ i x y, t.Opened i x → t.Opened (!i) y →
      (t.pair signedChar x y).settled i = (s.pair signedChar x y).settled i) :
    t.InStep signedChar := by
  intro i x y hx hy
  have hpair := hs i x y (hopened i x hx) (hopened (!i) y hy)
  rw [Replicas.inStep_iff i] at hpair ⊢
  rw [hsettled i x y hx hy, hpair, pair_comm s, pair_comm t]
  refine (hsettled (!i) y x hy ?_).symm
  rwa [Bool.not_not]

/-- A call is about the link of two open mailboxes of the two nodes if it is about theirs. -/
theorem Wf.ends_of_samePair (signedChar : Bool) (hs : s.Wf) {k : Bool} {o o' : MailboxObject}
    (ho : s.opened i h = some o) (ho' : (s.node k).objects[h']? = some o') (hx : s.Opened j x)
    (hy : s.Opened (!j) y) (hsame : Linker.SamePair (x, y) (o.ownPid, o'.ownPid)) :
    k = (!i) ∧ s.opened k h' = some o' ∧
      s.pair signedChar x y = s.pair signedChar o.ownPid o'.ownPid := by
  obtain ⟨-, hobject⟩ := opened_eq_some.mp ho
  rcases hsame with hsame | hsame
  · obtain ⟨rfl, rfl⟩ := Prod.mk.inj hsame
    obtain rfl := hs.eq_of_opened hobject hx
    obtain rfl := hs.eq_of_opened ho' hy
    exact ⟨rfl, hs.opened_of_ownPid ho' hy, rfl⟩
  · obtain ⟨rfl, rfl⟩ := Prod.mk.inj hsame
    obtain rfl := hs.eq_of_opened hobject hy
    obtain rfl := hs.eq_of_opened ho' hx
    exact ⟨(Bool.not_not j).symm, hs.opened_of_ownPid ho' hx, pair_comm s _ _⟩

/-- The other node may hear of a change, or not. -/
theorem inStep_write_iff (signedChar : Bool) (s : TwoNodes) (i : Bool) (x y : EPid) (v : Bool) :
    ((s.pair signedChar x y).write (!signedChar) i v).InStep ↔
      match signedChar with
      | false => ∀ w, ((s.pair false x y).inFlight (!i)).getLast? = some w → w = v
      | true => decide ((s.node (!i)).mailboxLinker.Linked x y) = v := by
  rw [Replicas.inStep_write_iff]
  cases signedChar with
  | false =>
    dsimp only
    rw [Bool.not_false, if_pos rfl]
    cases ((s.pair false x y).inFlight (!i)).getLast? with
    | none => simp
    | some w => simp
  | true => exact eq_comm

/-- **When a call keeps the nodes in step**, if it can be made at all. -/
theorem concurs_iff {e : TwoNodesEvent} {n : MailboxObject → MailboxObject → ActualNode}
    {k v : Bool} (hs : s.Wf) (hinStep : s.InStep signedChar)
    (hstep : ∀ t, s.step signedChar e = some t ↔ ∃ o o', s.opened i h = some o ∧
      (s.node k).objects[h']? = some o' ∧ t = s.setNode i (n o o'))
    (hopened : ∀ t j x, s.step signedChar e = some t → (t.Opened j x ↔ s.Opened j x))
    (hpair : ∀ o o' x y, s.opened i h = some o → x.nodeName ≠ y.nodeName →
      (s.setNode i (n o o')).pair signedChar x y =
        if Linker.SamePair (x, y) (o.ownPid, o'.ownPid) then
          (s.pair signedChar x y).write (!signedChar) i v
        else s.pair signedChar x y) :
    s.Concurs signedChar i h k h' v ↔
      ∀ t, s.step signedChar e = some t → t.InStep signedChar := by
  constructor
  · intro hconcurs t ht j x y hx hy
    obtain ⟨o, o', ho, ho', rfl⟩ := (hstep t).mp ht
    rw [hopened _ _ _ ht] at hx hy
    rw [hpair o o' x y ho (hs.nodeName_ne hx hy)]
    split
    · next hsame =>
      obtain ⟨rfl, hopen', heq⟩ := hs.ends_of_samePair signedChar ho ho' hx hy hsame
      rw [heq, inStep_write_iff]
      exact hconcurs rfl o o' ho hopen'
    · exact hinStep j x y hx hy
  · rintro hall rfl o o' ho ho'
    have ht := (hstep _).mpr ⟨o, o', ho, (opened_eq_some.mp ho').2, rfl⟩
    have hx := opened_of_eq_some ho
    have hy := opened_of_eq_some ho'
    have hthen := hall _ ht i _ _ ((hopened _ _ _ ht).mpr hx) ((hopened _ _ _ ht).mpr hy)
    rw [hpair o o' _ _ ho (hs.nodeName_ne hx hy), if_pos (.inl rfl), inStep_write_iff] at hthen
    exact hthen

/-- **The events that keep two nodes in step.** -/
theorem uncrossed_iff (hs : s.Wf) (hinStep : s.InStep signedChar) (e : TwoNodesEvent) :
    s.Uncrossed signedChar e ↔ ∀ t, s.step signedChar e = some t → t.InStep signedChar := by
  cases e with
  | link i h k h' =>
    refine concurs_iff hs hinStep (fun t => ⟨step_link, ?_⟩)
      (fun t j x ht => opened_iff_of_step hs (by rintro _ _ _ ⟨⟩) ht)
      fun o o' x y ho hxy => ?_
    · rintro ⟨o, o', ho, ho', rfl⟩
      rw [step, ho, ho']
    · exact pair_link (hs.here i h o (opened_eq_some.mp ho).2).2 hxy
  | unlink i h k h' =>
    refine concurs_iff hs hinStep (fun t => ⟨step_unlink, ?_⟩)
      (fun t j x ht => opened_iff_of_step hs (by rintro _ _ _ ⟨⟩) ht)
      fun o o' x y ho hxy => ?_
    · rintro ⟨o, o', ho, ho', rfl⟩
      rw [step, ho, ho']
    · exact pair_unlink (hs.here i h o (opened_eq_some.mp ho).2).2 hxy
  | close i h reason =>
    refine iff_of_true trivial fun t ht => ?_
    obtain ⟨o, ho, rfl⟩ := step_close ht
    have hstill (j : Bool) (x : EPid) := opened_iff_of_close (j := j) (x := x) hs ho ht
    refine inStep_of_settled hinStep (fun j x hx => ((hstill j x).mp hx).1) fun j x y hx hy => ?_
    obtain ⟨hx, hxo⟩ := (hstill j x).mp hx
    obtain ⟨hy, hyo⟩ := (hstill (!j) y).mp hy
    -- neither of them is the mailbox that is closed
    rw [settled_close hs ho reason (hs.nodeName_of_opened hx) hxo]
    · exact if_neg fun hheard => hyo hheard.1
    · rw [hs.nodeName_of_opened hy]
      exact hs.names j
  | deliver i =>
    refine iff_of_true trivial fun t ht => ?_
    have hstill (j : Bool) (x : EPid) : t.Opened j x ↔ s.Opened j x :=
      opened_iff_of_step (e := .deliver i) hs (by rintro _ _ _ ⟨⟩) ht
    exact inStep_of_settled hinStep (fun j x hx => (hstill j x).mp hx)
      fun j x y hx _ => settled_deliver hs ht ((hstill j x).mp hx) y

/-! ### Runs -/

/-- What the nodes have when everything has arrived. -/
theorem onceQuiet_agrees_iff (hs : s.Wf) :
    s.OnceQuiet signedChar Agrees ↔ s.InStep signedChar := by
  refine onceQuiet_iff hs fun t hst ht => ?_
  have hlinked {x y : EPid} (hx : s.Opened false x) (hy : s.Opened true y) :
      ((t.node false).mailboxLinker.Linked x y ↔ (t.node true).mailboxLinker.Linked x y) ↔
        (s.pair signedChar x y).InStep := by
    have hfirst : (s.pair signedChar x y).settled false =
        decide ((t.node false).mailboxLinker.Linked x y) := by
      rw [← hst.settled false x y hx, settled_of_quiet ht]
    have hsecond : (s.pair signedChar x y).settled true =
        decide ((t.node true).mailboxLinker.Linked x y) := by
      rw [pair_comm s, ← hst.settled true y x hy, pair_comm t, settled_of_quiet ht]
    rw [Replicas.inStep_iff false, Bool.not_false, hfirst, hsecond, decide_eq_decide]
  constructor
  · intro hagrees i x y hx hy
    cases i with
    | false =>
      have hpair := hagrees x y ((hst.opened _ x).mpr hx) ((hst.opened _ y).mpr hy)
      exact (hlinked hx hy).mp hpair
    | true =>
      have hpair := hagrees y x ((hst.opened _ y).mpr hy) ((hst.opened _ x).mpr hx)
      rw [pair_comm s]
      exact (hlinked hy hx).mp hpair
  · intro hinStep a b ha hb
    have ha := (hst.opened _ a).mp ha
    have hb := (hst.opened _ b).mp hb
    exact (hlinked ha hb).mpr (hinStep false a b ha hb)

theorem Fresh.inStep (hs : s.Fresh) : s.InStep signedChar := by
  intro i x y _ _
  rw [Replicas.inStep_iff i, settled_of_quiet hs.quiet, settled_of_quiet hs.quiet, hs.linker,
    hs.linker]

/-- **The runs of whole calls in which two nodes agree**: at any time they would, if they let
everything arrive that is in flight. -/
theorem everyStep_uncrossed_iff (signedChar : Bool) (hs : s.Wf) (hinStep : s.InStep signedChar)
    (es : List TwoNodesEvent) : EveryStep (step signedChar) (Uncrossed signedChar) s es ↔
      Throughout (step signedChar) (OnceQuiet signedChar Agrees) s es :=
  everyStep_iff_onceQuiet signedChar (fun _ e hs hI => uncrossed_iff hs hI e)
    (fun _ hs => onceQuiet_agrees_iff hs) hs hinStep es

end TwoNodes

namespace CallingNodes

variable {signedChar : Bool} {nodes : TwoNodes} {t : CallingNodes} {x y : EPid}

/-- **In which runs two nodes agree** whenever nothing is in flight and no call is half done: in those
in which no call is interrupted and a mailbox never says the opposite of what is underway to it. As
for whole calls, these are also exactly the runs in which the nodes would agree at any time, if they
let everything arrive that is in flight. -/
theorem agrees_of_uncrossed (signedChar : Bool) (hs : nodes.Fresh) (hfit : nodes.PidsFit) :
    (∀ es, EveryStep (step signedChar) (Meets (TwoNodes.Uncrossed signedChar)) (ofNodes nodes) es →
      Throughout (step signedChar) (fun t => t.Quiet → t.nodes.Agrees) (ofNodes nodes) es) ∧
    ∀ es, EveryStep (TwoNodes.step signedChar) (TwoNodes.Uncrossed signedChar) nodes es ↔
      Throughout (TwoNodes.step signedChar) (TwoNodes.OnceQuiet signedChar TwoNodes.Agrees)
        nodes es := by
  have honce := TwoNodes.everyStep_uncrossed_iff signedChar (hs.wf hfit) hs.inStep
  refine ⟨fun es => throughout_quiet fun ws hws => ?_, honce⟩
  exact ((honce ws).mp hws).mono fun t ht => ht.of_quiet

/-- A link that is made on one side, and taken away on the other once that has heard of it. The LINK
arrives before the link is stored. -/
theorem agrees_of_uncrossed_unlink : Throughout (step false) (fun t => t.Quiet → t.nodes.Agrees)
    (ofNodes (TwoNodes.oneEach TwoNodes.nodeNames))
    [.event (.link false 0 true 0), .event (.deliver false), .advance false 0,
      .event (.unlink true 0 false 0), .advance true 0, .event (.deliver true)] := by
  refine (agrees_of_uncrossed false TwoNodes.fresh_oneEach TwoNodes.pidsFit_oneEach).1 _ ?_
  refine everyStep_cons.mpr ⟨⟨rfl, ?_⟩, fun s hs => everyStep_cons.mpr ⟨⟨?_, ?_⟩, fun t ht =>
    everyStep_cons.mpr ⟨⟨trivial, by rintro _ ⟨⟩⟩, fun u hu => ?_⟩⟩⟩
  · rintro _ ⟨⟩ - o o' - - w hw
    cases hw
  · obtain rfl := Option.some_inj.mp hs
    rfl
  · rintro _ ⟨⟩
    trivial
  · obtain rfl := Option.some_inj.mp hs
    obtain rfl := Option.some_inj.mp ht
    obtain rfl := Option.some_inj.mp hu
    refine everyStep_cons.mpr ⟨⟨rfl, ?_⟩, fun s hs => everyStep_cons.mpr ⟨⟨trivial, ?_⟩, fun t ht =>
      everyStep_cons.mpr ⟨⟨?_, ?_⟩, fun _ _ => everyStep_nil⟩⟩⟩
    · rintro _ ⟨⟩ - o o' - - w hw
      cases hw
    · rintro _ ⟨⟩
    · obtain rfl := Option.some_inj.mp hs
      obtain rfl := Option.some_inj.mp ht
      rfl
    · rintro _ ⟨⟩
      trivial

/-- A link that one end takes away while the other one asks for it. -/
def crossing : List CallingEvent :=
  [.event (.link false 0 true 0), .advance false 0, .event (.deliver false),
    .event (.unlink false 0 true 0), .advance false 0, .event (.link true 0 false 0),
    .advance true 0, .event (.deliver false), .event (.deliver true)]

/-- A LINK that is answered with an UNLINK before the link is stored at the end that has asked for
it. Nothing crosses. -/
def interrupted : List CallingEvent :=
  [.event (.link false 0 true 0), .event (.deliver false), .event (.unlink true 0 false 0),
    .advance true 0, .event (.deliver true), .advance false 0]

theorem not_agrees_of_run {es : List CallingEvent}
    (ht : run (step signedChar) (ofNodes (TwoNodes.oneEach TwoNodes.nodeNames)) es = some t)
    (hquiet : t.Quiet) (hpids : t.nodes.pidOf false 0 = some x ∧ t.nodes.pidOf true 0 = some y)
    (hclosed : 0 ∉ t.nodes.closed false ∧ 0 ∉ t.nodes.closed true)
    (hlinked : ¬ ((t.nodes.node false).mailboxLinker.Linked x y ↔
      (t.nodes.node true).mailboxLinker.Linked x y)) :
    ¬ Throughout (step signedChar) (fun t => t.Quiet → t.nodes.Agrees)
      (ofNodes (TwoNodes.oneEach TwoNodes.nodeNames)) es := by
  intro hall
  exact hlinked (hall es (List.prefix_refl _) t ht hquiet x y ⟨0, hclosed.1, hpids.1⟩
    ⟨0, hclosed.2, hpids.2⟩)

/-- **An UNLINK and a LINK that cross** leave the link at the end that has taken it away. -/
theorem not_agrees_crossing :
    ¬ Throughout (step false) (fun t => t.Quiet → t.nodes.Agrees)
      (ofNodes (TwoNodes.oneEach TwoNodes.nodeNames)) crossing ∧
    ¬ Throughout (step true) (fun t => t.Quiet → t.nodes.Agrees)
      (ofNodes (TwoNodes.oneEach TwoNodes.nodeNames)) crossing := by
  constructor
  · refine not_agrees_of_run rfl ?_ ⟨rfl, rfl⟩ ⟨List.not_mem_nil, List.not_mem_nil⟩ ?_
    · constructor <;> (intro i; cases i <;> rfl)
    · decide
  · refine not_agrees_of_run rfl ?_ ⟨rfl, rfl⟩ ⟨List.not_mem_nil, List.not_mem_nil⟩ ?_
    · constructor <;> (intro i; cases i <;> rfl)
    · decide

/-- **A call that is interrupted** does the same: the link is stored when it has been taken away. -/
theorem not_agrees_interrupted : ¬ Throughout (step false) (fun t => t.Quiet → t.nodes.Agrees)
    (ofNodes (TwoNodes.oneEach TwoNodes.nodeNames)) interrupted := by
  refine not_agrees_of_run rfl ?_ ⟨rfl, rfl⟩ ⟨List.not_mem_nil, List.not_mem_nil⟩ ?_
  · constructor <;> (intro i; cases i <;> rfl)
  · decide

end CallingNodes

end TinchPp
