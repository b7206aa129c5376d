import TinchPp.CompleteClosing

/-!
# Links between the mailboxes of one node

What clients see of the links of a node while they make mailboxes, link and unlink them, and close
them: a mailbox is told of the end of another one exactly if the last that the clients have done to
the link between the two, from whichever side, was to make it. No close raises, since all that is
linked is open, and can be found in the table of the pids.

That takes that the pids of the open mailboxes are different from each other. `create_mailbox()`
asserts it, but `create_mailbox` with a registered name does not, and after `2 ^ 28` mailboxes the
pids start over.

## Main results

* `LocalRun.Consistent.step` — the linker, the tables, and the history of the links
* `LocalRun.linksWork_of_issuesNewPid` — the notifications, in order
-/

namespace TinchPp

open EventSystem ActualNode

/-- What clients do to the mailboxes of their node. -/
inductive LocalEvent
  | createMailbox
  | createMailboxNamed (registeredName : Str)
  | link (h₁ h₂ : Handle)
  | unlink (h₁ h₂ : Handle)
  | close (h : Handle) (reason : Str)
deriving DecidableEq, Repr

/-! ### What a mailbox is to be told -/

namespace LocalEvent

/-- What an event does to the link between `a` and `b`: it makes it, or takes it away. -/
def relinks (a b : Handle) : LocalEvent → Option Bool
  | .link h₁ h₂ => if h₁ = a ∧ h₂ = b ∨ h₁ = b ∧ h₂ = a then some true else none
  | .unlink h₁ h₂ => if h₁ = a ∧ h₂ = b ∨ h₁ = b ∧ h₂ = a then some false else none
  | _ => none

/-- The last `link` or `unlink` between `a` and `b` has been a `link`. -/
def LinkedAfter (a b : Handle) (history : List LocalEvent) : Prop :=
  (history.filterMap (relinks a b)).getLast? = some true

instance (a b : Handle) (history : List LocalEvent) : Decidable (LinkedAfter a b history) :=
  inferInstanceAs (Decidable (_ = _))

/-- The notification that an event is to send to `b`. -/
def exit (b : Handle) (before : List LocalEvent) : LocalEvent → List (Str × Handle)
  | .close a reason => if LinkedAfter a b before then [(reason, a)] else []
  | _ => []

/-- The notifications that the events are to send to `b`, after those of `before`. -/
def exits (b : Handle) (before : List LocalEvent) : List LocalEvent → List (Str × Handle)
  | [] => []
  | e :: es => exit b before e ++ exits b (before ++ [e]) es

theorem exits_concat (b : Handle) (before es : List LocalEvent) (e : LocalEvent) :
    exits b before (es ++ [e]) = exits b before es ++ exit b (before ++ es) e := by
  induction es generalizing before with
  | nil =>
    show exit b before e ++ [] = [] ++ exit b (before ++ []) e
    rw [List.append_nil, List.append_nil, List.nil_append]
  | cons d es ih =>
    rw [List.cons_append, exits, ih, exits, List.append_assoc, List.append_assoc]
    rfl

theorem linkedAfter_concat {a b : Handle} {history : List LocalEvent} {e : LocalEvent} :
    LinkedAfter a b (history ++ [e]) ↔
      relinks a b e = some true ∨ relinks a b e = none ∧ LinkedAfter a b history := by
  rw [LinkedAfter, List.filterMap_append, LinkedAfter]
  cases hr : relinks a b e with
  | none => simp [hr]
  | some linked => simp [hr]

theorem relinks_comm (a b : Handle) (e : LocalEvent) : relinks a b e = relinks b a e := by
  cases e with
  | link h₁ h₂ => simp only [relinks, or_comm]
  | unlink h₁ h₂ => simp only [relinks, or_comm]
  | _ => rfl

theorem LinkedAfter.symm {a b : Handle} {history : List LocalEvent}
    (h : LinkedAfter a b history) : LinkedAfter b a history := by
  rw [LinkedAfter, funext (relinks_comm b a)]
  exact h

end LocalEvent

open LocalEvent

/-! ### What a close sends to a mailbox -/

namespace ActualNode

/-- **Who is told**: a mailbox once, if the pid it is found under is among those linked. -/
theorem localExits_of_resolve {n : ActualNode} {pids : List EPid} {p : EPid} {h : Handle}
    (hnodup : pids.Nodup) (hresolve : ∀ q ∈ pids, n.resolve q = some h ↔ q = p) (fromPid : EPid)
    (reason : Str) :
    localExits fromPid reason n pids h = if p ∈ pids then [(reason, fromPid)] else [] := by
  have hfilter : pids.filter (fun q => n.resolve q = some h) = pids.filter (fun q => q = p) := by
    refine List.filter_congr fun q hq => ?_
    rw [decide_eq_decide]
    exact hresolve q hq
  rw [localExits, hfilter, List.filter_eq, hnodup.count]
  split <;> rfl

end ActualNode

/-! ### Runs -/

/-- A node, and what its clients have done: which mailboxes they have closed, what these closes have
raised, and the history of it all. -/
structure LocalRun where
  node : ActualNode
  closed : List Handle
  raised : List TinchPpException
  history : List LocalEvent

namespace LocalRun

def start (nodeName : Str) (creation : UInt32) : LocalRun where
  node := { create nodeName with creation := creation }
  closed := []
  raised := []
  history := []

/-- The mailbox, if it is open. -/
def opened (r : LocalRun) (h : Handle) : Option MailboxObject :=
  if h ∈ r.closed then none else r.node.objects[h]?

variable (net : Connections)

/-- The links are between different mailboxes. -/
def step (r : LocalRun) (e : LocalEvent) : Option LocalRun :=
  match e with
  | .createMailbox =>
    match r.node.createMailbox with
    | some n => some { r with node := n, history := r.history ++ [e] }
    | none => none
  | .createMailboxNamed registeredName => some { r with
      node := r.node.createMailboxNamed registeredName
      history := r.history ++ [e] }
  | .link h₁ h₂ =>
    match r.opened h₁, r.opened h₂ with
    | some o₁, some o₂ =>
      if h₁ = h₂ then none
      else some { r with
        node := (r.node.link net o₁.ownPid o₂.ownPid).2
        history := r.history ++ [e] }
    | _, _ => none
  | .unlink h₁ h₂ =>
    match r.opened h₁, r.opened h₂ with
    | some o₁, some o₂ =>
      if h₁ = h₂ then none
      else some { r with
        node := (r.node.unlink net o₁.ownPid o₂.ownPid).2
        history := r.history ++ [e] }
    | _, _ => none
  | .close h reason =>
    match r.opened h with
    | some o =>
      match r.node.closeMailbox net o.ownPid o.ownName reason with
      | (.ok (), n) => some ⟨n, h :: r.closed, r.raised, r.history ++ [e]⟩
      | (.error error, n) => some ⟨n, h :: r.closed, r.raised ++ [error], r.history ++ [e]⟩
    | none => none

/-- The pid of a mailbox. -/
def pidOf (r : LocalRun) (h : Handle) : Option EPid := r.node.objects[h]?.map (·.ownPid)

/-- **The links work as documented**: an open mailbox has been told what it is to be told, no close
has raised, and what is linked is open. -/
structure LinksWork (r : LocalRun) : Prop where
  told : ∀ b o, r.opened b = some o →
    o.contents.brokenLinks.map (Prod.map id some) =
      (exits b [] r.history).map (Prod.map id r.pidOf)
  notRaised : r.raised = []
  linked : ∀ p q, r.node.mailboxLinker.Linked p q → ∃ a b oa ob, a ≠ b ∧
    r.opened a = some oa ∧ oa.ownPid = p ∧ r.opened b = some ob ∧ ob.ownPid = q

/-- A mailbox with a registered name gets a pid that no open mailbox has. -/
def IssuesNewPid (r : LocalRun) : LocalEvent → Prop
  | .createMailboxNamed registeredName => ∀ h o, r.opened h = some o →
    o.ownPid ≠ (r.node.newMailbox registeredName).1.ownPid
  | _ => True

/-! ### The invariant -/

/-- What is true as long as the pids of the open mailboxes are different from each other. -/
structure Consistent (r : LocalRun) : Prop where
  wf : r.node.Wf
  here : ∀ (h : Handle) (o : MailboxObject), r.node.objects[h]? = some o → o.expired = false ∧
    o.ownPid.nodeName = r.node.nodeName ∧ o.ownPid.creation = r.node.creation
  filed : ∀ h o, r.opened h = some o → r.node.mailboxes o.ownPid.key = some h
  notFiled : ∀ k h, r.node.mailboxes k = some h → h ∉ r.closed
  recorded : ∀ a b oa ob, a ≠ b → r.opened a = some oa → r.opened b = some ob →
    (r.node.mailboxLinker.Linked oa.ownPid ob.ownPid ↔ LinkedAfter a b r.history)
  fresh : ∀ b, r.node.objects.length ≤ b →
    b ∉ r.closed ∧ exits b [] r.history = [] ∧ ∀ a, ¬ LinkedAfter a b r.history
  linksWork : r.LinksWork

variable {net : Connections} {r : LocalRun} {a b : Handle} {oa ob : MailboxObject}

theorem opened_eq_some {h : Handle} {o : MailboxObject} :
    r.opened h = some o ↔ h ∉ r.closed ∧ r.node.objects[h]? = some o := by
  rw [opened]
  by_cases hclosed : h ∈ r.closed
  · rw [if_pos hclosed]
    exact ⟨by rintro ⟨⟩, fun ho => absurd hclosed ho.1⟩
  · rw [if_neg hclosed]
    exact ⟨fun ho => ⟨hclosed, ho⟩, And.right⟩

theorem consistent_start (nodeName : Str) (creation : UInt32) :
    (start nodeName creation).Consistent where
  wf := ⟨by rintro _ _ ⟨⟩, by rintro _ _ ⟨⟩, by rintro _ ⟨⟩, Linker.distinct_create⟩
  here h o ho := by simp [start, create] at ho
  filed h o ho := by simp [start, create, opened] at ho
  notFiled k h hk := by cases hk
  recorded a b oa ob _ ha := by simp [start, create, opened] at ha
  fresh b _ := ⟨List.not_mem_nil, rfl, by rintro _ ⟨⟩⟩
  linksWork := by
    refine ⟨fun b o ho => ?_, rfl, fun p q hlinked => absurd hlinked Linker.not_linked_create⟩
    simp [start, create, opened] at ho

namespace Consistent

/-- Open mailboxes have different pids. -/
theorem eq_of_ownPid (hr : r.Consistent) (ha : r.opened a = some oa) (hb : r.opened b = some ob)
    (h : oa.ownPid = ob.ownPid) : a = b := by
  have hkey := hr.filed a oa ha
  rw [h, hr.filed b ob hb] at hkey
  exact (Option.some_inj.mp hkey).symm

theorem isLocal (hr : r.Consistent) (ha : r.opened a = some oa) :
    oa.ownPid.nodeName = r.node.nodeName :=
  (hr.here a oa (opened_eq_some.mp ha).2).2.1

/-- What the history says is linked is so, and the other way round: by pids. -/
theorem samePair_iff (hr : r.Consistent) (ha : r.opened a = some oa) (hb : r.opened b = some ob)
    {x y : Handle} {ox oy : MailboxObject} (hx : r.opened x = some ox) (hy : r.opened y = some oy) :
    Linker.SamePair (ox.ownPid, oy.ownPid) (oa.ownPid, ob.ownPid) ↔
      a = x ∧ b = y ∨ a = y ∧ b = x := by
  have hpid {u v : Handle} {ou ov : MailboxObject} (hu : r.opened u = some ou)
      (hv : r.opened v = some ov) : ou.ownPid = ov.ownPid ↔ v = u := by
    constructor
    · exact fun h => (hr.eq_of_ownPid hu hv h).symm
    · rintro rfl
      rw [Option.some_inj.mp (hu.symm.trans hv)]
  rw [Linker.SamePair, Prod.mk.injEq, Prod.swap_prod_mk, Prod.mk.injEq, hpid hx ha, hpid hy hb,
    hpid hx hb, hpid hy ha]
  exact or_congr_right and_comm

/-- A link is made or taken away. -/
theorem relink (hr : r.Consistent) (hab : a ≠ b) (ha : r.opened a = some oa)
    (hb : r.opened b = some ob) {e : LocalEvent} {linked : Bool} {k : Linker}
    (hrelinks : ∀ x y, relinks x y e =
      if a = x ∧ b = y ∨ a = y ∧ b = x then some linked else none)
    (hexit : ∀ x before, exit x before e = []) (hdistinct : k.Distinct)
    (hk : ∀ p q, k.Linked p q ↔ if Linker.SamePair (p, q) (oa.ownPid, ob.ownPid)
      then linked = true else r.node.mailboxLinker.Linked p q) :
    Consistent { r with
      node := { r.node with mailboxLinker := k }
      history := r.history ++ [e] } := by
  have hexits (x : Handle) : exits x [] (r.history ++ [e]) = exits x [] r.history := by
    rw [exits_concat, hexit, List.append_nil]
  have hrecorded (x y : Handle) (ox oy : MailboxObject) (hxy : x ≠ y) (hx : r.opened x = some ox)
      (hy : r.opened y = some oy) :
      k.Linked ox.ownPid oy.ownPid ↔ LinkedAfter x y (r.history ++ [e]) := by
    rw [hk, linkedAfter_concat, hrelinks]
    by_cases hsame : a = x ∧ b = y ∨ a = y ∧ b = x
    · rw [if_pos ((hr.samePair_iff ha hb hx hy).mpr hsame), if_pos hsame]
      simp
    · rw [if_neg (fun h => hsame ((hr.samePair_iff ha hb hx hy).mp h)), if_neg hsame,
        hr.recorded x y ox oy hxy hx hy]
      simp
  refine ⟨hr.wf.withLinker hdistinct, hr.here, hr.filed, hr.notFiled, hrecorded,
    fun x hx => ?_, fun x o ho => ?_, hr.linksWork.notRaised, fun p q hlinked => ?_⟩
  · obtain ⟨hclosed, hnone, hnever⟩ := hr.fresh x hx
    refine ⟨hclosed, (hexits x).trans hnone, fun y hlinked => ?_⟩
    rcases linkedAfter_concat.mp hlinked with hnow | ⟨-, hbefore⟩
    · -- the new link is between mailboxes that are there
      rw [hrelinks] at hnow
      have hlta := (List.getElem?_eq_some_iff.mp (opened_eq_some.mp ha).2).1
      have hltb := (List.getElem?_eq_some_iff.mp (opened_eq_some.mp hb).2).1
      have hx' : r.node.objects.length ≤ x := hx
      split at hnow
      · next hends =>
        obtain ⟨-, rfl⟩ | ⟨rfl, -⟩ := hends
        · omega
        · omega
      · cases hnow
    · exact hnever y hbefore
  · rw [hexits]
    exact hr.linksWork.told x o ho
  · rw [hk] at hlinked
    split at hlinked
    · next hsame =>
      rcases hsame with hsame | hsame
      · obtain ⟨rfl, rfl⟩ := Prod.mk.inj hsame
        exact ⟨a, b, oa, ob, hab, ha, rfl, hb, rfl⟩
      · obtain ⟨rfl, rfl⟩ := Prod.mk.inj hsame
        exact ⟨b, a, ob, oa, hab.symm, hb, rfl, ha, rfl⟩
    · exact hr.linksWork.linked p q hlinked

theorem link (hr : r.Consistent) (hab : a ≠ b) (ha : r.opened a = some oa)
    (hb : r.opened b = some ob) : Consistent { r with
      node := (r.node.link net oa.ownPid ob.ownPid).2
      history := r.history ++ [.link a b] } := by
  have hlocal : (r.node.link net oa.ownPid ob.ownPid).2 =
      r.node.incomingLink oa.ownPid ob.ownPid := by
    rw [ActualNode.link, if_neg (not_not.mpr (hr.isLocal hb))]
  rw [hlocal]
  refine hr.relink hab ha hb (fun x y => rfl) (fun x before => rfl) (hr.wf.distinct.link _ _)
    fun p q => ?_
  rw [Linker.linked_link]
  by_cases hsame : Linker.SamePair (p, q) (oa.ownPid, ob.ownPid)
  · simp [hsame]
  · simp [hsame]

theorem unlink (hr : r.Consistent) (hab : a ≠ b) (ha : r.opened a = some oa)
    (hb : r.opened b = some ob) : Consistent { r with
      node := (r.node.unlink net oa.ownPid ob.ownPid).2
      history := r.history ++ [.unlink a b] } := by
  have hlocal : (r.node.unlink net oa.ownPid ob.ownPid).2 =
      r.node.incomingUnlink oa.ownPid ob.ownPid := by
    rw [ActualNode.unlink, if_neg (not_not.mpr (hr.isLocal hb))]
  rw [hlocal]
  refine hr.relink hab ha hb (fun x y => rfl) (fun x before => rfl) (hr.wf.distinct.unlink _ _)
    fun p q => ?_
  rw [Linker.linked_unlink]
  by_cases hsame : Linker.SamePair (p, q) (oa.ownPid, ob.ownPid)
  · simp [hsame]
  · simp [hsame]

end Consistent

/-- What a new mailbox does to a run: it is filed under a pid that was not in the table, and
neither linked to anybody nor told anything. -/
structure Creates (name : Str) (e : LocalEvent) (r r' : LocalRun) : Prop where
  closed : r'.closed = r.closed
  raised : r'.raised = r.raised
  history : r'.history = r.history ++ [e]
  nodeName : r'.node.nodeName = r.node.nodeName
  creation : r'.node.creation = r.node.creation
  linker : r'.node.mailboxLinker = r.node.mailboxLinker
  objects : r'.node.objects = r.node.objects ++ [(r.node.newMailbox name).1]
  newPid : r.node.mailboxes (r.node.newMailbox name).1.ownPid.key = none
  mailboxes : r'.node.mailboxes = insertNew (r.node.newMailbox name).1.ownPid.key
    r.node.objects.length r.node.mailboxes
  relinks : ∀ x y, relinks x y e = none
  exit : ∀ x before, exit x before e = []

namespace Creates

variable {r' : LocalRun} {name : Str} {e : LocalEvent} {x y : Handle} {o ox oy : MailboxObject}

theorem exits_eq (hc : Creates name e r r') (x : Handle) :
    exits x [] r'.history = exits x [] r.history := by
  rw [hc.history, exits_concat, hc.exit, List.append_nil]

theorem linkedAfter_iff (hc : Creates name e r r') (x y : Handle) :
    LinkedAfter x y r'.history ↔ LinkedAfter x y r.history := by
  rw [hc.history, linkedAfter_concat, hc.relinks]
  simp

theorem mailboxes_eq_some (hc : Creates name e r r') {k : UInt32 × UInt32} :
    r'.node.mailboxes k = some x ↔
      k = (r.node.newMailbox name).1.ownPid.key ∧ x = r.node.objects.length ∨
        r.node.mailboxes k = some x := by
  rw [hc.mailboxes, insertNew, hc.newPid, if_neg (by simp)]
  by_cases hk : k = (r.node.newMailbox name).1.ownPid.key
  · subst hk
    rw [Function.update_self, hc.newPid]
    grind
  · rw [Function.update_of_ne hk]
    simp [hk]

/-- What is open afterwards was open before or is the new mailbox. -/
theorem opened (hc : Creates name e r r') (hx : r'.opened x = some o) :
    r.opened x = some o ∨ x = r.node.objects.length ∧ o = (r.node.newMailbox name).1 := by
  obtain ⟨hclosed, ho⟩ := opened_eq_some.mp hx
  rw [hc.closed] at hclosed
  rw [hc.objects] at ho
  by_cases hlt : x < r.node.objects.length
  · rw [List.getElem?_append_left hlt] at ho
    exact .inl (opened_eq_some.mpr ⟨hclosed, ho⟩)
  · rw [List.getElem?_append_right (Nat.le_of_not_lt hlt)] at ho
    obtain ⟨hlast, ho⟩ := List.getElem?_eq_some_iff.mp ho
    rw [List.length_singleton] at hlast
    exact .inr ⟨Nat.le_antisymm (by omega) (Nat.le_of_not_lt hlt), by simpa using ho.symm⟩

theorem stillOpen (hc : Creates name e r r') (hx : r.opened x = some o) :
    r'.opened x = some o := by
  obtain ⟨hclosed, ho⟩ := opened_eq_some.mp hx
  rw [← hc.closed] at hclosed
  exact opened_eq_some.mpr ⟨hclosed, getElem?_objects_of_new hc.objects ho⟩

/-- Nothing is linked to the new mailbox. -/
theorem not_linked (hc : Creates name e r r') (hr : r.Consistent) (p : EPid) :
    ¬ r.node.mailboxLinker.Linked p (r.node.newMailbox name).1.ownPid := by
  intro hlinked
  obtain ⟨-, y, -, oy, -, -, -, hy, hpid⟩ := hr.linksWork.linked _ _ hlinked
  have hfiled := hr.filed y oy hy
  rw [hpid, hc.newPid] at hfiled
  cases hfiled

theorem here (hc : Creates name e r r') (hr : r.Consistent) (ho : r'.node.objects[x]? = some o) :
    o.expired = false ∧ o.ownPid.nodeName = r'.node.nodeName ∧
      o.ownPid.creation = r'.node.creation := by
  rw [hc.nodeName, hc.creation]
  rw [hc.objects] at ho
  rcases List.mem_append.mp (List.mem_of_getElem? ho) with hmem | hmem
  · obtain ⟨y, hy⟩ := List.mem_iff_getElem?.mp hmem
    exact hr.here y o hy
  · rw [List.mem_singleton.mp hmem]
    exact ⟨rfl, rfl, rfl⟩

theorem recorded (hc : Creates name e r r') (hr : r.Consistent) (hxy : x ≠ y)
    (hx : r'.opened x = some ox) (hy : r'.opened y = some oy) :
    r'.node.mailboxLinker.Linked ox.ownPid oy.ownPid ↔ LinkedAfter x y r'.history := by
  obtain ⟨-, -, hnever⟩ := hr.fresh _ (Nat.le_refl _)
  rw [hc.linker, hc.linkedAfter_iff]
  rcases hc.opened hx with hx | ⟨rfl, rfl⟩
  · rcases hc.opened hy with hy | ⟨rfl, rfl⟩
    · exact hr.recorded x y ox oy hxy hx hy
    · exact iff_of_false (hc.not_linked hr _) (hnever x)
  · rcases hc.opened hy with hy | ⟨rfl, rfl⟩
    · exact iff_of_false (fun h => hc.not_linked hr _ h.symm) (fun h => hnever y h.symm)
    · exact absurd rfl hxy

theorem fresh (hc : Creates name e r r') (hr : r.Consistent)
    (hx : r'.node.objects.length ≤ x) :
    x ∉ r'.closed ∧ exits x [] r'.history = [] ∧ ∀ y, ¬ LinkedAfter y x r'.history := by
  rw [hc.objects, List.length_append, List.length_singleton] at hx
  obtain ⟨hclosed, hnone, hnever⟩ := hr.fresh x (by omega)
  rw [← hc.closed] at hclosed
  exact ⟨hclosed, (hc.exits_eq x).trans hnone,
    fun y => (not_congr (hc.linkedAfter_iff y x)).mpr (hnever y)⟩

theorem told_eq (hc : Creates name e r r') (hr : r.Consistent) (hx : r'.opened x = some o) :
    o.contents.brokenLinks.map (Prod.map id some) =
      (exits x [] r'.history).map (Prod.map id r'.pidOf) := by
  rw [hc.exits_eq]
  rcases hc.opened hx with hx | ⟨rfl, rfl⟩
  · -- whoever has sent something has a pid
    have htold := hr.linksWork.told x o hx
    rw [htold]
    refine List.map_congr_left fun y hy => ?_
    have hmem : (y.1, r.pidOf y.2) ∈ o.contents.brokenLinks.map (Prod.map id some) := by
      rw [htold]
      exact List.mem_map_of_mem hy
    obtain ⟨⟨reason, p⟩, -, hp⟩ := List.mem_map.mp hmem
    obtain ⟨-, hp⟩ := Prod.mk.inj hp
    obtain ⟨oy, hoy, -⟩ := Option.map_eq_some_iff.mp hp.symm
    rw [Prod.map_apply', Prod.map_apply', pidOf, pidOf, hoy,
      getElem?_objects_of_new hc.objects hoy]
  · obtain ⟨-, hexits, -⟩ := hr.fresh _ (Nat.le_refl _)
    rw [hexits]
    rfl

theorem linked (hc : Creates name e r r') (hr : r.Consistent) {p q : EPid}
    (hlinked : r'.node.mailboxLinker.Linked p q) : ∃ x y ox oy, x ≠ y ∧
      r'.opened x = some ox ∧ ox.ownPid = p ∧ r'.opened y = some oy ∧ oy.ownPid = q := by
  rw [hc.linker] at hlinked
  obtain ⟨x, y, ox, oy, hxy, hx, hp, hy, hq⟩ := hr.linksWork.linked p q hlinked
  exact ⟨x, y, ox, oy, hxy, hc.stillOpen hx, hp, hc.stillOpen hy, hq⟩

theorem consistent (hc : Creates name e r r') (hr : r.Consistent) (hwf : r'.node.Wf) :
    r'.Consistent where
  wf := hwf
  here _ _ ho := hc.here hr ho
  filed x o hx := by
    refine hc.mailboxes_eq_some.mpr ?_
    rcases hc.opened hx with hx | ⟨rfl, rfl⟩
    · exact .inr (hr.filed x o hx)
    · exact .inl ⟨rfl, rfl⟩
  notFiled k x hk := by
    rw [hc.closed]
    rcases hc.mailboxes_eq_some.mp hk with ⟨-, rfl⟩ | hk
    · exact (hr.fresh _ (Nat.le_refl _)).1
    · exact hr.notFiled k x hk
  recorded _ _ _ _ hxy hx hy := hc.recorded hr hxy hx hy
  fresh _ hx := hc.fresh hr hx
  linksWork := ⟨fun _ _ hx => hc.told_eq hr hx, hc.raised.trans hr.linksWork.notRaised,
    fun _ _ hlinked => hc.linked hr hlinked⟩

end Creates

namespace Consistent

/-- Everybody who is linked to an open mailbox can be told of its end. -/
theorem notifiable (hr : r.Consistent) {p q : EPid} (hlinked : r.node.mailboxLinker.Linked p q) :
    notifiable net r.node q = true := by
  obtain ⟨-, y, -, oy, -, -, -, hy, rfl⟩ := hr.linksWork.linked p q hlinked
  have ho := (opened_eq_some.mp hy).2
  rw [ActualNode.notifiable, if_neg (not_not.mpr (hr.isLocal hy)), hr.filed y oy hy]
  dsimp only
  rw [isExpired, ho]
  dsimp only
  rw [(hr.here y oy ho).1]
  rfl

/-- What a close sends to an open mailbox is what the history says. -/
theorem localExits_linkedPids (hr : r.Consistent) (hab : a ≠ b) (ha : r.opened a = some oa)
    (hb : r.opened b = some ob) {n : ActualNode} (hn : n.resolve = r.node.resolve)
    (reason : Str) :
    localExits oa.ownPid reason n (r.node.mailboxLinker.linkedPids oa.ownPid) b =
      if LinkedAfter a b r.history then [(reason, oa.ownPid)] else [] := by
  have hresolve : ∀ q ∈ r.node.mailboxLinker.linkedPids oa.ownPid,
      n.resolve q = some b ↔ q = ob.ownPid := by
    intro q hq
    obtain ⟨-, y, -, oy, -, -, -, hy, rfl⟩ :=
      hr.linksWork.linked _ _ (Linker.linked_iff_mem_linkedPids.mpr hq)
    rw [hn, resolve, if_neg (not_not.mpr (hr.isLocal hy)), hr.filed y oy hy]
    constructor
    · intro hyb
      obtain rfl := Option.some_inj.mp hyb
      rw [Option.some_inj.mp (hy.symm.trans hb)]
    · exact fun h => congrArg some (hr.eq_of_ownPid hy hb h)
  have hlinked : ob.ownPid ∈ r.node.mailboxLinker.linkedPids oa.ownPid ↔
      LinkedAfter a b r.history := by
    rw [← Linker.linked_iff_mem_linkedPids]
    exact hr.recorded a b oa ob hab ha hb
  rw [localExits_of_resolve (Linker.linkedPids_nodup hr.wf.distinct oa.ownPid) hresolve]
  simp only [hlinked]

end Consistent

/-- What the close of an open mailbox does to a run: its pid is gone from the tables, and everybody
who was linked to it has been told. -/
structure Closes (a : Handle) (oa : MailboxObject) (reason : Str) (r r' : LocalRun) : Prop where
  closed : r'.closed = a :: r.closed
  raised : r'.raised = r.raised
  history : r'.history = r.history ++ [.close a reason]
  nodeName : r'.node.nodeName = r.node.nodeName
  creation : r'.node.creation = r.node.creation
  mailboxes : r'.node.mailboxes = erase oa.ownPid.key r.node.mailboxes
  linker : r'.node.mailboxLinker = (r.node.mailboxLinker.removeLinksFrom oa.ownPid).2
  objects : ∀ x : Handle,
    r'.node.objects[x]?.map (fun o : MailboxObject => (o.ownPid, o.expired)) =
      r.node.objects[x]?.map fun o : MailboxObject => (o.ownPid, o.expired)
  told : ∀ (b : Handle) (ob : MailboxObject), b ≠ a → r.opened b = some ob →
    r'.node.brokenLinksOf b = ob.contents.brokenLinks ++
      if LinkedAfter a b r.history then [(reason, oa.ownPid)] else []

namespace Closes

variable {r' : LocalRun} {reason : Str} {x y : Handle} {o ox : MailboxObject}

/-- What is open afterwards was open before, under the same pid. -/
theorem opened (hc : Closes a oa reason r r') (hx : r'.opened x = some o) :
    x ≠ a ∧ ∃ ox, r.opened x = some ox ∧ ox.ownPid = o.ownPid := by
  obtain ⟨hclosed, ho⟩ := opened_eq_some.mp hx
  rw [hc.closed, List.mem_cons, not_or] at hclosed
  have hshape := hc.objects x
  rw [ho] at hshape
  obtain ⟨ox, hox, hpid⟩ := Option.map_eq_some_iff.mp hshape.symm
  exact ⟨hclosed.1, ox, opened_eq_some.mpr ⟨hclosed.2, hox⟩, (Prod.mk.inj hpid).1⟩

theorem stillOpen (hc : Closes a oa reason r r') (hxa : x ≠ a) (hx : r.opened x = some ox) :
    ∃ o, r'.opened x = some o ∧ o.ownPid = ox.ownPid := by
  obtain ⟨hclosed, hox⟩ := opened_eq_some.mp hx
  have hshape := hc.objects x
  rw [hox] at hshape
  obtain ⟨o, ho, hpid⟩ := Option.map_eq_some_iff.mp hshape
  refine ⟨o, opened_eq_some.mpr ⟨?_, ho⟩, (Prod.mk.inj hpid).1⟩
  rw [hc.closed, List.mem_cons, not_or]
  exact ⟨hxa, hclosed⟩

theorem pidOf_eq (hc : Closes a oa reason r r') : r'.pidOf = r.pidOf := by
  funext x
  have hpid := congrArg (Option.map Prod.fst) (hc.objects x)
  rwa [Option.map_map, Option.map_map] at hpid

/-- Nobody links anybody. -/
theorem linkedAfter_iff (hc : Closes a oa reason r r') (x y : Handle) :
    LinkedAfter x y r'.history ↔ LinkedAfter x y r.history := by
  rw [hc.history, linkedAfter_concat]
  simp [relinks]

theorem filed (hc : Closes a oa reason r r') (hr : r.Consistent) (ha : r.opened a = some oa)
    (hx : r'.opened x = some o) : r'.node.mailboxes o.ownPid.key = some x := by
  obtain ⟨hxa, ox, hx, hpid⟩ := hc.opened hx
  have hfiled := hr.filed x ox hx
  have hkey : ox.ownPid.key ≠ oa.ownPid.key := by
    intro hkey
    rw [hkey, hr.filed a oa ha] at hfiled
    exact hxa (Option.some_inj.mp hfiled).symm
  rw [hc.mailboxes, ← hpid, erase, Function.update_of_ne hkey]
  exact hfiled

/-- The closed mailbox was only there under its own pid. -/
theorem notFiled (hc : Closes a oa reason r r') (hr : r.Consistent) (ha : r.opened a = some oa)
    {k : UInt32 × UInt32} (hk : r'.node.mailboxes k = some x) : x ∉ r'.closed := by
  rw [hc.mailboxes, erase] at hk
  have hkey : k ≠ oa.ownPid.key := by
    rintro rfl
    rw [Function.update_self] at hk
    cases hk
  rw [Function.update_of_ne hkey] at hk
  rw [hc.closed, List.mem_cons, not_or]
  refine ⟨?_, hr.notFiled k x hk⟩
  rintro rfl
  obtain ⟨o, ho, hokey⟩ := hr.wf.filed k x hk
  obtain rfl := Option.some_inj.mp ((opened_eq_some.mp ha).2.symm.trans ho)
  exact hkey hokey.symm

theorem recorded (hc : Closes a oa reason r r') (hr : r.Consistent) (ha : r.opened a = some oa)
    {oy : MailboxObject} (hxy : x ≠ y) (hx : r'.opened x = some ox) (hy : r'.opened y = some oy) :
    r'.node.mailboxLinker.Linked ox.ownPid oy.ownPid ↔ LinkedAfter x y r'.history := by
  obtain ⟨hxa, ox', hx, hpidx⟩ := hc.opened hx
  obtain ⟨hya, oy', hy, hpidy⟩ := hc.opened hy
  rw [hc.linker, Linker.linked_removeLinksFrom, ← hpidx, ← hpidy, hc.linkedAfter_iff,
    hr.recorded x y ox' oy' hxy hx hy]
  exact and_iff_left
    ⟨fun h => hxa (hr.eq_of_ownPid hx ha h), fun h => hya (hr.eq_of_ownPid hy ha h)⟩

theorem fresh (hc : Closes a oa reason r r') (hr : r.Consistent) (ha : r.opened a = some oa)
    (hx : r'.node.objects.length ≤ x) :
    x ∉ r'.closed ∧ exits x [] r'.history = [] ∧ ∀ y, ¬ LinkedAfter y x r'.history := by
  have hshape := hc.objects x
  rw [List.getElem?_eq_none hx] at hshape
  have hnew : r.node.objects[x]? = none := Option.map_eq_none_iff.mp hshape.symm
  obtain ⟨hclosed, hnone, hnever⟩ := hr.fresh x (List.getElem?_eq_none_iff.mp hnew)
  refine ⟨?_, ?_, fun y => (not_congr (hc.linkedAfter_iff y x)).mpr (hnever y)⟩
  · rw [hc.closed, List.mem_cons, not_or]
    refine ⟨?_, hclosed⟩
    rintro rfl
    rw [(opened_eq_some.mp ha).2] at hnew
    cases hnew
  · rw [hc.history, exits_concat, hnone, List.nil_append, List.nil_append, exit,
      if_neg (hnever a)]

/-- What a mailbox has been told is what the history says. -/
theorem told_eq (hc : Closes a oa reason r r') (hr : r.Consistent) (ha : r.opened a = some oa)
    (hx : r'.opened x = some o) : o.contents.brokenLinks.map (Prod.map id some) =
      (exits x [] r'.history).map (Prod.map id r'.pidOf) := by
  obtain ⟨hxa, ox, hox, -⟩ := hc.opened hx
  have hbroken : o.contents.brokenLinks = ox.contents.brokenLinks ++
      if LinkedAfter a x r.history then [(reason, oa.ownPid)] else [] := by
    rw [← hc.told x ox hxa hox, brokenLinksOf, (opened_eq_some.mp hx).2]
  have hpida : r.pidOf a = some oa.ownPid := by
    rw [pidOf, (opened_eq_some.mp ha).2, Option.map_some]
  rw [hbroken, hc.pidOf_eq, hc.history, exits_concat, List.nil_append, List.map_append,
    List.map_append, hr.linksWork.told x ox hox, exit]
  by_cases hlinkedAfter : LinkedAfter a x r.history
  · rw [if_pos hlinkedAfter, if_pos hlinkedAfter, List.map_singleton, List.map_singleton,
      Prod.map_apply, Prod.map_apply, hpida]
  · rw [if_neg hlinkedAfter, if_neg hlinkedAfter]
    rfl

theorem linked (hc : Closes a oa reason r r') (hr : r.Consistent) (ha : r.opened a = some oa)
    {p q : EPid} (hlinked : r'.node.mailboxLinker.Linked p q) : ∃ x y ox oy, x ≠ y ∧
      r'.opened x = some ox ∧ ox.ownPid = p ∧ r'.opened y = some oy ∧ oy.ownPid = q := by
  rw [hc.linker, Linker.linked_removeLinksFrom] at hlinked
  obtain ⟨hlinked, hpa, hqa⟩ := hlinked
  obtain ⟨x, y, ox, oy, hxy, hx, rfl, hy, rfl⟩ := hr.linksWork.linked p q hlinked
  have hxa : x ≠ a := by
    rintro rfl
    exact hpa (by rw [Option.some_inj.mp (hx.symm.trans ha)])
  have hya : y ≠ a := by
    rintro rfl
    exact hqa (by rw [Option.some_inj.mp (hy.symm.trans ha)])
  obtain ⟨ox', hx', hpidx⟩ := hc.stillOpen hxa hx
  obtain ⟨oy', hy', hpidy⟩ := hc.stillOpen hya hy
  exact ⟨x, y, ox', oy', hxy, hx', hpidx, hy', hpidy⟩

theorem consistent (hc : Closes a oa reason r r') (hr : r.Consistent) (ha : r.opened a = some oa)
    (hwf : r'.node.Wf) : r'.Consistent where
  wf := hwf
  here x o ho := by
    have hshape := hc.objects x
    rw [ho] at hshape
    obtain ⟨ox, hox, hpid⟩ := Option.map_eq_some_iff.mp hshape.symm
    obtain ⟨hpid, hexpired⟩ := Prod.mk.inj hpid
    rw [← hpid, ← hexpired, hc.nodeName, hc.creation]
    exact hr.here x ox hox
  filed _ _ hx := hc.filed hr ha hx
  notFiled _ _ hk := hc.notFiled hr ha hk
  recorded _ _ _ _ hxy hx hy := hc.recorded hr ha hxy hx hy
  fresh _ hx := hc.fresh hr ha hx
  linksWork := ⟨fun _ _ hx => hc.told_eq hr ha hx, hc.raised.trans hr.linksWork.notRaised,
    fun _ _ hlinked => hc.linked hr ha hlinked⟩

end Closes

namespace Consistent

theorem close (hr : r.Consistent) (ha : r.opened a = some oa) (net : Connections)
    (reason : Str) :
    ∃ n, r.node.closeMailbox net oa.ownPid oa.ownName reason = (.ok (), n) ∧
      Consistent ⟨n, a :: r.closed, r.raised, r.history ++ [.close a reason]⟩ := by
  let c : Closing := ⟨a, oa.ownPid, oa.ownName, reason, net, r.node⟩
  have hall : ∀ p ∈ c.linkedPids, ActualNode.notifiable c.net c.before p = true :=
    fun p hp => hr.notifiable (Linker.linked_iff_mem_linkedPids.mpr hp)
  refine ⟨_, Closing.closeMailbox_of_notifiable hall, ?_⟩
  have hsame := sameTables_notifiedAll c.id c.reason c.linkedPids c.detached
  have hwf : ((notifiedAll c.id c.reason c.detached c.linkedPids).remove c.id c.name).Wf := by
    rw [← Closing.after_of_notifiable hall]
    exact Wf.after hr.wf
  refine Closes.consistent ⟨rfl, rfl, rfl, hsame.nodeName, ?_, ?_, hsame.mailboxLinker, ?_, ?_⟩
    hr ha hwf
  · exact creation_notifiedAll c.id c.reason c.linkedPids c.detached
  · exact congrArg (erase oa.ownPid.key) hsame.mailboxes
  · exact fun x => objects_notifiedAll c.id c.reason c.linkedPids x c.detached
  · intro b ob hb hob
    have htold := brokenLinksOf_notifiedAll c.id c.reason b c.linkedPids (n := c.detached) hall
    have hbefore : c.detached.brokenLinksOf b = ob.contents.brokenLinks := by
      rw [brokenLinksOf, show c.detached.objects[b]? = some ob from (opened_eq_some.mp hob).2]
    have hexits := hr.localExits_linkedPids (Ne.symm hb) ha hob (n := c.detached) rfl reason
    rw [← hbefore, ← hexits]
    exact htold

theorem createMailbox (hr : r.Consistent) {n : ActualNode}
    (h : r.node.createMailbox = some n) :
    Consistent { r with node := n, history := r.history ++ [.createMailbox] } := by
  have hwf := hr.wf.createMailbox h
  rw [ActualNode.createMailbox] at h
  dsimp only at h
  split at h
  · cases h
  · next hnew =>
    obtain rfl := Option.some_inj.mp h
    exact Creates.consistent (r := r) (e := .createMailbox) ⟨rfl, rfl, rfl, rfl, rfl, rfl, rfl,
      Option.not_isSome_iff_eq_none.mp hnew, rfl, fun x y => rfl, fun x before => rfl⟩ hr hwf

/-- The pid is new if no open mailbox has it. -/
theorem createMailboxNamed (hr : r.Consistent) {name : Str}
    (hnew : r.IssuesNewPid (.createMailboxNamed name)) :
    Consistent { r with
      node := r.node.createMailboxNamed name
      history := r.history ++ [.createMailboxNamed name] } := by
  refine Creates.consistent (r := r) (e := .createMailboxNamed name) ⟨rfl, rfl, rfl, rfl, rfl, rfl,
    rfl, ?_, rfl, fun x y => rfl, fun x before => rfl⟩ hr (hr.wf.createMailboxNamed name)
  rw [Option.eq_none_iff_forall_not_mem]
  intro h hfiled
  obtain ⟨o, ho, hkey⟩ := hr.wf.filed _ h hfiled
  obtain ⟨-, hnode, hcreation⟩ := hr.here h o ho
  refine hnew h o (opened_eq_some.mpr ⟨hr.notFiled _ h hfiled, ho⟩) ?_
  -- the pids of a node differ in nothing else
  obtain ⟨hid, hserial⟩ := Prod.mk.inj hkey
  rw [EPid.mk.injEq]
  exact ⟨hnode, hid, hserial, hcreation⟩

/-- **What is true in every run** whose mailboxes get new pids. -/
theorem step (hr : r.Consistent) {e : LocalEvent} (hnew : r.IssuesNewPid e) {r' : LocalRun}
    (h : r.step net e = some r') : r'.Consistent := by
  cases e with
  | createMailbox =>
    rw [LocalRun.step] at h
    split at h
    · next n hn =>
      obtain rfl := Option.some_inj.mp h
      exact hr.createMailbox hn
    · cases h
  | createMailboxNamed registeredName =>
    obtain rfl := Option.some_inj.mp h
    exact hr.createMailboxNamed hnew
  | link h₁ h₂ =>
    rw [LocalRun.step] at h
    split at h
    · next o₁ o₂ ho₁ ho₂ =>
      split at h
      · cases h
      · next hne =>
        obtain rfl := Option.some_inj.mp h
        exact hr.link hne ho₁ ho₂
    · cases h
  | unlink h₁ h₂ =>
    rw [LocalRun.step] at h
    split at h
    · next o₁ o₂ ho₁ ho₂ =>
      split at h
      · cases h
      · next hne =>
        obtain rfl := Option.some_inj.mp h
        exact hr.unlink hne ho₁ ho₂
    · cases h
  | close h' reason =>
    rw [LocalRun.step] at h
    split at h
    · next o ho =>
      obtain ⟨n, hclose, hconsistent⟩ := hr.close ho net reason
      rw [hclose] at h
      obtain rfl := Option.some_inj.mp h
      exact hconsistent
    · cases h

end Consistent

/-- **The links of a node work as documented** in every run in which no mailbox with a registered
name gets the pid of an open one. -/
theorem linksWork_of_issuesNewPid {nodeName : Str} {creation : UInt32} {es : List LocalEvent}
    (h : EveryStep (step net) IssuesNewPid (start nodeName creation) es) :
    Throughout (step net) LinksWork (start nodeName creation) es :=
  (throughout_of_everyStep (fun _ _ _ hr hnew ht => hr.step hnew ht)
    (consistent_start nodeName creation) h).mono fun _ hr => hr.linksWork

/-- A link that breaks. -/
def breakLink : List LocalEvent :=
  [.createMailbox, .createMailboxNamed (bytesOf "b"), .link 0 1, .close 0 (bytesOf "normal")]

theorem linksWork_breakLink : ∃ r, run (step allReachable) (start (bytesOf "a@h") 0) breakLink =
    some r ∧ r.LinksWork ∧
      r.node.brokenLinksOf 1 = [(bytesOf "normal", ⟨bytesOf "a@h", 1, 0, 0⟩)] := by
  have hnew : EveryStep (step allReachable) IssuesNewPid (start (bytesOf "a@h") 0) breakLink := by
    refine everyStep_cons.mpr ⟨trivial, fun r hr => ?_⟩
    obtain rfl := Option.some_inj.mp hr
    refine everyStep_cons.mpr ⟨fun h o ho => ?_, fun r hr => ?_⟩
    · have hmem := List.mem_of_getElem? (opened_eq_some.mp ho).2
      rw [List.mem_singleton.mp hmem]
      decide
    · exact everyStep_cons.mpr ⟨trivial, fun r hr =>
        everyStep_cons.mpr ⟨trivial, fun r hr => everyStep_nil⟩⟩
  obtain ⟨r, hrun, hbroken⟩ : ∃ r, run (step allReachable) (start (bytesOf "a@h") 0) breakLink =
      some r ∧ r.node.brokenLinksOf 1 = [(bytesOf "normal", ⟨bytesOf "a@h", 1, 0, 0⟩)] :=
    ⟨_, rfl, rfl⟩
  exact ⟨r, hrun, linksWork_of_issuesNewPid hnew _ (List.prefix_refl _) r hrun, hbroken⟩

/-! ### When the pids start over -/

/-- Fifteen bits of id and thirteen bits of serial are all there is to a pid. -/
theorem issued_congr {m n : ℕ} (h : (m + 1) % 2 ^ 28 = (n + 1) % 2 ^ 28) (nodeName : Str)
    (creation : UInt32) :
    issued nodeName (fun _ => creation) m = issued nodeName (fun _ => creation) n := by
  have hid : (issued nodeName (fun _ => creation) m).id =
      (issued nodeName (fun _ => creation) n).id := by
    rw [← UInt32.toNat_inj, toNat_id_issued, toNat_id_issued]
    omega
  have hserial : (issued nodeName (fun _ => creation) m).serial =
      (issued nodeName (fun _ => creation) n).serial := by
    rw [← UInt32.toNat_inj, toNat_serial_issued, toNat_serial_issued]
    omega
  exact (EPid.mk.injEq ..).mpr ⟨rfl, hid, hserial, rfl⟩

/-- Mailboxes with a registered name, one after the other. -/
theorem run_replicate (net : Connections) (nodeName : Str) (creation : UInt32) (name : Str)
    (n : ℕ) : ∃ r, run (step net) (start nodeName creation)
      (List.replicate n (.createMailboxNamed name)) = some r ∧ r.closed = [] ∧
        r.node.nodeName = nodeName ∧ r.node.creation = creation ∧
          r.node.pidSource = PidSource.after n ∧ r.node.mailboxLinker = .create ∧
            r.node.objects = (List.range n).map fun i =>
              ⟨issued nodeName (fun _ => creation) i, name, .create, false⟩ := by
  induction n with
  | zero => exact ⟨_, rfl, rfl, rfl, rfl, rfl, rfl, rfl⟩
  | succ n ih =>
    obtain ⟨r, hrun, hclosed, hname, hcreation, hsource, hlinker, hobjects⟩ := ih
    refine ⟨{ r with
      node := r.node.createMailboxNamed name
      history := r.history ++ [.createMailboxNamed name] }, ?_, hclosed, hname, hcreation, ?_,
      hlinker, ?_⟩
    · rw [List.replicate_succ']
      exact run_concat_eq_some.mpr ⟨r, hrun, rfl⟩
    · show r.node.pidSource.updatePidFields = PidSource.after (n + 1)
      rw [hsource, PidSource.after_succ]
    · show r.node.objects ++ [(r.node.newMailbox name).1] = _
      rw [hobjects, List.range_succ, List.map_append, List.map_singleton, newMailbox, hsource,
        hname, hcreation]
      rfl

/-- So many mailboxes that the last one has the pid of the first; the last one is closed, and then
a mailbox that has linked itself to the first. -/
def reusesPid (name : Str) (n : ℕ) : List LocalEvent :=
  List.replicate (n + 1) (.createMailboxNamed name) ++
    [.close n (bytesOf "normal"), .link 1 0, .close 1 (bytesOf "normal")]

theorem notifiable_of_unknown {n : ActualNode} {p : EPid} (hlocal : p.nodeName = n.nodeName)
    (hunknown : n.mailboxes p.key = none) : notifiable net n p = false := by
  rw [notifiable, if_neg (not_not.mpr hlocal), hunknown]

/-- The pid that a mailbox has linked itself to leads nowhere when the mailbox is closed. -/
theorem close_raises (net : Connections) {h₁ h₂ : Handle} {o₁ o₂ : MailboxObject} (hne : h₁ ≠ h₂)
    (h₁o : r.opened h₁ = some o₁) (h₂o : r.opened h₂ = some o₂)
    (hlocal : o₂.ownPid.nodeName = r.node.nodeName)
    (hunknown : r.node.mailboxes o₂.ownPid.key = none)
    (hlinks : r.node.mailboxLinker.establishedLinks = []) (reason : Str) :
    ∃ r', run (step net) r [.link h₁ h₂, .close h₁ reason] = some r' ∧ r'.raised ≠ [] := by
  have hlink : r.step net (.link h₁ h₂) = some { r with
      node := r.node.incomingLink o₁.ownPid o₂.ownPid
      history := r.history ++ [.link h₁ h₂] } := by
    rw [step, h₁o, h₂o]
    dsimp only
    rw [if_neg hne, ActualNode.link, if_neg (not_not.mpr hlocal)]
  let c : Closing := ⟨h₁, o₁.ownPid, o₁.ownName, reason, net,
    r.node.incomingLink o₁.ownPid o₂.ownPid⟩
  have hlinked : c.linkedPids = [] ++ o₂.ownPid :: [] := by
    have hnew : c.before.mailboxLinker.establishedLinks = [(o₁.ownPid, o₂.ownPid)] := by
      show (r.node.mailboxLinker.link o₁.ownPid o₂.ownPid).establishedLinks = _
      rw [Linker.link, Linker.establishLinkBetween, Linker.removeLinkBetween, hlinks]
      rfl
    rw [Closing.linkedPids, Linker.linkedPids_eq, hnew]
    simp [Linker.Mentions, Linker.otherEnd, c]
  have hnot : notifiable net c.before o₂.ownPid = false :=
    notifiable_of_unknown hlocal hunknown
  obtain ⟨error, n, hclose⟩ : ∃ error n,
      (r.node.incomingLink o₁.ownPid o₂.ownPid).closeMailbox net o₁.ownPid o₁.ownName reason =
        (.error error, n) :=
    (Closing.closeMailbox_of_not_notifiable hlinked (by rintro _ ⟨⟩) hnot).imp fun error h => ⟨_, h⟩
  have hopened : opened { r with
      node := r.node.incomingLink o₁.ownPid o₂.ownPid
      history := r.history ++ [.link h₁ h₂] } h₁ = some o₁ := h₁o
  refine ⟨⟨n, h₁ :: r.closed, r.raised ++ [error],
    r.history ++ [.link h₁ h₂] ++ [.close h₁ reason]⟩, ?_, by simp⟩
  rw [run_cons, hlink, Option.bind_some, run_cons, step, hopened]
  dsimp only
  rw [hclose]
  rfl

/-- The first mailbox is open, but its pid leads nowhere any more. -/
theorem not_linksWork_of_issued_eq (net : Connections) {nodeName : Str} {creation : UInt32}
    (name : Str) {n : ℕ} (hn : 2 ≤ n)
    (hreused : issued nodeName (fun _ => creation) n = issued nodeName (fun _ => creation) 0) :
    ¬ Throughout (step net) LinksWork (start nodeName creation) (reusesPid name n) := by
  obtain ⟨r, hrun, hclosed, hname, -, -, hlinker, hobjects⟩ :=
    run_replicate net nodeName creation name (n + 1)
  have hopened {i : ℕ} (hi : i ≤ n) : r.opened i =
      some ⟨issued nodeName (fun _ => creation) i, name, .create, false⟩ := by
    rw [opened_eq_some, hclosed, hobjects, List.getElem?_map,
      List.getElem?_range (Nat.lt_succ_of_le hi)]
    exact ⟨List.not_mem_nil, rfl⟩
  -- nobody is told of the end of the last mailbox, and what is under the common pid is erased
  let last : Closing := ⟨n, issued nodeName (fun _ => creation) 0, name, bytesOf "normal", net,
    r.node⟩
  have hlast : last.linkedPids = [] := by
    rw [Closing.linkedPids, hlinker]
    rfl
  have hcloseLast := Closing.closeMailbox_of_notifiable (c := last) (by simp [hlast])
  rw [hlast] at hcloseLast
  let r' : LocalRun := ⟨last.detached.remove last.id name, [n], r.raised,
    r.history ++ [.close n (bytesOf "normal")]⟩
  have hstep : r.step net (.close n (bytesOf "normal")) = some r' := by
    rw [step, hopened (Nat.le_refl n), hreused]
    dsimp only
    rw [hcloseLast, hclosed]
    rfl
  have hstill {i : ℕ} (hi : i < n) : r'.opened i =
      some ⟨issued nodeName (fun _ => creation) i, name, .create, false⟩ := by
    rw [opened_eq_some]
    refine ⟨fun hmem => ?_, (opened_eq_some.mp (hopened (Nat.le_of_lt hi))).2⟩
    exact Nat.ne_of_lt hi (List.mem_singleton.mp hmem)
  have hlinks : r'.node.mailboxLinker.establishedLinks = [] := by
    show (r.node.mailboxLinker.removeLinksFrom _).2.establishedLinks = []
    rw [hlinker]
    rfl
  have hunknown : erase (issued nodeName (fun _ => creation) 0).key r.node.mailboxes
      (issued nodeName (fun _ => creation) 0).key = none := by
    rw [erase, Function.update_self]
  obtain ⟨r'', hrest, hraised⟩ := close_raises net Nat.one_ne_zero (hstill (by omega))
    (hstill (by omega)) hname.symm hunknown hlinks (bytesOf "normal")
  intro hall
  refine hraised (hall _ (List.prefix_refl _) r'' ?_).notRaised
  rw [reusesPid, run_append, hrun, Option.bind_some, run_cons, hstep]
  exact hrest

/-- **The pids start over after `2 ^ 28` mailboxes**, and nobody looks whether they are new. -/
theorem not_linksWork_wrapped : ¬ Throughout (step allReachable) LinksWork (start (bytesOf "a@h") 0)
    (reusesPid (bytesOf "a") (2 ^ 28)) :=
  have hreused : (2 ^ 28 + 1) % 2 ^ 28 = (0 + 1) % 2 ^ 28 := by omega
  not_linksWork_of_issued_eq allReachable (bytesOf "a") (by omega)
    (issued_congr hreused (bytesOf "a@h") 0)

end LocalRun

end TinchPp
