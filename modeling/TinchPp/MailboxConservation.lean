import Mathlib.Data.Multiset.AddSub
import TinchPp.ActualMailbox

/-!
# Nothing is lost or made up in a mailbox

What has arrived in a mailbox has been returned or is still queued, whatever comes in between: broken
links, time-outs, and receives that end in an exception. The messages are accounted for as a
multiset, since they do not come out in the order in which they went in. The broken links do, and
they come out before any message.

## Main results

* `MailboxRun.Conserves.step` — what one step does to the two accounts
* `MailboxRun.conserves_of_run` — messages and broken links are accounted for at every point of every
  run, broken links go first, and an exception leaves the messages alone
-/

namespace TinchPp

open EventSystem

namespace MailboxRun

/-- The broken links that receives have thrown, in order. -/
def reported (r : MailboxRun) : List (Str × EPid) :=
  r.outcomes.filterMap fun
    | .error (.linkBroken reason pid) => some (reason, pid)
    | _ => none

/-- The broken links that a list of events reports to the mailbox, in order. -/
def linkEvents (es : List MailboxEvent) : List (Str × EPid) :=
  es.filterMap fun
    | .linkBroken reason pid => some (reason, pid)
    | _ => none

/-- The two accounts. -/
structure Conserves (es : List MailboxEvent) (r : MailboxRun) : Prop where
  messages : (r.returned : Multiset MsgSeq) + (r.mbox.receivedMsgs : Multiset MsgSeq) =
    (arrivals es : Multiset MsgSeq)
  links : r.reported ++ r.mbox.brokenLinks = linkEvents es

variable {r t : MailboxRun} {e : MailboxEvent} {es : List MailboxEvent}

theorem arrivals_concat (es : List MailboxEvent) (e : MailboxEvent) :
    arrivals (es ++ [e]) = arrivals es ++ arrivals [e] := List.filterMap_append

theorem linkEvents_concat (es : List MailboxEvent) (e : MailboxEvent) :
    linkEvents (es ++ [e]) = linkEvents es ++ linkEvents [e] := List.filterMap_append

/-- A receive, or the wake-up of one, is no arrival and reports nothing. -/
theorem Picks.silent (h : r.Picks e) : arrivals [e] = [] ∧ linkEvents [e] = [] := by
  cases e with
  | receive | wakeUp => exact ⟨rfl, rfl⟩
  | incoming | linkBroken | tmo => exact h.elim

theorem reported_of_eq (h : t.outcomes = r.outcomes) : t.reported = r.reported := by
  rw [reported, h, reported]

/-- A receiver that gets through throws the oldest broken link, if there is one. -/
theorem pick_reported (hm : t.mbox = r.mbox.pickFirstMsg.2)
    (ho : t.outcomes = r.outcomes ++ [r.mbox.pickFirstMsg.1]) :
    t.reported ++ t.mbox.brokenLinks = r.reported ++ r.mbox.brokenLinks := by
  rcases hl : r.mbox.brokenLinks with _ | ⟨⟨reason, pid⟩, rest⟩
  · rcases hq : r.mbox.receivedMsgs with _ | ⟨msg, rest⟩
    · rw [ActualMailbox.pickFirstMsg_of_empty hl hq] at hm ho
      simp [reported, hm, ho]
    · rw [ActualMailbox.pickFirstMsg_of_message hl hq] at hm ho
      simp [reported, hm, ho]
  · rw [ActualMailbox.pickFirstMsg_of_brokenLinks hl] at hm ho
    simp [reported, hm, ho]

/-- It takes a message out of the queue, or leaves the queue as it is. -/
theorem pick_messages (hm : t.mbox = r.mbox.pickFirstMsg.2)
    (ho : t.outcomes = r.outcomes ++ [r.mbox.pickFirstMsg.1]) :
    (t.returned : Multiset MsgSeq) + (t.mbox.receivedMsgs : Multiset MsgSeq) =
      (r.returned : Multiset MsgSeq) + (r.mbox.receivedMsgs : Multiset MsgSeq) := by
  rcases pick_cases hm ho with ⟨-, hq, -, hret⟩ | ⟨-, hq₀, hq, -, hret⟩ |
    ⟨msg, rest, -, hq₀, hq, -, hret⟩
  · rw [hret, hq]
  · rw [hret, hq, hq₀]
  · have hreturned : ((r.returned ++ [msg] : List MsgSeq) : Multiset MsgSeq) =
        (r.returned : Multiset MsgSeq) + {msg} := (Multiset.coe_add _ _).symm
    rw [hret, hq, hq₀, hreturned, Multiset.add_assoc, Multiset.singleton_add, Multiset.cons_coe]

/-- **One step keeps both accounts.** -/
theorem Conserves.step (hr : r.Conserves es) (h : r.step e = some t) :
    t.Conserves (es ++ [e]) := by
  rcases step_cases h with ⟨msg, rfl, hm, -, ho⟩ | ⟨reason, pid, rfl, hm, -, ho⟩ |
    ⟨error, rfl, hm, -, ho⟩ | ⟨hp, hm, -, ho⟩ | ⟨he, -, hm, -, ho⟩
  · have harrived : arrivals (es ++ [.incoming msg]) = arrivals es ++ [msg] := arrivals_concat ..
    have hlinks : linkEvents (es ++ [.incoming msg]) = linkEvents es ++ [] := linkEvents_concat ..
    refine ⟨?_, ?_⟩
    · rw [harrived, ← Multiset.coe_add, ← hr.messages, returned_of_eq ho, hm,
        ActualMailbox.onIncoming_receivedMsgs, ← Multiset.cons_coe, ← Multiset.singleton_add,
        Multiset.coe_singleton, Multiset.add_assoc, Multiset.add_comm {msg}]
    · rw [hlinks, List.append_nil, ← hr.links, reported_of_eq ho, hm,
        ActualMailbox.onIncoming_brokenLinks]
  · have harrived : arrivals (es ++ [.linkBroken reason pid]) = arrivals es ++ [] :=
      arrivals_concat ..
    have hlinks : linkEvents (es ++ [.linkBroken reason pid]) = linkEvents es ++ [(reason, pid)] :=
      linkEvents_concat ..
    refine ⟨?_, ?_⟩
    · rw [harrived, List.append_nil, ← hr.messages, returned_of_eq ho, hm,
        ActualMailbox.onLinkBroken_receivedMsgs]
    · rw [hlinks, ← hr.links, reported_of_eq ho, hm, ActualMailbox.onLinkBroken_brokenLinks,
        List.append_assoc]
  · have harrived : arrivals (es ++ [.tmo error]) = arrivals es ++ [] := arrivals_concat ..
    have hlinks : linkEvents (es ++ [.tmo error]) = linkEvents es ++ [] := linkEvents_concat ..
    refine ⟨?_, ?_⟩
    · rw [harrived, List.append_nil, ← hr.messages, returned_of_eq ho, hm,
        ActualMailbox.receiveTmo_receivedMsgs]
    · rw [hlinks, List.append_nil, ← hr.links, reported_of_eq ho, hm,
        ActualMailbox.receiveTmo_brokenLinks]
  · obtain ⟨harrived, hlinks⟩ := hp.silent
    refine ⟨?_, ?_⟩
    · rw [arrivals_concat, harrived, List.append_nil, pick_messages hm ho, hr.messages]
    · rw [linkEvents_concat, hlinks, List.append_nil, pick_reported hm ho, hr.links]
  · have hsilent : arrivals [e] = [] ∧ linkEvents [e] = [] := by
      rcases he with rfl | rfl
      · exact ⟨rfl, rfl⟩
      · exact ⟨rfl, rfl⟩
    refine ⟨?_, ?_⟩
    · rw [arrivals_concat, hsilent.1, List.append_nil, returned_of_eq ho, hm, hr.messages]
    · rw [linkEvents_concat, hsilent.2, List.append_nil, reported_of_eq ho, hm, hr.links]

/-- A receive that returns a message finds no broken link. -/
theorem brokenLinks_of_returns {msg : MsgSeq} (h : r.step e = some t)
    (ho : t.outcomes = r.outcomes ++ [.ok msg]) : r.mbox.brokenLinks = [] := by
  have hne : t.outcomes ≠ r.outcomes := by
    rw [ho]
    simp
  rcases step_cases h with ⟨-, -, -, -, heq⟩ | ⟨-, -, -, -, -, heq⟩ | ⟨-, -, -, -, heq⟩ |
    ⟨-, -, -, hpick⟩ | ⟨-, -, -, -, heq⟩
  · exact absurd heq hne
  · exact absurd heq hne
  · exact absurd heq hne
  · have hfirst : r.mbox.pickFirstMsg.1 = .ok msg := by
      rw [hpick] at ho
      simpa using ho
    rcases hl : r.mbox.brokenLinks with _ | ⟨⟨reason, pid⟩, rest⟩
    · rfl
    · rw [ActualMailbox.pickFirstMsg_of_brokenLinks hl] at hfirst
      cases hfirst
  · exact absurd heq hne

/-- A receive that throws leaves the messages where they are. -/
theorem receivedMsgs_of_throws {err : ReceiveError} (h : r.step e = some t)
    (ho : t.outcomes = r.outcomes ++ [.error err]) :
    t.mbox.receivedMsgs = r.mbox.receivedMsgs := by
  have hne : t.outcomes ≠ r.outcomes := by
    rw [ho]
    simp
  rcases step_cases h with ⟨-, -, -, -, heq⟩ | ⟨-, -, -, -, -, heq⟩ | ⟨-, -, -, -, heq⟩ |
    ⟨-, hm, -, hpick⟩ | ⟨-, -, -, -, heq⟩
  · exact absurd heq hne
  · exact absurd heq hne
  · exact absurd heq hne
  · rcases pick_cases hm hpick with ⟨-, hq, -⟩ | ⟨-, hq₀, hq, -⟩ | ⟨msg, rest, -, -, -, -, hret⟩
    · exact hq
    · rw [hq, hq₀]
    · rw [returned_of_error ho] at hret
      simp at hret
  · exact absurd heq hne

/-- **Receiving conserves messages and broken links**, at every point of every run: what has been
returned and what is queued is what has arrived, what has been thrown is the beginning of what has
been reported, a message is returned only when no broken link is queued, and a receive that throws
leaves the queued messages as they are. -/
theorem conserves_of_run (h : run step start es = some r) :
    (r.returned : Multiset MsgSeq) + (r.mbox.receivedMsgs : Multiset MsgSeq) =
        (arrivals es : Multiset MsgSeq) ∧
      r.reported <+: linkEvents es ∧
      ∀ e t, r.step e = some t →
        (∀ msg, t.outcomes = r.outcomes ++ [.ok msg] → r.mbox.brokenLinks = []) ∧
        ∀ err, t.outcomes = r.outcomes ++ [.error err] →
          t.mbox.receivedMsgs = r.mbox.receivedMsgs := by
  have hr : r.Conserves es := run_history_induction (P := fun es r => Conserves es r)
    ⟨rfl, rfl⟩ (fun _ _ _ _ hr h => hr.step h) h
  refine ⟨hr.messages, ⟨r.mbox.brokenLinks, hr.links⟩, fun e t ht => ⟨fun msg => ?_, fun err => ?_⟩⟩
  · exact brokenLinks_of_returns ht
  · exact receivedMsgs_of_throws ht

/-- Two messages and a broken link: the receive throws, and both messages are still there. -/
theorem conserves_of_run_throws : ∃ r,
    run step start [.incoming [1], .incoming [2], .linkBroken [] .invalid, .receive] = some r ∧
      (r.returned : Multiset MsgSeq) + (r.mbox.receivedMsgs : Multiset MsgSeq) =
        (arrivals [.incoming [1], .incoming [2], .linkBroken [] .invalid, .receive] :
          Multiset MsgSeq) ∧
      r.mbox.receivedMsgs = [[2], [1]] ∧ r.reported = [([], .invalid)] := by
  refine ⟨_, rfl, (conserves_of_run rfl).1, rfl, rfl⟩

end MailboxRun

end TinchPp
