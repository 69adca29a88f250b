import EventRelay.Proofs.Handoff.Scenes
import EventRelay.Proofs.Stream.Channels

/-!
# The course of a hand-off

What the producer is about tells what was sent and what was leased (`Course`), up to whether the
consumer is there and whether what was leased is settled. A move of the producer leads from one
place of the course to another, and nobody else leads it anywhere.
-/

namespace EventRelay.Handoff

open Waiting (said)

variable {frame : HandoffFrame}

/-! ## Frames -/

/-- One heartbeat, and this many more. -/
def beats (n : Nat) : List HandoffFrame := List.replicate (n + 1) (.ok .heartbeat)

theorem beats_succ (n : Nat) : beats n ++ [.ok .heartbeat] = beats (n + 1) :=
  List.replicate_succ'.symm

/-- The first frames of `beats` that an item or a failure follows. -/
inductive Framed : List HandoffFrame → Prop
  | nothing : Framed []
  | beats (n : Nat) : Framed (beats n)
  | whole (n : Nat) (outcome : Except QueueError (LeasedItem Event)) :
      Framed (Handoff.beats n ++ [frameOf outcome])

theorem framed_replicate (n : Nat) : Framed (List.replicate n (.ok .heartbeat)) := by
  cases n with
  | zero => exact .nothing
  | succ n => exact .beats n

/-- The first of frames that are `Framed` are so too. -/
theorem Framed.take {frames first : List HandoffFrame} (h : Framed frames)
    (hfirst : first <+: frames) : Framed first := by
  have hbeats : ∀ n, first <+: Handoff.beats n → Framed first := by
    intro n hn
    rw [(List.prefix_replicate_iff.1 hn).2]
    exact framed_replicate _
  cases h with
  | nothing =>
    rw [List.prefix_nil.1 hfirst]
    exact .nothing
  | beats n => exact hbeats n hfirst
  | whole n outcome =>
    rcases List.prefix_concat_iff.1 hfirst with rfl | hfirst
    · exact .whole n outcome
    · exact hbeats n hfirst

/-! ## The course of a scene -/

/-- The leases that an outcome came with. -/
def leasesOf : Except QueueError (LeasedItem Event) → List (LeasedItem Event)
  | .ok leased => [leased]
  | .error _ => []

/-- What was sent and leased by the time the producer is about something. It stops because it has
delivered, or because the consumer is gone, and then what it leased is settled. -/
inductive Course (gone : Prop) (settled : LeasedItem Event → Prop) :
    Errand → Phase → List HandoffFrame → List (LeasedItem Event) → Prop
  | opening : Course gone settled .none .opening [] []
  | waiting (n : Nat) : Course gone settled .none .waiting (beats n) []
  | beating (n : Nat) : Course gone settled .none .beating (beats n) []
  | asking (n : Nat) {t : Nat} {p : Producer}
      {k : Option (Except QueueError (LeasedItem Event)) → Option Producer} :
      next t p = .ask k → Ticker.Settable p.ticker.interval t →
      Course gone settled (.asking Dispatch.attempt k) .waiting (beats n) []
  | answered (n : Nat) {t : Nat} {p : Producer} (r : Call.Reading)
      {out : Except QueueError (Option (LeasedItem Event))}
      {rest : Work (Except QueueError (Option (LeasedItem Event)))}
      {k : Option (Except QueueError (LeasedItem Event)) → Option Producer} :
      next t p = .ask k → Ticker.Settable p.ticker.interval t → Tells (· = out) rest →
      Course gone settled (.asking rest k) .waiting (beats n)
        (([⟨r, .lease, out⟩] : List (Exchange Event)).filterMap Exchange.handed?)
  | delivering (n : Nat) (outcome : Except QueueError (LeasedItem Event)) :
      Course gone settled .none (.delivering outcome) (beats n) (leasesOf outcome)
  | delivered (n : Nat) (outcome : Except QueueError (LeasedItem Event)) :
      Course gone settled .none .stopped (beats n ++ [frameOf outcome]) (leasesOf outcome)
  | deserted (n : Nat) : gone →
      Course gone settled .none .stopped (List.replicate n (.ok .heartbeat)) []
  | returning (n : Nat) (leased : LeasedItem Event) : gone →
      Course gone settled (.returning (Dispatch.releaseAbandoned leased)) .stopped (beats n)
        [leased]
  | returned (n : Nat) {leased : LeasedItem Event} {rest : Work Unit} : gone → settled leased →
      Tells (fun _ => True) rest →
      Course gone settled (.returning rest) .stopped (beats n) [leased]
  | finished (n : Nat) {leased : LeasedItem Event} : gone → settled leased →
      Course gone settled .none .stopped (beats n) [leased]

namespace Course

variable {gone gone' : Prop} {settled settled' : LeasedItem Event → Prop}
  {errand : Errand} {phase phase' : Phase} {sent : List HandoffFrame}
  {leases : List (LeasedItem Event)}

/-- A `Course` goes on being one when the consumer leaves and when more is settled. -/
theorem mono (h : Course gone settled errand phase sent leases) (hgone : gone → gone')
    (hsettled : ∀ leased ∈ leases, settled leased → settled' leased) :
    Course gone' settled' errand phase sent leases := by
  cases h with
  | opening => exact .opening
  | waiting n => exact .waiting n
  | beating n => exact .beating n
  | asking n hask hset => exact .asking n hask hset
  | answered n r hask hset htells => exact .answered n r hask hset htells
  | delivering n outcome => exact .delivering n outcome
  | delivered n outcome => exact .delivered n outcome
  | deserted n hg => exact .deserted n (hgone hg)
  | returning n leased hg => exact .returning n leased (hgone hg)
  | returned n hg hs htells =>
    exact .returned n (hgone hg) (hsettled _ List.mem_cons_self hs) htells
  | finished n hg hs => exact .finished n (hgone hg) (hsettled _ List.mem_cons_self hs)

/-- A frame that `Puts` has goes behind what was sent. -/
theorem put (h : Course gone settled .none phase sent leases)
    (hputs : Puts phase frame phase') :
    Course gone settled .none phase' (sent ++ [frame]) leases := by
  cases hputs with
  | opening =>
    cases h with
    | opening => exact .waiting 0
  | beating =>
    cases h with
    | beating n =>
      rw [beats_succ]
      exact .waiting (n + 1)
  | delivering outcome =>
    cases h with
    | delivering n => exact .delivered n outcome

/-- The producer has no item and finds the consumer gone. -/
theorem stop (h : Course gone settled .none phase sent leases) (hgone : gone)
    (hnone : ∀ leased, phase ≠ .delivering (.ok leased)) :
    Course gone settled .none .stopped sent leases := by
  cases h with
  | opening => exact .deserted 0 hgone
  | waiting n | beating n => exact .deserted (n + 1) hgone
  | delivering n outcome =>
    cases outcome with
    | ok leased => exact absurd rfl (hnone leased)
    | error e => exact .deserted (n + 1) hgone
  | delivered n outcome => exact .delivered n outcome
  | deserted n => exact .deserted n hgone
  | finished n _ hs => exact .finished n hgone hs

theorem tick (h : Course gone settled .none .waiting sent leases) :
    Course gone settled .none .beating sent leases := by
  cases h with
  | waiting n => exact .beating n

/-- At a wait the producer begins `Dispatch.attempt`, with nothing leased yet. -/
theorem ask {t : Nat} {p : Producer}
    {k : Option (Except QueueError (LeasedItem Event)) → Option Producer}
    (h : Course gone settled .none .waiting sent leases) (hask : next t p = .ask k)
    (hset : Ticker.Settable p.ticker.interval t) :
    Course gone settled (.asking Dispatch.attempt k) .waiting sent leases := by
  cases h with
  | waiting n => exact .asking n hask hset

theorem abandon {leased : LeasedItem Event}
    (h : Course gone settled .none (.delivering (.ok leased)) sent leases) (hgone : gone) :
    Course gone settled (.returning (Dispatch.releaseAbandoned leased)) .stopped sent
      leases := by
  cases h with
  | delivering n => exact .returning n leased hgone

section

variable {c : Call} {a : c.Answer} {r : Call.Reading} {m m' : Memory}
  {k : Option (Except QueueError (LeasedItem Event)) → Option Producer}

/-- A call of the attempt brings the lease it was granted, if any. -/
theorem attempt {rest : c.Answer → Work (Except QueueError (Option (LeasedItem Event)))}
    (h : Course gone settled (.asking (.call c rest) k) phase sent leases)
    (hr : Replies r m c a m') :
    Course gone settled (.asking (rest a) k) phase sent
      (leases ++ (said r c a).filterMap Exchange.handed?) := by
  generalize herrand : Errand.asking (.call c rest) k = errand at h
  cases h with
  | asking n hask hset =>
    obtain ⟨hwork, rfl⟩ := Errand.asking.inj herrand
    obtain ⟨next, hattempt, htells⟩ := attempt_eq
    obtain ⟨rfl, hnext⟩ := Procedure.call.inj (hwork.trans hattempt)
    obtain rfl := eq_of_heq hnext
    exact .answered n r hask hset (htells a)
  | answered n r' hask hset htells =>
    obtain ⟨rfl, rfl⟩ := Errand.asking.inj herrand
    obtain ⟨-, hsaid, hrest⟩ := htells.call hr
    rw [hsaid, List.filterMap_nil, List.append_nil]
    exact .answered n r' hask hset hrest
  | _ => cases herrand

/-- The attempt has come to something, and with that the producer goes on. Its `Ticker` can still be
set. -/
theorem asked {out : Except QueueError (Option (LeasedItem Event))} {p : Producer}
    (h : Course gone settled (.asking (.done out) k) p.phase sent leases)
    (hpos : 0 < p.ticker.interval) :
    Course gone settled .none ((k (outcome? out)).getD p).phase sent leases ∧
      0 < ((k (outcome? out)).getD p).ticker.interval := by
  generalize herrand : Errand.asking (.done out) k = errand at h
  generalize hphase : p.phase = phase at h
  cases h with
  | asking n hask =>
    obtain ⟨hwork, -⟩ := Errand.asking.inj herrand
    obtain ⟨next, hattempt, -⟩ := attempt_eq
    cases hwork.trans hattempt
  | answered n r hask hset htells =>
    obtain ⟨rfl, rfl⟩ := Errand.asking.inj herrand
    -- what the attempt has come to is what it was answered, so its lease is the one that counts
    obtain rfl : out = _ := htells
    obtain ⟨-, -, hnone, hsome⟩ := ask_eq hask
    rcases out with e | _ | leased
    · rw [outcome?, hsome]
      exact ⟨.delivering n (.error e), hset.1⟩
    · rw [outcome?, hnone]
      cases htick : onTick _ _ with
      | none =>
        rw [Option.getD_none, hphase]
        exact ⟨.waiting n, hpos⟩
      | some p' =>
        obtain ⟨hbeating, -, hinterval⟩ := onTick_eq htick hset
        rw [Option.getD_some, hbeating, hinterval]
        exact ⟨.beating n, hset.1⟩
    · rw [outcome?, hsome]
      exact ⟨.delivering n (.ok leased), hset.1⟩
  | _ => cases herrand

/-- A call of `Dispatch.releaseAbandoned`. The release settles what was leased. -/
theorem giveBack {rest : c.Answer → Work Unit}
    (h : Course gone settled (.returning (.call c rest)) phase sent leases)
    (hr : Replies r m c a m')
    (hsettled : ∀ leased ∈ leases, c = .queue (.release leased.lease.lock) → settled leased) :
    Course gone settled (.returning (rest a)) phase sent
      (leases ++ (said r c a).filterMap Exchange.handed?) := by
  generalize herrand : Errand.returning (.call c rest) = errand at h
  cases h with
  | returning n leased hgone =>
    obtain ⟨next, hwork, htells⟩ := releaseAbandoned_eq leased
    obtain ⟨rfl, hnext⟩ := Procedure.call.inj ((Errand.returning.inj herrand).trans hwork)
    obtain rfl := eq_of_heq hnext
    exact .returned n hgone (hsettled leased List.mem_cons_self rfl) (htells a)
  | returned n hgone hs htells =>
    obtain rfl := Errand.returning.inj herrand
    obtain ⟨-, hsaid, hrest⟩ := htells.call hr
    rw [hsaid, List.filterMap_nil, List.append_nil]
    exact .returned n hgone hs hrest
  | _ => cases herrand

theorem finish (h : Course gone settled (.returning (.done ())) phase sent leases) :
    Course gone settled .none phase sent leases := by
  generalize herrand : Errand.returning (.done ()) = errand at h
  cases h with
  | returning n leased =>
    obtain ⟨next, hwork, -⟩ := releaseAbandoned_eq leased
    cases (Errand.returning.inj herrand).trans hwork
  | returned n hgone hs => exact .finished n hgone hs
  | _ => cases herrand

end

/-! ## What the course tells -/

theorem leases_of_delivering {outcome : Except QueueError (LeasedItem Event)}
    (h : Course gone settled .none (.delivering outcome) sent leases) :
    leases = leasesOf outcome := by
  cases h with
  | delivering n => rfl

theorem leases_of_mem {leased : LeasedItem Event}
    (h : Course gone settled errand phase sent leases)
    (hmem : .ok (.item leased) ∈ sent) : leases = [leased] := by
  have hbeats : ∀ n, .ok (.item leased) ∉ List.replicate n (.ok .heartbeat : HandoffFrame) := by
    intro n hn
    cases List.eq_of_mem_replicate hn
  cases h with
  | opening => cases hmem
  | delivered n outcome =>
    rcases List.mem_append.1 hmem with hmem | hmem
    · exact absurd hmem (hbeats _)
    · cases outcome with
      | ok leased' =>
        cases List.mem_singleton.1 hmem
        rfl
      | error e => cases List.mem_singleton.1 hmem
  | deserted n | waiting n | beating n | asking n | answered n | delivering n | returning n
  | returned n | finished n => exact absurd hmem (hbeats _)

/-- A producer takes one lease at most. -/
theorem length_leases (h : Course gone settled errand phase sent leases) :
    leases.length ≤ 1 := by
  cases h with
  | answered n r => exact List.length_filterMap_le _ _
  | delivering n outcome | delivered n outcome => cases outcome <;> simp [leasesOf]
  | _ => simp

/-- What was sent is `Framed`, wherever the producer is. -/
theorem framed (h : Course gone settled errand phase sent leases) : Framed sent := by
  cases h with
  | opening => exact .nothing
  | delivered n outcome => exact .whole n outcome
  | deserted n => exact framed_replicate n
  | waiting n | beating n | asking n | answered n | delivering n | returning n | returned n
  | finished n => exact .beats n

/-- A producer that is done has delivered by `frameOf`, or the consumer is gone and what it leased
is settled. -/
theorem ending (h : Course gone settled .none .stopped sent leases) :
    (∃ n outcome, sent = beats n ++ [frameOf outcome] ∧ leases = leasesOf outcome) ∨
      (gone ∧ (leases = [] ∨ ∃ leased, leases = [leased] ∧ settled leased)) := by
  cases h with
  | delivered n outcome => exact .inl ⟨n, outcome, rfl, rfl⟩
  | deserted n hgone => exact .inr ⟨hgone, .inl rfl⟩
  | finished n hgone hs => exact .inr ⟨hgone, .inr ⟨_, rfl, hs⟩⟩

section

variable {c : Call}

/-- An attempt is about to lease, or only wakes and tells. -/
theorem call_of_asking {rest : c.Answer → Work (Except QueueError (Option (LeasedItem Event)))}
    {k : Option (Except QueueError (LeasedItem Event)) → Option Producer}
    (h : Course gone settled (.asking (.call c rest) k) phase sent leases) :
    c = .queue .lease ∨ ∃ Q, Tells Q (.call c rest) := by
  generalize herrand : Errand.asking (.call c rest) k = errand at h
  cases h with
  | asking n hask =>
    obtain ⟨next, hattempt, -⟩ := attempt_eq
    exact .inl (Procedure.call.inj ((Errand.asking.inj herrand).1.trans hattempt)).1
  | answered n r hask hset htells =>
    obtain ⟨rfl, -⟩ := Errand.asking.inj herrand
    exact .inr ⟨_, htells⟩
  | _ => cases herrand

/-- Giving back is about to release, or only wakes and tells. -/
theorem call_of_returning {rest : c.Answer → Work Unit}
    (h : Course gone settled (.returning (.call c rest)) phase sent leases) :
    leases ≠ [] ∧ ((∃ lock, c = .queue (.release lock)) ∨ ∃ Q, Tells Q (.call c rest)) := by
  generalize herrand : Errand.returning (.call c rest) = errand at h
  cases h with
  | returning n leased =>
    obtain ⟨next, hwork, -⟩ := releaseAbandoned_eq leased
    refine ⟨nofun, .inl ⟨leased.lease.lock, ?_⟩⟩
    exact (Procedure.call.inj ((Errand.returning.inj herrand).trans hwork)).1
  | returned n hgone hs htells =>
    obtain rfl := Errand.returning.inj herrand
    exact ⟨nofun, .inr ⟨_, htells⟩⟩
  | _ => cases herrand

end

end Course

end EventRelay.Handoff
