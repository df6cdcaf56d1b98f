import EventLoop.Proofs.OperationCounts
import EventLoop.Proofs.Growth
import EventLoop.Proofs.CounterSteps
import EventLoop.Proofs.Outcomes

/-! How a loop counts aborted operations. An operation that reports that it was aborted has been
counted just before, and no other operation is. -/
namespace EventLoop

variable {H : Type}

open Table (weigh)

namespace Frame

def aborting (c : Nat) : Frame H → Nat
  | .complete o r => if o.home = c ∧ r = .failed .aborted then 1 else 0
  | _ => 0

def CountsAborted (f : Frame H) : Prop := ∀ o r, f = .countAbort o r → r = .failed .aborted

end Frame

def abortedOn (c : Nat) (x : Operation H × Outcome) : Bool :=
  x.1.home = c ∧ x.2 = .failed .aborted

/-- The counter of a loop keeps up with what operations report. -/
structure AbortsCounted (c : Nat) (s : Shared H) (taken : List (Frame H)) (e : Effect H) :
    Prop where
  countsAborted : ∀ f ∈ e.put, f.CountsAborted
  counter : (e.shared.loops.get c).counters.aborted + weigh (Frame.aborting c) taken =
    (s.loops.get c).counters.aborted + weigh (Frame.aborting c) e.put +
      (reportedBy taken).countP (abortedOn c)

section

variable {c me : Nat} {s : Shared H} {active : List Executor} {o : Operation H}

theorem weightless_aborting : Frame.Weightless (H := H) (Frame.aborting c) := by
  intro f hf
  cases f <;> simp_all [Frame.idles,Frame.aborting]

attribute [local simp] weigh Frame.aborting Frame.CountsAborted reportedBy abortedOn Effect.put

theorem abortsCounted_rewrite {f : Frame H} {frames : List (Frame H)}
    (hr : Rewrite me s active f frames) : AbortsCounted c s [f] { shared := s, active, frames } := by
  cases hr with
  | destroy hf | ended hf | overdue hf =>
    cases hf <;> refine ⟨?_,?_⟩ <;> simp [Frame.dropJob]
  | dropJobsCons j => cases j <;> refine ⟨?_,?_⟩ <;> simp [Frame.dropJob]
  | completeClosed => exact ⟨by simp,by simp [List.countP_singleton]⟩
  | _ => refine ⟨?_,?_⟩ <;> simp

theorem abortsCounted_rule {f : Frame H} {e : Effect H} (hr : Rule me s active f e)
    (hf : f.CountsAborted) :
    AbortsCounted c s [f] e := by
  have hs := hr.settles
  cases hr with
  | rewrite hr => exact abortsCounted_rewrite hr
  | enrol => refine ⟨?_,?_⟩ <;> simp [Shared.onRegistry]
  | countAbort o r =>
    obtain rfl := hf o r rfl
    refine ⟨by simp,?_⟩
    by_cases hc : o.home = c
    · simp [Shared.onLoop,Loop.countAborted,hc]
    · simp [Shared.onLoop,Table.get_update,hc]
  | take hl j =>
    refine ⟨by cases j <;> simp [Frame.execute],?_⟩
    cases hl <;> cases j <;> rw [(hs (by simp) (by simp)).aborted] <;> simp [Frame.execute]
  | enqueue hl | runDry hl | sleep hl =>
    refine ⟨by simp,?_⟩
    cases hl <;> rw [(hs (by simp) (by simp)).aborted] <;> simp
  | withdraw o r hr =>
    refine ⟨by simp,?_⟩
    rw [(hs (by simp) (by simp)).aborted]
    simp [hr]
  | complete =>
    refine ⟨by simp,?_⟩
    rw [(hs (by simp) (by simp)).aborted]
    simp [List.countP_singleton]
  | _ =>
    refine ⟨by simp,?_⟩
    rw [(hs (by simp) (by simp)).aborted]
    simp

theorem abortsCounted_shift {taken frames : List (Frame H)} (hs : Shift taken frames)
    (hr : taken.tail.all Frame.rests = true) :
    AbortsCounted c s taken { shared := s, active, frames } := by
  have hn : reportedBy taken = [] := by cases hs <;> rfl
  refine ⟨?_,?_⟩
  · rintro _ hf o r rfl
    cases noOutcome_shift hs _ hf
  · simp only [Effect.put,hn,weigh_shift weightless_aborting hs hr]
    rfl

theorem abortsCounted_deed {taken : List (Frame H)} {e : Effect H} (hd : Deed me s active taken e)
    (hr : taken.tail.all Frame.rests = true) (ht : ∀ f ∈ taken, f.CountsAborted) :
    AbortsCounted c s taken e := by
  obtain ⟨frames,hs,rfl⟩ | ⟨f,rfl,hf⟩ := hd.shift_or_rule
  · exact abortsCounted_shift hs hr
  · exact abortsCounted_rule hf (ht f List.mem_cons_self)

end

namespace Machine

theorem countsAborted_run (moves : List (Move H)) {i : Nat} {f : Frame H}
    (hf : f ∈ ((run moves).thread i).frames) : f.CountsAborted := by
  refine frames_induction (P := fun _ f => f.CountsAborted) (fun _ _ _ h => h) ?_ ?_ moves hf
  · rintro xs u o r ⟨⟩
  · intro xs y a hy ha ht f hf
    exact (abortsCounted_deed (c := 0) ha.deed (ha.rests_tail (sound_run xs)) ht).countsAborted f hf

/-- The counter of aborted operations tells how many have reported that they were aborted,
together with those that are about to. -/
theorem aborted_run (c : Nat) (moves : List (Move H)) :
    ((run moves).shared.loops.get c).counters.aborted =
      (history reported moves).countP (abortedOn c) + (run moves).weight (Frame.aborting c) := by
  induction moves using run_induction with
  | start => rfl
  | move xs y ih =>
    rw [run_concat,history_concat,List.countP_append]
    obtain ⟨a,hy,ha,hmove⟩ | ⟨hy,hmove⟩ := move_cases (run xs) y
    · obtain ⟨k,hk,hk'⟩ := exists_weight_perform ha (Frame.aborting c)
      have ht (g : Frame H) (hg : g ∈ a.taken) : g.CountsAborted :=
        countsAborted_run xs (i := a.thread) (ha.frames ▸ List.mem_append_left _ hg)
      have hc := (abortsCounted_deed (c := c) ha.deed (ha.rests_tail (sound_run xs)) ht).counter
      have hr : (run xs).reported a = reportedBy a.taken := rfl
      rw [noted_of_act? hy,hmove,hk',shared_perform,hr]
      omega
    · rw [noted_of_act?_none hy,hmove,(counterStep_happen (run xs) y c).1.aborted,
        weight_happen weightless_aborting]
      simpa using ih

end Machine
end EventLoop
