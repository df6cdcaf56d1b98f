import EventLoop.Proofs.Calling

/-! What a loop tells about itself: how many handlers it has executed, how many operations have
been started and aborted, and whether it is stopped. Each counter moves with one kind of frame, and
few frames stop a loop. -/
namespace EventLoop

variable {H : Type}

def startedBy (c : Nat) : List (Frame H) → List (Operation H)
  | [.countStart o] => if o.home = c then [o] else []
  | _ => []

def abortCountedBy (c : Nat) : List (Frame H) → List (Operation H)
  | [.countAbort o _] => if o.home = c then [o] else []
  | _ => []

def Frame.halts : Frame H → Bool
  | .call (.stop _) | .call (.closeGuard _) | .call (.dropOwner _) | .finishWork _
  | .drain _ _ _ _ | .asleep _ _ _ _ | .awake _ _ _ _ => true
  | _ => false

/-- The frames that count something or start a loop again. -/
def Frame.tells : Frame H → Bool
  | .finish _ | .countStart _ | .countAbort _ _ | .call (.restart _) => true
  | _ => false

/-- Two states of a loop that has executed, started and aborted the same. -/
structure Loop.Level (l k : Loop H) : Prop where
  executed : k.counters.executed = l.counters.executed
  started : k.counters.started = l.counters.started
  aborted : k.counters.aborted = l.counters.aborted

/-- What a deed does to what loop `c` tells about itself. -/
structure CounterStep (c : Nat) (s : Shared H) (taken : List (Frame H)) (e : Effect H) : Prop where
  executed : (e.shared.loops.get c).counters.executed =
    (s.loops.get c).counters.executed + (finishedBy c taken).length
  started : (e.shared.loops.get c).counters.started =
    (s.loops.get c).counters.started + (startedBy c taken).length
  aborted : (e.shared.loops.get c).counters.aborted =
    (s.loops.get c).counters.aborted + (abortCountedBy c taken).length
  halted : (s.loops.get c).stopped = false → (e.shared.loops.get c).stopped = true →
    ∃ f : Frame H, taken = [f] ∧ f.halts = true
  restartedClosed : (s.loops.get c).stopped = true → (e.shared.loops.get c).stopped = false →
    taken = [.call (.restart c)]

section

variable {c me : Nat} {s : Shared H} {active : List Executor}

theorem Loop.Level.refl (l : Loop H) : l.Level l := ⟨rfl,rfl,rfl⟩

theorem level_onLoop {d : Nat} {f : Loop H → Loop H} (hf : ∀ l : Loop H, l.Level (f l)) :
    (s.loops.get c).Level ((s.onLoop d f).loops.get c) := by
  simp only [Shared.onLoop,Table.get_update]
  split
  · exact hf _
  · exact .refl _

theorem stopped_onLoop_of_halts {d : Nat} {f : Loop H → Loop H}
    (hf : ∀ l, l.stopped = true → (f l).stopped = true) (h : (s.loops.get c).stopped = true) :
    ((s.onLoop d f).loops.get c).stopped = true := by
  simp only [Shared.onLoop,Table.get_update]
  split
  · exact hf _ h
  · exact h

theorem told_of_tells {f : Frame H} (hf : f.tells = false) :
    finishedBy c [f] = [] ∧ startedBy c [f] = [] ∧ abortCountedBy c [f] = [] := by
  cases f with
  | finish d | countStart o | countAbort o r => exact Bool.noConfusion hf
  | _ => exact ⟨rfl,rfl,rfl⟩

theorem counterStep_of_level {f : Frame H} {e : Effect H} (hf : f.tells = false)
    (he : (s.loops.get c).Level (e.shared.loops.get c))
    (hs : (s.loops.get c).stopped = true → (e.shared.loops.get c).stopped = true)
    (hh : f.halts = true ∨ (e.shared.loops.get c).stopped = (s.loops.get c).stopped) :
    CounterStep c s [f] e := by
  obtain ⟨hx,ht,ha⟩ := told_of_tells (c := c) hf
  refine ⟨?_,?_,?_,?_,?_⟩
  · simp [he.executed,hx]
  · simp [he.started,ht]
  · simp [he.aborted,ha]
  · intro h h'
    obtain hh | hh := hh
    · exact ⟨f,rfl,hh⟩
    · rw [hh,h] at h'
      exact Bool.noConfusion h'
  · intro h h'
    rw [hs h] at h'
    exact Bool.noConfusion h'

theorem counterStep_of_same {f : Frame H} {e : Effect H} (hf : f.tells = false)
    (he : e.shared.loops = s.loops) : CounterStep c s [f] e := by
  refine counterStep_of_level hf ?_ ?_ (Or.inr ?_)
  · rw [he]
    exact .refl _
  · rw [he]
    exact id
  · rw [he]

theorem counterStep_of_onLoop {f : Frame H} {e : Effect H} (hf : f.tells = false) {t : Shared H}
    {d : Nat}
    {g : Loop H → Loop H} (ht : t.loops = s.loops) (he : e.shared = t.onLoop d g)
    (hg : ∀ l : Loop H, l.Level (g l)) (hs : ∀ l, (g l).stopped = l.stopped) :
    CounterStep c s [f] e := by
  have hl := level_onLoop (s := t) (c := c) (d := d) hg
  have hq : ((t.onLoop d g).loops.get c).stopped = (t.loops.get c).stopped :=
    Table.read_update Loop.stopped hs _ _ _
  rw [ht] at hl hq
  rw [← he] at hl hq
  exact counterStep_of_level hf hl (fun h => hq.trans h) (Or.inr hq)

theorem counterStep_of_halts {f : Frame H} {e : Effect H} (hf : f.tells = false)
    (hh : f.halts = true)
    {t : Shared H} {d : Nat} {g : Loop H → Loop H} (ht : t.loops = s.loops)
    (he : e.shared = t.onLoop d g) (hg : ∀ l : Loop H, l.Level (g l))
    (hs : ∀ l, l.stopped = true → (g l).stopped = true) : CounterStep c s [f] e := by
  have hl := level_onLoop (s := t) (c := c) (d := d) hg
  have hq := stopped_onLoop_of_halts (s := t) (c := c) (d := d) hs
  rw [ht] at hl hq
  rw [← he] at hl hq
  exact counterStep_of_level hf hl hq (Or.inl hh)

theorem counterStep_restart (d : Nat) :
    CounterStep c s [.call (.restart d)] { shared := s.onLoop d Loop.restart, active } := by
  have hl : (s.loops.get c).Level ((s.onLoop d Loop.restart).loops.get c) :=
    level_onLoop fun _ => ⟨rfl,rfl,rfl⟩
  refine ⟨hl.executed,hl.started,hl.aborted,?_,?_⟩
  · intro h h'
    simp only [Shared.onLoop,Table.get_update] at h'
    split at h'
    · exact Bool.noConfusion h'
    · rw [h] at h'
      exact Bool.noConfusion h'
  · intro h h'
    by_cases hd : d = c
    · rw [hd]
    · simp only [Shared.onLoop,Table.get_update,hd,if_false] at h'
      rw [h] at h'
      exact Bool.noConfusion h'

theorem counterStep_count {f : Frame H} {e : Effect H} {d : Nat} {g : Loop H → Loop H}
    (he : e.shared = s.onLoop d g) (hs : ∀ l, (g l).stopped = l.stopped)
    (hd : d ≠ c → finishedBy c [f] = [] ∧ startedBy c [f] = [] ∧ abortCountedBy c [f] = [])
    (hg : d = c → ∀ l : Loop H,
      (g l).counters.executed = l.counters.executed + (finishedBy c [f]).length ∧
      (g l).counters.started = l.counters.started + (startedBy c [f]).length ∧
      (g l).counters.aborted = l.counters.aborted + (abortCountedBy c [f]).length) :
    CounterStep c s [f] e := by
  have hn : (e.shared.loops.get c).stopped = (s.loops.get c).stopped := by
    rw [he]
    exact Table.read_update Loop.stopped hs _ _ _
  by_cases hc : d = c
  · have hl := hg hc (s.loops.get c)
    subst hc
    refine ⟨?_,?_,?_,?_,?_⟩
    · simp [he,Shared.onLoop,hl]
    · simp [he,Shared.onLoop,hl]
    · simp [he,Shared.onLoop,hl]
    · intro h h'
      simp [hn,h] at h'
    · intro h h'
      simp [hn,h] at h'
  · obtain ⟨hx,ht,ha⟩ := hd hc
    refine ⟨?_,?_,?_,?_,?_⟩
    · simp [he,Shared.onLoop,Table.get_update,hc,hx]
    · simp [he,Shared.onLoop,Table.get_update,hc,ht]
    · simp [he,Shared.onLoop,Table.get_update,hc,ha]
    · intro h h'
      simp [hn,h] at h'
    · intro h h'
      simp [hn,h] at h'

theorem counterStep_rewrite {f : Frame H} {frames : List (Frame H)}
    (hr : Rewrite me s active f frames) : CounterStep c s [f] { shared := s, active, frames } := by
  cases hr with
  | destroy hf | ended hf | overdue hf => cases hf <;> exact counterStep_of_same rfl rfl
  | _ => exact counterStep_of_same rfl rfl

theorem counterStep_rule {f : Frame H} {e : Effect H} (hr : Rule me s active f e) :
    CounterStep c s [f] e := by
  cases hr with
  | rewrite hr => exact counterStep_rewrite hr
  | stop | dropOwner =>
    exact counterStep_of_halts rfl rfl rfl rfl (fun _ => ⟨rfl,rfl,rfl⟩) fun _ _ => rfl
  | runDry hf =>
    cases hf <;> exact counterStep_of_halts rfl rfl rfl rfl (fun _ => ⟨rfl,rfl,rfl⟩) fun _ _ => rfl
  | closeGuard g | closeLastGuard g =>
    exact counterStep_of_halts (t := s.onGuard g _) rfl rfl rfl rfl (fun _ => ⟨rfl,rfl,rfl⟩)
      fun l hl => by simp [Loop.finishWork,hl]
  | finishWork | finishLastWork =>
    exact counterStep_of_halts rfl rfl rfl rfl (fun _ => ⟨rfl,rfl,rfl⟩)
      fun l hl => by simp [Loop.finishWork,hl]
  | restart d => exact counterStep_restart d
  | openGuard g =>
    exact counterStep_of_onLoop (t := s.onGuard g _) rfl rfl rfl (fun _ => ⟨rfl,rfl,rfl⟩) fun _ => rfl
  | finish | countStart | countAbort =>
    refine counterStep_count rfl (fun _ => rfl) ?_ ?_
    · intro hd
      simp [finishedBy,startedBy,abortCountedBy,hd]
    · intro hd l
      simp [finishedBy,startedBy,abortCountedBy,hd,Loop.countExecuted,Loop.countStarted,
        Loop.countAborted]
  | enqueue hf | take hf | sleep hf =>
    cases hf <;> exact counterStep_of_onLoop rfl rfl rfl (fun _ => ⟨rfl,rfl,rfl⟩) fun _ => rfl
  | _ =>
    first
      | exact counterStep_of_same rfl rfl
      | exact counterStep_of_onLoop rfl rfl rfl (fun _ => ⟨rfl,rfl,rfl⟩) fun _ => rfl

theorem counterStep_shift {taken frames : List (Frame H)} (hs : Shift taken frames) :
    CounterStep c s taken { shared := s, active, frames } := by
  have hn : finishedBy c taken = [] ∧ startedBy c taken = [] ∧ abortCountedBy c taken = [] := by
    cases hs <;> exact ⟨rfl,rfl,rfl⟩
  obtain ⟨hx,ht,ha⟩ := hn
  refine ⟨by simp [hx],by simp [ht],by simp [ha],?_,?_⟩
  · intro h h'
    simp [h] at h'
  · intro h h'
    simp [h] at h'

theorem counterStep_deed {taken : List (Frame H)} {e : Effect H} (hd : Deed me s active taken e) :
    CounterStep c s taken e := by
  obtain ⟨frames,hs,rfl⟩ | ⟨f,rfl,hr⟩ := hd.shift_or_rule
  · exact counterStep_shift hs
  · exact counterStep_rule hr

end

namespace Machine

def startCounted (c : Nat) (_ : Machine H) (a : Act H) : List (Operation H) := startedBy c a.taken

def restarts (c : Nat) (_ : Machine H) (a : Act H) : List Unit :=
  match a.taken with
  | [.call (.restart d)] => if d = c then [()] else []
  | _ => []

/-- Whatever happens without a thread counts nothing and stops nothing. -/
theorem counterStep_happen (m : Machine H) (y : Move H) (c : Nat) :
    (m.shared.loops.get c).Level ((m.happen y).shared.loops.get c) ∧
      ((m.happen y).shared.loops.get c).stopped = (m.shared.loops.get c).stopped := by
  cases y with
  | prefer d i =>
    simp only [happen,mapShared,Shared.onLoop,Table.get_update]
    split
    · unfold Loop.prefer
      split <;> exact ⟨⟨rfl,rfl,rfl⟩,rfl⟩
    · exact ⟨.refl _,rfl⟩
  | addLoop settings =>
    simp only [happen,mapShared,Table.get_push]
    split
    · rename_i h
      rw [Table.get_of_size_le _ (Nat.le_of_eq h.symm)]
      exact ⟨⟨rfl,rfl,rfl⟩,rfl⟩
    · exact ⟨.refl _,rfl⟩
  | _ => exact ⟨.refl _,rfl⟩

theorem counterStep_move (c : Nat) {m : Machine H} {y : Move H} {a : Act H}
    (hy : m.act? y = some a) :
    CounterStep c m.shared a.taken a.effect := counterStep_deed (fits_of_act? hy).deed

/-- A loop counts the jobs that are finished, and no others. -/
theorem executed_run (c : Nat) (moves : List (Move H)) :
    ((run moves).shared.loops.get c).counters.executed = (history (finished c) moves).length := by
  induction moves using run_induction with
  | start => rfl
  | move xs y ih =>
    rw [run_concat,history_concat,List.length_append,← ih]
    obtain ⟨a,hy,-,hmove⟩ | ⟨hy,hmove⟩ := move_cases (run xs) y
    · rw [hmove,noted_of_act? hy]
      exact (counterStep_move c hy).executed
    · rw [hmove,noted_of_act?_none hy]
      exact (counterStep_happen (run xs) y c).1.executed

theorem stopped_move {c : Nat} {m : Machine H} {y : Move H}
    (hs : (m.shared.loops.get c).stopped = true) (hn : m.noted (restarts c) y = []) :
    ((m.move y).shared.loops.get c).stopped = true := by
  obtain ⟨a,hy,-,hmove⟩ | ⟨hy,hmove⟩ := move_cases m y
  · rw [hmove,shared_perform]
    by_contra h
    have ht := (counterStep_move c hy).restartedClosed hs (by simpa using h)
    rw [noted_of_act? hy] at hn
    simp [restarts,ht] at hn
  · rw [hmove]
    exact (counterStep_happen m y c).2.trans hs

theorem stopped_after {c : Nat} {m : Machine H} (hs : (m.shared.loops.get c).stopped = true)
    {ys : List (Move H)} (hn : notes (restarts c) m ys = []) :
    ((m.after ys).shared.loops.get c).stopped = true := by
  induction ys generalizing m with
  | nil => exact hs
  | cons y ys ih =>
    obtain ⟨hy,hys⟩ := List.append_eq_nil_iff.1 hn
    exact ih (stopped_move hs hy) hys

end Machine
end EventLoop
