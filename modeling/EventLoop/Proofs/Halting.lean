import EventLoop.Proofs.Deadline
import EventLoop.Proofs.CounterSteps
import EventLoop.Proofs.Watch

/-! Why a blocking call of the run family ends. It ends below its limit only where it finds its
loop stopped, out of work or without an owner, and the owner that goes leaves the loop stopped; but
a restart clears this, while nobody gives the owner back. -/
namespace EventLoop

variable {H : Type}

/-- A blocking call on loop `c` that has looked for work below its limit ends with this act. -/
def Act.Quits (c : Nat) (a : Act H) : Prop :=
  ∃ f limit ran, a.taken = [f] ∧ f.looks? = some (c, .block, limit, ran) ∧
    limit.any (· ≤ ran) = false ∧ .reply (.count ran) ∈ a.effect.frames

section

variable {c me : Nat} {s : Shared H} {active : List Executor} {limit : Option Nat} {ran : Nat}

theorem stopped_of_looks {f : Frame H} {e : Effect H} (hd : Deed me s active [f] e)
    (hl : f.looks? = some (c, .block, limit, ran)) (hn : limit.any (· ≤ ran) = false)
    (h : .reply (.count ran) ∈ e.frames) :
    (e.shared.loops.get c).stopped = true ∨ (s.loops.get c).closed = true := by
  obtain ⟨frames,hs,rfl⟩ | hr := hd.rule_of_singleton
  · cases hs <;> cases hl
  cases hr with
  | rewrite hr =>
    cases hr with
    | full d w l r hf =>
      cases hl
      cases hf.symm.trans hn
    | ended hf hp =>
      cases hf.looks?.symm.trans hl
      exact Bool.or_eq_true_iff.1 (pick_ended hp)
    | overdue hf hp hw =>
      cases hf.looks?.symm.trans hl
      cases hw
    | destroy hf => cases hf <;> cases hl
    | _ => cases hl
  | take hf j =>
    cases hf.looks?.symm.trans hl
    cases j <;> simp [Frame.execute] at h
  | runDry hf =>
    cases hf.looks?.symm.trans hl
    exact Or.inl (by simp [Shared.onLoop,Loop.stop])
  | sleep hf =>
    cases hf.looks?.symm.trans hl
    simp at h
  | disturb => simp at h
  | enqueue hf => cases hf <;> cases hl
  | _ => cases hl

end

namespace Machine

/-- The restarts of loop `c` that come after its owner has gone. -/
def restartedClosed (c : Nat) (m : Machine H) (a : Act H) : List Unit :=
  if (m.shared.loops.get c).closed then m.restarts c a else []

theorem stopped_of_closed {c : Nat} (moves : List (Move H))
    (hc : ((run moves).shared.loops.get c).closed = true)
    (hr : history (restartedClosed c) moves = []) :
    ((run moves).shared.loops.get c).stopped = true := by
  induction moves using run_induction with
  | start => exact Bool.noConfusion hc
  | move xs y ih =>
    rw [run_concat] at hc ⊢
    rw [history_concat] at hr
    obtain ⟨hr,hy⟩ := List.append_eq_nil_iff.1 hr
    cases ho : ((run xs).shared.loops.get c).closed with
    | false =>
      have hs := (ledger_move c (sound_run xs) y).eq_close ho hc
      exact congrArg Ledger.stopped hs
    | true =>
      refine stopped_move (ih ho hr) ?_
      cases hm : (run xs).act? y with
      | none => exact noted_of_act?_none hm
      | some a => simpa [noted_of_act? hm,restartedClosed,ho] using hy

/-- What holds of the blocking calls on a loop that end below their limit. -/
structure Halting (c : Nat) (moves : List (Move H)) : Prop where
  /-- Such a call leaves the loop stopped, unless a thread has restarted the loop after the owner
  was gone. -/
  ends : ∀ y a, (run moves).act? y = some a → a.Quits c → history (restartedClosed c) moves = [] →
    (((run moves).move y).shared.loops.get c).stopped = true
  /-- With the owner there, no restart has been too late. -/
  owned : ((run moves).shared.loops.get c).closed = false → history (restartedClosed c) moves = []
  /-- Whoever asks after such a call hears that the loop is stopped, unless a thread restarts it
  meanwhile. -/
  answers : ∀ y a, (run moves).act? y = some a → a.Quits c → history (restartedClosed c) moves = [] →
    ∀ ys, notes (restarts c) ((run moves).move y) ys = [] → ∀ z b,
      (((run moves).move y).after ys).act? z = some b → b.taken = [.call (.isStopped c)] →
        b.effect.frames = [.reply (.flag true)]

theorem stopped_of_quits {c : Nat} {moves : List (Move H)} {y : Move H} {a : Act H}
    (hy : (run moves).act? y = some a) (hq : a.Quits c) (hr : history (restartedClosed c) moves = []) :
    (((run moves).move y).shared.loops.get c).stopped = true := by
  obtain ⟨f,limit,ran,ht,hl,hn,hf⟩ := hq
  have hd := (fits_of_act? hy).deed
  rw [ht] at hd
  obtain h | hc := stopped_of_looks hd hl hn hf
  · rw [move_of_act? hy]
    exact h
  · refine stopped_move (stopped_of_closed moves hc hr) ?_
    rw [noted_of_act? hy]
    unfold restarts
    rw [ht]
    cases f with
    | drain d w l r | asleep d w l r | awake d w l r => rfl
    | _ => cases hl

theorem restartedClosed_of_open {c : Nat} (moves : List (Move H))
    (hc : ((run moves).shared.loops.get c).closed = false) :
    history (restartedClosed c) moves = [] := by
  induction moves using run_induction with
  | start => rfl
  | move xs y ih =>
    rw [run_concat] at hc
    have ho := open_of_move hc
    rw [history_concat,ih ho]
    unfold noted
    split
    · simp [restartedClosed,ho]
    · rfl

theorem halting_run (c : Nat) (moves : List (Move H)) : Halting c moves where
  ends _ _ hy hq hr := stopped_of_quits hy hq hr
  owned := restartedClosed_of_open moves
  answers y a hy hq hr ys hn z b hz ht := by
    have hs := stopped_after (stopped_of_quits hy hq hr) hn
    have hd := (fits_of_act? hz).deed
    rw [ht] at hd
    rw [hd.eq_step rfl]
    simp [Frame.step,Frame.stepCall,hs]

def revisited : List (Move Unit) :=
  [.addLoop {}, .spawn (), .call 0 (.dropOwner 0), .step 0, .step 0, .step 0, .step 0,
    .call 0 (.restart 0), .step 0, .call 0 (.run 0 .block (some 1)), .step 0]

/-- The wait ends at once, and the loop says that it is not stopped. -/
theorem not_stopped_revisited :
    ¬ ∀ (c : Nat) (moves : List (Move Unit)) y a, (run moves).act? y = some a → a.Quits c →
      (((run moves).move y).shared.loops.get c).stopped = true := by
  intro h
  have hq : (run revisited).act? (.step 0) = some ⟨0, [.drain 0 .block (some 1) 0],
      [.code .program () 3], (run revisited).only 0 [.reply (.count 0)]⟩ := rfl
  have h := h 0 revisited (.step 0) _ hq ⟨_,_,_,rfl,rfl,rfl,List.mem_singleton.2 rfl⟩
  exact Bool.noConfusion h

end Machine
end EventLoop
