import EventLoop.Proofs.Homing
import EventLoop.Proofs.Work

/-! Strands keep the order in which handlers are submitted, and a loop never runs out of work
while a handler of one of its strands waits. -/
namespace EventLoop

variable {H : Type}

open Table (weigh)

/-- The handlers that have begun and those that wait are the ones that were submitted. -/
theorem StrandCounts.Step.order {v v' : StrandCounts H} {s b submitted begun : List (Task H)}
    (h : Step v v' s b) (hv : v.Exact) (hl : v.losses = 0) (ho : begun ++ v.waiting = submitted) :
    (begun ++ b) ++ v'.waiting = submitted ++ s := by
  subst ho
  cases h with
  | keep h => simp [h]
  | postIdle t hf h => simp [h]
  | postBusy t hf h => simp [h]
  | acquire t hf h =>
    have hw : v.waiting = [] := by
      by_contra hw
      rw [hv.waiting hw] at hf
      exact Bool.noConfusion hf
    simp [h,hw]
  | begin t ts n hw ht h => simp [h,hw]
  | beginNone n hw ht h => simp [h]
  | handOn n hw hr h => simp [h]
  | free n hw hr h => simp [h]
  | giveUp n k ht h => simp [h]
  | abandon n ha h => omega

theorem finish_mem_or_schedule {x : Nat} {s : Shared H} {fs : List (Frame H)} (hs : Stacked fs)
    (hb : Backed x s fs) (h : 0 < weigh (Frame.turns x) fs + weigh (Frame.releases x) fs) :
    .finish (s.strands.get x).home ∈ fs ∨ ∃ gs, fs = .schedule x :: gs := by
  induction fs with
  | nil => exact absurd h (Nat.lt_irrefl 0)
  | cons f fs ih =>
    obtain ⟨⟨hr,-⟩,hs⟩ := hs
    obtain ⟨hf,hb⟩ := hb
    by_cases hw : f.serves x = true
    · exact Or.inl (List.mem_cons_of_mem f (hf hw).2)
    · by_cases hc : f = .schedule x
      · exact Or.inr ⟨fs,by rw [hc]⟩
      · have hz : f.turns x = 0 ∧ f.releases x = 0 := by
          cases f <;> simp_all [Frame.serves,Frame.turns,Frame.releases]
        simp only [weigh,hz] at h
        obtain hm | ⟨gs,rfl⟩ := ih hs hb (by omega)
        · exact Or.inl (List.mem_cons_of_mem f hm)
        · exact Bool.noConfusion hr

namespace Machine

theorem losses_eq_zero {x : Nat} {moves : List (Move H)}
    (ho : x < (run moves).shared.strands.size →
      ((run moves).shared.loops.get ((run moves).shared.strands.get x).home).closed = false) :
    ((run moves).strandCounts x).losses = 0 := by
  by_contra hl
  have hl : 0 < ((run moves).strandCounts x).losses := Nat.pos_of_ne_zero hl
  have hx : x < (run moves).shared.strands.size := by
    apply lt_size_of_held (exact_strandCounts x moves)
    unfold StrandCounts.holders
    omega
  have hc := (homed_run x moves).lost hl
  rw [ho hx] at hc
  exact Bool.noConfusion hc

theorem order_of_open (x : Nat) (moves : List (Move H))
    (ho : x < (run moves).shared.strands.size →
      ((run moves).shared.loops.get ((run moves).shared.strands.get x).home).closed = false) :
    history (begun x) moves ++ ((run moves).shared.strands.get x).waiting =
      history (submitted x) moves := by
  induction moves using run_induction with
  | start => rfl
  | move xs y ih =>
    rw [run_concat] at ho ⊢
    have hg := grows_move (run xs) y
    have hp (hx : x < (run xs).shared.strands.size) :
        ((run xs).shared.loops.get ((run xs).shared.strands.get x).home).closed = false := by
      have ho := ho (Nat.lt_of_lt_of_le hx hg.size)
      rw [hg.home x hx] at ho
      by_contra hc
      rw [hg.closed _ (by simpa using hc)] at ho
      exact Bool.noConfusion ho
    have hs := strandCounts_move x (sound_run xs) y
    have h := hs.order (exact_strandCounts x xs) (losses_eq_zero hp) (ih hp)
    rw [history_concat,history_concat]
    exact h

theorem begun_turn {x : Nat} {moves : List (Move H)} {y : Move H} {a : Act H}
    (ha : (run moves).act? y = some a) (ht : a.taken = [.runTurn x]) :
    ∃ t, (run moves).begun x a = [t] ∧ ((run moves).shared.strands.get x).waiting =
      t :: (((run moves).move y).shared.strands.get x).waiting := by
  have hs := strandCounts_move x (sound_run moves) y
  rw [noted_of_act? ha,noted_of_act? ha] at hs
  have hp : 0 < ((run moves).strandCounts x).turns := by
    obtain ⟨k,hk,-⟩ := exists_weight_perform (fits_of_act? ha) (Frame.turns x)
    rw [ht] at hk
    simp [weigh,Frame.turns] at hk
    simp [strandCounts]
    omega
  have hw : ((run moves).shared.strands.get x).waiting ≠ [] := (exact_strandCounts x moves).turns hp
  obtain ⟨t,ts,hw⟩ := List.exists_cons_of_ne_nil hw
  have hb : (run moves).begun x a = [t] := by simp [begun,begunBy,ht,hw]
  have hn : (run moves).submitted x a = [] := by simp [submitted,submittedBy,ht]
  rw [hb,hn] at hs
  refine ⟨t,hb,?_⟩
  cases hs with
  | begin t us n hu hn h =>
    have hm : (((run moves).move y).shared.strands.get x).waiting = us :=
      congrArg StrandCounts.waiting h
    rw [hm]
    exact hu

theorem outstanding_of_finish {c : Nat} {moves : List (Move H)}
    (hc : ((run moves).shared.loops.get c).closed = false) {i : Nat}
    (hf : .finish c ∈ ((run moves).thread i).frames) :
    ((run moves).shared.loops.get c).outstanding ≠ 0 := by
  have ho : ((run moves).shared.loops.get c).outstanding = load c moves :=
    (balanced_ledger c moves).outstanding hc
  have hw := Table.le_weigh (f := Frame.jobs c) hf
  have hl := Table.le_total (f := fun t : Thread H => weigh (Frame.jobs c) t.frames) rfl
    (run moves).threads i
  have hj : (Frame.finish (H := H) c).jobs c = 1 := by simp [Frame.jobs]
  rw [hj] at hw
  unfold thread at hw
  rw [ho]
  unfold load weight
  omega

theorem outstanding_of_turnsIn {c : Nat} {moves : List (Move H)}
    (hc : ((run moves).shared.loops.get c).closed = false) {x : Nat}
    (hq : 0 < turnsIn x ((run moves).shared.loops.get c).queue) :
    ((run moves).shared.loops.get c).outstanding ≠ 0 := by
  have ho : ((run moves).shared.loops.get c).outstanding = load c moves :=
    (balanced_ledger c moves).outstanding hc
  have hl : turnsIn x ((run moves).shared.loops.get c).queue ≤
      ((run moves).shared.loops.get c).queue.length := List.countP_le_length
  rw [ho]
  unfold load
  omega

theorem schedule_of_locked {x : Nat} {moves : List (Move H)}
    (hc : ((run moves).shared.loops.get ((run moves).shared.strands.get x).home).closed = false)
    (ho : ((run moves).shared.loops.get ((run moves).shared.strands.get x).home).outstanding = 0)
    (hl : ((run moves).shared.strands.get x).locked = true) :
    ∃ i fs, ((run moves).thread i).frames = .schedule x :: fs ∧
      .finish ((run moves).shared.strands.get x).home ∉ fs := by
  have hh := (exact_strandCounts x moves).holders
  rw [show ((run moves).strandCounts x).locked = true from hl] at hh
  unfold StrandCounts.holders at hh
  have hz := losses_eq_zero fun _ => hc
  have hq : queuedTurns x (run moves).shared.loops = 0 := by
    by_contra hq
    obtain ⟨d,hd⟩ := Table.exists_of_total_pos _ (Nat.pos_of_ne_zero hq)
    obtain rfl := (homed_run x moves).queued d hd
    exact outstanding_of_turnsIn hc hd ho
  have hw : 0 < (run moves).weight (Frame.turns x) ∨ 0 < (run moves).weight (Frame.releases x) := by
    simp only [strandCounts,if_true] at hh hz
    omega
  have hi : ∃ i, 0 < weigh (Frame.turns x) ((run moves).thread i).frames +
      weigh (Frame.releases x) ((run moves).thread i).frames := by
    obtain hw | hw := hw
    · obtain ⟨i,hi⟩ := Table.exists_of_total_pos _ hw
      exact ⟨i,Nat.add_pos_left hi _⟩
    · obtain ⟨i,hi⟩ := Table.exists_of_total_pos _ hw
      exact ⟨i,Nat.add_pos_right _ hi⟩
  obtain ⟨i,hi⟩ := hi
  obtain hf | ⟨fs,hf⟩ :=
    finish_mem_or_schedule (sound_run moves i).stacked (backed_run x moves i) hi
  · exact absurd ho (outstanding_of_finish hc hf)
  · refine ⟨i,fs,hf,?_⟩
    intro hm
    exact outstanding_of_finish hc (i := i) (hf ▸ List.mem_cons_of_mem _ hm) ho

/-- What a strand promises as long as its loop has an owner. -/
structure Ordered (x : Nat) (moves : List (Move H)) : Prop where
  order : ((run moves).shared.loops.get ((run moves).shared.strands.get x).home).closed = false →
    history (begun x) moves ++ ((run moves).shared.strands.get x).waiting =
      history (submitted x) moves
  locked : ((run moves).shared.strands.get x).waiting ≠ [] →
    ((run moves).shared.strands.get x).locked = true
  /-- A turn takes exactly the first of the handlers that wait. -/
  turn : ∀ y a, (run moves).act? y = some a → a.taken = [.runTurn x] →
    ∃ t, (run moves).begun x a = [t] ∧ ((run moves).shared.strands.get x).waiting =
      t :: (((run moves).move y).shared.strands.get x).waiting
  /-- A dispatch that begins at once overtakes nobody. -/
  inline : ∀ y a t, (run moves).act? y = some a → a.taken = [.tryLock x t] →
    (run moves).begun x a ≠ [] → ((run moves).shared.strands.get x).waiting = []
  /-- When no work is left, nobody waits, unless a thread that is not in a job of the loop has
  just posted and is about to queue the turn. -/
  quiet : ((run moves).shared.loops.get ((run moves).shared.strands.get x).home).closed = false →
    ((run moves).shared.loops.get ((run moves).shared.strands.get x).home).outstanding = 0 →
      (((run moves).shared.strands.get x).locked = false ∧
        ((run moves).shared.strands.get x).waiting = []) ∨
      ∃ i fs, ((run moves).thread i).frames = .schedule x :: fs ∧
        .finish ((run moves).shared.strands.get x).home ∉ fs
  /-- The strand is handed on within the job that ran its last handler. -/
  release : ∀ i fs, ((run moves).thread i).frames = .release x :: fs →
    .finish ((run moves).shared.strands.get x).home ∈ fs

theorem ordered_run (x : Nat) (moves : List (Move H)) : Ordered x moves where
  order ho := order_of_open x moves fun _ => ho
  locked := (exact_strandCounts x moves).waiting
  turn _ _ ha ht := begun_turn ha ht
  inline y a t ha ht hb := by
    by_contra hw
    have hl : ((run moves).shared.strands.get x).locked = true :=
      (exact_strandCounts x moves).waiting hw
    exact hb (by simp [begun,begunBy,ht,hl])
  quiet hc ho := by
    by_cases hl : ((run moves).shared.strands.get x).locked = true
    · exact Or.inr (schedule_of_locked hc ho hl)
    · refine Or.inl ⟨by simpa using hl,?_⟩
      by_contra hw
      exact hl ((exact_strandCounts x moves).waiting hw)
  release i fs hf := by
    have hb := backed_run x moves i
    rw [hf] at hb
    exact (hb.1 (by simp [Frame.serves])).2

end Machine
end EventLoop
