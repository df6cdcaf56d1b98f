import EventLoop.Proofs.Homing
import EventLoop.Proofs.Watch

/-! No wakeup is lost. A thread that sleeps in a loop although there is something to do for it
has been notified, or somebody who looks for work has been, or a notification is on its way. -/
namespace EventLoop

variable {H : Type}

open Table (weigh)

namespace Watch

def Alert (v : Watch) : Prop :=
  v.sleepers = [] ∨ 0 < v.notifyAlls ∨
    v.halted = false ∧ v.outstanding ≠ 0 ∧ v.queued + v.sleepers.length ≤ v.notifyOnes + v.sleeping

variable {me d : Nat} {v v' : Watch}

theorem Step.alert (h : Step me v v' d) (hs : v.sleepers.length + d ≤ v.sleeping)
    (hv : v.Alert) : v'.Alert := by
  unfold Alert at hv ⊢
  cases h with
  | keep h => exact h ▸ hv
  | arrive n h =>
    subst h
    refine hv.imp_right (Or.imp_right ?_)
    rintro ⟨hh,ho,hl⟩
    exact ⟨hh,by simp only; omega,by simp only; omega⟩
  | addWork h =>
    subst h
    refine hv.imp_right (Or.imp_right ?_)
    rintro ⟨hh,-,hl⟩
    exact ⟨hh,Nat.succ_ne_zero _,hl⟩
  | giveBack n ho h =>
    subst h
    refine hv.imp_right (Or.imp_right ?_)
    rintro ⟨hh,-,hl⟩
    exact ⟨hh,Nat.succ_ne_zero _,hl⟩
  | restart b hb h =>
    subst h
    refine hv.imp_right (Or.imp_right ?_)
    rintro ⟨hh,ho,hl⟩
    exact ⟨hb hh,ho,hl⟩
  | halt d a n q ha h =>
    subst h
    exact Or.inr (Or.inl (Nat.succ_pos _))
  | giveUp d a ha hq h =>
    subst h
    refine hv.imp_right (Or.imp_right ?_)
    rintro ⟨hh,ho,hl⟩
    have hq : v.queued = 0 := hq.resolve_left (by simp [hh])
    exact ⟨hh,ho,by simp only; omega⟩
  | take d a n hd ha hq h =>
    subst h
    refine hv.imp_right (Or.imp_right ?_)
    rintro ⟨hh,ho,hl⟩
    exact ⟨hh,ho,by simp only; omega⟩
  | sleep d a ha hh ho hq h =>
    subst h
    exact Or.inr (Or.inr ⟨hh,ho,by simp; omega⟩)
  | awaken a hm ha h =>
    subst h
    have hf : (v.sleepers.filter (· ≠ me)).length < v.sleepers.length :=
      List.length_filter_lt_length_iff_exists.2 ⟨me,hm,by simp⟩
    obtain hn | hn | ⟨hh,ho,hl⟩ := hv
    · exact absurd hm (by simp [hn])
    · exact Or.inr (Or.inl hn)
    · exact Or.inr (Or.inr ⟨hh,ho,by simp only; omega⟩)
  | notifyOne n hn h =>
    subst h
    cases hc : v.sleepers with
    | nil => exact Or.inl rfl
    | cons i is =>
      refine hv.imp (fun hz => ?_) (Or.imp_right ?_)
      · simp [hc] at hz
      · rintro ⟨hh,ho,hl⟩
        rw [hc] at hl
        exact ⟨hh,ho,by simp at hl ⊢; omega⟩
  | notifyAll n hn h =>
    subst h
    exact Or.inl rfl

theorem Step.mem_sleepers (h : Step me v v' d) {i : Nat} (hi : i ∈ v'.sleepers) :
    i ∈ v.sleepers ∨ i = me ∧ 0 < v'.sleeping := by
  cases h with
  | sleep d a ha hh ho hq h =>
    subst h
    obtain hi | hi := List.mem_append.1 hi
    · exact Or.inl hi
    · exact Or.inr ⟨List.mem_singleton.1 hi,Nat.succ_pos _⟩
  | awaken a hm ha h =>
    subst h
    exact Or.inl (List.mem_filter.1 hi).1
  | notifyOne n hn h =>
    subst h
    exact Or.inl (List.mem_of_mem_tail hi)
  | notifyAll n hn h =>
    subst h
    exact absurd hi List.not_mem_nil
  | keep h | arrive n h | addWork h | giveBack n ho h | restart b hb h | halt d a n q ha h
  | giveUp d a ha hq h | take d a n hd ha hq h =>
    subst h
    exact Or.inl hi

theorem Step.nodup (h : Step me v v' d) (hm : me ∉ v.sleepers) (hv : v.sleepers.Nodup) :
    v'.sleepers.Nodup := by
  cases h with
  | sleep d a ha hh ho hq h =>
    subst h
    refine List.nodup_append.2 ⟨hv,by simp,?_⟩
    rintro i hi j hj rfl
    exact hm (List.mem_singleton.1 hj ▸ hi)
  | awaken a hm ha h =>
    subst h
    exact hv.filter _
  | notifyOne n hn h =>
    subst h
    exact hv.sublist (List.tail_sublist _)
  | notifyAll n hn h =>
    subst h
    exact List.nodup_nil
  | keep h | arrive n h | addWork h | giveBack n ho h | restart b hb h | halt d a n q ha h
  | giveUp d a ha hq h | take d a n hd ha hq h =>
    subst h
    exact hv

end Watch

namespace Machine

variable {m : Machine H} {c i : Nat} {a : Act H} {y : Move H}

/-- Thread `i` sleeps in loop `c`, or has been notified there and has not looked yet. -/
def sleepsIn (c : Nat) (m : Machine H) (i : Nat) : Prop :=
  ∃ w limit ran fs, (m.thread i).frames = .asleep c w limit ran :: fs

def watch (c : Nat) (m : Machine H) : Watch :=
  { halted := (m.shared.loops.get c).halted
    outstanding := (m.shared.loops.get c).outstanding
    queued := (m.shared.loops.get c).queue.length
    sleepers := (m.shared.loops.get c).sleepers
    sleeping := m.weight (Frame.sleeping c)
    notifyOnes := m.weight (Frame.notifyOnes c)
    notifyAlls := m.weight (Frame.notifyAlls c) }

theorem taken_of_sleepsIn (ha : a.Fits m) (hn : m.sleepsIn c a.thread) :
    ∃ w limit ran, a.taken = [.asleep c w limit ran] := by
  obtain ⟨w,limit,ran,fs,hn⟩ := hn
  have hf := ha.frames
  rw [hn] at hf
  refine ⟨w,limit,ran,?_⟩
  have hd := ha.deed
  generalize a.effect = e at hd
  cases ht : a.taken with
  | nil =>
    rw [ht] at hd
    cases hd with
    | shift hs => cases hs
  | cons f gs =>
    rw [ht] at hd hf
    obtain ⟨rfl,-⟩ := List.cons.inj hf
    cases hd with
    | shift hs => cases hs
    | _ => rfl

/-- The sleepers of loop `c` are threads that sleep in it, each once. -/
structure SleepersAsleep (c : Nat) (m : Machine H) : Prop where
  nodup : (m.shared.loops.get c).sleepers.Nodup
  sleepsIn : ∀ i ∈ (m.shared.loops.get c).sleepers, m.sleepsIn c i

theorem frames_of_sleepsIn (hn : m.sleepsIn c i) : (m.thread i).frames ≠ [] := by
  obtain ⟨w,limit,ran,fs,hf⟩ := hn
  simp [hf]

theorem sleepsIn_of_thread_eq {m' : Machine H} (h : m'.thread i = m.thread i) (hn : m.sleepsIn c i) :
    m'.sleepsIn c i := by
  unfold sleepsIn
  rwa [h]

theorem sleepsIn_of_weigh (hm : (m.thread i).Sound)
    (hw : 0 < weigh (Frame.sleeping c) (m.thread i).frames) : m.sleepsIn c i := by
  obtain ⟨f,hf,hp⟩ := Table.exists_of_weigh_pos hw
  cases f with
  | asleep d w limit ran =>
    simp only [Frame.sleeping] at hp
    split at hp
    · rename_i hd
      subst hd
      obtain ⟨fs,hfs⟩ := head_of_mem hm.stacked hf rfl
      exact ⟨w,limit,ran,fs,hfs⟩
    · exact absurd hp (Nat.lt_irrefl 0)
  | _ => exact absurd hp (Nat.lt_irrefl 0)

theorem sleepersAsleep_perform (hm : ∀ i, (m.thread i).Sound) (hr : m.SleepersAsleep c)
    (ha : m.act? y = some a) : (m.perform a).SleepersAsleep c := by
  have hf := fits_of_act? ha
  have hd := hf.deed
  have hsound : ∀ i, ((m.perform a).thread i).Sound := by
    rw [← move_of_act? ha]
    exact sound_move hm y
  by_cases hs : a.thread ∈ (m.shared.loops.get c).sleepers
  · obtain ⟨w,limit,ran,ht⟩ := taken_of_sleepsIn hf (hr.sleepsIn _ hs)
    rw [ht] at hd
    have hl : ((m.perform a).shared.loops.get c).sleepers =
        (m.shared.loops.get c).sleepers.filter (· ≠ a.thread) := by
      simp [hd.awakens hs,Shared.onLoop,Loop.awaken]
    refine ⟨hl ▸ hr.nodup.filter _,?_⟩
    intro i hi
    rw [hl] at hi
    obtain ⟨hi,hne⟩ := List.mem_filter.1 hi
    have hn := hr.sleepsIn i hi
    exact sleepsIn_of_thread_eq
      (thread_perform_ne (by simpa using hne) (frames_of_sleepsIn hn)) hn
  · obtain ⟨d,hw,-⟩ := watches_deed (c := c) hd (hf.rests_tail hm)
    refine ⟨hw.nodup hs hr.nodup,?_⟩
    intro i hi
    obtain hi | ⟨rfl,hp⟩ := hw.mem_sleepers hi
    · have hn := hr.sleepsIn i hi
      exact sleepsIn_of_thread_eq (thread_perform_ne (fun h => hs (h ▸ hi)) (frames_of_sleepsIn hn)) hn
    · apply sleepsIn_of_weigh (hsound _)
      rw [thread_perform_self,Table.weigh_append]
      have hp : 0 < weigh (Frame.sleeping c) a.effect.put := hp
      rw [weigh_put fun _ => rfl] at hp
      omega

theorem sleepers_happen (m : Machine H) (y : Move H) (c : Nat) :
    ((m.happen y).shared.loops.get c).sleepers.Perm (m.shared.loops.get c).sleepers := by
  cases y with
  | prefer d i =>
    simp only [happen,mapShared,Shared.onLoop,Table.get_update]
    split
    · unfold Loop.prefer
      split
      · rename_i hi
        exact (List.perm_cons_erase hi).symm
      · exact List.Perm.refl _
    · exact List.Perm.refl _
  | addLoop settings =>
    simp only [happen,mapShared,Table.get_push]
    split
    · rename_i h
      rw [Table.get_of_size_le _ (Nat.le_of_eq h.symm)]
      exact List.Perm.refl _
    · exact List.Perm.refl _
  | _ => exact List.Perm.refl _

theorem sleepersAsleep_happen (hr : m.SleepersAsleep c) (y : Move H) :
    (m.happen y).SleepersAsleep c := by
  have hp := sleepers_happen m y c
  refine ⟨hp.nodup_iff.2 hr.nodup,?_⟩
  intro i hi
  have hn := hr.sleepsIn i (hp.mem_iff.1 hi)
  exact sleepsIn_of_thread_eq (thread_happen_eq (frames_of_sleepsIn hn)) hn

theorem sleepersAsleep_run (c : Nat) (moves : List (Move H)) : (run moves).SleepersAsleep c := by
  induction moves using run_induction with
  | start =>
    refine ⟨List.nodup_nil,?_⟩
    intro i hi
    exact absurd hi List.not_mem_nil
  | move xs y ih =>
    rw [run_concat]
    obtain ⟨a,hy,-,hmove⟩ | ⟨-,hmove⟩ := move_cases (run xs) y
    · rw [hmove]
      exact sleepersAsleep_perform (sound_run xs) ih hy
    · rw [hmove]
      exact sleepersAsleep_happen ih y

theorem weigh_sleeping_le (hm : (m.thread i).Sound) :
    weigh (Frame.sleeping c) (m.thread i).frames ≤ 1 := by
  have hs := hm.stacked
  cases hf : (m.thread i).frames with
  | nil => exact Nat.zero_le 1
  | cons f fs =>
    rw [hf] at hs
    obtain ⟨⟨hr,-⟩,-⟩ := hs
    have hz : weigh (Frame.sleeping c) fs = 0 := by
      apply Table.weigh_eq_zero
      intro g hg
      have hg := List.all_eq_true.1 hr g hg
      cases g with
      | asleep d w limit ran => exact Bool.noConfusion hg
      | _ => rfl
    have hle : f.sleeping c ≤ 1 := by
      cases f with
      | asleep d w limit ran =>
        simp only [Frame.sleeping]
        split <;> omega
      | _ => exact Nat.zero_le 1
    simp only [weigh]
    omega

theorem weigh_of_sleepsIn (hn : m.sleepsIn c i) :
    0 < weigh (Frame.sleeping c) (m.thread i).frames := by
  obtain ⟨w,limit,ran,fs,hf⟩ := hn
  simp only [hf,weigh,Frame.sleeping,if_true]
  omega

theorem length_sleepers_le (hr : m.SleepersAsleep c) {d : Nat}
    (hd : d = 0 ∨ d = 1 ∧ m.sleepsIn c i ∧ i ∉ (m.shared.loops.get c).sleepers) :
    (m.shared.loops.get c).sleepers.length + d ≤ m.weight (Frame.sleeping c) := by
  have hle (is : List Nat) (hn : is.Nodup) (hi : ∀ j ∈ is, m.sleepsIn c j) :
      is.length ≤ m.weight (Frame.sleeping c) :=
    Table.length_le_total (f := fun t : Thread H => weigh (Frame.sleeping c) t.frames) rfl hn
      m.threads fun j hj => weigh_of_sleepsIn (hi j hj)
  obtain rfl | ⟨rfl,hn,hs⟩ := hd
  · exact hle _ hr.nodup hr.sleepsIn
  · refine hle (i :: (m.shared.loops.get c).sleepers) (List.nodup_cons.2 ⟨hs,hr.nodup⟩) ?_
    intro j hj
    obtain rfl | hj := List.mem_cons.1 hj
    · exact hn
    · exact hr.sleepsIn j hj

theorem watch_perform (c : Nat) (hm : ∀ i, (m.thread i).Sound) (hr : m.SleepersAsleep c)
    (ha : m.act? y = some a) :
    ∃ d, Watch.Step a.thread (m.watch c) ((m.perform a).watch c) d ∧
      (m.watch c).sleepers.length + d ≤ (m.watch c).sleeping := by
  have hf := fits_of_act? ha
  obtain ⟨i,hi,hi'⟩ := exists_weight_perform hf (Frame.sleeping c)
  obtain ⟨j,hj,hj'⟩ := exists_weight_perform hf (Frame.notifyOnes c)
  obtain ⟨k,hk,hk'⟩ := exists_weight_perform hf (Frame.notifyAlls c)
  obtain ⟨d,hw,hd⟩ := watches_deed (c := c) hf.deed (hf.rests_tail hm)
  have hs := hw.add i j k
  have h : (m.shared.watch c a.taken).add i j k = m.watch c := by
    simp [Shared.watch,Watch.add,watch,hi,hj,hk]
  have h' : (a.effect.shared.watch c a.effect.put).add i j k = (m.perform a).watch c := by
    simp only [Shared.watch,Watch.add,watch,hi',hj',hk']
    rfl
  rw [h,h'] at hs
  refine ⟨d,hs,length_sleepers_le (i := a.thread) hr (hd.imp_right ?_)⟩
  rintro ⟨hd,⟨w,limit,ran,ht⟩,hn⟩
  refine ⟨hd,⟨w,limit,ran,a.rest,?_⟩,hn⟩
  rw [hf.frames,ht]
  rfl

theorem alert_happen (m : Machine H) (y : Move H) (h : (m.watch c).Alert) :
    ((m.happen y).watch c).Alert := by
  have hp := sleepers_happen m y c
  have hl : ((m.happen y).shared.loops.get c).halted = (m.shared.loops.get c).halted ∧
      ((m.happen y).shared.loops.get c).outstanding = (m.shared.loops.get c).outstanding := by
    cases y with
    | prefer d i =>
      simp only [happen,mapShared,Shared.onLoop,Table.get_update]
      split
      · unfold Loop.prefer
        split <;> exact ⟨rfl,rfl⟩
      · exact ⟨rfl,rfl⟩
    | addLoop settings =>
      simp only [happen,mapShared,Table.get_push]
      split
      · rename_i h
        rw [Table.get_of_size_le _ (Nat.le_of_eq h.symm)]
        exact ⟨rfl,rfl⟩
      · exact ⟨rfl,rfl⟩
    | _ => exact ⟨rfl,rfl⟩
  simp only [Watch.Alert,watch,weight_happen_of (w := Frame.sleeping c) fun _ => rfl,
    weight_happen_of (w := Frame.notifyOnes c) fun _ => rfl,
    weight_happen_of (w := Frame.notifyAlls c) fun _ => rfl,hl,queue_happen,hp.length_eq] at h ⊢
  refine h.imp_left ?_
  intro hn
  rw [hn] at hp
  exact hp.eq_nil

theorem alert_run (c : Nat) (moves : List (Move H)) : ((run moves).watch c).Alert := by
  induction moves using run_induction with
  | start => exact Or.inl rfl
  | move xs y ih =>
    rw [run_concat]
    obtain ⟨a,hy,-,hmove⟩ | ⟨-,hmove⟩ := move_cases (run xs) y
    · rw [hmove]
      obtain ⟨d,hs,hd⟩ := watch_perform c (sound_run xs) (sleepersAsleep_run c xs) hy
      exact hs.alert hd ih
    · rw [hmove]
      exact alert_happen (run xs) y ih

/-- A wakeup is lost: somebody sleeps in loop `c` whom nobody has notified or is about to notify,
nobody else who has been notified is still to look, and there is something to do. -/
structure Stuck (c : Nat) (m : Machine H) : Prop where
  sleeper : ∃ i ∈ (m.shared.loops.get c).sleepers, m.sleepsIn c i
  heard : ∀ i, m.sleepsIn c i → i ∈ (m.shared.loops.get c).sleepers
  told : ∀ i, .notifyOne c ∉ (m.thread i).frames ∧ .notifyAll c ∉ (m.thread i).frames
  cause : (m.shared.loops.get c).queue ≠ [] ∨ (m.shared.loops.get c).stopped = true ∨
    (m.shared.loops.get c).closed = true ∨ (m.shared.loops.get c).outstanding = 0

/-- However threads look for work, sleep and are notified, no wakeup of a loop is ever lost. -/
theorem not_stuck_run (c : Nat) (moves : List (Move H)) : ¬ (run moves).Stuck c := by
  rintro ⟨⟨i,hi,-⟩,hh,ht,hc⟩
  have ha := alert_run c moves
  have hd : (run moves).weight (Frame.sleeping c) ≤
      ((run moves).shared.loops.get c).sleepers.length := by
    apply Table.total_le_length (f := fun t : Thread H => weigh (Frame.sleeping c) t.frames) rfl
    · exact fun j => weigh_sleeping_le (sound_run moves j)
    · exact fun j hj => hh j (sleepsIn_of_weigh (sound_run moves j) hj)
  have hn : (run moves).weight (Frame.notifyOnes c) = 0 := by
    apply weight_eq_zero
    intro j f hf
    cases f with
    | notifyOne d =>
      simp only [Frame.notifyOnes,ite_eq_right_iff]
      rintro rfl
      exact absurd hf (ht j).1
    | _ => rfl
  have hl : (run moves).weight (Frame.notifyAlls c) = 0 := by
    apply weight_eq_zero
    intro j f hf
    cases f with
    | notifyAll d =>
      simp only [Frame.notifyAlls,ite_eq_right_iff]
      rintro rfl
      exact absurd hf (ht j).2
    | _ => rfl
  obtain hs | hs | ⟨hs,ho,hq⟩ := ha
  · have hs : ((run moves).shared.loops.get c).sleepers = [] := hs
    rw [hs] at hi
    exact absurd hi List.not_mem_nil
  · have hs : 0 < (run moves).weight (Frame.notifyAlls c) := hs
    omega
  · have hs := Bool.or_eq_false_iff.1 hs
    simp only [watch] at ho hq
    have hz : ((run moves).shared.loops.get c).queue.length = 0 := by omega
    obtain hc | hc | hc | hc := hc
    · exact hc (List.length_eq_zero_iff.1 hz)
    · simp [hs.1] at hc
    · simp [hs.2] at hc
    · exact ho hc

end Machine
end EventLoop
