import EventLoop.Proofs.Exclusion
import EventLoop.Proofs.Growth

/-! The turn of a strand is queued on the strand's loop and nowhere else, it is destroyed only
when that loop has lost its owner, and it runs and is released within a job of the loop. -/
namespace EventLoop

variable {H : Type}

open Table (weigh)

def Shared.NoMore (x : Nat) (s t : Shared H) : Prop :=
  ∀ d, turnsIn x (t.loops.get d).queue ≤ turnsIn x (s.loops.get d).queue

namespace Shared.NoMore

variable {x : Nat} {s t : Shared H}

theorem refl (s : Shared H) : s.NoMore x s := fun _ => Nat.le_refl _

theorem onLoop (h : s.NoMore x t) {c : Nat} {f : Loop H → Loop H}
    (hf : turnsIn x (f (t.loops.get c)).queue ≤ turnsIn x (t.loops.get c).queue) :
    s.NoMore x (t.onLoop c f) := by
  intro d
  refine Nat.le_trans ?_ (h d)
  simp only [Shared.onLoop,Table.get_update]
  split
  · rename_i hd
    exact hd ▸ hf
  · exact Nat.le_refl _

end Shared.NoMore

section

variable {x me : Nat} {s : Shared H} {active : List Executor}

open Shared.NoMore

theorem noMore_rule {f : Frame H} {e : Effect H} (hr : Rule me s active f e)
    (hf : f ≠ .schedule x) : s.NoMore x e.shared := by
  cases hr with
  | enqueue hs =>
    cases hs with
    | post c t =>
      exact (refl s).onLoop (Nat.le_of_eq (by simp [Loop.enqueue,turnsIn,Job.isTurn]))
    | schedule y =>
      have hy : y ≠ x := fun h => hf (by rw [h])
      exact (refl s).onLoop (Nat.le_of_eq (by simp [Loop.enqueue,turnsIn,Job.isTurn,hy]))
  | take hl j rest hp =>
    refine (refl s).onLoop ?_
    rw [(pick_job hp).2]
    exact (List.sublist_cons_self j rest).countP_le
  | dropOwner => exact (refl s).onLoop (Nat.zero_le _)
  | complete =>
    exact (refl s).onLoop (Nat.le_of_eq (by simp [Loop.enqueueCompletion,turnsIn,Job.isTurn]))
  | _ => first | exact refl s | exact (refl s).onLoop (Nat.le_refl _)

theorem noMore_deed {taken : List (Frame H)} {e : Effect H} (hd : Deed me s active taken e)
    (ht : taken ≠ [.schedule x]) : s.NoMore x e.shared := by
  obtain ⟨frames,-,rfl⟩ | ⟨f,rfl,hr⟩ := hd.shift_or_rule
  · exact refl s
  · exact noMore_rule hr fun h => ht (by rw [h])

theorem turn_arrives {taken : List (Frame H)} {e : Effect H} {d : Nat}
    (hd : Deed me s active taken e) (h : 0 < turnsIn x (e.shared.loops.get d).queue) :
    0 < turnsIn x (s.loops.get d).queue ∨
      taken = [.schedule x] ∧ d = (s.strands.get x).home := by
  by_cases ht : taken = [.schedule x]
  · by_cases hc : d = (s.strands.get x).home
    · exact Or.inr ⟨ht,hc⟩
    · left
      subst ht
      obtain ⟨frames,-,rfl⟩ | hr := hd.rule_of_singleton
      · exact h
      cases hr with
      | rewrite => exact h
      | enqueue hf =>
        cases hf
        simpa [Shared.onLoop,Table.get_update_ne,Ne.symm hc] using h
      | take hf | runDry hf | sleep hf => cases hf
  · exact Or.inl (Nat.lt_of_lt_of_le h (noMore_deed hd ht d))

theorem turn_lost_rule {f : Frame H} {e : Effect H} (hr : Rule me s active f e)
    (h : 0 < weigh (Frame.losses x) e.frames) :
    0 < weigh (Frame.losses x) [f] ∨
      (∃ d, 0 < turnsIn x (s.loops.get d).queue ∧ (e.shared.loops.get d).closed = true) ∨
      f = .schedule x ∧ (s.loops.get (s.strands.get x).home).closed = true := by
  cases hr with
  | rewrite hr =>
    cases hr with
    | destroy hs hc =>
      cases hs with
      | post => exact absurd h (Nat.lt_irrefl 0)
      | schedule y =>
        by_cases hy : y = x
        · exact Or.inr (Or.inr ⟨by rw [hy],hy ▸ hc⟩)
        · simp [Frame.dropJob,weigh,Frame.losses,hy] at h
    | dropJobsCons j js =>
      left
      cases j with
      | task t => simpa [Frame.dropJob,weigh,Frame.losses,turnsIn,Job.isTurn] using h
      | turn y =>
        by_cases hy : y = x
        · simp [weigh,Frame.losses,turnsIn,Job.isTurn,hy]
        · simpa [Frame.dropJob,weigh,Frame.losses,turnsIn,Job.isTurn,hy] using h
    | _ => exact absurd h (Nat.lt_irrefl 0)
  | dropOwner c =>
    refine Or.inr (Or.inl ⟨c,?_,?_⟩)
    · simpa [weigh,Frame.losses] using h
    · simp [Shared.onLoop,Loop.close]
  | take hl j => cases j <;> exact absurd h (Nat.lt_irrefl 0)
  | _ => exact absurd h (Nat.lt_irrefl 0)

theorem turn_lost {taken : List (Frame H)} {e : Effect H} (hd : Deed me s active taken e)
    (hr : taken.tail.all Frame.rests = true) (h : 0 < weigh (Frame.losses x) e.frames) :
    0 < weigh (Frame.losses x) taken ∨
      (∃ d, 0 < turnsIn x (s.loops.get d).queue ∧ (e.shared.loops.get d).closed = true) ∨
      taken = [.schedule x] ∧ (s.loops.get (s.strands.get x).home).closed = true := by
  obtain ⟨frames,hs,rfl⟩ | ⟨f,rfl,hf⟩ := hd.shift_or_rule
  · exact Or.inl (weigh_shift weightless_losses hs hr ▸ h)
  · obtain h | h | ⟨h,hc⟩ := turn_lost_rule hf h
    · exact Or.inl h
    · exact Or.inr (Or.inl h)
    · exact Or.inr (Or.inr ⟨by rw [h],hc⟩)

end

namespace Machine

/-- Where the turns of strand `x` are queued and when they are destroyed. -/
structure Homed (x : Nat) (m : Machine H) : Prop where
  queued : ∀ c, 0 < turnsIn x (m.shared.loops.get c).queue → c = (m.shared.strands.get x).home
  lost : 0 < m.weight (Frame.losses x) →
    (m.shared.loops.get (m.shared.strands.get x).home).closed = true

theorem lt_size_of_held {x : Nat} {m : Machine H} (hm : (m.strandCounts x).Exact)
    (h : 0 < (m.strandCounts x).holders) : x < m.shared.strands.size := by
  by_contra hx
  have hl : (m.shared.strands.get x).locked = false := by
    rw [Table.get_of_size_le _ (Nat.le_of_not_lt hx)]
    rfl
  have hh := hm.holders
  rw [show (m.strandCounts x).locked = false from hl] at hh
  simp at hh
  omega

theorem turnsIn_le (x c : Nat) (m : Machine H) :
    turnsIn x (m.shared.loops.get c).queue ≤ (m.strandCounts x).turns := by
  have h : turnsIn x (m.shared.loops.get c).queue ≤ queuedTurns x m.shared.loops :=
    Table.le_total (f := fun l : Loop H => turnsIn x l.queue) rfl m.shared.loops c
  exact Nat.le_trans h (Nat.le_add_right _ _)

theorem queue_happen (m : Machine H) (y : Move H) (c : Nat) :
    ((m.happen y).shared.loops.get c).queue = (m.shared.loops.get c).queue := by
  cases y with
  | prefer d i =>
    have hp (l : Loop H) : (Loop.prefer i l).queue = l.queue := by
      unfold Loop.prefer
      split <;> rfl
    simp only [happen,mapShared,Shared.onLoop,Table.get_update]
    split
    · exact hp _
    · rfl
  | addLoop settings =>
    simp only [happen,mapShared,Table.get_push]
    split
    · rename_i h
      rw [Table.get_of_size_le _ (Nat.le_of_eq h.symm)]
      rfl
    · rfl
  | _ => rfl

section

variable {x : Nat} {m : Machine H} (hs : ∀ i, (m.thread i).Sound) (hx : (m.strandCounts x).Exact)
  (hm : m.Homed x)

include hx in
theorem home_move (h : 0 < (m.strandCounts x).holders) (y : Move H) :
    ((m.move y).shared.strands.get x).home = (m.shared.strands.get x).home :=
  (grows_move m y).home x (lt_size_of_held hx h)

include hx hm

include hs in
theorem homed_perform {a : Act H} (ha : a.Fits m) {y : Move H}
    (hy : m.move y = m.perform a) : (m.move y).Homed x := by
  have hg := grows_move m y
  have hhome := home_move hx (y := y)
  have hf : a.taken = [.schedule x] → 0 < (m.strandCounts x).turns := by
    intro h
    obtain ⟨k,hk,-⟩ := exists_weight_perform ha (Frame.turns x)
    rw [h] at hk
    simp [weigh,Frame.turns] at hk
    simp [strandCounts]
    omega
  unfold StrandCounts.holders at hhome
  refine ⟨?_,?_⟩
  · intro c hc
    rw [hy] at hc
    obtain h | ⟨ht,hc⟩ := turn_arrives ha.deed hc
    · have hle := turnsIn_le x c m
      rw [hhome (by omega)]
      exact hm.queued c h
    · have ht := hf ht
      rw [hhome (by omega)]
      exact hc
  · intro hl
    obtain ⟨k,hk,hk'⟩ := exists_weight_perform ha (Frame.losses x)
    have hw : (m.strandCounts x).losses = m.weight (Frame.losses x) := rfl
    rw [hy,hk',weigh_put fun _ => rfl] at hl
    by_cases ho : 0 < weigh (Frame.losses x) a.taken + k
    · rw [hhome (by omega)]
      exact hg.closed _ (hm.lost (by omega))
    · have hl : 0 < weigh (Frame.losses x) a.effect.frames := by omega
      obtain h | ⟨d,hd,hc⟩ | ⟨ht,hc⟩ := turn_lost ha.deed (ha.rests_tail hs) hl
      · omega
      · have hle := turnsIn_le x d m
        rw [hhome (by omega),← hm.queued d hd,hy]
        exact hc
      · have ht := hf ht
        rw [hhome (by omega)]
        exact hg.closed _ hc

theorem homed_happen {y : Move H} (hy : m.move y = m.happen y) : (m.move y).Homed x := by
  have hg := grows_move m y
  have hhome := home_move hx (y := y)
  unfold StrandCounts.holders at hhome
  refine ⟨?_,?_⟩
  · intro c hc
    rw [hy,queue_happen] at hc
    have hle := turnsIn_le x c m
    rw [hhome (by omega)]
    exact hm.queued c hc
  · intro hl
    rw [hy,weight_happen weightless_losses] at hl
    have hw : (m.strandCounts x).losses = m.weight (Frame.losses x) := rfl
    rw [hhome (by omega)]
    exact hg.closed _ (hm.lost hl)

end

theorem homed_run (x : Nat) (moves : List (Move H)) : (run moves).Homed x := by
  induction moves using run_induction with
  | start =>
    refine ⟨?_,?_⟩
    · intro c hc
      exact absurd hc (Nat.lt_irrefl 0)
    · intro h
      exact absurd h (Nat.lt_irrefl 0)
  | move xs y ih =>
    rw [run_concat]
    obtain ⟨a,-,ha,hmove⟩ | ⟨-,hmove⟩ := move_cases (run xs) y
    · exact homed_perform (sound_run xs) (exact_strandCounts x xs) ih ha hmove
    · exact homed_happen (exact_strandCounts x xs) ih hmove

end Machine

namespace Frame

/-- The places where strand `x` is worked on: its turn, an inline dispatch and its release. -/
def serves (x : Nat) : Frame H → Bool
  | .runTurn y | .tryLock y _ | .release y => y = x
  | _ => false

end Frame

/-- Whatever works on strand `x` lies on a job of the strand's loop. -/
def Backed (x : Nat) (s : Shared H) : List (Frame H) → Prop
  | [] => True
  | f :: fs =>
    (f.serves x = true → x < s.strands.size ∧ .finish (s.strands.get x).home ∈ fs) ∧
      Backed x s fs

namespace Backed

variable {x : Nat} {s t : Shared H}

theorem mono (hg : s.Grows t) {fs : List (Frame H)} (h : Backed x s fs) : Backed x t fs := by
  induction fs with
  | nil => trivial
  | cons f fs ih =>
    obtain ⟨hf,hfs⟩ := h
    refine ⟨?_,ih hfs⟩
    intro hw
    obtain ⟨hx,hm⟩ := hf hw
    exact ⟨Nat.lt_of_lt_of_le hx hg.size,(hg.home x hx).symm ▸ hm⟩

theorem finish_mem {f : Frame H} {fs : List (Frame H)}
    (h : Backed x s fs) (hm : f ∈ fs) (hf : f.serves x = true) :
    .finish (s.strands.get x).home ∈ fs := by
  induction fs with
  | nil => exact absurd hm List.not_mem_nil
  | cons g fs ih =>
    apply List.mem_cons_of_mem
    obtain rfl | hm := List.mem_cons.1 hm
    · exact (h.1 hf).2
    · exact ih h.2 hm

theorem cons {f : Frame H} {fs : List (Frame H)} (hf : f.serves x = false)
    (h : Backed x s fs) : Backed x s (f :: fs) := by
  refine ⟨?_,h⟩
  intro hw
  rw [hf] at hw
  exact Bool.noConfusion hw

theorem append {fs gs : List (Frame H)} (hf : fs.any (Frame.serves x) = false)
    (h : Backed x s gs) : Backed x s (fs ++ gs) := by
  induction fs with
  | nil => exact h
  | cons f fs ih =>
    obtain ⟨hf,hfs⟩ := Bool.or_eq_false_iff.1 hf
    exact .cons hf (ih hfs)

end Backed

theorem finish_mem_of_leaves {c : Nat} {fs : List (Frame H)} (hr : fs.all Frame.rests = true)
    (hs : Stacked fs) (hn : firstCalm fs ≠ some (.leave (.loop c)))
    (hl : (.loop c) ∈ leaves fs) : .finish c ∈ fs := by
  induction fs with
  | nil => exact absurd hl List.not_mem_nil
  | cons f fs ih =>
    obtain ⟨⟨-,-,ho,-⟩,hs⟩ := hs
    simp only [List.all_cons,Bool.and_eq_true] at hr
    obtain ⟨hf,hr⟩ := hr
    by_cases hc : firstCalm fs = some (.leave (.loop c))
    · have he := ho c hc
      cases f with
      | panic t => exact absurd hc hn
      | finish d =>
        obtain rfl : d = c := by simpa [Frame.ends] using he
        exact List.mem_cons_self
      | finishWork d | notifyAll d => exact Bool.noConfusion hf
      | _ => exact Bool.noConfusion he
    · apply List.mem_cons_of_mem
      apply ih hr hs hc
      cases f with
      | leave e =>
        have hl : .loop c = e ∨ .loop c ∈ leaves fs := by simpa [leaves,Frame.left] using hl
        obtain rfl | hl := hl
        · exact absurd rfl hn
        · exact hl
      | _ => exact hl

section

variable {x me : Nat} {s : Shared H} {active : List Executor} {rest : List (Frame H)}

theorem backed_rewrite {f : Frame H} {frames : List (Frame H)} (hr : Rewrite me s active f frames)
    (ht : Thread.Sound ⟨f :: rest, active⟩) (h : Backed x s (f :: rest)) :
    Backed x s (frames ++ rest) := by
  have ⟨hf,hs⟩ := h
  cases hr with
  | destroy hb => cases hb <;> exact .append rfl hs
  | dispatchLock y t he hy hl =>
    have hg : Ground rest := ground_of_over ht.stacked fun _ => rfl
    have ha : active = leaves rest := ht.active
    refine ⟨?_,hs⟩
    intro hw
    obtain rfl : y = x := by simpa [Frame.serves] using hw
    exact ⟨hy,finish_mem_of_leaves hg.rests hg.stacked (hg.calm _) (ha ▸ hl)⟩
  | turnNone y => exact ⟨hf,hs⟩
  | dropJobsCons j => cases j <;> exact .append rfl hs
  | _ => exact .append rfl hs

theorem backed_rule {f : Frame H} {e : Effect H} (hr : Rule me s active f e)
    (ht : Thread.Sound ⟨f :: rest, active⟩)
    (hq : ∀ d, 0 < turnsIn x (s.loops.get d).queue →
      x < s.strands.size ∧ d = (s.strands.get x).home) (h : Backed x s (f :: rest)) :
    Backed x s (e.frames ++ rest) := by
  have ⟨hf,hs⟩ := h
  cases hr with
  | rewrite hr => exact backed_rewrite hr ht h
  | @take _ c _ _ _ hl j js hp =>
    refine ⟨?_,.append rfl hs⟩
    cases j with
    | task t => exact fun h => Bool.noConfusion h
    | turn y =>
      intro h
      obtain rfl : y = x := by simpa [Frame.execute,Frame.serves] using h
      obtain ⟨hx,hc⟩ := hq c (by simp [(pick_job hp).2,turnsIn,Job.isTurn])
      exact ⟨hx,hc ▸ List.mem_cons_self⟩
  | turn y | lock y =>
    have hf : Backed x s (.release y :: rest) := ⟨hf,hs⟩
    exact .cons rfl (.cons rfl hf)
  | _ => exact .append rfl hs

theorem backed_shift {taken frames : List (Frame H)} (hs : Shift taken frames)
    (h : Backed x s (taken ++ rest)) : Backed x s (frames ++ rest) := by
  cases hs with
  | cleanUp t f hc =>
    obtain ⟨-,hf,hr⟩ := h
    refine ⟨?_,.cons rfl hr⟩
    intro hw
    obtain ⟨hx,hm⟩ := hf hw
    exact ⟨hx,List.mem_cons_of_mem _ hm⟩
  | skip t f hs hc => exact .cons rfl h.2.2
  | answer r => exact h.2
  | die t => exact h.2
  | call role u made c => exact .cons rfl (.cons rfl h.2)
  | finish role u made => exact h.2
  | raise role u made t => exact .cons rfl (.cons rfl h.2)
  | pass role u made t => exact .cons rfl h.2.2
  | recover role u made t => exact .cons rfl h.2.2

theorem backed_deed {taken : List (Frame H)} {e : Effect H} (hd : Deed me s active taken e)
    (ht : Thread.Sound ⟨taken ++ rest, active⟩)
    (hq : ∀ d, 0 < turnsIn x (s.loops.get d).queue →
      x < s.strands.size ∧ d = (s.strands.get x).home) (h : Backed x s (taken ++ rest)) :
    Backed x s (e.frames ++ rest) := by
  obtain ⟨frames,hs,rfl⟩ | ⟨f,rfl,hr⟩ := hd.shift_or_rule
  · exact backed_shift hs h
  · exact backed_rule hr ht hq h

end

namespace Machine

theorem backed_move {x : Nat} {m : Machine H} (hs : ∀ i, (m.thread i).Sound)
    (hx : (m.strandCounts x).Exact) (hm : m.Homed x)
    (hb : ∀ i, Backed x m.shared (m.thread i).frames) (y : Move H) (i : Nat) :
    Backed x (m.move y).shared ((m.move y).thread i).frames := by
  have hq (d : Nat) (hd : 0 < turnsIn x (m.shared.loops.get d).queue) :
      x < m.shared.strands.size ∧ d = (m.shared.strands.get x).home := by
    have hle := turnsIn_le x d m
    refine ⟨lt_size_of_held hx ?_,hm.queued d hd⟩
    unfold StrandCounts.holders
    omega
  apply Backed.mono (grows_move m y)
  obtain ⟨a,-,ha,hmove⟩ | ⟨-,hmove⟩ := move_cases m y
  · rw [hmove]
    obtain h | ⟨o,-,h⟩ | ⟨-,h⟩ := thread_perform m a i
    · rw [h]
      exact backed_deed ha.deed ⟨ha.frames ▸ (hs a.thread).stacked,ha.frames ▸ (hs a.thread).active⟩
        hq (ha.frames ▸ hb a.thread)
    · rw [h]
      exact .cons rfl trivial
    · rw [h]
      exact hb i
  · rw [hmove]
    obtain ⟨u,h⟩ | h := thread_happen m y i
    · rw [h]
      exact .cons rfl trivial
    · rw [h]
      exact hb i

theorem backed_run (x : Nat) (moves : List (Move H)) :
    ∀ i, Backed x (run moves).shared ((run moves).thread i).frames := by
  induction moves using run_induction with
  | start => exact fun _ => trivial
  | move xs y ih =>
    rw [run_concat]
    exact backed_move (sound_run xs) (exact_strandCounts x xs) (homed_run x xs) ih y

end Machine
end EventLoop
