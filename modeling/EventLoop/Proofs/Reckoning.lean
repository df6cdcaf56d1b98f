import EventLoop.Proofs.ForestRun

/-! What calls return and counters tell agrees with what ran. Every job that was posted is executed,
queued, in progress or given up, a call tells how many jobs it took itself, and when a forest of
handlers has run, all these numbers are one. -/
namespace EventLoop

variable {H : Type}

open Table (weigh)

namespace Machine

section

variable {c : Nat} {setup running moves : List (Move H)}

theorem length_accepted (c : Nat) (moves : List (Move H)) :
    (history (accepted c) moves).length = (history (handedOut c) moves).length +
      ((run moves).shared.loops.get c).queue.length + (history (givenUp c) moves).length := by
  induction moves using run_induction with
  | start => rfl
  | move xs y ih =>
    simp only [run_concat,history_concat,List.length_append]
    obtain ⟨a,hy,ha,hmove⟩ | ⟨hy,hmove⟩ := move_cases (run xs) y
    · simp only [noted_of_act? hy,hmove,shared_perform]
      by_cases ht : a.taken = [.call (.dropOwner c)]
      · have hd := ha.deed
        rw [ht] at hd
        simp only [accepted,handedOut,givenUp,ht,hd.eq_step rfl]
        simp [Frame.step,Frame.stepCall,offeredBy,broughtBy,handedBy,Shared.onLoop,Loop.close]
        omega
      · have hq := congrArg List.length ((queued_move c hy).order ht)
        have hn : (run xs).givenUp c a = [] := by
          unfold givenUp
          split
          · rename_i d hd
            rw [if_neg]
            rintro rfl
            exact ht hd
          · rfl
        simp only [List.length_append] at hq
        rw [hn]
        simp only [accepted,handedOut,List.length_nil]
        omega
    · simp only [noted_of_act?_none hy,hmove,queue_happen]
      simpa using ih

theorem posted_eq (c : Nat) (moves : List (Move H)) :
    ((run moves).shared.loops.get c).counters.posted =
      ((run moves).shared.loops.get c).counters.executed +
        ((run moves).shared.loops.get c).queue.length + (run moves).weight (Frame.works c) +
        (history (givenUp c) moves).length := by
  rw [posted_run,executed_run,length_accepted,length_handedOut]
  omega

/-- Handlers that are submitted to loop `c` and its strands and do nothing but submit handlers, first
by programs that then run the loop. -/
structure Forest (c : Nat) (setup running : List (Move H)) : Prop where
  settingUp : ({} : Machine H).Behaving c false setup
  isSetUp : (run setup).IsSetUp
  serving : (run setup).Behaving c true running

/-- What is left of a forest of handlers when it has run. -/
structure ForestRun (c : Nat) (moves : List (Move H)) : Prop where
  stopped : ((run moves).shared.loops.get c).stopped = true
  /-- Each handler has been called as often as user code asked for it, and is over. -/
  once : ∀ p : H → Bool,
    (history requested moves).countP p = (history called moves).countP (Task.isBody p) ∧
      (history requested moves).countP p = (history ended moves).countP (Task.isBody p)
  /-- Each call of the run family has returned. -/
  results : (history (returned c) moves).length = (history (made c) moves).length
  sum : (history (returned c) moves).sum = ((run moves).shared.loops.get c).counters.executed
  executed : ((run moves).shared.loops.get c).counters.executed =
    ((run moves).shared.loops.get c).counters.posted

theorem forestServed_of_forest (h : Forest c setup running) :
    ForestServed c (setup ++ running) := by
  obtain ⟨hp,hr,hg⟩ := h
  induction running using List.reverseRecOn with
  | nil =>
    obtain ⟨hs,hn⟩ := idle_settingUp (c := c) hp
    rw [List.append_nil]
    refine ⟨(kept_settingUp hp).startRun hr,fun h => absurd hn h,?_⟩
    intro h
    rw [hs] at h
    exact Bool.noConfusion h
  | append_singleton ys y ih =>
    obtain ⟨hys,hy⟩ := behaving_concat hg
    rw [← List.append_assoc]
    exact (ih hys).move (run_append setup ys ▸ hy)

theorem stackAllowed_mem {isSetUp : Bool} {ss : Table (Strand H)} {fs : List (Frame H)}
    (h : StackAllowed c isSetUp ss fs) {f : Frame H} (hf : f ∈ fs) :
    ∃ below, f.Allowed c isSetUp ss below ∧ ∀ g ∈ below, g ∈ fs := by
  induction fs with
  | nil => exact absurd hf List.not_mem_nil
  | cons g gs ih =>
    obtain rfl | hf := List.mem_cons.1 hf
    · exact ⟨gs,h.1,fun k hk => List.mem_cons_of_mem _ hk⟩
    · obtain ⟨below,hb,hm⟩ := ih h.2 hf
      exact ⟨below,hb,fun k hk => List.mem_cons_of_mem _ (hm k hk)⟩

theorem finish_not_mem (h : (run moves).Submitting c true) (hz : load c moves = 0) (i : Nat) :
    .finish c ∉ ((run moves).thread i).frames := by
  intro hm
  exact outstanding_of_finish h.shared.owned hm (outstanding_of_load h.shared.owned hz)

theorem weights_of_spent (h : (run moves).Submitting c true) (hz : load c moves = 0)
    (p : H → Bool) :
    (run moves).weight (Frame.bears p) = 0 ∧ (run moves).weight (Frame.runs (Task.isBody p)) = 0 ∧
      (run moves).weight (Frame.works c) = 0 := by
  have hn (i : Nat) (f : Frame H) (hf : f ∈ ((run moves).thread i).frames) :
      ¬ (0 < f.bears p ∨ 0 < f.runs (Task.isBody p)) := by
    intro hw
    obtain ⟨below,hb,hm⟩ := stackAllowed_mem (h.frames i) hf
    exact finish_not_mem h hz i (hm _ (finish_mem_of_bears hb hw))
  refine ⟨weight_eq_zero ?_,weight_eq_zero ?_,weight_eq_zero ?_⟩
  · intro i f hf
    exact Nat.eq_zero_of_not_pos fun hw => hn i f hf (Or.inl hw)
  · intro i f hf
    exact Nat.eq_zero_of_not_pos fun hw => hn i f hf (Or.inr hw)
  · intro i f hf
    cases f with
    | finish d =>
      refine if_neg ?_
      rintro rfl
      exact finish_not_mem h hz i hf
    | _ => rfl

theorem held_of_spent (h : (run moves).Submitting c true) (hz : load c moves = 0)
    (p : Task H → Bool) :
    (run moves).shared.held c p = 0 := by
  have ho := outstanding_of_load h.shared.owned hz
  have hs : (run moves).shared.strands.total (Strand.holds c p) = 0 := by
    by_contra hn
    obtain ⟨x,hx⟩ := Table.exists_of_total_pos _ (Nat.pos_of_ne_zero hn)
    unfold Strand.holds at hx
    split at hx
    · rename_i hh
      have hw : ((run moves).shared.strands.get x).waiting ≠ [] := by
        intro hw
        rw [hw] at hx
        exact Nat.lt_irrefl 0 hx
      have hl := (exact_strandCounts x moves).waiting hw
      subst hh
      obtain ⟨i,fs,hf,hm⟩ := schedule_of_locked h.shared.owned ho hl
      have ht := h.frames i
      rw [hf] at ht
      exact hm (ht.1.2 rfl)
    · exact Nat.lt_irrefl 0 hx
  rw [Shared.held,queue_of_load hz,hs]
  rfl

theorem forestRun_of_forest (h : Forest c setup running)
    (hr : ∀ i, ∀ f ∈ ((run (setup ++ running)).thread i).frames, f.rounds c = 0)
    (hn : history (made c) (setup ++ running) ≠ []) : ForestRun c (setup ++ running) := by
  have hg := forestServed_of_forest h
  generalize setup ++ running = moves at hr hn hg
  have hresults : (history (returned c) moves).length = (history (made c) moves).length := by
    rw [length_made,hg.unwound,weight_eq_zero hr]
    simp
  have hstopped : ((run moves).shared.loops.get c).stopped = true := by
    refine hg.stops ?_
    intro he
    rw [he] at hresults
    exact hn (List.eq_nil_of_length_eq_zero hresults.symm)
  have hz := hg.spent hstopped
  have hyields : (run moves).weight (Frame.yields c) = 0 := by
    refine weight_eq_zero ?_
    intro i f hf
    have h := hr i f hf
    cases f with
    | drain d w l r | asleep d w l r | awake d w l r =>
      simp [Frame.rounds] at h
      simp [Frame.yields,h]
    | _ => rfl
  have hwork := (weights_of_spent hg.submitting hz fun _ => true).2.2
  refine ⟨hstopped,?_,hresults,?_,?_⟩
  · intro p
    obtain ⟨hb,hruns,-⟩ := weights_of_spent hg.submitting hz p
    have hreq := hg.requests p
    have hcust := handlerCount_run c (fun t => p t.core) moves
    have hcall := countP_called (Task.isBody p) moves
    rw [held_of_spent hg.submitting hz,forsaken_of_open hg.submitting.shared.owned,
      List.countP_nil] at hcust
    omega
  · have hs := sum_returned c moves
    have hl := length_handedOut c moves
    rw [hyields,hg.unwound] at hs
    rw [executed_run]
    simp at hs
    omega
  · have hp := posted_eq c moves
    rw [hwork,queue_of_load hz,hg.givenUp] at hp
    exact hp.symm

/-- What calls return and counters tell of the jobs of a loop. -/
structure Reckoned (c : Nat) (moves : List (Move H)) : Prop where
  posted : ((run moves).shared.loops.get c).counters.posted =
    ((run moves).shared.loops.get c).counters.executed +
      ((run moves).shared.loops.get c).queue.length + (run moves).weight (Frame.works c) +
      (history (givenUp c) moves).length
  /-- A call that is not left before it returns tells how many jobs its own thread took in its place,
  at most its limit. -/
  results : ∀ i w limit rest, ((run moves).thread i).frames = .call (.run c w limit) :: rest →
    ∀ ys n, (∀ zs, zs <+: ys → ((run moves).after zs).Above i rest) →
      (((run moves).after ys).thread i).frames = .reply (.count n) :: rest →
        n = (notes (takenAt c i rest.length) (run moves) ys).length ∧ ∀ l ∈ limit, n ≤ l
  /-- A forest of handlers has run when all calls are over that run the loop, if any was made. -/
  forest : ∀ setup running, setup ++ running = moves → Forest c setup running →
    (∀ i, ∀ f ∈ ((run moves).thread i).frames, f.rounds c = 0) → history (made c) moves ≠ [] →
      ForestRun c moves

theorem reckoned_run (c : Nat) (moves : List (Move H)) : Reckoned c moves where
  posted := posted_eq c moves
  results _ _ _ _ hf _ _ hab hr := returned_of_call hf hab hr
  forest setup running hm hf hr hn := by
    subst hm
    exact forestRun_of_forest hf hr hn

end

def onePost : List (Move Unit) :=
  [.addLoop {}, .addStrand 0, .spawn (), .spawn (),
    .call 0 (.post (.strand 0) (.body () none)), .step 0, .step 0, .step 0]

/-- Two threads run the loop. The first takes the turn of the strand, whose handler posts another
handler to the strand; the second waits, is told of this and takes the next turn. -/
def twoCalls : List (Move Unit) :=
  [.call 0 (.run 0 .block none), .call 1 (.run 0 .block none), .step 0, .step 0, .step 1, .step 1,
    .step 0, .step 0, .call 0 (.post (.strand 0) (.body () none)), .step 0, .finish 0, .step 0,
    .step 0, .step 0, .step 0, .step 1, .step 1, .step 1, .finish 1, .step 0, .step 0, .step 0,
    .step 0, .step 1, .step 1, .step 1, .step 1, .step 1, .step 1, .step 1, .step 0]

theorem isSetUp_onePost : (run onePost).IsSetUp := by
  intro i f hf
  rcases i with _ | _ | i
  · exact Or.inl ⟨(),1,List.mem_singleton.1 hf⟩
  · exact Or.inl ⟨(),0,List.mem_singleton.1 hf⟩
  · have hs : (run onePost).threads.size = 2 := rfl
    rw [thread,Table.get_of_size_le _ (by omega)] at hf
    exact absurd hf List.not_mem_nil

theorem forest_onePost : Forest 0 onePost twoCalls where
  settingUp :=
    have hx : 0 < 1 ∧ 0 = 0 := ⟨Nat.one_pos,rfl⟩
    ⟨trivial,trivial,trivial,trivial,Or.inr (Or.inl ⟨rfl,hx,trivial⟩),trivial,trivial,trivial,
      trivial⟩
  isSetUp := isSetUp_onePost
  serving :=
    have hx : 0 < 1 ∧ 0 = 0 := ⟨Nat.one_pos,rfl⟩
    ⟨Or.inr (Or.inr ⟨rfl,rfl⟩),Or.inr (Or.inr ⟨rfl,rfl⟩),trivial,trivial,trivial,trivial,trivial,
      trivial,Or.inr ⟨hx,trivial⟩,trivial,trivial,trivial,trivial,trivial,trivial,trivial,trivial,
      trivial,trivial,trivial,trivial,trivial,trivial,trivial,trivial,trivial,trivial,trivial,
      trivial,trivial,trivial,trivial⟩

set_option maxRecDepth 2000 in
theorem rounds_onePost (i : Nat) : ∀ f ∈ ((run (onePost ++ twoCalls)).thread i).frames,
    f.rounds 0 = 0 := by
  intro f hf
  have hframes (n : Nat) (h : f ∈ [.reply (.count 1), .code .program () n]) : f.rounds 0 = 0 := by
    simp at h
    obtain rfl | rfl := h <;> rfl
  rcases i with _ | _ | i
  · exact hframes 2 hf
  · exact hframes 1 hf
  · have hs : (run (onePost ++ twoCalls)).threads.size = 2 := rfl
    rw [thread,Table.get_of_size_le _ (by omega)] at hf
    exact absurd hf List.not_mem_nil

set_option maxRecDepth 2000 in
/-- Both calls return 1, and two jobs were posted and executed. -/
theorem forestRun_onePost : Forest 0 onePost twoCalls ∧
    history (returned 0) (onePost ++ twoCalls) = [1, 1] ∧
    ((run (onePost ++ twoCalls)).shared.loops.get 0).counters.posted = 2 ∧
    ForestRun 0 (onePost ++ twoCalls) :=
  ⟨forest_onePost,rfl,rfl,(reckoned_run 0 (onePost ++ twoCalls)).forest onePost twoCalls rfl
    forest_onePost rounds_onePost fun h => absurd (congrArg List.length h) (by decide)⟩

end Machine
end EventLoop
