import EventLoop.Proofs.OwnerDrop
import EventLoop.Proofs.Refusal
import EventLoop.Proofs.Destruction
import EventLoop.Proofs.Within

/-! The end of a loop. When its owner is gone, the loop hands nothing out any more and takes
nothing in, and when the drop and the last jobs are over, every handler has run or is destroyed. -/
namespace EventLoop

variable {H : Type}

open Table (weigh)

/-- The frames of a job of loop `c`, of the drop of its owner and of a post to one of its strands
that has taken the strand. -/
def Frame.busy (c : Nat) (s : Shared H) : Frame H → Bool
  | .finish d | .closeReactor d => d = c
  | .schedule x | .dropTurn x => (s.strands.get x).home = c
  | _ => false

namespace Machine

variable {c : Nat} {m : Machine H} {moves : List (Move H)}

/-- A closed loop with an empty queue hands nothing out, takes nothing in and stays empty. -/
structure StaysEmpty (c : Nat) (m : Machine H) (y : Move H) : Prop where
  queue : ((m.move y).shared.loops.get c).queue = []
  handedOut : m.noted (Machine.handedOut c) y = []
  accepted : m.noted (Machine.accepted c) y = []

theorem staysEmpty_move (hc : (m.shared.loops.get c).closed = true)
    (hq : (m.shared.loops.get c).queue = []) (y : Move H) : m.StaysEmpty c y := by
  obtain ⟨a,hy,ha,hmove⟩ | ⟨hy,hmove⟩ := move_cases m y
  · have ho : offeredBy c false m.shared a.taken = [] := offeredBy_eq_nil (by simp [hc]) a.taken
    have hn : m.noted (accepted c) y = [] := by rw [noted_of_act? hy,accepted,ho]
    by_cases ht : a.taken = [.call (.dropOwner c)]
    · have hd := ha.deed
      rw [ht] at hd
      refine ⟨?_,?_,hn⟩
      · rw [hmove,shared_perform,hd.eq_step rfl]
        simp [Frame.step,Frame.stepCall,Shared.onLoop,Loop.close]
      · rw [noted_of_act? hy,handedOut,hd.eq_step rfl]
        rfl
    · have hf := (queued_move c hy).order ht
      rw [hq,ho] at hf
      obtain ⟨hh,hq⟩ := List.append_eq_nil_iff.1 hf
      refine ⟨?_,?_,hn⟩
      · rw [hmove]
        exact hq
      · rw [noted_of_act? hy]
        exact hh
  · refine ⟨?_,noted_of_act?_none hy,noted_of_act?_none hy⟩
    rw [hmove,queue_happen]
    exact hq

theorem queue_of_closed (hc : ((run moves).shared.loops.get c).closed = true) :
    ((run moves).shared.loops.get c).queue = [] := by
  induction moves using run_induction with
  | start => rfl
  | move xs y ih =>
    rw [run_concat] at hc ⊢
    cases ho : ((run xs).shared.loops.get c).closed with
    | true => exact (staysEmpty_move ho (ih ho) y).queue
    | false =>
      have hs := (ledger_move c (sound_run xs) y).eq_close ho hc
      exact List.eq_nil_of_length_eq_zero (congrArg Ledger.queued hs)

theorem staysEmpty_after (hc : (m.shared.loops.get c).closed = true)
    (hq : (m.shared.loops.get c).queue = []) (ys : List (Move H)) :
    ((m.after ys).shared.loops.get c).queue = [] ∧ notes (handedOut c) m ys = [] ∧
      notes (accepted c) m ys = [] := by
  induction ys generalizing m with
  | nil => exact ⟨hq,rfl,rfl⟩
  | cons y ys ih =>
    have hb := staysEmpty_move hc hq y
    obtain ⟨hq,hh,ha⟩ := ih ((grows_move m y).closed c hc) hb.queue
    refine ⟨hq,?_,?_⟩
    · rw [notes,hb.handedOut,hh]
      rfl
    · rw [notes,hb.accepted,ha]
      rfl

theorem posted_after (hc : ((run moves).shared.loops.get c).closed = true) (ys : List (Move H)) :
    (((run moves).after ys).shared.loops.get c).counters.posted =
      ((run moves).shared.loops.get c).counters.posted := by
  obtain ⟨-,-,ha⟩ := staysEmpty_after hc (queue_of_closed hc) ys
  rw [← run_append,posted_run,posted_run,history_append,ha,List.append_nil]

/-- No job of loop `c`, no drop of its owner and no post to one of its strands is in progress. -/
def Quiet (c : Nat) (m : Machine H) : Prop :=
  ∀ i, ∀ f ∈ (m.thread i).frames, f.busy c m.shared = false

theorem Quiet.weight_works (h : m.Quiet c) : m.weight (Frame.works c) = 0 := by
  refine weight_eq_zero ?_
  intro i f hf
  have hb := h i f hf
  cases f with
  | finish d => simpa [Frame.busy,Frame.works] using hb
  | _ => rfl

section

variable {x : Nat}

theorem serves_of_quiet (hq : (run moves).Quiet c)
    (hx : ((run moves).shared.strands.get x).home = c) {i : Nat} {f : Frame H}
    (hf : f ∈ ((run moves).thread i).frames) : f.serves x = false := by
  by_contra hs
  have hm := (backed_run x moves i).finish_mem hf (by simpa using hs)
  rw [hx] at hm
  simpa [Frame.busy] using hq i _ hm

theorem turnsIn_of_quiet (hq : (run moves).Quiet c)
    (hx : ((run moves).shared.strands.get x).home = c) {i : Nat} {js : List (Job H)}
    (hf : .dropJobs js ∈ ((run moves).thread i).frames) : turnsIn x js = 0 := by
  by_contra hn
  have hm := (closesBelow_run x moves i).closeReactor_mem hf (Nat.pos_of_ne_zero hn)
  rw [hx] at hm
  simpa [Frame.busy] using hq i _ hm

theorem weights_of_quiet (hq : (run moves).Quiet c)
    (hx : ((run moves).shared.strands.get x).home = c) :
    (run moves).weight (Frame.turns x) = 0 ∧ (run moves).weight (Frame.losses x) = 0 ∧
      (run moves).weight (Frame.releases x) = 0 := by
  refine ⟨weight_eq_zero ?_,weight_eq_zero ?_,weight_eq_zero ?_⟩
  · intro i f hf
    have hs := serves_of_quiet hq hx hf
    have hb := hq i f hf
    cases f with
    | runTurn y => simpa [Frame.serves,Frame.turns] using hs
    | schedule y =>
      have hy : y ≠ x := by
        rintro rfl
        simp [Frame.busy,hx] at hb
      simp [Frame.turns,hy]
    | _ => rfl
  · intro i f hf
    have hb := hq i f hf
    cases f with
    | dropTurn y =>
      have hy : y ≠ x := by
        rintro rfl
        simp [Frame.busy,hx] at hb
      simp [Frame.losses,hy]
    | dropJobs js => exact turnsIn_of_quiet hq hx hf
    | _ => rfl
  · intro i f hf
    have hs := serves_of_quiet hq hx hf
    cases f with
    | release y => simpa [Frame.serves,Frame.releases] using hs
    | _ => rfl

theorem queuedTurns_of_closed (hc : ((run moves).shared.loops.get c).closed = true)
    (hx : ((run moves).shared.strands.get x).home = c) :
    queuedTurns x (run moves).shared.loops = 0 := by
  by_contra hn
  obtain ⟨d,hd⟩ := Table.exists_of_total_pos _ (Nat.pos_of_ne_zero hn)
  obtain rfl := (homed_run x moves).queued d hd
  rw [hx,queue_of_closed hc] at hd
  exact Nat.lt_irrefl 0 hd

theorem holders_of_quiet (hc : ((run moves).shared.loops.get c).closed = true)
    (hq : (run moves).Quiet c) (hx : ((run moves).shared.strands.get x).home = c) :
    ((run moves).strandCounts x).holders = 0 := by
  obtain ⟨ht,hl,hr⟩ := weights_of_quiet hq hx
  simp only [StrandCounts.holders,strandCounts,ht,hl,hr,queuedTurns_of_closed hc hx]

theorem strand_of_quiet (hc : ((run moves).shared.loops.get c).closed = true)
    (hq : (run moves).Quiet c) (hx : ((run moves).shared.strands.get x).home = c) :
    ((run moves).shared.strands.get x).locked = false ∧
      ((run moves).shared.strands.get x).waiting = [] := by
  have he := exact_strandCounts x moves
  have hl : ((run moves).shared.strands.get x).locked = false := by
    have hh := he.holders
    rw [holders_of_quiet hc hq hx] at hh
    change 0 = if ((run moves).shared.strands.get x).locked then 1 else 0 at hh
    cases hl : ((run moves).shared.strands.get x).locked with
    | true => simp [hl] at hh
    | false => rfl
  refine ⟨hl,?_⟩
  by_contra hw
  exact Bool.false_ne_true (hl.symm.trans (he.waiting hw))

end

theorem held_of_quiet (hc : ((run moves).shared.loops.get c).closed = true)
    (hq : (run moves).Quiet c) (p : Task H → Bool) : (run moves).shared.held c p = 0 := by
  have hs : (run moves).shared.strands.total (Strand.holds c p) = 0 := by
    by_contra hn
    obtain ⟨x,hx⟩ := Table.exists_of_total_pos _ (Nat.pos_of_ne_zero hn)
    unfold Strand.holds at hx
    split at hx
    · rename_i hh
      rw [(strand_of_quiet hc hq hh).2] at hx
      exact Nat.lt_irrefl 0 hx
    · exact Nat.lt_irrefl 0 hx
  rw [Shared.held,queue_of_closed hc,hs]
  rfl

/-- What is left of a loop whose owner is gone when nothing of it is in progress. -/
structure Settled (c : Nat) (moves : List (Move H)) : Prop where
  strands : ∀ x, ((run moves).shared.strands.get x).home = c →
    ((run moves).shared.strands.get x).locked = false ∧
      ((run moves).shared.strands.get x).waiting = []
  /-- A handler that was submitted was handed on to a thread or given up, and only one of this. -/
  accounted : ∀ p, (history (sent c) moves).countP p =
    (history (drawn c) moves).countP p + (history (forsaken c) moves).countP p
  /-- What was handed on to threads was called within jobs of the loop, once, and it is over. -/
  ran : (history (drawn c) moves).Sublist (history (calledWithin c) moves) ∧
    ∀ p, (history (calledWithin c) moves).countP p = (history (endedWithin c) moves).countP p
  jobs : (history (handedOut c) moves).length = (history (finished c) moves).length
  /-- What was given up has been destroyed, once, unless some thread is about to destroy it. -/
  destroyed : (history (forsaken c) moves).Sublist (history toDestroy moves) ∧
    ∀ p, (run moves).weight (Frame.countToDestroy p) = 0 →
      (history toDestroy moves).countP p = (history Machine.destroyed moves).countP p

/-- A loop whose owner is gone. -/
structure Shut (c : Nat) (moves : List (Move H)) : Prop where
  /-- The queue is empty and stays so. -/
  empty : ∀ ys, (((run moves).after ys).shared.loops.get c).queue = []
  /-- No thread takes a job from now on. -/
  mute : ∀ ys, notes (handedOut c) (run moves) ys = []
  /-- A handler that is posted from now on is destroyed before the post is over. -/
  refuses : ∀ i t rest, ((run moves).thread i).frames = .call (.post (.loop c) t) :: rest → ∀ ys,
    Until (fun n => (n.thread i).frames = .call (.post (.loop c) t) :: rest) (Destroys i t rest)
      (run moves) ys
  /-- It is not counted as posted. -/
  uncounted : ∀ ys, (((run moves).after ys).shared.loops.get c).counters.posted =
    ((run moves).shared.loops.get c).counters.posted
  settles : (run moves).Quiet c → Settled c moves
  /-- The drop is over, and no destructor has let a panic pass: an operation that starts from now
  on ends at once, and its handler is destroyed before the start is over. -/
  late : history burst moves = [] → (run moves).weight (Frame.closings c) = 0 →
    (∀ ys, notes (undertaken c) (run moves) ys = []) ∧
      ∀ i t f rest, ((run moves).thread i).frames = f :: rest → f.Starts c t (run moves).shared →
        ∀ ys, Until (fun n => ∃ g, g.Starts c t n.shared ∧ (n.thread i).frames = g :: rest)
          (Refuses i c t rest) (run moves) ys

theorem settled_of_quiet (hc : ((run moves).shared.loops.get c).closed = true)
    (hq : (run moves).Quiet c) : Settled c moves where
  strands _ hx := strand_of_quiet hc hq hx
  accounted p := by
    have h := handlerCount_run c p moves
    rw [held_of_quiet hc hq,Nat.zero_add] at h
    exact h.symm
  ran := by
    refine ⟨drawn_sublist_within c moves,?_⟩
    intro p
    rw [countP_calledWithin,within_eq_zero hq.weight_works,Nat.zero_add]
  jobs := by rw [length_handedOut,hq.weight_works,Nat.zero_add]
  destroyed := by
    refine ⟨forsaken_sublist c moves,?_⟩
    intro p hp
    rw [countP_toDestroy,hp,Nat.zero_add]

theorem gone_of_closed (hc : ((run moves).shared.loops.get c).closed = true)
    (hb : history burst moves = []) (hk : (run moves).weight (Frame.closings c) = 0) :
    (run moves).Gone c where
  sound := sound_run moves
  closed := hc
  reactor := (lacksReactor_or_closing hb hc).resolve_right (Nat.ne_of_gt · hk)

/-- The shutdown of a loop is final, and it loses no handler: each has run or is destroyed. -/
theorem shut_run (c : Nat) (moves : List (Move H))
    (hc : ((run moves).shared.loops.get c).closed = true) : Shut c moves where
  empty ys := (staysEmpty_after hc (queue_of_closed hc) ys).1
  mute ys := (staysEmpty_after hc (queue_of_closed hc) ys).2.1
  refuses _ _ _ hf ys := destroys_of_post hc hf ys
  uncounted ys := posted_after hc ys
  settles hq := settled_of_quiet hc hq
  late hb hk :=
    have hg := gone_of_closed hc hb hk
    ⟨notes_undertaken hg,fun _ _ _ _ hf hs ys => refuses_of_starts hg hs hf ys⟩

def ownerDropped : List (Move Unit) :=
  [.addLoop {}, .addStrand 0, .spawn (), .call 0 (.post (.strand 0) (.body () none)), .step 0,
    .step 0, .step 0, .call 0 (.dropOwner 0), .step 0, .step 0, .step 0, .step 0, .step 0,
    .finish 0, .step 0, .step 0, .step 0]

theorem frames_ownerDropped (i : Nat) : ((run ownerDropped).thread i).frames =
    if i = 0 then [.code .program () 2] else [] := by
  cases i with
  | zero => rfl
  | succ i =>
    have hs : (run ownerDropped).threads.size = 1 := rfl
    rw [thread,Table.get_of_size_le _ (by omega)]
    rfl

theorem quiet_ownerDropped : (run ownerDropped).Quiet 0 := by
  intro i f hf
  rw [frames_ownerDropped] at hf
  split at hf
  · obtain rfl := List.mem_singleton.1 hf
    rfl
  · exact absurd hf List.not_mem_nil

theorem shut_ownerDropped : ((run ownerDropped).shared.loops.get 0).closed = true ∧
    history burst ownerDropped = [] ∧ (run ownerDropped).Quiet 0 ∧
    (history (destroyed (H := Unit)) ownerDropped).length = 1 ∧ Shut 0 ownerDropped :=
  ⟨rfl,rfl,quiet_ownerDropped,rfl,shut_run 0 ownerDropped rfl⟩

end Machine
end EventLoop
