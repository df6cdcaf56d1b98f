import EventLoop.Proofs.Stack

/-! What a thread brings about by its own steps alone. Whoever starts an operation gets it
started, an operation that is ready or signalled gets its handler queued, and whoever has
cancelled operations gets their signals sent. -/
namespace EventLoop

variable {H : Type}

/-- The frames that a step executes: a reply or a panic is passed on, and who sleeps may have to
wait. -/
def Frame.executes : Frame H → Bool
  | .reply _ | .panic _ | .asleep _ _ _ _ => false
  | _ => true

namespace Machine

/-- Thread `i` makes so many steps. -/
def advance (i n : Nat) (m : Machine H) : Machine H := m.after (List.replicate n (.step i))

theorem advance_succ (i n : Nat) (m : Machine H) :
    m.advance i (n + 1) = (m.move (.step i)).advance i n := rfl

variable {m : Machine H} {i : Nat} {f : Frame H} {fs : List (Frame H)} {o : Operation H}

/-- A thread executes its top frame. -/
theorem act?_step (hf : (m.thread i).frames = f :: fs) (he : f.executes = true) :
    m.act? (.step i) = some ⟨i,[f],fs,f.step i m.shared (m.thread i).active⟩ := by
  simp only [act?,stepAct?,hf]
  cases f with
  | reply r | panic t | asleep c w limit ran => exact Bool.noConfusion he
  | _ => rfl

theorem shared_move_step (hf : (m.thread i).frames = f :: fs) (he : f.executes = true) :
    (m.move (.step i)).shared = (f.step i m.shared (m.thread i).active).shared := by
  rw [move_of_act? (act?_step hf he),shared_perform]

theorem thread_move_step (hf : (m.thread i).frames = f :: fs) (he : f.executes = true) :
    (m.move (.step i)).thread i =
      ⟨(f.step i m.shared (m.thread i).active).frames ++ fs,
        (f.step i m.shared (m.thread i).active).active⟩ := by
  rw [move_of_act? (act?_step hf he)]
  exact thread_perform_self m _

theorem frames_move_step (hf : (m.thread i).frames = f :: fs) (he : f.executes = true) :
    ((m.move (.step i)).thread i).frames =
      (f.step i m.shared (m.thread i).active).frames ++ fs := by
  rw [thread_move_step hf he]

/-- By some steps of thread `i` the handler of an operation is queued, with some outcome. -/
def Queues (m : Machine H) (i : Nat) (o : Operation H) : Prop :=
  ∃ n r, ((m.advance i n).shared.loops.get o.home).queue =
    (m.shared.loops.get o.home).queue ++ [.task (o.task.deliver r)]

theorem queues_of_move (hq : ((m.move (.step i)).shared.loops.get o.home).queue =
    (m.shared.loops.get o.home).queue) (h : (m.move (.step i)).Queues i o) : m.Queues i o := by
  obtain ⟨n,r,h⟩ := h
  exact ⟨n + 1,r,by rw [advance_succ,h,hq]⟩

theorem queues_of_complete {r : Outcome} (hf : (m.thread i).frames = .complete o r :: fs)
    (hc : (m.shared.loops.get o.home).closed = false) : m.Queues i o := by
  refine ⟨1,r,?_⟩
  have hs := shared_move_step hf rfl
  have ha : m.advance i 1 = m.move (.step i) := rfl
  rw [ha,hs]
  simp [Frame.step,hc,Shared.onLoop,Loop.enqueueCompletion]

theorem queues_of_countAbort {r : Outcome} (hf : (m.thread i).frames = .countAbort o r :: fs)
    (hc : (m.shared.loops.get o.home).closed = false) : m.Queues i o := by
  have hs := shared_move_step hf rfl
  apply queues_of_move
  · rw [hs]
    simp [Frame.step,Shared.onLoop,Loop.countAborted]
  · apply queues_of_complete (frames_move_step hf rfl)
    rw [hs]
    simpa [Frame.step,Shared.onLoop,Loop.countAborted] using hc

theorem queues_of_withdraw {r : Outcome} (hf : (m.thread i).frames = .withdraw o r :: fs)
    (hc : (m.shared.loops.get o.home).closed = false) : m.Queues i o := by
  have hs : (m.move (.step i)).shared.loops = m.shared.loops := by
    rw [shared_move_step hf rfl]
    rfl
  have hn := frames_move_step hf rfl
  apply queues_of_move
  · rw [hs]
  · by_cases hr : r = .failed .aborted
    · rw [show ((Frame.withdraw o r).step i m.shared (m.thread i).active).frames =
        [.countAbort o r] from if_pos hr] at hn
      exact queues_of_countAbort hn (hs ▸ hc)
    · rw [show ((Frame.withdraw o r).step i m.shared (m.thread i).active).frames =
        [.complete o r] from if_neg hr] at hn
      exact queues_of_complete hn (hs ▸ hc)

theorem operate_withdraws (s : Shared H) (active : List Executor)
    (hd : o.due.any (· ≤ s.now) = true ∨ o.ticket ∈ (s.registries.get o.registry).signalled) :
    ∃ r, (Frame.operate s active o).frames = [.withdraw o r] ∧
      (Frame.operate s active o).shared.loops = s.loops := by
  unfold Frame.operate
  by_cases hr : o.due.any (· ≤ s.now) = true
  · rw [if_pos hr]
    unfold Frame.claim
    split
    · exact ⟨_,rfl,rfl⟩
    · exact ⟨_,rfl,rfl⟩
  · rw [if_neg hr]
    obtain hd | hd := hd
    · exact absurd hd hr
    · exact ⟨_,if_pos hd,rfl⟩

theorem queues_of_operation (hf : (m.thread i).frames = .operation o :: fs)
    (hc : (m.shared.loops.get o.home).closed = false)
    (hr : (m.shared.loops.get o.home).reactor ≠ .closed)
    (hd : o.due.any (· ≤ m.shared.now) = true ∨
      o.ticket ∈ (m.shared.registries.get o.registry).signalled) : m.Queues i o := by
  have he : (Frame.operation o).step i m.shared (m.thread i).active =
      Frame.operate m.shared (m.thread i).active o := if_neg hr
  obtain ⟨r,hw,hs⟩ := operate_withdraws m.shared (m.thread i).active hd
  have hl : (m.move (.step i)).shared.loops = m.shared.loops := by
    rw [shared_move_step hf rfl,he,hs]
  have hn := frames_move_step hf rfl
  rw [he,hw] at hn
  apply queues_of_move
  · rw [hl]
  · exact queues_of_withdraw hn (hl ▸ hc)

/-- By some steps of thread `i` an operation goes on as a thread of its own, and thread `i` goes
on with what lay below. -/
def Starts (m : Machine H) (i : Nat) (o : Operation H) (fs : List (Frame H)) : Prop :=
  ∃ n j, (m.advance i n).thread j = { frames := [.operation o] } ∧
    ((m.advance i n).thread i).frames = fs

theorem starts_of_move (h : (m.move (.step i)).Starts i o fs) : m.Starts i o fs := by
  obtain ⟨n,j,hj,hi⟩ := h
  exact ⟨n + 1,j,hj,hi⟩

theorem starts_of_enlist (hf : (m.thread i).frames = .enlist o :: fs)
    (hr : (m.shared.loops.get o.home).reactor = .running) : m.Starts i o fs := by
  have ht : (Frame.enlist o).step i m.shared (m.thread i).active =
      { shared := m.shared, active := (m.thread i).active, started := some o } := by
    simp [Frame.step,Frame.take,hr]
  have hi := frames_move_step hf rfl
  rw [ht] at hi
  obtain ⟨j,hj⟩ := exists_thread_move (act?_step hf rfl) (congrArg Effect.started ht)
  exact ⟨1,j,hj,hi⟩

theorem starts_of_addWork (hf : (m.thread i).frames = .addWork o :: fs)
    (hr : (m.shared.loops.get o.home).reactor = .running) : m.Starts i o fs := by
  apply starts_of_move
  apply starts_of_enlist (frames_move_step hf rfl)
  rw [shared_move_step hf rfl]
  simpa [Frame.step,Shared.onLoop,Loop.addWork] using hr

theorem starts_of_countStart (hf : (m.thread i).frames = .countStart o :: fs)
    (hr : (m.shared.loops.get o.home).reactor = .running) : m.Starts i o fs := by
  apply starts_of_move
  apply starts_of_addWork (frames_move_step hf rfl)
  rw [shared_move_step hf rfl]
  simpa [Frame.step,Shared.onLoop,Loop.countStarted] using hr

theorem starts_of_enrol (hf : (m.thread i).frames = .enrol o :: fs)
    (hr : (m.shared.loops.get o.home).reactor = .running) : m.Starts i o fs := by
  apply starts_of_move
  apply starts_of_countStart (frames_move_step hf rfl)
  rw [shared_move_step hf rfl]
  exact hr

theorem signals_of_signal {r k : Nat} {ks : List Nat}
    (hf : (m.thread i).frames = .signal r ks :: fs) (hk : k ∈ ks) :
    ∃ n, k ∈ ((m.advance i n).shared.registries.get r).signalled := by
  induction ks generalizing m with
  | nil => exact absurd hk List.not_mem_nil
  | cons j ks ih =>
    have hs := shared_move_step hf rfl
    have hn := frames_move_step hf rfl
    obtain rfl | hk := List.mem_cons.1 hk
    · refine ⟨1,?_⟩
      have ha : m.advance i 1 = m.move (.step i) := rfl
      rw [ha,hs]
      simp [Frame.step,Shared.onRegistry,Registry.signal]
    · obtain ⟨n,h⟩ := ih hn hk
      exact ⟨n + 1,h⟩

end Machine
end EventLoop
