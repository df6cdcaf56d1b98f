import EventLoop.Proofs.Cancellation
import EventLoop.Proofs.Expiry

/-! Operations complete. An operation that is ready or has been sent the signal completes by steps of
its own, as long as its loop serves it, and whoever cancels sends the signals.
Main statements: `completes_of_ready`, `completes_of_cancelled`. -/
namespace EventLoop

variable {H : Type}

theorem TicketCounts.Step.signalled_le {v v' : TicketCounts} {t : TicketCounts.Change}
    (h : v.Step v' t) :
    v.signalled ≤ v'.signalled := by
  cases h with
  | cancelFirst n hl h | signal n hs h => exact h ▸ Nat.le_succ v.signalled
  | _ => simp_all

def Frame.brings : Frame H → Bool
  | .enrol _ | .signal _ _ => true
  | f => f.operation?.isSome

section

variable {c me : Nat} {s : Shared H} {active : List Executor}

theorem cancelledBy_of_brings {f : Frame H} (hf : f.brings = true) (r : Nat) (s : Shared H) :
    cancelledBy r s [f] = [] := by
  cases f with
  | call k => cases hf
  | _ => rfl

theorem signalled_signal (s : Shared H) (r k : Nat) :
    k ∈ ((s.onRegistry r (Registry.signal k)).registries.get r).signalled := by
  simp [Shared.onRegistry,Registry.signal]

end

namespace Machine

variable {moves : List (Move H)} {i : Nat} {o : Operation H} {fs : List (Frame H)}

theorem signalled_concat {r k : Nat} (h : k ∈ ((run moves).shared.registries.get r).signalled)
    (y : Move H) : k ∈ ((run (moves ++ [y])).shared.registries.get r).signalled := by
  rw [run_concat]
  obtain ⟨a,-,ha,hmove⟩ | ⟨-,hmove⟩ := move_cases (run moves) y
  · have hs := (ticketCounts_perform r k (sound_run moves) ha).signalled_le
    rw [hmove]
    exact List.count_pos_iff.1 (Nat.lt_of_lt_of_le (List.count_pos_iff.2 h) hs)
  · rw [hmove,registries_happen]
    exact h

def Ready (o : Operation H) (moves : List (Move H)) : Prop :=
  o.due.any (· ≤ (run moves).shared.now) = true ∨
    o.ticket ∈ ((run moves).shared.registries.get o.registry).signalled

theorem Ready.concat (h : Ready o moves) (y : Move H) : Ready o (moves ++ [y]) := by
  obtain hd | hs := h
  · left
    rw [run_concat]
    exact due_mono hd (retains_after (run moves) [y]).clock
  · exact Or.inr (signalled_concat hs y)

theorem frames_run_step {f : Frame H} (hf : ((run moves).thread i).frames = f :: fs)
    (he : f.executes = true) : ((run (moves ++ [.step i])).thread i).frames =
      (f.step i (run moves).shared ((run moves).thread i).active).frames ++ fs := by
  rw [run_concat]
  exact frames_move_step hf he

/-- The loop of an operation has an owner and a reactor that starts, which has not dropped the
operation. -/
structure Served (o : Operation H) (moves : List (Move H)) : Prop where
  owned : ((run moves).shared.loops.get o.home).closed = false
  starts : ((run moves).shared.loops.get o.home).settings.reactor.startPanic? = none
  kept : o ∉ history (dropped o.registry) moves

theorem Served.reactor (h : Served o moves) :
    ((run moves).shared.loops.get o.home).reactor ≠ .closed := by
  intro hr
  have hc := closed_of_reactor hr
  rw [h.owned] at hc
  cases hc

theorem Served.step (h : Served o moves) {f : Frame H}
    (hf : ((run moves).thread i).frames = f :: fs) (hb : f.brings = true)
    (hd : droppedBy o.registry [f] (f.step i (run moves).shared ((run moves).thread i).active).frames
      (f.step i (run moves).shared ((run moves).thread i).active).started = []) :
    Served o (moves ++ [.step i]) := by
  have he : f.executes = true := by
    cases f <;> first | rfl | cases hb
  obtain ⟨hc,hs⟩ : (run moves).shared.Abides o.home (run (moves ++ [.step i])).shared := by
    rw [run_concat,shared_move_step hf he]
    refine (Rule.step_of_ne ?_).abides ?_ o.home
    · rintro c w limit ran rfl
      cases hb
    · rintro d rfl
      cases hb
  refine ⟨hc.trans h.owned,?_,?_⟩
  · rw [hs]
    exact h.starts
  · rw [history_concat,noted_of_act? (act?_step hf he),dropped,hd,List.append_nil]
    exact h.kept

def Completes (o : Operation H) (moves : List (Move H)) : Prop :=
  ∃ ys, (∀ y ∈ ys, ∃ i, y = .step i) ∧ o ∈ history completed (moves ++ ys) ∧
    o ∉ history (dropped o.registry) (moves ++ ys) ∧
    ∀ r, history (cancelled r) (moves ++ ys) = history (cancelled r) moves

theorem Completes.now (hc : o ∈ history completed moves) (h : Served o moves) : Completes o moves :=
  ⟨[],fun _ hy => absurd hy List.not_mem_nil,by rwa [List.append_nil],by
    rw [List.append_nil]
    exact h.kept,fun _ => by rw [List.append_nil]⟩

theorem cancelled_step {f : Frame H} (hf : ((run moves).thread i).frames = f :: fs)
    (hb : f.brings = true) (r : Nat) :
    history (cancelled r) (moves ++ [.step i]) = history (cancelled r) moves := by
  have he : f.executes = true := by
    cases f <;> first | rfl | cases hb
  rw [history_concat,noted_of_act? (act?_step hf he),cancelled,cancelledBy_of_brings hb,
    List.append_nil]

theorem Completes.of_step {f : Frame H} (hf : ((run moves).thread i).frames = f :: fs)
    (hb : f.brings = true) (h : Completes o (moves ++ [.step i])) : Completes o moves := by
  obtain ⟨ys,hy,hc,hd,hk⟩ := h
  simp only [List.append_assoc] at hc hd hk
  refine ⟨[.step i] ++ ys,?_,hc,hd,fun r => (hk r).trans (cancelled_step hf hb r)⟩
  intro y hm
  obtain rfl | hm := List.mem_cons.1 hm
  · exact ⟨i,rfl⟩
  · exact hy y hm

theorem completes_of_complete {r : Outcome}
    (hf : ((run moves).thread i).frames = .complete o r :: fs)
    (h : Served o moves) : Completes o moves := by
  refine .of_step hf rfl (.now ?_ (h.step hf rfl rfl))
  rw [history_concat,noted_of_act? (act?_step hf rfl)]
  exact List.mem_append_right _ List.mem_cons_self

theorem completes_of_countAbort {r : Outcome}
    (hf : ((run moves).thread i).frames = .countAbort o r :: fs) (h : Served o moves) :
    Completes o moves :=
  .of_step hf rfl (completes_of_complete (frames_run_step hf rfl) (h.step hf rfl rfl))

theorem completes_of_withdraw {r : Outcome}
    (hf : ((run moves).thread i).frames = .withdraw o r :: fs)
    (h : Served o moves) : Completes o moves := by
  have hn := frames_run_step hf rfl
  have hs := h.step hf rfl rfl
  apply Completes.of_step hf rfl
  simp only [Frame.step] at hn
  split at hn
  · exact completes_of_countAbort hn hs
  · exact completes_of_complete hn hs

theorem completes_of_operation (hf : ((run moves).thread i).frames = .operation o :: fs)
    (hr : Ready o moves) (h : Served o moves) : Completes o moves := by
  have he : (Frame.operation o).step i (run moves).shared ((run moves).thread i).active =
      Frame.operate (run moves).shared ((run moves).thread i).active o := if_neg h.reactor
  obtain ⟨r,hw,-⟩ := operate_withdraws (run moves).shared ((run moves).thread i).active hr
  have hn := frames_run_step hf rfl
  rw [he,hw] at hn
  exact .of_step hf rfl (completes_of_withdraw hn (h.step hf rfl (by rw [he,hw]; rfl)))

theorem completes_of_enlist (hf : ((run moves).thread i).frames = .enlist o :: fs)
    (hr : Ready o moves) (h : Served o moves) : Completes o moves := by
  have ht : ((Frame.enlist o).step i (run moves).shared ((run moves).thread i).active).started =
      some o := by
    cases hr : ((run moves).shared.loops.get o.home).reactor with
    | closed => exact absurd hr h.reactor
    | running => simp [Frame.step,Frame.take,hr]
    | idle => simp [Frame.step,Frame.take,hr,h.starts]
  obtain ⟨j,hj⟩ := exists_thread_move (act?_step hf rfl) ht
  rw [← run_concat] at hj
  have hj : ((run (moves ++ [.step i])).thread j).frames = [.operation o] := by rw [hj]
  exact .of_step hf rfl (completes_of_operation hj (hr.concat _)
    (h.step hf rfl (by rw [ht]; rfl)))

theorem completes_of_addWork (hf : ((run moves).thread i).frames = .addWork o :: fs)
    (hr : Ready o moves) (h : Served o moves) : Completes o moves :=
  .of_step hf rfl (completes_of_enlist (frames_run_step hf rfl) (hr.concat _)
    (h.step hf rfl rfl))

theorem completes_of_countStart (hf : ((run moves).thread i).frames = .countStart o :: fs)
    (hr : Ready o moves) (h : Served o moves) : Completes o moves :=
  .of_step hf rfl (completes_of_addWork (frames_run_step hf rfl) (hr.concat _)
    (h.step hf rfl rfl))

theorem completes_of_enrol (hf : ((run moves).thread i).frames = .enrol o :: fs)
    (hr : Ready o moves) (h : Served o moves) : Completes o moves :=
  .of_step hf rfl (completes_of_countStart (frames_run_step hf rfl) (hr.concat _)
    (h.step hf rfl rfl))

theorem completes_of_frame {f : Frame H} (hf : ((run moves).thread i).frames = f :: fs)
    (ho : f.operation? = some o) (hr : Ready o moves) (h : Served o moves) : Completes o moves := by
  cases f with
  | countStart p =>
    cases ho
    exact completes_of_countStart hf hr h
  | addWork p =>
    cases ho
    exact completes_of_addWork hf hr h
  | enlist p =>
    cases ho
    exact completes_of_enlist hf hr h
  | operation p =>
    cases ho
    exact completes_of_operation hf hr h
  | withdraw p r =>
    cases ho
    exact completes_of_withdraw hf h
  | countAbort p r =>
    cases ho
    exact completes_of_countAbort hf h
  | complete p r =>
    cases ho
    exact completes_of_complete hf h
  | _ => cases ho

theorem completes_of_ready (ho : o ∈ history enrolled moves) (hr : Ready o moves)
    (h : Served o moves) : Completes o moves := by
  obtain ⟨i,f,hf,hfo⟩ | hc | hl := place_of_enrolled ho
  · have hn : f.rests = false := by
      cases f <;> first | rfl | cases hfo
    obtain ⟨fs,hfs⟩ := head_of_mem (sound_run moves i).stacked hf hn
    exact completes_of_frame hfs hfo hr h
  · exact .now hc h
  · exact absurd (dropped_of_lost hl) h.kept

theorem completes_of_signal {ks : List Nat}
    (hf : ((run moves).thread i).frames = .signal o.registry ks :: fs) (hk : o.ticket ∈ ks)
    (ho : o ∈ history enrolled moves) (h : Served o moves) : Completes o moves := by
  induction ks generalizing moves with
  | nil => exact absurd hk List.not_mem_nil
  | cons k ks ih =>
    have hn := h.step hf rfl rfl
    have ho := mem_history_append ho [.step i]
    apply Completes.of_step hf rfl
    obtain rfl | hk := List.mem_cons.1 hk
    · refine completes_of_ready ho (Or.inr ?_) hn
      rw [run_concat,shared_move_step hf rfl]
      exact signalled_signal _ _ _
    · exact ih (frames_run_step hf rfl) hk ho hn

/-- An operation whose ticket a cancel has removed completes. -/
theorem completes_of_cancelled (ho : o ∈ history enrolled moves)
    (hk : o.ticket ∈ history (cancelled o.registry) moves) (h : Served o moves) :
    Completes o moves := by
  obtain hs | ⟨i,ks,fs,hf,hk⟩ := signal_of_cancelled hk
  · exact completes_of_ready ho (Or.inr hs) h
  · exact completes_of_signal hf hk ho h

end Machine
end EventLoop
