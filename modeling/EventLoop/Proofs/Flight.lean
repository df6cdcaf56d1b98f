import EventLoop.Proofs.Cancellation

/-! From the start of an operation to the submission of its handler. An operation that has been
started is in flight until its handler is queued, unless a reactor that shuts down gives it up. -/
namespace EventLoop

variable {H : Type}

open Table (weigh)

namespace Frame

/-- The operation in flight that a frame stands for. -/
def inFlight? : Frame H → Option (Operation H)
  | .operation o | .withdraw o _ | .countAbort o _ | .complete o _ => some o
  | _ => none

def inFlight (p : Operation H → Bool) (f : Frame H) : Nat := f.inFlight?.toList.countP p

end Frame

/-- The operation that is started with an act. A start that panics has started nothing. -/
def launchedBy : List (Frame H) → List (Frame H) → List (Operation H)
  | [.enlist _], .panic _ :: _ => []
  | [.enlist o], _ => [o]
  | _, _ => []

def abandonedBy : List (Frame H) → List (Frame H) → List (Operation H)
  | [.operation o], [.dropTasks _] => [o]
  | _, _ => []

section

variable {p : Operation H → Bool} {me : Nat} {s : Shared H} {active : List Executor}

theorem weightless_inFlight : Frame.Weightless (Frame.inFlight p) := by
  intro f hf
  cases f <;> simp_all [Frame.idles,Frame.inFlight,Frame.inFlight?]

abbrev KeepsFlight (p : Operation H → Bool) (taken : List (Frame H)) (e : Effect H) : Prop :=
  weigh (Frame.inFlight p) taken + (launchedBy taken e.frames).countP p =
    weigh (Frame.inFlight p) e.put + (completedBy taken).countP p +
      (abandonedBy taken e.frames).countP p

attribute [local simp] KeepsFlight weigh Frame.inFlight Frame.inFlight? launchedBy reportedBy completedBy
  abandonedBy Effect.put

theorem keepsFlight_rewrite {f : Frame H} {frames : List (Frame H)}
    (hr : Rewrite me s active f frames) : KeepsFlight p [f] { shared := s, active, frames } := by
  cases hr with
  | destroy hf | ended hf | overdue hf => cases hf <;> rfl
  | dropJobsCons j => cases j <;> rfl
  | _ => simp

theorem keepsFlight_rule {f : Frame H} {e : Effect H} (hr : Rule me s active f e) :
    KeepsFlight p [f] e := by
  cases hr with
  | rewrite hr => exact keepsFlight_rewrite hr
  | enqueue hf | runDry hf | sleep hf => cases hf <;> rfl
  | take hf j => cases hf <;> cases j <;> rfl
  | _ => simp

theorem keepsFlight_deed {taken : List (Frame H)} {e : Effect H} (hd : Deed me s active taken e)
    (hr : taken.tail.all Frame.rests = true) : KeepsFlight p taken e := by
  obtain ⟨frames,hs,rfl⟩ | ⟨f,rfl,hf⟩ := hd.shift_or_rule
  · have hn : launchedBy taken frames = [] ∧ completedBy taken = [] ∧
        abandonedBy taken frames = [] := by
      cases hs <;> exact ⟨rfl,rfl,rfl⟩
    obtain ⟨hl,hc,ha⟩ := hn
    simp only [KeepsFlight,Effect.put,hl,hc,ha]
    rw [weigh_shift weightless_inFlight hs hr]
    rfl
  · exact keepsFlight_rule hf

end

namespace Machine

def launched (_ : Machine H) (a : Act H) : List (Operation H) :=
  launchedBy a.taken a.effect.frames

def abandoned (_ : Machine H) (a : Act H) : List (Operation H) :=
  abandonedBy a.taken a.effect.frames

theorem countP_launched (p : Operation H → Bool) (moves : List (Move H)) :
    (history launched moves).countP p =
      (run moves).weight (Frame.inFlight p) + (history completed moves).countP p +
        (history abandoned moves).countP p := by
  induction moves using run_induction with
  | start => rfl
  | move xs y ih =>
    simp only [run_concat,history_concat,List.countP_append]
    obtain ⟨a,hy,ha,hmove⟩ | ⟨hy,hmove⟩ := move_cases (run xs) y
    · obtain ⟨k,hk,hk'⟩ := exists_weight_perform ha (Frame.inFlight p)
      have hc := keepsFlight_deed (p := p) ha.deed (ha.rests_tail (sound_run xs))
      simp only [noted_of_act? hy,hmove,hk']
      simp only [launched,completed,abandoned]
      omega
    · simp only [noted_of_act?_none hy,hmove,weight_happen weightless_inFlight]
      simpa using ih

theorem closed_of_abandoned {moves : List (Move H)} {o : Operation H}
    (h : o ∈ history abandoned moves) : ((run moves).shared.loops.get o.home).closed = true := by
  induction moves using run_induction with
  | start => exact absurd h List.not_mem_nil
  | move xs y ih =>
    rw [history_concat] at h
    rw [run_concat]
    apply (grows_move (run xs) y).closed
    obtain h | h := List.mem_append.1 h
    · exact ih h
    · cases hy : (run xs).act? y with
      | none => simp [noted_of_act?_none hy] at h
      | some a =>
        rw [noted_of_act? hy] at h
        have hd := (fits_of_act? hy).deed
        unfold abandoned abandonedBy at h
        split at h
        · rename_i p ts ht hs
          obtain rfl := List.mem_singleton.1 h
          rw [ht] at hd
          exact closed_of_reactor (reactor_closed_of_abandon hd hs)
        · exact absurd h List.not_mem_nil

end Machine
end EventLoop
