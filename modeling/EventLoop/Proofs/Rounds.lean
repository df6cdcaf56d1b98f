import EventLoop.Proofs.Returns
import Mathlib.Algebra.Ring.Nat

/-! What all calls of the run family come to. Each that was made is in progress, has returned or was
unwound, and between them they have taken the jobs that were handed out. -/
namespace EventLoop

variable {H : Type}

open Table (weigh)

namespace Frame

/-- Calls of the run family on loop `c` that are not over. -/
def rounds (c : Nat) : Frame H → Nat
  | .call (.run d _ _) | .drain d _ _ _ | .asleep d _ _ _ | .awake d _ _ _ => if d = c then 1 else 0
  | _ => 0

/-- The jobs of loop `c` that calls have taken that are not over. -/
def yields (c : Nat) : Frame H → Nat
  | .drain d _ _ ran | .asleep d _ _ ran | .awake d _ _ ran => if d = c then ran else 0
  | _ => 0

end Frame

def madeBy (c : Nat) : List (Frame H) → List Unit
  | .call (.run d _ _) :: _ => if d = c then [()] else []
  | _ => []

/-- What a call of the run family on loop `c` returns that ends with an act. -/
def returnedBy (c : Nat) (taken frames : List (Frame H)) : List Nat :=
  match taken, frames.getLast? with
  | [f], some (.reply (.count n)) => if f.looks?.any (·.1 = c) then [n] else []
  | _, _ => []

def unwoundBy (c : Nat) : List (Frame H) → List Nat
  | [.panic _, f] =>
    match f.looks? with
    | some (d, _, _, ran) => if d = c then [ran] else []
    | none => []
  | _ => []

/-- Every call of the run family that is made goes on, returns or unwinds, and takes with it the
jobs that it has taken. -/
structure Rounds (c : Nat) (taken : List (Frame H)) (e : Effect H) : Prop where
  calls : weigh (Frame.rounds c) taken + (madeBy c e.frames).length =
    weigh (Frame.rounds c) e.put + (returnedBy c taken e.frames).length +
      (unwoundBy c taken).length
  jobs : weigh (Frame.yields c) taken + (handedBy c e.frames).length =
    weigh (Frame.yields c) e.put + (returnedBy c taken e.frames).sum + (unwoundBy c taken).sum

section

variable {c me : Nat} {s : Shared H} {active : List Executor}

attribute [local simp] weigh Effect.put Frame.rounds Frame.yields madeBy returnedBy unwoundBy
  handedBy Frame.looks? Frame.dropJob Frame.execute

theorem rounds_rewrite {f : Frame H} {frames : List (Frame H)}
    (hr : Rewrite me s active f frames) : Rounds c [f] { shared := s, active, frames } := by
  cases hr with
  | reply r => cases r <;> constructor <;> simp
  | destroy hf => cases hf <;> constructor <;> simp
  | run | full => constructor <;> simp [apply_ite List.length,apply_ite List.sum]
  | ended hf | overdue hf =>
    cases hf <;> constructor <;> simp [apply_ite List.length,apply_ite List.sum]
  | dropJobsCons j => cases j <;> constructor <;> simp
  | _ => constructor <;> simp

theorem rounds_rule {f : Frame H} {e : Effect H} (hr : Rule me s active f e) :
    Rounds c [f] e := by
  cases hr with
  | rewrite hr => exact rounds_rewrite hr
  | enqueue hf => cases hf <;> constructor <;> simp
  | take hf j =>
    cases hf <;> cases j <;> constructor <;> simp [apply_ite List.length] <;> split <;> rfl
  | runDry hf | sleep hf =>
    cases hf <;> constructor <;> simp [apply_ite List.length,apply_ite List.sum]
  | _ => constructor <;> simp

theorem rounds_shift {taken frames : List (Frame H)} (hs : Shift taken frames)
    (hr : taken.tail.all Frame.rests = true) :
    Rounds c taken { shared := s, active, frames } := by
  cases hs with
  | cleanUp t f hc => cases f <;> first | exact Bool.noConfusion hc | constructor <;> simp
  | skip t f hs hc =>
    cases f with
    | call k => exact Bool.noConfusion hr
    | code role h made => exact Bool.noConfusion hs
    | finish d => exact Bool.noConfusion hc
    | drain d w limit ran | asleep d w limit ran | awake d w limit ran =>
      by_cases hd : d = c <;> constructor <;> simp [hd]
    | _ => constructor <;> simp
  | call role h made k =>
    cases k with
    | run d w limit => by_cases hd : d = c <;> constructor <;> simp [hd]
    | _ => constructor <;> simp
  | _ => constructor <;> simp

theorem rounds_deed {taken : List (Frame H)} {e : Effect H} (hd : Deed me s active taken e)
    (hr : taken.tail.all Frame.rests = true) : Rounds c taken e := by
  obtain ⟨frames,hs,rfl⟩ | ⟨f,rfl,hf⟩ := hd.shift_or_rule
  · exact rounds_shift hs hr
  · exact rounds_rule hf

end

namespace Machine

def made (c : Nat) (_ : Machine H) (a : Act H) : List Unit := madeBy c a.effect.frames

def returned (c : Nat) (_ : Machine H) (a : Act H) : List Nat :=
  returnedBy c a.taken a.effect.frames

/-- What the calls of the run family on loop `c` have taken that a panic ends with an act. -/
def unwound (c : Nat) (_ : Machine H) (a : Act H) : List Nat := unwoundBy c a.taken

theorem length_made (c : Nat) (moves : List (Move H)) :
    (history (made c) moves).length = (run moves).weight (Frame.rounds c) +
      (history (returned c) moves).length + (history (unwound c) moves).length := by
  induction moves using run_induction with
  | start => rfl
  | move xs y ih =>
    simp only [run_concat,history_concat,List.length_append]
    obtain ⟨a,hy,ha,hmove⟩ | ⟨hy,hmove⟩ := move_cases (run xs) y
    · obtain ⟨k,hk,hk'⟩ := exists_weight_perform ha (Frame.rounds c)
      have h := (rounds_deed (c := c) ha.deed (ha.rests_tail (sound_run xs))).calls
      simp only [noted_of_act? hy,hmove,hk']
      simp only [made,returned,unwound]
      omega
    · simp only [noted_of_act?_none hy,hmove,weight_happen_of (w := Frame.rounds c) fun _ => rfl]
      simpa using ih

theorem sum_returned (c : Nat) (moves : List (Move H)) :
    (history (handedOut c) moves).length = (run moves).weight (Frame.yields c) +
      (history (returned c) moves).sum + (history (unwound c) moves).sum := by
  induction moves using run_induction with
  | start => rfl
  | move xs y ih =>
    simp only [run_concat,history_concat,List.length_append,List.sum_append]
    obtain ⟨a,hy,ha,hmove⟩ | ⟨hy,hmove⟩ := move_cases (run xs) y
    · obtain ⟨k,hk,hk'⟩ := exists_weight_perform ha (Frame.yields c)
      have h := (rounds_deed (c := c) ha.deed (ha.rests_tail (sound_run xs))).jobs
      simp only [noted_of_act? hy,hmove,hk']
      simp only [handedOut,returned,unwound]
      omega
    · simp only [noted_of_act?_none hy,hmove,weight_happen_of (w := Frame.yields c) fun _ => rfl]
      simpa using ih

end Machine
end EventLoop
