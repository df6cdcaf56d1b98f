import EventLoop.Proofs.HandlerCounts

/-! From the call of a handler to its end. Every handler that is called is called by one act, runs
once and ends once, and a job is finished when its handler is over. -/
namespace EventLoop

variable {H : Type}

open Table (weigh)

namespace Frame

def running? : Frame H → Option (Task H)
  | .call (.invoke t) => some t
  | .code (.handler given) h _ => some (.body h given)
  | _ => none

def runs (p : Task H → Bool) (f : Frame H) : Nat := f.running?.toList.countP p

/-- Jobs of loop `c` in progress. -/
def works (c : Nat) : Frame H → Nat
  | .finish d => if d = c then 1 else 0
  | _ => 0

end Frame

/-- The handler that is called with these frames. -/
def calledBy : List (Frame H) → List (Task H)
  | .call (.invoke t) :: _ => [t]
  | _ => []

/-- The handler that is over with an act: it returns, unwinds, or has been handed on to the
executor to which it is bound. -/
def endedBy : List (Frame H) → List (Frame H) → List (Task H)
  | [.code (.handler given) h _], [] => [.body h given]
  | [.panic _, .code (.handler given) h _], [.panic _] => [.body h given]
  | [.call (.invoke (.bound e t))], _ => [.bound e t]
  | _, _ => []

/-- The jobs of loop `c` that are finished when these frames are executed. -/
def finishedBy (c : Nat) : List (Frame H) → List Unit
  | [.finish d] => if d = c then [()] else []
  | _ => []

section

variable {c me : Nat} {p : Task H → Bool} {s : Shared H} {active : List Executor}

/-- A handler that is called runs until it ends, and so does a job of loop `c`. -/
structure Runs (c : Nat) (p : Task H → Bool) (taken : List (Frame H)) (e : Effect H) : Prop where
  handlers : weigh (Frame.runs p) taken + (calledBy e.frames).countP p =
    weigh (Frame.runs p) e.put + (endedBy taken e.frames).countP p
  jobs : weigh (Frame.works c) taken + (handedBy c e.frames).length =
    weigh (Frame.works c) e.put + (finishedBy c taken).length

attribute [local simp] weigh Frame.runs Frame.running? Frame.works calledBy endedBy finishedBy
  handedBy Effect.put

theorem runs_rewrite {f : Frame H} {frames : List (Frame H)} (hr : Rewrite me s active f frames) :
    Runs c p [f] { shared := s, active, frames } := by
  cases hr with
  | code role => cases role <;> constructor <;> simp
  | destroy hf | ended hf | overdue hf => cases hf <;> constructor <;> simp [Frame.dropJob]
  | dropJobsCons j => cases j <;> constructor <;> simp [Frame.dropJob]
  | _ => constructor <;> simp

theorem runs_rule {f : Frame H} {e : Effect H} (hr : Rule me s active f e) : Runs c p [f] e := by
  cases hr with
  | rewrite hr => exact runs_rewrite hr
  | enqueue hf | runDry hf | sleep hf => cases hf <;> constructor <;> simp
  | take hf j =>
    cases hf <;> cases j <;> constructor <;> simp [Frame.execute,apply_ite List.length]
  | finish => constructor <;> simp [apply_ite List.length]
  | _ => constructor <;> simp

theorem runs_shift {taken frames : List (Frame H)} (hs : Shift taken frames)
    (hr : taken.tail.all Frame.rests = true) :
    Runs c p taken { shared := s, active, frames } := by
  cases hs with
  | cleanUp t f hc => cases f <;> first | exact Bool.noConfusion hc | constructor <;> simp
  | skip t f hs hc =>
    cases f with
    | call k => exact Bool.noConfusion hr
    | code role h made => exact Bool.noConfusion hs
    | finish d => exact Bool.noConfusion hc
    | _ => constructor <;> simp
  | call role h made k =>
    have hc : (calledBy [.call k,.code role h (made + 1)]).countP p = Frame.runs p (.call k) := by
      cases k <;> rfl
    have hr : Frame.runs p (.code role h made) = Frame.runs p (.code role h (made + 1)) := by
      cases role <;> rfl
    have he : endedBy [.code role h made] [.call k,.code role h (made + 1)] = [] := by
      cases role <;> rfl
    constructor
    · simp only [weigh,Effect.put,hc,hr,he,List.countP_nil]
      omega
    · cases k <;> rfl
  | answer r | die t => constructor <;> simp
  | finish role h made | raise role h made t | pass role h made t | recover role h made t =>
    cases role <;> constructor <;> simp

theorem tasksIn_handedBy (c : Nat) (fs : List (Frame H)) :
    (tasksIn (handedBy c fs)).Sublist (calledBy fs) := by
  unfold handedBy
  split
  · split
    · exact List.Sublist.refl _
    · exact List.nil_sublist _
  · split <;> exact List.nil_sublist _
  · exact List.nil_sublist _

theorem drawnBy_sublist {taken : List (Frame H)} {e : Effect H} (hd : Deed me s active taken e) :
    (drawnBy c s taken e.frames).Sublist (calledBy e.frames) := by
  unfold drawnBy pickedBy
  split
  · rename_i x
    rw [hd.eq_step rfl]
    cases hw : (s.strands.get x).waiting with
    | nil => simp [Frame.step,hw,tasksIn]
    | cons t ts =>
      simp only [Frame.step,hw]
      split <;> simp [tasksIn]
  · rw [List.append_nil]
    exact tasksIn_handedBy c e.frames

theorem runs_deed {taken : List (Frame H)} {e : Effect H} (hd : Deed me s active taken e)
    (hr : taken.tail.all Frame.rests = true) : Runs c p taken e := by
  obtain ⟨frames,hs,rfl⟩ | ⟨f,rfl,hf⟩ := hd.shift_or_rule
  · exact runs_shift hs hr
  · exact runs_rule hf

end

namespace Machine

def called (_ : Machine H) (a : Act H) : List (Task H) := calledBy a.effect.frames

def ended (_ : Machine H) (a : Act H) : List (Task H) := endedBy a.taken a.effect.frames

def finished (c : Nat) (_ : Machine H) (a : Act H) : List Unit := finishedBy c a.taken

/-- A handler that is called is in progress or over, and only once. -/
theorem countP_called (p : Task H → Bool) (moves : List (Move H)) :
    (history called moves).countP p =
      (run moves).weight (Frame.runs p) + (history ended moves).countP p := by
  induction moves using run_induction with
  | start => rfl
  | move xs y ih =>
    simp only [run_concat,history_concat,List.countP_append]
    obtain ⟨a,hy,ha,hmove⟩ | ⟨hy,hmove⟩ := move_cases (run xs) y
    · obtain ⟨k,hk,hk'⟩ := exists_weight_perform ha (Frame.runs p)
      have h := (runs_deed (c := 0) (p := p) ha.deed (ha.rests_tail (sound_run xs))).handlers
      simp only [noted_of_act? hy,hmove,hk']
      simp only [called,ended]
      omega
    · simp only [noted_of_act?_none hy,hmove,weight_happen_of (w := Frame.runs p) fun _ => rfl]
      simpa using ih

/-- A job that is handed out is in progress or finished. -/
theorem length_handedOut (c : Nat) (moves : List (Move H)) :
    (history (handedOut c) moves).length =
      (run moves).weight (Frame.works c) + (history (finished c) moves).length := by
  induction moves using run_induction with
  | start => rfl
  | move xs y ih =>
    simp only [run_concat,history_concat,List.length_append]
    obtain ⟨a,hy,ha,hmove⟩ | ⟨hy,hmove⟩ := move_cases (run xs) y
    · obtain ⟨k,hk,hk'⟩ := exists_weight_perform ha (Frame.works c)
      have h := (runs_deed (c := c) (p := fun _ => true) ha.deed
        (ha.rests_tail (sound_run xs))).jobs
      simp only [noted_of_act? hy,hmove,hk']
      simp only [handedOut,finished]
      omega
    · simp only [noted_of_act?_none hy,hmove,weight_happen_of (w := Frame.works c) fun _ => rfl]
      simpa using ih

theorem drawn_sublist (c : Nat) (moves : List (Move H)) :
    (history (drawn c) moves).Sublist (history called moves) := by
  apply history_sublist
  intro xs y a hy
  exact drawnBy_sublist (fits_of_act? hy).deed

end Machine
end EventLoop
