import EventLoop.Proofs.Calling
import EventLoop.Proofs.Progress
import EventLoop.Proofs.Shadow

/-! Handlers that always do the same where everything is the same, at work on one thread. What the
thread does above some frames depends on nothing below them and not on the clock, so it can be
followed on a lane that has no more than it needs. Main statement: `Shows.own`. -/
namespace EventLoop

variable {H μ : Type}

def Call.steady : Call H → Bool
  | .run _ _ _ | .wait _ _ | .start _ _ _ _ _ | .wakeReactor _ => false
  | _ => true

/-- The frames that come of handlers that make such calls only and do not panic. -/
def Frame.steady : Frame H → Bool
  | .call c => c.steady
  | .panic _ | .drain _ _ _ _ | .asleep _ _ _ _ | .awake _ _ _ _ | .enrol _ | .countStart _
  | .addWork _ | .enlist _ | .operation _ | .withdraw _ _ | .countAbort _ _ | .complete _ _ =>
    false
  | _ => true

def Frame.mute : Frame H → Bool
  | .code _ _ _ | .reply _ => false
  | _ => true

def Shared.timeless (s : Shared H) : Shared H := { s with now := 0 }

def Effect.timeless (e : Effect H) : Effect H := { e with shared := e.shared.timeless }

section

variable {me : Nat} {s : Shared H} {active : List Executor}

theorem steady_rewrite {f : Frame H} {frames : List (Frame H)} (hr : Rewrite me s active f frames)
    (hf : f.steady = true) : frames.all Frame.steady = true := by
  cases hr with
  | destroy hf => cases hf <;> rfl
  | dropJobsCons j => cases j <;> rfl
  | ended hl | overdue hl => rfl
  | _ => first | rfl | exact Bool.noConfusion hf

theorem steady_rule {f : Frame H} {e : Effect H} (hr : Rule me s active f e)
    (hf : f.steady = true) : e.frames.all Frame.steady = true := by
  cases hr with
  | rewrite h => exact steady_rewrite h hf
  | take hl | runDry hl | sleep hl => cases hl <;> exact Bool.noConfusion hf
  | _ => first | rfl | exact Bool.noConfusion hf

theorem step_timeless {f : Frame H} (hf : f.steady = true) :
    f.step me s.timeless active = (f.step me s active).timeless := by
  cases f with
  | call c =>
    cases c with
    | post e t =>
      cases e with
      | loop c =>
        simp only [Frame.step,Frame.stepCall,Frame.submit,apply_ite Effect.timeless]
        rfl
      | strand x => rfl
    | dispatch e t => cases e <;> rfl
    | invoke t => cases t <;> rfl
    | openGuard g | closeGuard g =>
      simp only [Frame.step,Frame.stepCall,apply_ite Effect.timeless]
      rfl
    | run c w limit | wait x t | start r c due o t | wakeReactor c => exact Bool.noConfusion hf
    | _ => rfl
  | schedule x =>
    simp only [Frame.step,Frame.submit,apply_ite Effect.timeless]
    rfl
  | tryLock x t | release x =>
    simp only [Frame.step,apply_ite Effect.timeless]
    rfl
  | runTurn x | tally c read =>
    simp only [Frame.step,Shared.timeless]
    split <;> rfl
  | dropTasks ts => cases ts <;> rfl
  | dropJobs js => cases js <;> rfl
  | signal r ks => cases ks <;> rfl
  | code role h made | reply r | finish c | finishWork c | leave e | dropTurn x | closeReactor c
  | notifyOne c | notifyAll c | forget r k => rfl
  | _ => exact Bool.noConfusion hf

end

/-- What user code can do next, short of running a loop, of starting an operation and of
panicking. -/
inductive Choice (H : Type)
  | call (c : Call H) (hc : c.steady = true)
  | addStrand (home : Nat)
  | addGuard (home : Nat)
  | finish

namespace Choice

def move (i : Nat) : Choice H → Move H
  | .call c _ => .call i c
  | .addStrand home => .addStrand home
  | .addGuard home => .addGuard home
  | .finish => .finish i

def effect (role : Role) (h : H) (made : Nat) (s : Shared H) (active : List Executor) :
    Choice H → Effect H
  | .call c _ => { shared := s, active, frames := [.call c, .code role h (made + 1)] }
  | .addStrand home =>
    { shared := { s with strands := s.strands.push { home } }, active
      frames := [.code role h made] }
  | .addGuard home =>
    { shared := { s with guards := s.guards.push { home } }, active, frames := [.code role h made] }
  | .finish => { shared := s, active }

theorem steady_effect {role : Role} {h : H} {made : Nat} {s : Shared H} {active : List Executor}
    (x : Choice H) : (x.effect role h made s active).frames.all Frame.steady = true := by
  cases x with
  | call c hc => simp [effect,Frame.steady,hc]
  | _ => rfl

end Choice

/-- What the user code does, all of it together, by what it remembers. It may look at whatever is
shared but the clock. -/
structure Conduct (H μ : Type) where
  next : μ → Shared H → Role → H → Nat → Choice H × μ
  hear : μ → Reply → μ

/-- A thread as far as some frames at its top, with the handlers that it has called. -/
structure Lane (H μ : Type) where
  shared : Shared H
  active : List Executor
  frames : List (Frame H)
  memory : μ
  called : List (Task H) := []

/-- An effect takes the place of the frames above `rest`. -/
def Lane.put (x : Lane H μ) (rest : List (Frame H)) (e : Effect H) (memory : μ) : Lane H μ :=
  ⟨e.shared,e.active,e.frames ++ rest,memory,x.called ++ calledBy e.frames⟩

theorem Machine.act?_call {m : Machine H} {i : Nat} {role : Role} {h : H} {made : Nat}
    {rest : List (Frame H)} (hm : (m.thread i).frames = .code role h made :: rest) (c : Call H) :
    m.act? (.call i c) =
      some ⟨i,[.code role h made],rest,m.only i [.call c,.code role h (made + 1)]⟩ := by
  simp [Machine.act?,Machine.codeAct?,hm]

namespace Conduct

variable (k : Conduct H μ)

/-- Thread `i` goes on by one move, or stays where it is if its frames are all done. -/
def advance (i : Nat) (x : Lane H μ) : Lane H μ :=
  match x.frames with
  | [] => x
  | .code role h made :: rest =>
    let choice := k.next x.memory x.shared role h made
    x.put rest (choice.1.effect role h made x.shared x.active) choice.2
  | .reply r :: rest =>
    { x with
      frames := rest
      memory := if rest.head?.any Frame.isCode then k.hear x.memory r else x.memory }
  | f :: rest => x.put rest (f.step i x.shared x.active) x.memory

/-- The next move of thread `i`, whose code has the given memory, and the memory after it. -/
def choice? (i : Nat) (m : Machine H) (a : μ) : Option (Move H × μ) :=
  match (m.thread i).frames with
  | [] => none
  | .code role h made :: _ =>
    let choice := k.next a m.shared.timeless role h made
    some (choice.1.move i,choice.2)
  | .reply r :: rest =>
    some (if rest.head?.any Frame.isCode then (.receive i,k.hear a r) else (.step i,a))
  | _ => some (.step i,a)

/-- What happens while thread `i` is the only one at work: it goes on, or it wakes of its own
accord, or time passes. -/
inductive Goes (i : Nat) (m : Machine H) (a : μ) : Move H → μ → Prop
  | own {y : Move H} {b : μ} (h : k.choice? i m a = some (y,b)) : Goes i m a y b
  | wake {c : Nat} {w : Wait} {limit : Option Nat} {ran : Nat} {rest : List (Frame H)}
      (hf : (m.thread i).frames = .asleep c w limit ran :: rest) : Goes i m a (.disturb i) a
  | clock (t : Instant) : Goes i m a (.clock t) a

variable {k} {i : Nat} {m : Machine H} {a b : μ} {x : Lane H μ} {base rest : List (Frame H)}
  {f : Frame H} {y : Move H} {log : List (Task H)}

theorem advance_step (hx : x.frames = f :: rest) (hf : f.mute = true) :
    k.advance i x = x.put rest (f.step i x.shared x.active) x.memory := by
  cases f with
  | code role h made | reply r => exact Bool.noConfusion hf
  | _ => simp [advance,hx]

theorem choice?_step (hx : (m.thread i).frames = f :: rest) (hf : f.mute = true) :
    k.choice? i m a = some (.step i,a) := by
  cases f with
  | code role h made | reply r => exact Bool.noConfusion hf
  | _ => simp [choice?,hx]

theorem steady_advance (hx : x.frames.all Frame.steady = true) :
    (k.advance i x).frames.all Frame.steady = true := by
  unfold advance
  split
  · exact hx
  · next hf =>
    rw [hf,List.all_cons,Bool.and_eq_true] at hx
    rw [Lane.put,List.all_append,Choice.steady_effect,hx.2]
    rfl
  · next hf =>
    rw [hf,List.all_cons,Bool.and_eq_true] at hx
    exact hx.2
  · next hf =>
    rw [hf,List.all_cons,Bool.and_eq_true] at hx
    rw [Lane.put,List.all_append,Bool.and_eq_true]
    refine ⟨steady_rule (Rule.step_of_ne ?_) hx.1,hx.2⟩
    rintro c w limit ran rfl
    cases hx.1

/-- A lane is what the machine has of thread `i` above `base`, with the memory of its code and the
handlers that were called. -/
structure Shows (i : Nat) (base : List (Frame H)) (m : Machine H) (a : μ) (log : List (Task H))
    (x : Lane H μ) : Prop where
  shared : m.shared.timeless = x.shared
  frames : (m.thread i).frames = x.frames ++ base
  active : (m.thread i).active = x.active
  memory : a = x.memory
  called : log = x.called

/-- What an act leaves of the thread above `base` is the lane after it. -/
theorem Shows.act {fs l taken : List (Frame H)} {e : Effect H} (hx : Shows i fs m a log x)
    (hy : m.act? y = some ⟨i,taken,rest,e⟩) (hf : e.frames ++ rest = l ++ base) (b : μ) :
    Shows i base (m.move y) b (log ++ m.noted Machine.called y)
      ⟨e.shared.timeless,e.active,l,b,x.called ++ calledBy e.frames⟩ := by
  have ht := Machine.thread_perform_self m ⟨i,taken,rest,e⟩
  rw [Machine.noted_of_act? hy,Machine.move_of_act? hy,hx.called]
  exact ⟨rfl,by rw [ht]; exact hf,by rw [ht],rfl,rfl⟩

theorem Shows.only {fs gs l taken : List (Frame H)} (hx : Shows i fs m a log x)
    (hy : m.act? y = some ⟨i,taken,rest,m.only i gs⟩) (hf : gs ++ rest = l ++ base) (b : μ) :
    Shows i base (m.move y) b (log ++ m.noted Machine.called y)
      ⟨x.shared,x.active,l,b,x.called ++ calledBy gs⟩ := by
  rw [← hx.shared,← hx.active]
  exact hx.act hy hf b

theorem Shows.step (hx : Shows i base m a log x) (hf : x.frames = f :: rest)
    (he : f.executes = true) (hs : f.steady = true) :
    Shows i base (m.move (.step i)) a (log ++ m.noted Machine.called (.step i))
      (x.put rest (f.step i x.shared x.active) x.memory) := by
  have hm : (m.thread i).frames = f :: (rest ++ base) := by rw [hx.frames,hf]; rfl
  have hg : f.step i x.shared x.active = (f.step i m.shared (m.thread i).active).timeless := by
    rw [← hx.shared,← hx.active,step_timeless hs]
  rw [hg,← hx.memory]
  exact hx.act (Machine.act?_step hm he) (List.append_assoc _ _ _).symm a

theorem Shows.choose {role : Role} {h : H} {made : Nat} (hx : Shows i base m a log x)
    (hf : x.frames = .code role h made :: rest) (z : Choice H) (b : μ) :
    Shows i base (m.move (z.move i)) b (log ++ m.noted Machine.called (z.move i))
      (x.put rest (z.effect role h made x.shared x.active) b) := by
  have hm : (m.thread i).frames = .code role h made :: (rest ++ base) := by rw [hx.frames,hf]; rfl
  cases z with
  | call c hc => exact hx.only (Machine.act?_call hm c) (List.append_assoc _ _ _).symm b
  | addStrand home | addGuard home =>
    exact ⟨by rw [← hx.shared]; rfl,hm,hx.active,rfl,by rw [hx.called]; rfl⟩
  | finish =>
    have hy : m.act? (.finish i) = some ⟨i,[.code role h made],rest ++ base,m.only i []⟩ := by
      simp [Machine.act?,Machine.codeAct?,hm]
    exact hx.only hy (List.nil_append _) b

/-- A reply is taken by the code below it, or dropped. -/
theorem Shows.reply {r : Reply} {fs : List (Frame H)} (hx : Shows i fs m a log x)
    (hy : m.act? y = some ⟨i,[.reply r],rest ++ base,m.only i []⟩) (b : μ) :
    Shows i base (m.move y) b (log ++ m.noted Machine.called y)
      { x with frames := rest, memory := b } := by
  have h := hx.only hy (List.nil_append _) b
  rwa [show calledBy ([] : List (Frame H)) = [] from rfl,List.append_nil] at h

/-- What the thread does of its own accord shows in the lane. -/
theorem Shows.own (hx : Shows i base m a log x) (hb : base.head?.any Frame.isCode = false)
    (hs : x.frames.all Frame.steady = true) (hn : x.frames ≠ [])
    (hy : k.choice? i m a = some (y,b)) :
    Shows i base (m.move y) b (log ++ m.noted Machine.called y) (k.advance i x) := by
  obtain ⟨f,rest,hf⟩ := List.exists_cons_of_ne_nil hn
  have hm : (m.thread i).frames = f :: (rest ++ base) := by rw [hx.frames,hf]; rfl
  rw [hf,List.all_cons,Bool.and_eq_true] at hs
  cases f with
  | code role h made =>
    simp only [choice?,hm,Option.some.injEq,Prod.mk.injEq,hx.memory,hx.shared] at hy
    obtain ⟨rfl,rfl⟩ := hy
    simp only [advance,hf]
    exact hx.choose hf _ _
  | reply r =>
    have hh : (rest ++ base).head?.any Frame.isCode = rest.head?.any Frame.isCode := by
      cases rest with
      | nil => exact hb
      | cons g gs => rfl
    simp only [choice?,hm,hh,Option.some.injEq] at hy
    simp only [advance,hf]
    split at hy
    · next hc =>
      cases hy
      rw [if_pos hc,← hx.memory]
      have hr : m.act? (.receive i) = some ⟨i,[.reply r],rest ++ base,m.only i []⟩ := by
        simp [Machine.act?,Machine.receiveAct?,hm]
      exact hx.reply hr _
    · next hc =>
      cases hy
      rw [if_neg hc,← hx.memory]
      have hr : m.act? (.step i) = some ⟨i,[.reply r],rest ++ base,m.only i []⟩ := by
        rw [Machine.act?,Machine.stepAct?,hm]
        exact if_neg (hh ▸ hc)
      exact hx.reply hr _
  | panic t | drain c w limit ran | asleep c w limit ran | awake c w limit ran =>
    exact Bool.noConfusion hs.1
  | _ =>
    rw [choice?_step hm rfl] at hy
    cases hy
    rw [advance_step hf rfl]
    exact hx.step hf rfl hs.1

end Conduct
end EventLoop
