import EventLoop.Machine.Move
import Mathlib.Data.List.Induction

/-! Runs of a machine from the start, and what one move can be. Every invariant is proved once
for each kind of `Deed` and once for what happens without a thread; `run_induction` carries it
along a run. -/
namespace EventLoop

variable {H α : Type}

/-- How a stack changes when nothing that the threads share does. -/
inductive Shift : List (Frame H) → List (Frame H) → Prop
  | answer (r : Reply) : Shift [.reply r] []
  | die (t : String) : Shift [.panic t] []
  | cleanUp (t : String) (f : Frame H) (h : f.cleansUp = true) : Shift [.panic t, f] [f, .panic t]
  | skip (t : String) (f : Frame H) (hs : f.stopsPanic = false) (h : f.cleansUp = false) :
      Shift [.panic t, f] [.panic t]
  | call (role : Role) (h : H) (made : Nat) (c : Call H) :
      Shift [.code role h made] [.call c, .code role h (made + 1)]
  | finish (role : Role) (h : H) (made : Nat) : Shift [.code role h made] []
  | raise (role : Role) (h : H) (made : Nat) (t : String) :
      Shift [.code role h made] [.panic t, .code role h made]
  | pass (role : Role) (h : H) (made : Nat) (t : String) :
      Shift [.panic t, .code role h made] [.panic t]
  | recover (role : Role) (h : H) (made : Nat) (t : String) :
      Shift [.panic t, .code role h made] [.code role h made]

/-- What thread `me` can do in one move: the frames that it takes off and the effect. -/
inductive Deed (me : Nat) (s : Shared H) (active : List Executor) :
    List (Frame H) → Effect H → Prop
  | shift {taken frames : List (Frame H)} (h : Shift taken frames) :
      Deed me s active taken { shared := s, active, frames }
  | step (f : Frame H) (hs : f.sleeps me s = false) : Deed me s active [f] (f.step me s active)
  | disturb (c : Nat) (w : Wait) (limit : Option Nat) (ran : Nat)
      (hm : me ∈ (s.loops.get c).sleepers) :
      Deed me s active [.asleep c w limit ran]
        { shared := s.onLoop c (Loop.awaken me), active, frames := [.awake c w limit ran] }
  | conclude (o : Operation H) : Deed me s active [.operation o] (Frame.operate s active o)
  | heed (o : Operation H) : Deed me s active [.operation o] (Frame.heed s active o)
  | refuse (o : Operation H) (why : String) (hr : (s.loops.get o.home).reactor = .idle) :
      Deed me s active [.enlist o] (Frame.refuse s active o (.reactor why))

/-- The frames with which a thread can do one thing only. -/
def Frame.proceeds : Frame H → Bool
  | .code _ _ _ | .reply _ | .panic _ | .asleep _ _ _ _ | .enlist _ | .operation _ => false
  | _ => true

theorem Deed.eq_step {me : Nat} {s : Shared H} {active : List Executor} {f : Frame H}
    {e : Effect H} (hd : Deed me s active [f] e) (hf : f.proceeds = true) :
    e = f.step me s active := by
  generalize ht : [f] = taken at hd
  cases hd with
  | step g =>
    obtain rfl : f = g := by simpa using ht
    rfl
  | shift hs => cases hs <;> simp_all [Frame.proceeds]
  | _ =>
    obtain rfl := List.singleton_inj.1 ht
    exact Bool.noConfusion hf

/-- An act takes its frames off the stack of its thread. -/
structure Act.Fits (a : Act H) (m : Machine H) : Prop where
  frames : (m.thread a.thread).frames = a.taken ++ a.rest
  deed : Deed a.thread m.shared (m.thread a.thread).active a.taken a.effect

namespace Machine

theorem fits_of_stepAct? {m : Machine H} {i : Nat} {a : Act H} (h : m.stepAct? i = some a) :
    a.Fits m := by
  unfold stepAct? at h
  split at h
  · simp at h
  · rename_i r rest hf
    split at h
    · simp at h
    · obtain rfl := Option.some.inj h
      exact ⟨hf,.shift (.answer r)⟩
  · rename_i t hf
    obtain rfl := Option.some.inj h
    exact ⟨hf,.shift (.die t)⟩
  · rename_i t f rest hf
    split at h
    · simp at h
    · rename_i hs
      obtain rfl := Option.some.inj h
      refine ⟨hf,?_⟩
      cases hc : f.cleansUp with
      | true => exact .shift (.cleanUp t f hc)
      | false => exact .shift (.skip t f (by simpa using hs) hc)
  · rename_i f rest _ _ _ hf
    split at h
    · simp at h
    · rename_i hs
      obtain rfl := Option.some.inj h
      exact ⟨hf,.step f (Bool.eq_false_iff.2 hs)⟩

theorem fits_of_codeAct? {m : Machine H} {i : Nat} {a : Act H}
    {frames : Role → H → Nat → List (Frame H)}
    (hs : ∀ role h made, Shift [.code role h made] (frames role h made))
    (h : m.codeAct? i frames = some a) : a.Fits m := by
  unfold codeAct? at h
  split at h
  · rename_i hf
    obtain rfl := Option.some.inj h
    exact ⟨hf,.shift (hs _ _ _)⟩
  · simp at h

theorem fits_of_panicAct? {m : Machine H} {i : Nat} {a : Act H}
    {frames : String → Role → H → Nat → List (Frame H)}
    (hs : ∀ t role h made, Shift [.panic t, .code role h made] (frames t role h made))
    (h : m.panicAct? i frames = some a) : a.Fits m := by
  unfold panicAct? at h
  split at h
  · rename_i hf
    obtain rfl := Option.some.inj h
    exact ⟨hf,.shift (hs _ _ _ _)⟩
  · simp at h

theorem fits_of_operationAct? {m : Machine H} {i : Nat} {a : Act H}
    {effect : Operation H → Effect H}
    (hd : ∀ o, Deed i m.shared (m.thread i).active [.operation o] (effect o))
    (h : m.operationAct? i effect = some a) : a.Fits m := by
  unfold operationAct? at h
  split at h
  · rename_i hf
    obtain rfl := Option.some.inj h
    exact ⟨hf,hd _⟩
  · simp at h

theorem fits_of_receiveAct? {m : Machine H} {i : Nat} {a : Act H}
    (h : m.receiveAct? i = some a) : a.Fits m := by
  unfold receiveAct? at h
  split at h
  · rename_i hf
    obtain rfl := Option.some.inj h
    exact ⟨hf,.shift (.answer _)⟩
  · simp at h

theorem fits_of_disturbAct? {m : Machine H} {i : Nat} {a : Act H}
    (h : m.disturbAct? i = some a) : a.Fits m := by
  unfold disturbAct? at h
  split at h
  · rename_i hf
    split at h
    · rename_i hm
      obtain rfl := Option.some.inj h
      exact ⟨hf,.disturb _ _ _ _ hm⟩
    · simp at h
  · simp at h

theorem fits_of_refuseAct? {m : Machine H} {i : Nat} {why : String} {a : Act H}
    (h : m.refuseAct? i why = some a) : a.Fits m := by
  unfold refuseAct? at h
  split at h
  · rename_i hf
    split at h
    · rename_i hr
      obtain rfl := Option.some.inj h
      exact ⟨hf,.refuse _ why hr⟩
    · simp at h
  · simp at h

theorem fits_of_act? {m : Machine H} {x : Move H} {a : Act H} (h : m.act? x = some a) :
    a.Fits m := by
  cases x with
  | step => exact fits_of_stepAct? h
  | call i c => exact fits_of_codeAct? (fun role u made => .call role u made c) h
  | finish => exact fits_of_codeAct? .finish h
  | receive => exact fits_of_receiveAct? h
  | raise i t => exact fits_of_codeAct? (fun role u made => .raise role u made t) h
  | pass => exact fits_of_panicAct? (fun t role u made => .pass role u made t) h
  | recover => exact fits_of_panicAct? (fun t role u made => .recover role u made t) h
  | disturb => exact fits_of_disturbAct? h
  | conclude => exact fits_of_operationAct? .conclude h
  | heed => exact fits_of_operationAct? .heed h
  | refuse => exact fits_of_refuseAct? h
  | _ => simp [act?] at h

theorem move_of_act? {m : Machine H} {x : Move H} {a : Act H} (h : m.act? x = some a) :
    m.move x = m.perform a := by simp [move,h]

theorem move_of_act?_none {m : Machine H} {x : Move H} (h : m.act? x = none) :
    m.move x = m.happen x := by simp [move,h]

/-- A move is an act of a thread, or something that no thread does. -/
theorem move_cases (m : Machine H) (x : Move H) :
    (∃ a, m.act? x = some a ∧ a.Fits m ∧ m.move x = m.perform a) ∨
      (m.act? x = none ∧ m.move x = m.happen x) := by
  cases h : m.act? x with
  | none => exact Or.inr ⟨rfl,move_of_act?_none h⟩
  | some a => exact Or.inl ⟨a,rfl,fits_of_act? h,move_of_act? h⟩

@[simp] theorem shared_perform (m : Machine H) (a : Act H) :
    (m.perform a).shared = a.effect.shared := rfl

/-- After an act a thread has the stack that the act leaves, or is a new operation, or is as
before. -/
theorem thread_perform (m : Machine H) (a : Act H) (i : Nat) :
    (m.perform a).thread i = ⟨a.effect.frames ++ a.rest, a.effect.active⟩ ∨
      (∃ o, a.effect.started = some o ∧ (m.perform a).thread i = { frames := [.operation o] }) ∨
      (i ≠ a.thread ∧ (m.perform a).thread i = m.thread i) := by
  have hu :
      (m.threads.update a.thread fun _ => ⟨a.effect.frames ++ a.rest, a.effect.active⟩).get i =
      if a.thread = i then ⟨a.effect.frames ++ a.rest, a.effect.active⟩ else m.thread i :=
    Table.get_update _ _ _ _
  cases hs : a.effect.started with
  | none =>
    simp only [thread,perform,hs,hu]
    by_cases hi : a.thread = i
    · simp [hi]
    · simp [hi,Ne.symm hi]
  | some o =>
    simp only [thread,perform,hs,Table.get_push,hu]
    split
    · exact Or.inr (Or.inl ⟨o,rfl,rfl⟩)
    · by_cases hi : a.thread = i
      · simp [hi]
      · simp [hi,Ne.symm hi]

theorem thread_happen (m : Machine H) (x : Move H) (i : Nat) :
    (∃ h, (m.happen x).thread i = { frames := [.code .program h 0] }) ∨
      (m.happen x).thread i = m.thread i := by
  cases x with
  | spawn h =>
    simp only [thread,happen,Table.get_push]
    split
    · exact Or.inl ⟨h,rfl⟩
    · exact Or.inr rfl
  | _ => exact Or.inr rfl

theorem thread_perform_self (m : Machine H) (a : Act H) :
    (m.perform a).thread a.thread = ⟨a.effect.frames ++ a.rest,a.effect.active⟩ := by
  have hu : (m.threads.update a.thread fun _ =>
      ⟨a.effect.frames ++ a.rest,a.effect.active⟩).get a.thread =
      ⟨a.effect.frames ++ a.rest,a.effect.active⟩ := Table.get_update_self _ _ _
  have hs : a.thread ≠ (m.threads.update a.thread fun _ =>
      ⟨a.effect.frames ++ a.rest,a.effect.active⟩).size := by
    rw [Table.size_update]
    omega
  simp only [perform,thread]
  split
  · rw [hu]
  · rw [Table.get_push,if_neg hs,hu]

/-- An act leaves the other threads that are at work alone. -/
theorem thread_perform_ne {m : Machine H} {a : Act H} {i : Nat} (hi : i ≠ a.thread)
    (hn : (m.thread i).frames ≠ []) : (m.perform a).thread i = m.thread i := by
  have hs : i ≠ (m.threads.update a.thread fun _ =>
      ⟨a.effect.frames ++ a.rest,a.effect.active⟩).size := by
    intro hs
    apply hn
    rw [thread,Table.get_of_size_le]
    · rfl
    · rw [hs,Table.size_update]
      exact Nat.le_max_left _ _
  simp only [perform,thread]
  split
  · exact Table.get_update_ne _ _ (Ne.symm hi)
  · rw [Table.get_push,if_neg hs]
    exact Table.get_update_ne _ _ (Ne.symm hi)

/-- An operation that an act starts has a thread of its own. -/
theorem exists_thread_move {m : Machine H} {y : Move H} {a : Act H} {o : Operation H}
    (hy : m.act? y = some a) (hs : a.effect.started = some o) :
    ∃ j, (m.move y).thread j = { frames := [.operation o] } := by
  refine ⟨(m.threads.update a.thread fun _ => ⟨a.effect.frames ++ a.rest,a.effect.active⟩).size,?_⟩
  rw [move_of_act? hy]
  simp [perform,thread,hs,Table.get_push]

theorem thread_happen_eq {m : Machine H} {y : Move H} {i : Nat} (hn : (m.thread i).frames ≠ []) :
    (m.happen y).thread i = m.thread i := by
  cases y with
  | spawn h =>
    simp only [thread,happen,Table.get_push]
    split
    · rename_i hs
      refine absurd ?_ hn
      rw [thread,Table.get_of_size_le _ (Nat.le_of_eq hs.symm)]
      rfl
    · rfl
  | _ => rfl

/-- The machine after some moves from the start, when nothing exists yet. -/
def run (moves : List (Move H)) : Machine H := ({} : Machine H).after moves

@[simp] theorem run_nil : run ([] : List (Move H)) = {} := rfl

theorem run_append (xs ys : List (Move H)) : run (xs ++ ys) = (run xs).after ys :=
  after_append _ xs ys

theorem run_concat (xs : List (Move H)) (x : Move H) : run (xs ++ [x]) = (run xs).move x :=
  run_append xs [x]

/-- What `f` notes of the act that a move is. -/
def noted (f : Machine H → Act H → List α) (m : Machine H) (x : Move H) : List α :=
  match m.act? x with
  | some a => f m a
  | none => []

theorem noted_of_act? {f : Machine H → Act H → List α} {m : Machine H} {x : Move H} {a : Act H}
    (h : m.act? x = some a) : m.noted f x = f m a := by simp [noted,h]

theorem noted_of_act?_none {f : Machine H → Act H → List α} {m : Machine H} {x : Move H}
    (h : m.act? x = none) : m.noted f x = [] := by simp [noted,h]

def notes (f : Machine H → Act H → List α) : Machine H → List (Move H) → List α
  | _, [] => []
  | m, x :: xs => m.noted f x ++ notes f (m.move x) xs

theorem notes_append (f : Machine H → Act H → List α) (m : Machine H) (xs ys : List (Move H)) :
    notes f m (xs ++ ys) = notes f m xs ++ notes f (m.after xs) ys := by
  induction xs generalizing m with
  | nil => rfl
  | cons x xs ih => simp [notes,ih]

/-- What `f` notes along a run from the start. -/
def history (f : Machine H → Act H → List α) (moves : List (Move H)) : List α :=
  notes f {} moves

@[simp] theorem history_nil (f : Machine H → Act H → List α) : history f [] = [] := rfl

theorem history_append (f : Machine H → Act H → List α) (xs ys : List (Move H)) :
    history f (xs ++ ys) = history f xs ++ notes f (run xs) ys := notes_append f _ xs ys

theorem history_concat (f : Machine H → Act H → List α) (xs : List (Move H)) (x : Move H) :
    history f (xs ++ [x]) = history f xs ++ (run xs).noted f x := by
  simp [history_append,notes]

theorem mem_history_append {f : Machine H → Act H → List α} {z : α} {xs : List (Move H)}
    (h : z ∈ history f xs) (ys : List (Move H)) : z ∈ history f (xs ++ ys) := by
  rw [history_append]
  exact List.mem_append_left _ h

/-- What a history holds was noted of some act. -/
theorem exists_of_mem_history {f : Machine H → Act H → List α} {z : α} {moves : List (Move H)}
    (h : z ∈ history f moves) : ∃ xs y ys a, moves = xs ++ y :: ys ∧ (run xs).act? y = some a ∧
      z ∈ f (run xs) a := by
  induction moves using List.reverseRecOn with
  | nil => exact absurd h List.not_mem_nil
  | append_singleton xs y ih =>
    rw [history_concat] at h
    obtain h | h := List.mem_append.1 h
    · obtain ⟨us,x,vs,a,rfl,hx,hz⟩ := ih h
      exact ⟨us,x,vs ++ [y],a,by simp,hx,hz⟩
    · cases hy : (run xs).act? y with
      | none =>
        rw [noted_of_act?_none hy] at h
        exact absurd h List.not_mem_nil
      | some a =>
        rw [noted_of_act? hy] at h
        exact ⟨xs,y,[],a,rfl,hy,h⟩

/-- What is read off a note can be read off the history of the notes. -/
theorem history_hom {β : Type} (g : List α → List β) (hn : g [] = [])
    (ha : ∀ xs ys, g (xs ++ ys) = g xs ++ g ys) (f : Machine H → Act H → List α)
    (moves : List (Move H)) : history (fun m a => g (f m a)) moves = g (history f moves) := by
  induction moves using List.reverseRecOn with
  | nil => exact hn.symm
  | append_singleton xs x ih =>
    rw [history_concat,history_concat,ih,ha]
    cases h : (run xs).act? x <;> simp [noted,h,hn]

/-- What one note leaves out of the other, the histories leave out too. -/
theorem history_sublist {f g : Machine H → Act H → List α}
    (h : ∀ xs x a, (run xs).act? x = some a → (f (run xs) a).Sublist (g (run xs) a))
    (moves : List (Move H)) : (history f moves).Sublist (history g moves) := by
  induction moves using List.reverseRecOn with
  | nil => exact List.Sublist.refl _
  | append_singleton xs x ih =>
    rw [history_concat,history_concat]
    refine ih.append ?_
    cases hx : (run xs).act? x with
    | none => simp [noted_of_act?_none hx]
    | some a =>
      rw [noted_of_act? hx,noted_of_act? hx]
      exact h xs x a hx

/-- What holds at the start and is kept by every move holds along every run. -/
theorem run_induction {P : List (Move H) → Prop} (start : P [])
    (move : ∀ xs x, P xs → P (xs ++ [x])) (moves : List (Move H)) : P moves := by
  induction moves using List.reverseRecOn with
  | nil => exact start
  | append_singleton xs x ih => exact move xs x ih

end Machine
end EventLoop
