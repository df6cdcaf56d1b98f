import EventLoop.Proofs.Progress
import EventLoop.Proofs.Shadow

/-! What a thread gets rid of by itself. Handlers that return at once, and what cleans up behind them,
wait for no other thread.
Main statement: `reaches_of_winds`. -/
namespace EventLoop

variable {H : Type}

namespace Frame

def runsTasks : Frame H → Bool
  | .call (.invoke _) | .call (.dispatch _ _) | .call (.post _ _) | .code _ _ _ | .runTurn _
  | .tryLock _ _ => true
  | f => f.cleansUp

theorem executes_of_runsTasks {f : Frame H} (h : f.runsTasks = true) : f.executes = true := by
  cases f <;> first | rfl | cases h

/-- A thread gets rid of the frame when it executes its frames, and code returns. -/
inductive Winds : Frame H → Prop
  | code (role : Role) (h : H) (made : Nat) : Winds (.code role h made)
  | step {f : Frame H} (hm : f.runsTasks = true)
      (h : ∀ me s active, ∀ g ∈ (f.step me s active).frames, Winds g) : Winds f

theorem winds_dropTasks (ts : List (Task H)) : Winds (.dropTasks ts) := by
  induction ts with
  | nil => exact .step rfl (by simp [step])
  | cons t ts ih =>
    refine .step rfl ?_
    simp only [step,List.forall_mem_cons]
    exact fun _ _ _ => ⟨.code _ _ _,ih,by simp⟩

theorem winds_dropTurn (x : Nat) : Winds (.dropTurn x : Frame H) := by
  refine .step rfl ?_
  simp only [step,List.forall_mem_singleton]
  exact fun _ _ _ => winds_dropTasks _

theorem winds_dropJob (j : Job H) : Winds (dropJob j) := by
  cases j with
  | task t => exact winds_dropTasks [t]
  | turn x => exact winds_dropTurn x

theorem winds_dropJobs (js : List (Job H)) : Winds (.dropJobs js) := by
  induction js with
  | nil => exact .step rfl (by simp [step])
  | cons j js ih =>
    refine .step rfl ?_
    simp only [step,List.forall_mem_cons]
    exact fun _ _ _ => ⟨winds_dropJob j,ih,by simp⟩

theorem winds_notifyOne (c : Nat) : Winds (.notifyOne c : Frame H) := .step rfl (by simp [step])

theorem winds_notifyAll (c : Nat) : Winds (.notifyAll c : Frame H) := .step rfl (by simp [step])

theorem winds_submit (s : Shared H) (active : List Executor) (c : Nat) (j : Job H) :
    ∀ g ∈ (submit s active c j).frames, Winds g := by
  unfold submit
  split
  · simpa using winds_dropJob j
  · simpa using winds_notifyOne c

theorem winds_schedule (x : Nat) : Winds (.schedule x : Frame H) :=
  .step rfl fun _ _ _ => winds_submit _ _ _ _

theorem winds_finishWork (c : Nat) : Winds (.finishWork c : Frame H) := by
  refine .step rfl ?_
  intro me s active
  simp only [step,giveBack]
  split
  · simpa using winds_notifyAll c
  · simp

/-- Nothing that cleans up waits for another thread. -/
theorem winds_of_cleansUp {f : Frame H} (hc : f.cleansUp = true) : f.Winds := by
  cases f with
  | finish c =>
    refine .step rfl ?_
    simpa [step] using winds_finishWork c
  | finishWork c => exact winds_finishWork c
  | leave e | forget r k => exact .step rfl (by simp [step])
  | release x =>
    refine .step rfl ?_
    intro me s active
    simp only [step]
    split
    · simp
    · simpa using winds_schedule x
  | schedule x => exact winds_schedule x
  | dropTurn x => exact winds_dropTurn x
  | dropTasks ts => exact winds_dropTasks ts
  | dropJobs js => exact winds_dropJobs js
  | notifyOne c => exact winds_notifyOne c
  | notifyAll c => exact winds_notifyAll c
  | _ => cases hc

theorem winds_post (e : Executor) (t : Task H) : Winds (.call (.post e t)) := by
  cases e with
  | loop c => exact .step rfl fun _ _ _ => winds_submit _ _ _ _
  | strand x =>
    refine .step rfl ?_
    intro me s active
    simp only [step,stepCall]
    split
    · simp
    · simpa using winds_schedule x

theorem winds_held {t : Task H} (ht : Winds (.call (.invoke t))) (x : Nat) :
    ∀ g ∈ [Frame.call (.invoke t), .leave (.strand x), .release x], g.Winds := by
  simp only [List.forall_mem_cons]
  exact ⟨ht,winds_of_cleansUp rfl,winds_of_cleansUp rfl,by simp⟩

theorem winds_tryLock {t : Task H} (ht : Winds (.call (.invoke t))) (x : Nat) :
    Winds (.tryLock x t) := by
  refine .step rfl ?_
  intro me s active
  simp only [step]
  split
  · simpa using winds_post (.strand x) t
  · exact winds_held ht x

theorem winds_dispatch {t : Task H} (ht : Winds (.call (.invoke t))) (e : Executor) :
    Winds (.call (.dispatch e t)) := by
  refine .step rfl ?_
  intro me s active
  cases e with
  | loop c =>
    simp only [step,stepCall]
    split
    · simpa using ht
    · simpa using winds_post (.loop c) t
  | strand x =>
    simp only [step,stepCall]
    split
    · simpa using ht
    · split
      · simpa using winds_tryLock ht x
      · simpa using winds_post (.strand x) t

theorem winds_invoke (t : Task H) : Winds (.call (.invoke t)) := by
  induction t with
  | body h given => exact .step rfl (by simpa [step,stepCall] using Winds.code _ h 0)
  | bound e t ih => exact .step rfl (by simpa [step,stepCall] using winds_dispatch ih e)

theorem winds_runTurn (x : Nat) : Winds (.runTurn x : Frame H) := by
  refine .step rfl ?_
  intro me s active
  simp only [step]
  split
  · exact winds_held (winds_invoke _) x
  · simpa using winds_of_cleansUp (f := .release x) rfl

theorem winds_execute (j : Job H) : Winds (execute j) := by
  cases j with
  | task t => exact winds_invoke t
  | turn x => exact winds_runTurn x

end Frame

namespace Machine

def ReachesBy (i : Nat) (I : List (Move H) → Prop) (m : Machine H) (fs : List (Frame H))
    (xs : List (Move H)) : Prop :=
  ∃ us, (∀ u ∈ us, u.mover? = some i) ∧ ((m.after (xs ++ us)).thread i).frames = fs ∧ I (xs ++ us)

variable {i : Nat} {I : List (Move H) → Prop} {m : Machine H} {f : Frame H}
  {fs gs : List (Frame H)} {xs : List (Move H)}

theorem reachesBy_trans (h : ReachesBy i I m gs xs)
    (h' : ∀ ys, ((m.after ys).thread i).frames = gs → I ys → ReachesBy i I m fs ys) :
    ReachesBy i I m fs xs := by
  obtain ⟨us,hu,hg,hi⟩ := h
  obtain ⟨vs,hv,hf,hj⟩ := h' _ hg hi
  rw [List.append_assoc] at hf hj
  exact ⟨us ++ vs,List.forall_mem_append.2 ⟨hu,hv⟩,hf,hj⟩

theorem reachesBy_of_move {y : Move H} (hy : y.mover? = some i)
    (hf : (((m.after xs).move y).thread i).frames = fs) (hi : I (xs ++ [y])) :
    ReachesBy i I m fs xs := by
  refine ⟨[y],by simpa using hy,?_,hi⟩
  rw [after_append,after_cons,after_nil,hf]

theorem reachesBy_of_all (hg : ∀ g ∈ gs, ∀ xs fs, ((m.after xs).thread i).frames = g :: fs →
    I xs → ReachesBy i I m fs xs) (hf : ((m.after xs).thread i).frames = gs ++ fs) (hi : I xs) :
    ReachesBy i I m fs xs := by
  induction gs generalizing xs with
  | nil => exact ⟨[],by simp,by simpa using hf,by simpa using hi⟩
  | cons g gs ih =>
    obtain ⟨hg,hgs⟩ := List.forall_mem_cons.1 hg
    exact reachesBy_trans (hg _ _ hf hi) fun ys hy hj => ih hgs hy hj

/-- What frames keep that run tasks holds when the thread has got rid of the frame. -/
theorem reaches_of_winds (hI : ∀ xs y a g, I xs → (m.after xs).act? y = some a → a.taken = [g] →
    g.runsTasks = true → I (xs ++ [y])) (hw : f.Winds) : ∀ xs fs,
      ((m.after xs).thread i).frames = f :: fs → I xs → ReachesBy i I m fs xs := by
  induction hw with
  | code role h made =>
    intro xs fs hf hi
    have ha : (m.after xs).act? (.finish i) =
        some ⟨i,[.code role h made],fs,(m.after xs).only i []⟩ := by
      simp [act?,codeAct?,hf]
    refine reachesBy_of_move rfl ?_ (hI _ _ _ _ hi ha rfl rfl)
    rw [move_finish hf,thread_setFrames]
  | @step f hm h ih =>
    intro xs fs hf hi
    have he := Frame.executes_of_runsTasks hm
    have hj := hI _ _ _ _ hi (act?_step hf he) rfl hm
    refine reachesBy_trans (reachesBy_of_move rfl (frames_move_step hf he) hj) ?_
    intro ys hy hj
    exact reachesBy_of_all (fun g hg => ih _ _ _ g hg) hy hj

end Machine
end EventLoop
