import EventLoop.Proofs.Calling
import EventLoop.Proofs.Flight
import EventLoop.Proofs.Until

/-! No handler is lost and none runs twice. As long as a loop has an owner, every handler that was
submitted is queued, waits in a strand, belongs to an operation in flight or was called, and a
post calls nothing. -/
namespace EventLoop

variable {H : Type}

/-- A handler without what it is given. -/
def Task.bare : Task H → Task H
  | .body h _ => .body h none
  | .bound e t => .bound e t.bare

@[simp] theorem Task.bare_deliver (o : Outcome) (t : Task H) : (t.deliver o).bare = t.bare := by
  induction t with
  | body h given => rfl
  | bound e t ih => simp [Task.deliver,Task.bare,ih]

theorem countP_sentBy (c : Nat) (p : Task H → Bool) (s : Shared H) (taken : List (Frame H)) :
    (sentBy c s taken).countP (fun t => p t.bare) =
      (postedBy c s taken).countP (fun t => p t.bare) +
        (completedBy taken).countP fun o => decide (o.home = c) && p o.task.bare := by
  unfold sentBy completedBy
  rw [List.countP_append]
  congr 1
  induction reportedBy taken with
  | nil => rfl
  | cons x xs ih =>
    by_cases hx : x.1.home = c
    · simp [hx,ih,List.countP_cons]
    · simp [hx,ih]

/-- The places of a post to loop `c` or to one of its strands. -/
def Frame.Posts (c : Nat) (s : Shared H) : Frame H → Prop
  | .call (.post (.loop d) _) => d = c
  | .call (.post (.strand x) _) | .schedule x => x < s.strands.size ∧ (s.strands.get x).home = c
  | .notifyOne _ => True
  | _ => False

theorem Frame.Posts.mono {c : Nat} {s t : Shared H} (hg : s.Grows t) {f : Frame H}
    (h : f.Posts c s) : f.Posts c t := by
  have hx (x : Nat) (h : x < s.strands.size ∧ (s.strands.get x).home = c) :
      x < t.strands.size ∧ (t.strands.get x).home = c :=
    ⟨Nat.lt_of_lt_of_le h.1 hg.size,(hg.home x h.1).trans h.2⟩
  cases f with
  | call k =>
    cases k with
    | post e t =>
      cases e with
      | loop d => exact h
      | strand x => exact hx x h
    | _ => exact h
  | schedule x => exact hx x h
  | _ => exact h

theorem Frame.Posts.proceeds {c : Nat} {s : Shared H} {f : Frame H} (h : f.Posts c s) :
    f.proceeds = true := by
  cases f with
  | call k | schedule x | notifyOne d => rfl
  | _ => exact h.elim

/-- With the owner there, a post goes on with another of its places or is over. -/
theorem Frame.Posts.step {c : Nat} {s : Shared H} {f : Frame H} (h : f.Posts c s)
    (hc : (s.loops.get c).closed = false) (me : Nat) (active : List Executor) :
    (f.step me s active).frames = [] ∨
      ∃ g, (f.step me s active).frames = [g] ∧ g.Posts c s := by
  cases f with
  | call k =>
    cases k with
    | post e t =>
      cases e with
      | loop d =>
        obtain rfl : d = c := h
        exact Or.inr ⟨.notifyOne d,by simp [Frame.step,Frame.stepCall,Frame.submit,hc],trivial⟩
      | strand x =>
        cases hl : (s.strands.get x).locked with
        | true => exact Or.inl (by simp [Frame.step,Frame.stepCall,hl])
        | false => exact Or.inr ⟨.schedule x,by simp [Frame.step,Frame.stepCall,hl],h⟩
    | _ => exact h.elim
  | schedule x =>
    obtain ⟨-,rfl⟩ := h
    exact Or.inr ⟨.notifyOne (s.strands.get x).home,by simp [Frame.step,Frame.submit,hc],trivial⟩
  | notifyOne d => exact Or.inl rfl
  | _ => exact h.elim

namespace Machine

theorem open_of_after {c : Nat} {m : Machine H} {ys : List (Move H)}
    (hc : ((m.after ys).shared.loops.get c).closed = false) :
    (m.shared.loops.get c).closed = false := by
  induction ys generalizing m with
  | nil => exact hc
  | cons y ys ih => exact open_of_move (ih hc)

theorem until_of_posts {c i : Nat} {f : Frame H} {rest : List (Frame H)} {m : Machine H}
    (hf : (m.thread i).frames = f :: rest) (hp : f.Posts c m.shared) (ys : List (Move H))
    (hc : ((m.after ys).shared.loops.get c).closed = false) :
    Until (fun n => ∃ g, g.Posts c n.shared ∧ (n.thread i).frames = g :: rest)
      (fun n _ => (n.thread i).frames = rest) m ys := by
  refine until_of_step (I := fun n ys => ((n.after ys).shared.loops.get c).closed = false)
    (fun _ _ _ h => h) ?_ ys hc ⟨f,hp,hf⟩
  rintro n y ys hc ⟨g,hg,hf⟩
  obtain h | h := frames_move_of_proceeds hf hg.proceeds y
  · exact Or.inl ⟨g,hg.mono (grows_move n y),h⟩
  · obtain he | ⟨k,he,hk⟩ := hg.step (open_of_after hc) i (n.thread i).active
    · right
      rw [h,he]
      rfl
    · left
      rw [he] at h
      exact ⟨k,hk.mono (grows_move n y),h⟩

/-- The handlers that are posted with an act to loop `c` or to its strands. -/
def posted (c : Nat) (m : Machine H) (a : Act H) : List (Task H) := postedBy c m.shared a.taken

theorem countP_sent (c : Nat) (p : Task H → Bool) (moves : List (Move H)) :
    (history (sent c) moves).countP (fun t => p t.bare) =
      (history (posted c) moves).countP (fun t => p t.bare) +
        (history completed moves).countP fun o => decide (o.home = c) && p o.task.bare := by
  induction moves using run_induction with
  | start => rfl
  | move xs y ih =>
    simp only [history_concat,List.countP_append]
    cases hy : (run xs).act? y with
    | none => simpa [noted_of_act?_none hy] using ih
    | some a =>
      have h := countP_sentBy c p (run xs).shared a.taken
      simp only [noted_of_act? hy]
      simp only [sent,posted,completed]
      omega

/-- What becomes of the handlers of loop `c` and its strands as long as the owner is there. -/
structure Conserved (c : Nat) (moves : List (Move H)) : Prop where
  /-- Jobs are handed out in the order in which they were accepted. -/
  fifo : history (handedOut c) moves ++ ((run moves).shared.loops.get c).queue =
    history (accepted c) moves
  /-- A handler that was posted, or that belongs to an operation that was started, is queued, waits
  in a strand, belongs to an operation in flight or was handed on to a thread, and only one of
  this. -/
  places : ∀ p : Task H → Bool,
    (history (posted c) moves).countP (fun t => p t.bare) +
        (history launched moves).countP (fun o => decide (o.home = c) && p o.task.bare) =
      (tasksIn ((run moves).shared.loops.get c).queue).countP (fun t => p t.bare) +
        (run moves).shared.strands.total (Strand.holds c fun t => p t.bare) +
        (run moves).weight (Frame.inFlight fun o => decide (o.home = c) && p o.task.bare) +
        (history (drawn c) moves).countP (fun t => p t.bare)
  called : (history (drawn c) moves).Sublist (history called moves)
  /-- A handler that was called is in progress or over, and only once. -/
  runs : ∀ p, (history Machine.called moves).countP p =
    (run moves).weight (Frame.runs p) + (history ended moves).countP p
  /-- A job that was handed out is in progress or finished. -/
  jobs : (history (handedOut c) moves).length =
    (run moves).weight (Frame.works c) + (history (finished c) moves).length
  /-- Nothing is given up to be destroyed. -/
  kept : history (forsaken c) moves = []
  /-- A thread that posts does nothing else until the post is over. -/
  apart : ∀ i e t rest, ((run moves).thread i).frames = .call (.post e t) :: rest →
    (Frame.call (.post e t)).Posts c (run moves).shared → ∀ ys,
      (((run moves).after ys).shared.loops.get c).closed = false →
        Until (fun n => ∃ f, f.Posts c n.shared ∧ (n.thread i).frames = f :: rest)
          (fun n _ => (n.thread i).frames = rest) (run moves) ys

theorem places_of_open {c : Nat} {moves : List (Move H)}
    (hc : ((run moves).shared.loops.get c).closed = false) (p : Task H → Bool) :
    (history (posted c) moves).countP (fun t => p t.bare) +
        (history launched moves).countP (fun o => decide (o.home = c) && p o.task.bare) =
      (run moves).shared.held c (fun t => p t.bare) +
        (run moves).weight (Frame.inFlight fun o => decide (o.home = c) && p o.task.bare) +
        (history (drawn c) moves).countP (fun t => p t.bare) := by
  have hs := countP_sent c p moves
  have hl := countP_launched (fun o => decide (o.home = c) && p o.task.bare) moves
  have hq := handlerCount_run c (fun t => p t.bare) moves
  have ha : (history abandoned moves).countP
      (fun o => decide (o.home = c) && p o.task.bare) = 0 := by
    rw [List.countP_eq_zero]
    intro o ho hp
    obtain ⟨rfl,-⟩ : o.home = c ∧ p o.task.bare = true := by simpa using hp
    rw [closed_of_abandoned ho] at hc
    exact Bool.noConfusion hc
  rw [forsaken_of_open hc,List.countP_nil] at hq
  omega

/-- As long as a loop has an owner, it loses no handler and runs none twice. -/
theorem conserved_run (c : Nat) (moves : List (Move H))
    (hc : ((run moves).shared.loops.get c).closed = false) : Conserved c moves where
  fifo := fifo_run c moves hc
  places := places_of_open hc
  called := drawn_sublist c moves
  runs p := countP_called p moves
  jobs := length_handedOut c moves
  kept := forsaken_of_open hc
  apart _ _ _ _ hf hp ys ho := until_of_posts hf hp ys ho

/-- A handler is posted to a strand, and the loop runs the strand's turn, which calls it. -/
def firstTurn : List (Move Unit) :=
  [.addLoop {}, .addStrand 0, .spawn (), .call 0 (.post (.strand 0) (.body () none)), .step 0,
    .step 0, .step 0, .call 0 (.run 0 .block none), .step 0, .step 0, .step 0]

theorem conserved_firstTurn : ((run firstTurn).shared.loops.get 0).closed = false ∧
    (history (drawn 0) firstTurn).length = 1 ∧ Conserved 0 firstTurn :=
  ⟨rfl,rfl,conserved_run 0 firstTurn rfl⟩

end Machine
end EventLoop
