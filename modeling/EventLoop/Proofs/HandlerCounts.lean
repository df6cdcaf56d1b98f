import EventLoop.Proofs.OperationCounts
import EventLoop.Proofs.Queue

/-! Where the handlers are that were submitted to a loop or to one of its strands: in the queue,
waiting in a strand, handed on to a thread, or given up since the owner is gone. -/
namespace EventLoop

variable {H : Type}

def tasksIn : List (Job H) → List (Task H)
  | [] => []
  | .task t :: js => t :: tasksIn js
  | .turn _ :: js => tasksIn js

@[simp] theorem tasksIn_append (is js : List (Job H)) :
    tasksIn (is ++ js) = tasksIn is ++ tasksIn js := by
  induction is with
  | nil => rfl
  | cons i is ih => cases i <;> simp [tasksIn,ih]

def Strand.holds (c : Nat) (p : Task H → Bool) (y : Strand H) : Nat :=
  if y.home = c then y.waiting.countP p else 0

/-- The handlers that satisfy `p` and wait in the queue of loop `c` or in one of its strands. -/
def Shared.held (c : Nat) (p : Task H → Bool) (s : Shared H) : Nat :=
  (tasksIn (s.loops.get c).queue).countP p + s.strands.total (Strand.holds c p)

/-- The handlers that are posted to loop `c` or to its strands when these frames are executed. -/
def postedBy (c : Nat) (s : Shared H) : List (Frame H) → List (Task H)
  | [.call (.post (.loop d) t)] => if d = c then [t] else []
  | [.call (.post (.strand x) t)] => if (s.strands.get x).home = c then [t] else []
  | _ => []

/-- The handlers that are submitted to loop `c` or to its strands: those that are posted, and
those of operations that complete. -/
def sentBy (c : Nat) (s : Shared H) (taken : List (Frame H)) : List (Task H) :=
  postedBy c s taken ++
    (reportedBy taken).flatMap fun x => if x.1.home = c then [x.1.task.deliver x.2] else []

def pickedBy (c : Nat) (s : Shared H) : List (Frame H) → List (Task H)
  | [.runTurn x] =>
    if (s.strands.get x).home = c then (s.strands.get x).waiting.head?.toList else []
  | _ => []

/-- The handlers that the queue or a strand of loop `c` hands on to a thread. -/
def drawnBy (c : Nat) (s : Shared H) (taken frames : List (Frame H)) : List (Task H) :=
  tasksIn (handedBy c frames) ++ pickedBy c s taken

/-- The handlers that the queue or a strand of loop `c` loses since the owner goes. -/
def clearedBy (c : Nat) (s : Shared H) : List (Frame H) → List (Task H)
  | [.call (.dropOwner d)] => if d = c then tasksIn (s.loops.get c).queue else []
  | [.dropTurn x] => if (s.strands.get x).home = c then (s.strands.get x).waiting else []
  | _ => []

def forsakenBy (c : Nat) (s : Shared H) (taken : List (Frame H)) : List (Task H) :=
  tasksIn (offeredBy c true s taken) ++ clearedBy c s taken

section

variable {c me : Nat} {p : Task H → Bool} {s : Shared H} {active : List Executor}

theorem held_onLoop {d : Nat} {f : Loop H → Loop H} (hf : ∀ l, (f l).queue = l.queue) :
    (s.onLoop d f).held c p = s.held c p := by
  have hq : ((s.onLoop d f).loops.get c).queue = (s.loops.get c).queue :=
    Table.read_update Loop.queue hf _ _ _
  unfold Shared.held
  rw [hq]
  rfl

theorem held_onStrand (x : Nat) (f : Strand H → Strand H) :
    (s.onStrand x f).held c p + (s.strands.get x).holds c p =
      s.held c p + (f (s.strands.get x)).holds c p := by
  have h : Strand.holds c p default = 0 := by
    unfold Strand.holds
    split <;> rfl
  have hu := Table.total_update h s.strands x f
  simp only [Shared.held,Shared.onStrand]
  omega

theorem held_onStrand_eq {x : Nat} {f : Strand H → Strand H}
    (hf : ∀ y, (f y).waiting = y.waiting ∧ (f y).home = y.home) :
    (s.onStrand x f).held c p = s.held c p := by
  obtain ⟨hw,hh⟩ := hf (s.strands.get x)
  have hs := held_onStrand (c := c) (p := p) (s := s) x f
  rw [Strand.holds,Strand.holds,hw,hh] at hs
  omega

abbrev HandlerCount (c : Nat) (p : Task H → Bool) (s : Shared H) (taken : List (Frame H))
    (e : Effect H) : Prop :=
  e.shared.held c p + (drawnBy c s taken e.frames).countP p + (forsakenBy c s taken).countP p =
    s.held c p + (sentBy c s taken).countP p

theorem HandlerCount.of_eq {taken : List (Frame H)} {e : Effect H} (hb : broughtBy s taken = none)
    (hn : sentBy c s taken = [] ∧ pickedBy c s taken = [] ∧ clearedBy c s taken = [])
    (hh : handedBy c e.frames = []) (he : e.shared.held c p = s.held c p) :
    HandlerCount c p s taken e := by
  obtain ⟨hi,hp,hc⟩ := hn
  simp [HandlerCount,drawnBy,forsakenBy,offeredBy,hb,hi,hp,hc,hh,he,tasksIn]

attribute [local simp] tasksIn

theorem Frame.Submits.sent {f : Frame H} {d : Nat} {j : Job H} (hf : f.Submits s d j) :
    sentBy c s [f] = tasksIn (if d = c then [j] else []) ∧ pickedBy c s [f] = [] ∧
      clearedBy c s [f] = [] := by
  cases hf <;> refine ⟨?_,rfl,rfl⟩ <;> simp only [sentBy,postedBy,reportedBy] <;> split <;> rfl

theorem Frame.Looks.sent {f : Frame H} {d : Nat} {w : Wait} {limit : Option Nat} {ran : Nat}
    (hf : f.Looks me s d w limit ran) :
    sentBy c s [f] = [] ∧ pickedBy c s [f] = [] ∧ clearedBy c s [f] = [] := by
  cases hf <;> exact ⟨rfl,rfl,rfl⟩

theorem sent_complete (o : Operation H) (r : Outcome) :
    sentBy c s [.complete o r] = tasksIn (if o.home = c then [.task (o.task.deliver r)] else []) ∧
      pickedBy c s [.complete o r] = [] ∧ clearedBy c s [.complete o r] = [] := by
  refine ⟨?_,rfl,rfl⟩
  by_cases ho : o.home = c <;> simp [sentBy,postedBy,reportedBy,ho]

theorem handlerCount_accept {taken : List (Frame H)} {e : Effect H} {d : Nat} {j : Job H}
    {f : Loop H → Loop H} (hb : broughtBy s taken = some (d, j))
    (hn : sentBy c s taken = tasksIn (if d = c then [j] else []) ∧ pickedBy c s taken = [] ∧
      clearedBy c s taken = [])
    (hc : (s.loops.get d).closed = false) (he : e.shared = s.onLoop d f)
    (hq : ∀ l : Loop H, (f l).queue = l.queue ++ [j]) (hh : handedBy c e.frames = []) :
    HandlerCount c p s taken e := by
  obtain ⟨hi,hk,hl⟩ := hn
  simp only [HandlerCount,drawnBy,forsakenBy,offeredBy,hb,hi,hk,hl,hh,he]
  by_cases hd : d = c
  · subst hd
    simp [hc,Shared.held,Shared.onLoop,hq]
    omega
  · simp [hd,Shared.held,Shared.onLoop,Table.get_update]

theorem handlerCount_reject {taken : List (Frame H)} {e : Effect H} {d : Nat} {j : Job H}
    (hb : broughtBy s taken = some (d, j))
    (hn : sentBy c s taken = tasksIn (if d = c then [j] else []) ∧ pickedBy c s taken = [] ∧
      clearedBy c s taken = [])
    (hc : (s.loops.get d).closed = true) (he : e.shared = s) (hh : handedBy c e.frames = []) :
    HandlerCount c p s taken e := by
  obtain ⟨hi,hk,hl⟩ := hn
  simp only [HandlerCount,drawnBy,forsakenBy,offeredBy,hb,hi,hk,hl,hh,he]
  simp [hc]

theorem handlerCount_take {taken : List (Frame H)} {e : Effect H} {d : Nat} {j : Job H}
    {rest : List (Job H)} (hb : broughtBy s taken = none)
    (hn : sentBy c s taken = [] ∧ pickedBy c s taken = [] ∧ clearedBy c s taken = [])
    (hq : (s.loops.get d).queue = j :: rest)
    (he : e.shared = s.onLoop d fun l => { l with queue := rest })
    (hh : handedBy c e.frames = if d = c then [j] else []) : HandlerCount c p s taken e := by
  obtain ⟨hi,hk,hl⟩ := hn
  simp only [HandlerCount,drawnBy,forsakenBy,offeredBy,hb,hi,hk,hl,hh,he]
  by_cases hd : d = c
  · subst hd
    cases j with
    | task t =>
      simp [Shared.held,Shared.onLoop,hq,List.countP_cons]
      omega
    | turn x => simp [Shared.held,Shared.onLoop,hq]
  · simp [Shared.held,Shared.onLoop,Table.get_update,hd]

theorem handlerCount_post {x : Nat} {t : Task H} {e : Effect H}
    (he : e.shared = s.onStrand x (Strand.submit t)) (hh : handedBy c e.frames = []) :
    HandlerCount c p s [.call (.post (.strand x) t)] e := by
  have hs := held_onStrand (c := c) (p := p) (s := s) x (Strand.submit t)
  simp only [HandlerCount,drawnBy,forsakenBy,sentBy,offeredBy,broughtBy,postedBy,reportedBy,
    pickedBy,clearedBy,hh,he]
  by_cases hx : (s.strands.get x).home = c
  · simp [Strand.holds,Strand.submit,hx] at hs
    simp [hx]
    omega
  · simp [Strand.holds,Strand.submit,hx] at hs
    simp [hx]
    omega

theorem handlerCount_turn {x : Nat} {t : Task H} {ts : List (Task H)} {e : Effect H}
    (hw : (s.strands.get x).waiting = t :: ts) (he : e.shared = s.onStrand x Strand.pop)
    (hh : handedBy c e.frames = []) : HandlerCount c p s [.runTurn x] e := by
  have hs := held_onStrand (c := c) (p := p) (s := s) x Strand.pop
  simp only [HandlerCount,drawnBy,forsakenBy,sentBy,offeredBy,broughtBy,postedBy,reportedBy,
    pickedBy,clearedBy,hh,he]
  by_cases hx : (s.strands.get x).home = c
  · simp [Strand.holds,Strand.pop,hx,hw,List.countP_cons] at hs
    simp [hx,hw,List.countP_cons]
    omega
  · simp [Strand.holds,Strand.pop,hx] at hs
    simp [hx,hs]

theorem handlerCount_dropTurn {x : Nat} {e : Effect H}
    (he : e.shared = s.onStrand x Strand.abandon) (hh : handedBy c e.frames = []) :
    HandlerCount c p s [.dropTurn x] e := by
  have hs := held_onStrand (c := c) (p := p) (s := s) x Strand.abandon
  simp only [HandlerCount,drawnBy,forsakenBy,sentBy,offeredBy,broughtBy,postedBy,reportedBy,
    pickedBy,clearedBy,hh,he]
  by_cases hx : (s.strands.get x).home = c
  · simp [Strand.holds,Strand.abandon,hx] at hs
    simp [hx]
    omega
  · simp [Strand.holds,Strand.abandon,hx] at hs
    simp [hx,hs]

theorem handlerCount_dropOwner {d : Nat} {e : Effect H} (he : e.shared = s.onLoop d Loop.close)
    (hh : handedBy c e.frames = []) : HandlerCount c p s [.call (.dropOwner d)] e := by
  simp only [HandlerCount,drawnBy,forsakenBy,sentBy,offeredBy,broughtBy,postedBy,reportedBy,
    pickedBy,clearedBy,hh,he]
  by_cases hd : d = c
  · subst hd
    simp [Shared.held,Shared.onLoop,Loop.close]
    omega
  · simp [hd,Shared.held,Shared.onLoop,Table.get_update]

theorem handlerCount_rewrite {f : Frame H} {frames : List (Frame H)}
    (hr : Rewrite me s active f frames) : HandlerCount c p s [f] { shared := s, active, frames } := by
  cases hr with
  | @destroy _ d j hf hc =>
    exact handlerCount_reject hf.brought hf.sent hc rfl (by cases j <;> rfl)
  | completeClosed o r hc => exact handlerCount_reject rfl (sent_complete o r) hc rfl rfl
  | ended hf | overdue hf => exact .of_eq hf.brought hf.sent rfl rfl
  | dropJobsCons j => cases j <;> exact .of_eq rfl ⟨rfl,rfl,rfl⟩ rfl rfl
  | dispatchOutside e => cases e <;> exact .of_eq rfl ⟨rfl,rfl,rfl⟩ rfl rfl
  | turnNone x hw => exact .of_eq rfl ⟨rfl,by simp [pickedBy,hw],rfl⟩ rfl rfl
  | _ => exact .of_eq rfl ⟨rfl,rfl,rfl⟩ rfl rfl

theorem handlerCount_rule {f : Frame H} {e : Effect H} (hr : Rule me s active f e) :
    HandlerCount c p s [f] e := by
  cases hr with
  | rewrite hr => exact handlerCount_rewrite hr
  | enqueue hf hc => exact handlerCount_accept hf.brought hf.sent hc rfl (fun _ => rfl) rfl
  | complete o r hc => exact handlerCount_accept rfl (sent_complete o r) hc rfl (fun _ => rfl) rfl
  | take hf j rest hp =>
    exact handlerCount_take hf.brought hf.sent (pick_job hp).2 rfl (by cases j <;> rfl)
  | postIdle | postBusy => exact handlerCount_post rfl rfl
  | turn x t ts hw => exact handlerCount_turn hw rfl rfl
  | dropTurn => exact handlerCount_dropTurn rfl rfl
  | dropOwner => exact handlerCount_dropOwner rfl rfl
  | lock | free => exact .of_eq rfl ⟨rfl,rfl,rfl⟩ rfl (held_onStrand_eq fun _ => ⟨rfl,rfl⟩)
  | runDry hf | sleep hf => exact .of_eq hf.brought hf.sent rfl (held_onLoop fun _ => rfl)
  | _ =>
    first
      | exact .of_eq rfl ⟨rfl,rfl,rfl⟩ rfl rfl
      | exact .of_eq rfl ⟨rfl,rfl,rfl⟩ rfl (held_onLoop fun _ => rfl)

theorem handlerCount_deed {taken : List (Frame H)} {e : Effect H} (hd : Deed me s active taken e) :
    HandlerCount c p s taken e := by
  obtain ⟨frames,hs,rfl⟩ | ⟨f,rfl,hr⟩ := hd.shift_or_rule
  · refine .of_eq ?_ ?_ ?_ rfl
    · cases hs <;> rfl
    · cases hs <;> exact ⟨rfl,rfl,rfl⟩
    · exact handedBy_shift hs
  · exact handlerCount_rule hr

end

namespace Machine

def sent (c : Nat) (m : Machine H) (a : Act H) : List (Task H) := sentBy c m.shared a.taken

def drawn (c : Nat) (m : Machine H) (a : Act H) : List (Task H) :=
  drawnBy c m.shared a.taken a.effect.frames

def forsaken (c : Nat) (m : Machine H) (a : Act H) : List (Task H) := forsakenBy c m.shared a.taken

theorem held_happen (c : Nat) (p : Task H → Bool) (m : Machine H) (y : Move H) :
    (m.happen y).shared.held c p = m.shared.held c p := by
  unfold Shared.held
  rw [queue_happen]
  cases y with
  | addStrand home => simp [happen,mapShared,Strand.holds]
  | _ => rfl

/-- A handler that was submitted to a loop or to one of its strands waits there, was handed on to
a thread or was given up, and only one of this. -/
theorem handlerCount_run (c : Nat) (p : Task H → Bool) (moves : List (Move H)) :
    (run moves).shared.held c p + (history (drawn c) moves).countP p +
      (history (forsaken c) moves).countP p = (history (sent c) moves).countP p := by
  induction moves using run_induction with
  | start => rfl
  | move xs y ih =>
    simp only [run_concat,history_concat,List.countP_append]
    obtain ⟨a,hy,ha,hmove⟩ | ⟨hy,hmove⟩ := move_cases (run xs) y
    · have h := handlerCount_deed (c := c) (p := p) ha.deed
      simp only [noted_of_act? hy,hmove,shared_perform]
      simp only [drawn,forsaken,sent]
      omega
    · simp only [noted_of_act?_none hy,hmove,held_happen]
      simpa using ih

theorem clearedBy_of_open {c : Nat} {moves : List (Move H)} {y : Move H} {a : Act H}
    (hy : (run moves).act? y = some a)
    (hc : (((run moves).move y).shared.loops.get c).closed = false) :
    clearedBy c (run moves).shared a.taken = [] := by
  unfold clearedBy
  split
  · rename_i d ht
    rw [if_neg]
    rintro rfl
    rw [closed_of_dropOwner hy ht] at hc
    exact Bool.noConfusion hc
  · rename_i x ht
    rw [if_neg]
    rintro rfl
    have hl : 0 < (run moves).weight (Frame.losses x) := by
      obtain ⟨k,hk,-⟩ := exists_weight_perform (fits_of_act? hy) (Frame.losses x)
      rw [ht] at hk
      simp [Table.weigh,Frame.losses] at hk
      omega
    have ho := open_of_move hc
    rw [(homed_run x moves).lost hl] at ho
    exact Bool.noConfusion ho
  · rfl

/-- As long as the owner is there, nothing is given up. -/
theorem forsaken_of_open {c : Nat} {moves : List (Move H)}
    (hc : ((run moves).shared.loops.get c).closed = false) : history (forsaken c) moves = [] := by
  induction moves using run_induction with
  | start => rfl
  | move xs y ih =>
    rw [run_concat] at hc
    rw [history_concat,ih (open_of_move hc)]
    cases hy : (run xs).act? y with
    | none => simp [noted_of_act?_none hy]
    | some a =>
      have ho : ((run xs).shared.loops.get c).closed ≠ true := by simp [open_of_move hc]
      rw [noted_of_act? hy,forsaken,forsakenBy,offeredBy_eq_nil ho,clearedBy_of_open hy hc]
      rfl

end Machine
end EventLoop
