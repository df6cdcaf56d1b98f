import EventLoop.Proofs.Homing

/-! A loop hands its jobs out in the order in which it accepts them. -/
namespace EventLoop

variable {H : Type}

/-- The job of loop `c` that a thread has taken when it goes on with these frames. -/
def handedBy (c : Nat) : List (Frame H) → List (Job H)
  | .call (.invoke t) :: .finish d :: _ => if d = c then [.task t] else []
  | .runTurn x :: .finish d :: _ => if d = c then [.turn x] else []
  | _ => []

/-- The job that is brought to a loop when these frames are executed. -/
def broughtBy (s : Shared H) : List (Frame H) → Option (Nat × Job H)
  | [.call (.post (.loop c) t)] => some (c, .task t)
  | [.schedule x] => some ((s.strands.get x).home, .turn x)
  | [.complete o r] => some (o.home, .task (o.task.deliver r))
  | _ => none

/-- The job that is brought to loop `c` when these frames are executed, while the owner is there
or when it is gone. -/
def offeredBy (c : Nat) (closed : Bool) (s : Shared H) (taken : List (Frame H)) : List (Job H) :=
  match broughtBy s taken with
  | some (d, j) => if d = c ∧ (s.loops.get d).closed = closed then [j] else []
  | none => []

theorem offeredBy_eq_nil {c : Nat} {closed : Bool} {s : Shared H}
    (h : (s.loops.get c).closed ≠ closed) (taken : List (Frame H)) :
    offeredBy c closed s taken = [] := by
  unfold offeredBy
  split
  · rw [if_neg]
    rintro ⟨rfl,hc⟩
    exact h hc
  · rfl

theorem Frame.Submits.brought {s : Shared H} {f : Frame H} {c : Nat} {j : Job H}
    (hf : f.Submits s c j) : broughtBy s [f] = some (c, j) := by
  cases hf <;> rfl

theorem Frame.Looks.brought {me : Nat} {s : Shared H} {f : Frame H} {c : Nat} {w : Wait}
    {limit : Option Nat} {ran : Nat} (hf : f.Looks me s c w limit ran) :
    broughtBy s [f] = none := by
  cases hf <;> rfl

section

variable {c me : Nat} {s : Shared H} {active : List Executor}

/-- What a deed does to the queue of loop `c` and to the count of what was posted. -/
structure Queued (c : Nat) (s : Shared H) (taken : List (Frame H)) (e : Effect H) : Prop where
  order : taken ≠ [.call (.dropOwner c)] →
    handedBy c e.frames ++ (e.shared.loops.get c).queue =
      (s.loops.get c).queue ++ offeredBy c false s taken
  count : (e.shared.loops.get c).counters.posted =
    (s.loops.get c).counters.posted + (offeredBy c false s taken).length

def Loop.Alike (l k : Loop H) : Prop :=
  k.queue = l.queue ∧ k.counters.posted = l.counters.posted

theorem alike_onLoop {d : Nat} {f : Loop H → Loop H} (hf : ∀ l : Loop H, l.Alike (f l)) :
    (s.loops.get c).Alike ((s.onLoop d f).loops.get c) := by
  simp only [Shared.onLoop,Table.get_update]
  split
  · exact hf _
  · exact ⟨rfl,rfl⟩

theorem Queued.of_alike {taken : List (Frame H)} {e : Effect H} (hb : broughtBy s taken = none)
    (hh : handedBy c e.frames = []) (he : (s.loops.get c).Alike (e.shared.loops.get c)) :
    Queued c s taken e := by
  obtain ⟨hq,hp⟩ := he
  constructor
  · intro _
    simp [offeredBy,hb,hh,hq]
  · simp [offeredBy,hb,hp]

theorem queued_accept {taken : List (Frame H)} {e : Effect H} {d : Nat} {j : Job H}
    {f : Loop H → Loop H} (hb : broughtBy s taken = some (d, j))
    (hc : (s.loops.get d).closed = false) (he : e.shared = s.onLoop d f)
    (hq : ∀ l : Loop H, (f l).queue = l.queue ++ [j])
    (hp : ∀ l : Loop H, (f l).counters.posted = l.counters.posted + 1)
    (hh : handedBy c e.frames = []) : Queued c s taken e := by
  by_cases hd : d = c
  · subst hd
    constructor
    · intro _
      simp [hh,he,offeredBy,hb,hc,Shared.onLoop,hq]
    · simp [he,offeredBy,hb,hc,Shared.onLoop,hp]
  · constructor
    · intro _
      simp [hh,he,offeredBy,hb,hd,Shared.onLoop,Table.get_update]
    · simp [he,offeredBy,hb,hd,Shared.onLoop,Table.get_update]

theorem queued_reject {taken : List (Frame H)} {e : Effect H} {d : Nat} {j : Job H}
    (hb : broughtBy s taken = some (d, j)) (hc : (s.loops.get d).closed = true)
    (he : e.shared = s) (hh : handedBy c e.frames = []) : Queued c s taken e := by
  constructor
  · intro _
    simp [hh,he,offeredBy,hb,hc]
  · simp [he,offeredBy,hb,hc]

theorem queued_take {taken : List (Frame H)} {e : Effect H} {d : Nat} {j : Job H}
    {rest : List (Job H)} (hb : broughtBy s taken = none)
    (hq : (s.loops.get d).queue = j :: rest)
    (he : e.shared = s.onLoop d fun l => { l with queue := rest })
    (hh : handedBy c e.frames = if d = c then [j] else []) : Queued c s taken e := by
  by_cases hd : d = c
  · subst hd
    constructor
    · intro _
      simp [hh,he,offeredBy,hb,hq,Shared.onLoop]
    · simp [he,offeredBy,hb,Shared.onLoop]
  · constructor
    · intro _
      simp [hh,he,offeredBy,hb,hd,Shared.onLoop,Table.get_update]
    · simp [he,offeredBy,hb,hd,Shared.onLoop,Table.get_update]

theorem queued_dropOwner {d : Nat} {e : Effect H} (he : e.shared = s.onLoop d Loop.close)
    (hh : handedBy c e.frames = []) : Queued c s [.call (.dropOwner d)] e := by
  by_cases hd : d = c
  · subst hd
    constructor
    · intro h
      exact absurd rfl h
    · simp [he,offeredBy,broughtBy,Shared.onLoop,Loop.close]
  · refine .of_alike rfl hh ?_
    simp only [he,Shared.onLoop,Table.get_update,hd,if_false]
    exact ⟨rfl,rfl⟩

theorem queued_rewrite {f : Frame H} {frames : List (Frame H)} (hr : Rewrite me s active f frames) :
    Queued c s [f] { shared := s, active, frames } := by
  cases hr with
  | @destroy _ d j hf hc => exact queued_reject hf.brought hc rfl (by cases j <;> rfl)
  | ended hf | overdue hf => exact .of_alike hf.brought rfl ⟨rfl,rfl⟩
  | completeClosed o r hc => exact queued_reject rfl hc rfl rfl
  | dropJobsCons j => cases j <;> exact .of_alike rfl rfl ⟨rfl,rfl⟩
  | dispatchInside e | dispatchOutside e => cases e <;> exact .of_alike rfl rfl ⟨rfl,rfl⟩
  | _ => exact .of_alike rfl rfl ⟨rfl,rfl⟩

theorem queued_rule {f : Frame H} {e : Effect H} (hr : Rule me s active f e) :
    Queued c s [f] e := by
  cases hr with
  | rewrite hr => exact queued_rewrite hr
  | enqueue hf hc => exact queued_accept hf.brought hc rfl (fun _ => rfl) (fun _ => rfl) rfl
  | complete o r hc => exact queued_accept rfl hc rfl (fun _ => rfl) (fun _ => rfl) rfl
  | take hf j rest hp =>
    exact queued_take hf.brought (pick_job hp).2 rfl (by cases j <;> rfl)
  | dropOwner => exact queued_dropOwner rfl rfl
  | runDry hf | sleep hf => exact .of_alike hf.brought rfl (alike_onLoop fun _ => ⟨rfl,rfl⟩)
  | _ =>
    first
      | exact .of_alike rfl rfl ⟨rfl,rfl⟩
      | exact .of_alike rfl rfl (alike_onLoop fun _ => ⟨rfl,rfl⟩)

theorem handedBy_shift {taken frames : List (Frame H)} (hs : Shift taken frames) :
    handedBy c frames = [] := by
  cases hs with
  | cleanUp t f hc => cases f <;> first | rfl | exact Bool.noConfusion hc
  | call role h made k => cases k <;> rfl
  | _ => rfl

theorem queued_deed {taken : List (Frame H)} {e : Effect H} (hd : Deed me s active taken e) :
    Queued c s taken e := by
  obtain ⟨frames,hs,rfl⟩ | ⟨f,rfl,hr⟩ := hd.shift_or_rule
  · refine .of_alike ?_ (handedBy_shift hs) ⟨rfl,rfl⟩
    cases hs <;> rfl
  · exact queued_rule hr

end

namespace Machine

def handedOut (c : Nat) (_ : Machine H) (a : Act H) : List (Job H) := handedBy c a.effect.frames

/-- The jobs that loop `c` accepts with an act, as it does as long as the owner is there. -/
def accepted (c : Nat) (m : Machine H) (a : Act H) : List (Job H) :=
  offeredBy c false m.shared a.taken

theorem open_of_move {c : Nat} {m : Machine H} {y : Move H}
    (hc : ((m.move y).shared.loops.get c).closed = false) :
    (m.shared.loops.get c).closed = false := by
  by_contra h
  rw [(grows_move m y).closed c (by simpa using h)] at hc
  exact Bool.noConfusion hc

theorem queued_move (c : Nat) {m : Machine H} {y : Move H} {a : Act H} (hy : m.act? y = some a) :
    Queued c m.shared a.taken a.effect := queued_deed (fits_of_act? hy).deed

theorem closed_of_dropOwner {c : Nat} {m : Machine H} {y : Move H} {a : Act H}
    (hy : m.act? y = some a) (ht : a.taken = [.call (.dropOwner c)]) :
    ((m.move y).shared.loops.get c).closed = true := by
  have hd := (fits_of_act? hy).deed
  rw [ht] at hd
  rw [move_of_act? hy,shared_perform,hd.eq_step rfl]
  simp [Frame.step,Frame.stepCall,Shared.onLoop,Loop.close]

/-- The jobs that were handed out and those in the queue are the ones that were accepted, in
order, as long as the loop has an owner. -/
theorem fifo_run (c : Nat) (moves : List (Move H))
    (hc : ((run moves).shared.loops.get c).closed = false) :
    history (handedOut c) moves ++ ((run moves).shared.loops.get c).queue =
      history (accepted c) moves := by
  induction moves using run_induction with
  | start => rfl
  | move xs y ih =>
    rw [run_concat] at hc ⊢
    rw [history_concat,history_concat,← ih (open_of_move hc),List.append_assoc,List.append_assoc]
    congr 1
    obtain ⟨a,hy,-,hmove⟩ | ⟨hy,hmove⟩ := move_cases (run xs) y
    · have ht : a.taken ≠ [.call (.dropOwner c)] := by
        intro ht
        rw [closed_of_dropOwner hy ht] at hc
        exact Bool.noConfusion hc
      rw [hmove,noted_of_act? hy,noted_of_act? hy]
      exact (queued_move c hy).order ht
    · rw [hmove,noted_of_act?_none hy,noted_of_act?_none hy,queue_happen]
      simp

theorem posted_happen (m : Machine H) (y : Move H) (c : Nat) :
    ((m.happen y).shared.loops.get c).counters.posted =
      (m.shared.loops.get c).counters.posted := by
  cases y with
  | prefer d i =>
    simp only [happen,mapShared,Shared.onLoop,Table.get_update]
    split
    · unfold Loop.prefer
      split <;> rfl
    · rfl
  | addLoop settings =>
    simp only [happen,mapShared,Table.get_push]
    split
    · rename_i h
      rw [Table.get_of_size_le _ (Nat.le_of_eq h.symm)]
      rfl
    · rfl
  | _ => rfl

/-- A loop counts the jobs that it accepts, and no others. -/
theorem posted_run (c : Nat) (moves : List (Move H)) :
    ((run moves).shared.loops.get c).counters.posted = (history (accepted c) moves).length := by
  induction moves using run_induction with
  | start => rfl
  | move xs y ih =>
    rw [run_concat,history_concat,List.length_append,← ih]
    obtain ⟨a,hy,-,hmove⟩ | ⟨hy,hmove⟩ := move_cases (run xs) y
    · rw [hmove,noted_of_act? hy]
      exact (queued_move c hy).count
    · rw [hmove,noted_of_act?_none hy]
      exact posted_happen (run xs) y c

end Machine
end EventLoop
