import EventLoop.Proofs.HandlerCounts

/-! The destruction of handlers that have not run. Every handler that is brought to its end this
way is destroyed once. -/
namespace EventLoop

variable {H : Type}

open Table (weigh)

namespace Frame

def toDestroy : Frame H → List (Task H)
  | .dropTasks ts => ts
  | .dropJobs js => tasksIn js
  | _ => []

def countToDestroy (p : Task H → Bool) (f : Frame H) : Nat := f.toDestroy.countP p

end Frame

/-- The handlers that are to be destroyed from now on. A panic only moves on with what it finds. -/
def toDestroyBy : List (Frame H) → List (Frame H) → List (Task H)
  | [.dropTasks _], _ | [.dropJobs _], _ | .panic _ :: _, _ => []
  | _, frames => frames.flatMap Frame.toDestroy

def destroyedBy : List (Frame H) → List (Task H)
  | [.dropTasks (t :: _)] => [t]
  | _ => []

section

variable {c me : Nat} {p : Task H → Bool} {s : Shared H} {active : List Executor}

theorem weightless_countToDestroy : Frame.Weightless (Frame.countToDestroy p) := by
  intro f hf
  cases f <;> simp_all [Frame.idles,Frame.countToDestroy,Frame.toDestroy]

theorem weigh_countToDestroy (fs : List (Frame H)) :
    weigh (Frame.countToDestroy p) fs = (fs.flatMap Frame.toDestroy).countP p := by
  induction fs with
  | nil => rfl
  | cons f fs ih => simp [weigh,ih,Frame.countToDestroy]

abbrev DestroysOnce (p : Task H → Bool) (taken : List (Frame H)) (e : Effect H) : Prop :=
  weigh (Frame.countToDestroy p) taken + (toDestroyBy taken e.frames).countP p =
    weigh (Frame.countToDestroy p) e.put + (destroyedBy taken).countP p

theorem destroysOnce_of_none {f : Frame H} (hf : f.toDestroy = [])
    (hd : ∀ fs, toDestroyBy [f] fs = fs.flatMap Frame.toDestroy) (he : destroyedBy [f] = [])
    (e : Effect H) : DestroysOnce p [f] e := by
  have hp : weigh (Frame.countToDestroy p) e.put = weigh (Frame.countToDestroy p) e.frames :=
    weigh_put (fun _ => rfl) e
  simp only [DestroysOnce,hp,hd,he,weigh_countToDestroy]
  simp [hf]

theorem destroysOnce_rewrite {f : Frame H} {frames : List (Frame H)}
    (hr : Rewrite me s active f frames) :
    DestroysOnce p [f] { shared := s, active, frames } := by
  cases hr with
  | dropTasksNil | dropJobsNil | panic => rfl
  | dropTasksCons t ts =>
    simp [DestroysOnce,weigh,Frame.countToDestroy,Frame.toDestroy,toDestroyBy,destroyedBy,
      Effect.put,List.countP_cons]
  | dropJobsCons j js =>
    cases j with
    | task t =>
      simp [DestroysOnce,weigh,Frame.dropJob,Frame.countToDestroy,Frame.toDestroy,toDestroyBy,
        destroyedBy,Effect.put,tasksIn,List.countP_cons]
      omega
    | turn x =>
      simp [DestroysOnce,weigh,Frame.dropJob,Frame.countToDestroy,Frame.toDestroy,toDestroyBy,
        destroyedBy,Effect.put,tasksIn]
  | destroy hf | ended hf | overdue hf =>
    cases hf <;> exact destroysOnce_of_none rfl (fun _ => rfl) rfl _
  | _ => exact destroysOnce_of_none rfl (fun _ => rfl) rfl _

theorem destroysOnce_rule {f : Frame H} {e : Effect H} (hr : Rule me s active f e) :
    DestroysOnce p [f] e := by
  cases hr with
  | rewrite h => exact destroysOnce_rewrite h
  | enqueue hf | take hf | runDry hf | sleep hf =>
    cases hf <;> exact destroysOnce_of_none rfl (fun _ => rfl) rfl _
  | _ => exact destroysOnce_of_none rfl (fun _ => rfl) rfl _

theorem destroysOnce_shift {taken frames : List (Frame H)} (hs : Shift taken frames)
    (hr : taken.tail.all Frame.rests = true) :
    DestroysOnce p taken { shared := s, active, frames } := by
  have hw : weigh (Frame.countToDestroy p) frames = weigh (Frame.countToDestroy p) taken :=
    weigh_shift weightless_countToDestroy hs hr
  have hn : toDestroyBy taken frames = [] ∧ destroyedBy taken = [] := by
    cases hs <;> exact ⟨rfl,rfl⟩
  simp only [DestroysOnce,Effect.put,hw,hn.1,hn.2]

theorem destroysOnce_deed {taken : List (Frame H)} {e : Effect H} (hd : Deed me s active taken e)
    (hr : taken.tail.all Frame.rests = true) : DestroysOnce p taken e := by
  obtain ⟨frames,hs,rfl⟩ | ⟨f,rfl,h⟩ := hd.shift_or_rule
  · exact destroysOnce_shift hs hr
  · exact destroysOnce_rule h

theorem forsakenBy_of_brought {taken : List (Frame H)} {d : Nat} {j : Job H}
    (hb : broughtBy s taken = some (d, j)) (hn : clearedBy c s taken = []) :
    forsakenBy c s taken =
      tasksIn (if d = c ∧ (s.loops.get d).closed = true then [j] else []) := by
  simp [forsakenBy,offeredBy,hb,hn]

theorem forsakenBy_of_accepted {taken : List (Frame H)} {d : Nat} {j : Job H}
    (hb : broughtBy s taken = some (d, j)) (hn : clearedBy c s taken = [])
    (hc : (s.loops.get d).closed = false) : forsakenBy c s taken = [] := by
  rw [forsakenBy_of_brought hb hn,if_neg (by simp [hc])]
  rfl

theorem forsakenBy_of_rejected {taken : List (Frame H)} {d : Nat} {j : Job H}
    (hb : broughtBy s taken = some (d, j)) (hn : clearedBy c s taken = []) :
    (forsakenBy c s taken).Sublist (tasksIn [j]) := by
  rw [forsakenBy_of_brought hb hn]
  split
  · exact List.Sublist.refl _
  · exact List.nil_sublist _

theorem forsaken_rewrite {f : Frame H} {frames : List (Frame H)}
    (hr : Rewrite me s active f frames) :
    (forsakenBy c s [f]).Sublist (toDestroyBy [f] frames) := by
  cases hr with
  | destroy hf hc =>
    have h := forsakenBy_of_rejected (c := c) hf.brought hf.sent.2.2
    cases hf <;> exact h
  | completeClosed o r hc =>
    have hb : broughtBy s [.complete o r] = some (o.home, .task (o.task.deliver r)) := rfl
    exact forsakenBy_of_rejected hb rfl
  | ended hf | overdue hf => cases hf <;> exact List.nil_sublist _
  | _ => exact List.nil_sublist _

theorem forsaken_rule {f : Frame H} {e : Effect H} (hr : Rule me s active f e) :
    (forsakenBy c s [f]).Sublist (toDestroyBy [f] e.frames) := by
  cases hr with
  | rewrite h => exact forsaken_rewrite h
  | enqueue hf hc =>
    rw [forsakenBy_of_accepted hf.brought hf.sent.2.2 hc]
    exact List.nil_sublist _
  | complete o r hc =>
    have hb : broughtBy s [.complete o r] = some (o.home, .task (o.task.deliver r)) := rfl
    rw [forsakenBy_of_accepted hb rfl hc]
    exact List.nil_sublist _
  | dropOwner d | dropTurn x =>
    simp only [forsakenBy,offeredBy,broughtBy,clearedBy,tasksIn,List.nil_append]
    split
    · simp_all [toDestroyBy,Frame.toDestroy]
    · exact List.nil_sublist _
  | take hf | runDry hf | sleep hf => cases hf <;> exact List.nil_sublist _
  | _ => exact List.nil_sublist _

theorem forsakenBy_sublist {taken : List (Frame H)} {e : Effect H}
    (hd : Deed me s active taken e) :
    (forsakenBy c s taken).Sublist (toDestroyBy taken e.frames) := by
  obtain ⟨frames,hs,rfl⟩ | ⟨f,rfl,h⟩ := hd.shift_or_rule
  · have hn : forsakenBy c s taken = [] := by cases hs <;> rfl
    rw [hn]
    exact List.nil_sublist _
  · exact forsaken_rule h

end

namespace Machine

def toDestroy (_ : Machine H) (a : Act H) : List (Task H) := toDestroyBy a.taken a.effect.frames

def destroyed (_ : Machine H) (a : Act H) : List (Task H) := destroyedBy a.taken

theorem countP_toDestroy (p : Task H → Bool) (moves : List (Move H)) :
    (history toDestroy moves).countP p =
      (run moves).weight (Frame.countToDestroy p) + (history destroyed moves).countP p := by
  induction moves using run_induction with
  | start => rfl
  | move xs y ih =>
    simp only [run_concat,history_concat,List.countP_append]
    obtain ⟨a,hy,ha,hmove⟩ | ⟨hy,hmove⟩ := move_cases (run xs) y
    · obtain ⟨k,hk,hk'⟩ := exists_weight_perform ha (Frame.countToDestroy p)
      have h := destroysOnce_deed (p := p) ha.deed (ha.rests_tail (sound_run xs))
      simp only [noted_of_act? hy,hmove,hk']
      simp only [toDestroy,destroyed]
      omega
    · simp only [noted_of_act?_none hy,hmove,weight_happen weightless_countToDestroy]
      simpa using ih

theorem forsaken_sublist (c : Nat) (moves : List (Move H)) :
    (history (forsaken c) moves).Sublist (history toDestroy moves) := by
  apply history_sublist
  intro xs y a hy
  exact forsakenBy_sublist (fits_of_act? hy).deed

end Machine
end EventLoop
