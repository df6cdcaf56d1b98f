import EventLoop.Proofs.Growth
import EventLoop.Proofs.Ledger
import EventLoop.Proofs.Until

/-! What a loop refuses when it has lost its owner. A thread that brings it a handler destroys the
handler before it goes on, and no reactor takes an operation of the loop. -/
namespace EventLoop

variable {H : Type}

/-- The places of the start of an operation of loop `c` with handler `t`. -/
def Frame.Starts (c : Nat) (t : Task H) (s : Shared H) : Frame H → Prop
  | .call (.start _ d _ _ u) => d = c ∧ u = t
  | .call (.wait x u) => (x < s.timers.size ∧ (s.timers.get x).home = c) ∧ u = t
  | .enrol o | .countStart o | .addWork o | .enlist o => o.home = c ∧ o.task = t
  | _ => False

section

variable {c : Nat} {t : Task H} {s : Shared H}

theorem Frame.Starts.mono {u : Shared H} (hg : s.Grows u) {f : Frame H} (h : f.Starts c t s) :
    f.Starts c t u := by
  cases f with
  | call k =>
    cases k with
    | wait x u =>
      obtain ⟨⟨hx,hh⟩,ht⟩ := h
      exact ⟨⟨Nat.lt_of_lt_of_le hx hg.timers,(hg.timerHome x hx).trans hh⟩,ht⟩
    | _ => exact h
  | _ => exact h

/-- With the reactor shut down, a start goes on with another of its places or ends the operation
at once. -/
theorem Frame.Starts.deed {me : Nat} {active : List Executor} {f : Frame H} {e : Effect H}
    (h : f.Starts c t s) (hr : (s.loops.get c).reactor = .closed) (hd : Deed me s active [f] e) :
    (∃ g, e.frames = [g] ∧ g.Starts c t s) ∨ ∃ o q, (o.home = c ∧ o.task = t) ∧
      e.frames = [.complete o q, .forget o.registry o.ticket] := by
  have hno {o : Operation H} (ho : (Frame.enlist o).Starts c t s)
      (hn : (s.loops.get o.home).reactor ≠ .closed) : False := by
    obtain ⟨rfl,-⟩ := ho
    exact hn hr
  obtain ⟨frames,hs,rfl⟩ | hrule := hd.rule_of_singleton
  · cases hs <;> exact h.elim
  cases hrule with
  | start => exact Or.inl ⟨_,rfl,h⟩
  | wait => exact Or.inl ⟨_,rfl,h.1.2,h.2⟩
  | enrol | countStart | addWork => exact Or.inl ⟨_,rfl,h⟩
  | enlist o hn | enlistFirst o hn => exact (hno h (by simp [hn])).elim
  | rewrite hw =>
    cases hw with
    | refuse o why => exact Or.inr ⟨o,_,h,rfl⟩
    | startPanic o m hn => exact (hno h (by simp [hn])).elim
    | destroy hf | ended hf | overdue hf => cases hf <;> exact h.elim
    | _ => exact h.elim
  | enqueue hf | take hf | runDry hf | sleep hf => cases hf <;> exact h.elim
  | _ => exact h.elim

theorem Deed.started_cases {me : Nat} {active : List Executor} {taken : List (Frame H)}
    {e : Effect H} {o : Operation H} (hd : Deed me s active taken e) (h : e.started = some o) :
    (s.loops.get o.home).reactor ≠ .closed := by
  obtain ⟨frames,-,rfl⟩ | ⟨f,-,hrule⟩ := hd.shift_or_rule
  · cases h
  cases hrule with
  | enlist q hr | enlistFirst q hr =>
    cases h
    simp [hr]
  | _ => cases h

end

/-- A reactor that is shut down stays so. -/
theorem Ledger.Step.reactor {v v' : Ledger} {b d k : Nat} {halted : Bool}
    (h : Ledger.Step v v' b d k halted) (hr : v.reactorClosed = true) :
    v'.reactorClosed = true := by
  cases h with
  | closeReactor n hn h =>
    subst h
    rfl
  | keep h | enqueue h | take n hq h | endJob n hj h | openGuard h | closeGuard n hg h | begin h
  | complete n hf h | cutShort n hf h | abandon n hr hf h | runDry hq ho h | stop h | restart h
  | close h | forsake n hn h =>
    subst h
    exact hr

namespace Machine

variable {c i : Nat} {t : Task H} {rest : List (Frame H)} {m : Machine H}

/-- Thread `i` destroys handler `t` before it goes on with the rest of its stack. -/
def Destroys (i : Nat) (t : Task H) (rest : List (Frame H)) : Machine H → List (Move H) → Prop :=
  Until (fun n => (n.thread i).frames = .dropTasks [t] :: rest)
    (Until
      (fun n => ∃ gs k,
        (n.thread i).frames = gs ++ .code .destructor t.core k :: .dropTasks [] :: rest)
      fun n _ => (n.thread i).frames = .dropTasks [] :: rest ∨
        ∃ w, (n.thread i).frames = .panic w :: .dropTasks [] :: rest)

theorem destroys_of_dropTasks (hf : (m.thread i).frames = .dropTasks [t] :: rest)
    (ys : List (Move H)) : Destroys i t rest m ys := by
  refine until_of_proceeds (I := fun _ => True) _ rfl (fun _ _ h => h) (fun _ _ => rfl) ?_ ys
    trivial hf
  intro n ys _ hf
  exact until_of_code [] hf ys

theorem destroys_of_post (hc : (m.shared.loops.get c).closed = true)
    (hf : (m.thread i).frames = .call (.post (.loop c) t) :: rest) (ys : List (Move H)) :
    Until (fun n => (n.thread i).frames = .call (.post (.loop c) t) :: rest) (Destroys i t rest) m
      ys := by
  refine until_of_proceeds (I := fun n => (n.shared.loops.get c).closed = true) [.dropTasks [t]] rfl
    (fun n y h => (grows_move n y).closed c h) ?_ ?_ ys hc hf
  · intro n hc
    simp [Frame.step,Frame.stepCall,Frame.submit,Frame.dropJob,hc]
  · intro n ys _ hf
    exact destroys_of_dropTasks hf ys

/-- A loop that has lost its owner and its reactor. -/
structure Gone (c : Nat) (m : Machine H) : Prop where
  sound : ∀ i, (m.thread i).Sound
  closed : (m.shared.loops.get c).closed = true
  reactor : (m.shared.loops.get c).lacksReactor = true

theorem Gone.move (h : m.Gone c) (y : Move H) : (m.move y).Gone c where
  sound := sound_move h.sound y
  closed := (grows_move m y).closed c h.closed
  reactor := (ledger_move c h.sound y).reactor h.reactor

theorem Gone.reactor_eq (h : m.Gone c) : (m.shared.loops.get c).reactor = .closed := by
  have hr := h.reactor
  unfold Loop.lacksReactor at hr
  split at hr
  · assumption
  · exact Bool.noConfusion hr

/-- Thread `i` ends an operation of loop `c` at once and destroys its handler `t`, with what the
operation delivers, before it goes on with the rest of its stack. -/
def Refuses (i c : Nat) (t : Task H) (rest : List (Frame H)) (m : Machine H) (ys : List (Move H)) :
    Prop :=
  ∃ o q, (o.home = c ∧ o.task = t) ∧
    Until (fun n => (n.thread i).frames = .complete o q :: .forget o.registry o.ticket :: rest)
      (Destroys i (t.deliver q) (.forget o.registry o.ticket :: rest)) m ys

theorem destroys_of_complete {o : Operation H} {q : Outcome} (hc : m.Gone o.home)
    (hf : (m.thread i).frames = .complete o q :: rest) (ys : List (Move H)) :
    Until (fun n => (n.thread i).frames = .complete o q :: rest)
      (Destroys i (o.task.deliver q) rest) m ys := by
  refine until_of_proceeds (I := Gone o.home) [.dropTasks [o.task.deliver q]] rfl
    (fun _ y h => h.move y) ?_ ?_ ys hc hf
  · intro n hc
    simp [Frame.step,hc.closed]
  · intro n ys _ hf
    exact destroys_of_dropTasks hf ys

theorem refuses_of_starts (hg : m.Gone c) {f : Frame H} (hs : f.Starts c t m.shared)
    (hf : (m.thread i).frames = f :: rest) (ys : List (Move H)) :
    Until (fun n => ∃ g, g.Starts c t n.shared ∧ (n.thread i).frames = g :: rest)
      (Refuses i c t rest) m ys := by
  refine until_of_step (I := fun n _ => n.Gone c) (fun _ y _ h => h.move y) ?_ ys hg ⟨f,hs,hf⟩
  rintro n y ys hg ⟨g,hs,hf⟩
  have hn (w : String) : g ≠ .panic w := by
    rintro rfl
    exact hs
  obtain h | ⟨e,hd,h⟩ := frames_move_of_head hf hn y
  · exact Or.inl ⟨g,hs.mono (grows_move n y),h⟩
  · obtain ⟨k,he,hk⟩ | ⟨o,q,⟨rfl,rfl⟩,he⟩ := hs.deed hg.reactor_eq hd
    · rw [he] at h
      exact Or.inl ⟨k,hk.mono (grows_move n y),h⟩
    · rw [he] at h
      exact Or.inr ⟨o,q,⟨rfl,rfl⟩,destroys_of_complete (hg.move y) h ys⟩

/-- The operations of loop `c` that its reactor takes with an act. -/
def undertaken (c : Nat) (_ : Machine H) (a : Act H) : List (Operation H) :=
  a.effect.started.toList.filter (·.home = c)

theorem notes_undertaken (hg : m.Gone c) (ys : List (Move H)) :
    notes (undertaken c) m ys = [] := by
  induction ys generalizing m with
  | nil => rfl
  | cons y ys ih =>
    rw [notes,ih (hg.move y),List.append_nil]
    cases hy : m.act? y with
    | none => exact noted_of_act?_none hy
    | some a =>
      rw [noted_of_act? hy]
      cases hs : a.effect.started with
      | none => simp [undertaken,hs]
      | some o =>
        have ho : o.home ≠ c := by
          rintro rfl
          exact (fits_of_act? hy).deed.started_cases hs hg.reactor_eq
        simp [undertaken,hs,ho]

end Machine
end EventLoop
