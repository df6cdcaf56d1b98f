import EventLoop.Proofs.Retention
import EventLoop.Proofs.Tickets
import EventLoop.Proofs.Until
import EventLoop.Proofs.Outcomes

/-! Waits for a timer. A wait keeps the expiry that the timer has when it is started, whatever
becomes of the timer afterwards, and it claims its ticket only once the clock has reached that
expiry. Whatever else is registered was started with another call. -/
namespace EventLoop

variable {H : Type}

theorem due_mono {d : Option Instant} {t u : Instant} (h : d.any (· ≤ t) = true) (htu : t ≤ u) :
    d.any (· ≤ u) = true := by
  cases d with
  | none => cases h
  | some d =>
    have hd : d ≤ t := by simpa using h
    simpa using Int.le_trans hd htu

namespace Frame

/-- The calls that start an operation. -/
def initiates : Frame H → Bool
  | .call (.wait _ _) | .call (.start _ _ _ _ _) => true
  | _ => false

end Frame

section

variable {me : Nat} {s : Shared H} {active : List Executor} {o : Operation H} {e : Effect H}

theorem claimed_cases {r k : Nat} {taken : List (Frame H)} (hd : Deed me s active taken e)
    (hk : k ∈ claimedBy r s taken e) :
    ∃ o, taken = [.operation o] ∧ o.registry = r ∧ o.ticket = k ∧
      o.due.any (· ≤ s.now) = true := by
  unfold claimedBy at hk
  split at hk
  · rename_i hc
    obtain ⟨frames,hs,rfl⟩ | ⟨f,rfl,hr⟩ := hd.shift_or_rule
    · cases hs <;> cases hc
    · cases hr with
      | rewrite hr =>
        rw [removedBy,List.mem_filter] at hk
        exact absurd hk.1 (of_decide_eq_true hk.2)
      | claim o ho hl =>
        have hk := List.count_pos_iff.2 hk
        rw [count_removedBy_forget rfl] at hk
        split at hk
        · rename_i h
          exact ⟨o,rfl,h.1,h.2,ho⟩
        · exact absurd hk (Nat.lt_irrefl 0)
      | enqueue hf | take hf | runDry hf | sleep hf => cases hf <;> cases hc
      | _ => cases hc
  · exact absurd hk List.not_mem_nil

theorem initiates_of_enrol {taken : List (Frame H)} (hd : Deed me s active taken e)
    (h : .enrol o ∈ e.put) : ∃ f, taken = [f] ∧ f.initiates = true ∧ e.frames = [.enrol o] := by
  obtain ⟨frames,hs,rfl⟩ | ⟨f,rfl,hr⟩ := hd.shift_or_rule
  · cases hs with
    | cleanUp t f hc => cases f <;> simp_all [Frame.cleansUp,Effect.put]
    | _ => simp [Effect.put] at h
  refine ⟨f,rfl,?_⟩
  cases hr with
  | rewrite hr =>
    cases hr with
    | destroy hf => cases hf <;> simp [Effect.put,Frame.dropJob] at h
    | dropJobsCons j => cases j <;> simp [Effect.put,Frame.dropJob] at h
    | _ => simp [Effect.put] at h
  | take hf j => cases j <;> simp [Effect.put,Frame.execute] at h
  | wait | start =>
    simp only [Effect.put] at h ⊢
    rw [List.mem_singleton.1 h]
    exact ⟨rfl,rfl⟩
  | _ => simp [Effect.put] at h

end

namespace Machine

/-- The waits for timer `x` that an act starts, each with the expiry that the timer has. -/
def waited (x : Nat) (m : Machine H) (a : Act H) : List (Instant × Operation H) :=
  match a.taken, a.effect.frames with
  | [.call (.wait y _)], [.enrol o] =>
    if y = x ∧ x < m.shared.timers.size then [((m.shared.timers.get x).expiry, o)] else []
  | _, _ => []

/-- The operations that an act starts with another call than a wait for timer `x`. -/
def foreign (x : Nat) (m : Machine H) (a : Act H) : List (Operation H) :=
  match a.taken, a.effect.frames with
  | [f], [.enrol o] => if f.initiates && (m.waited x a).isEmpty then [o] else []
  | _, _ => []

variable {x : Nat} {moves : List (Move H)} {w : Instant × Operation H}

theorem waited_cases {m : Machine H} {a : Act H} (ha : a.Fits m) (hw : w ∈ m.waited x a) :
    x < m.shared.timers.size ∧ w.1 = (m.shared.timers.get x).expiry ∧ w.2.due = some w.1 ∧
      w.2.outcome = .elapsed ∧ w.2.registry = (m.shared.timers.get x).registry ∧
      a.effect.frames = [.enrol w.2] := by
  unfold waited at hw
  split at hw
  · rename_i y t o ht hf
    split at hw
    · rename_i hx
      obtain ⟨rfl,hx⟩ := hx
      obtain rfl := List.mem_singleton.1 hw
      have hd := ha.deed
      rw [ht] at hd
      have he := hf
      rw [hd.eq_step rfl] at he
      obtain rfl := Frame.enrol.inj (List.singleton_inj.1 he)
      exact ⟨hx,rfl,rfl,rfl,rfl,hf⟩
    · exact absurd hw List.not_mem_nil
  · exact absurd hw List.not_mem_nil

/-- A wait keeps the expiry that it found, and it is an operation of the timer's registry. -/
theorem stored_run (h : w ∈ history (waited x) moves) :
    x < (run moves).shared.timers.size ∧ w.2.due = some w.1 ∧ w.2.outcome = .elapsed ∧
      w.2.registry = ((run moves).shared.timers.get x).registry := by
  obtain ⟨xs,y,ys,a,rfl,hy,hw⟩ := exists_of_mem_history h
  obtain ⟨hx,-,hd,ho,hr,-⟩ := waited_cases (fits_of_act? hy) hw
  have hk := retains_after (run xs) (y :: ys)
  rw [← run_append] at hk
  exact ⟨Nat.lt_of_lt_of_le hx hk.timers,hd,ho,hr.trans (hk.registry x hx).symm⟩

theorem enrol_move {m : Machine H} (hm : ∀ i, (m.thread i).Sound) {i : Nat} {o : Operation H}
    (hf : .enrol o ∈ (m.thread i).frames) (y : Move H) :
    o ∈ m.noted enrolled y ∨ .enrol o ∈ ((m.move y).thread i).frames := by
  obtain ⟨fs,hfs⟩ := head_of_mem (hm i).stacked hf rfl
  have hn : (m.thread i).frames ≠ [] := by simp [hfs]
  obtain h | ⟨a,hy,ha,rfl,-⟩ := act_of_move hn y
  · exact Or.inr (h ▸ hf)
  · obtain ⟨ht,-⟩ := ha.deed.taken_of_head (by simp) (ha.frames.symm.trans hfs)
    rw [noted_of_act? hy,enrolled,ht]
    exact Or.inl List.mem_cons_self

theorem enrolled_of_put {xs : List (Move H)} {y : Move H} {a : Act H} {o : Operation H}
    (hy : (run xs).act? y = some a) (hf : .enrol o ∈ a.effect.frames) (zs : List (Move H)) :
    o ∈ history enrolled (xs ++ y :: zs) ∨
      ∃ i, .enrol o ∈ ((run (xs ++ y :: zs)).thread i).frames := by
  induction zs using List.reverseRecOn with
  | nil =>
    refine Or.inr ⟨a.thread,?_⟩
    rw [run_concat,move_of_act? hy,thread_perform_self]
    exact List.mem_append_left _ hf
  | append_singleton zs z ih =>
    rw [← List.cons_append,← List.append_assoc,history_concat,run_concat]
    obtain h | ⟨i,hi⟩ := ih
    · exact Or.inl (List.mem_append_left _ h)
    · obtain h | h := enrol_move (sound_run _) hi z
      · exact Or.inl (List.mem_append_right _ h)
      · exact Or.inr ⟨i,h⟩

theorem enrolled_of_waited (h : w ∈ history (waited x) moves) :
    w.2 ∈ history enrolled moves ∨ ∃ i, .enrol w.2 ∈ ((run moves).thread i).frames := by
  obtain ⟨xs,y,ys,a,rfl,hy,hw⟩ := exists_of_mem_history h
  obtain ⟨-,-,-,-,-,hf⟩ := waited_cases (fits_of_act? hy) hw
  exact enrolled_of_put hy (hf ▸ List.mem_cons_self) ys

theorem origin_of_frame {i : Nat} {o : Operation H}
    (hf : .enrol o ∈ ((run moves).thread i).frames) :
    (∃ w ∈ history (waited x) moves, w.2 = o) ∨ o ∈ history (foreign x) moves := by
  refine frames_induction (P := fun xs f => ∀ o, f = .enrol o →
    (∃ w ∈ history (waited x) xs, w.2 = o) ∨ o ∈ history (foreign x) xs) ?_ ?_ ?_ moves hf o rfl
  · intro xs y f h o ho
    obtain ⟨w,hw,rfl⟩ | h := h o ho
    · exact Or.inl ⟨w,mem_history_append hw _,rfl⟩
    · exact Or.inr (mem_history_append h _)
  · rintro xs u o ⟨⟩
  · rintro xs y a hy ha - f hf o rfl
    obtain ⟨f,ht,hi,he⟩ := initiates_of_enrol ha.deed hf
    rw [history_concat,history_concat,noted_of_act? hy,noted_of_act? hy]
    cases hw : (run xs).waited x a with
    | nil =>
      right
      apply List.mem_append_right
      simp [foreign,ht,he,hi,hw]
    | cons w ws =>
      have hm : w ∈ (run xs).waited x a := by simp [hw]
      obtain ⟨-,-,-,-,-,hwf⟩ := waited_cases ha hm
      refine Or.inl ⟨w,by simp,?_⟩
      exact Frame.enrol.inj (List.singleton_inj.1 (hwf.symm.trans he))

theorem origin_of_enrolled {o : Operation H} (ho : o ∈ history enrolled moves) :
    (∃ w ∈ history (waited x) moves, w.2 = o) ∨ o ∈ history (foreign x) moves := by
  obtain ⟨xs,y,ys,a,rfl,hy,hm⟩ := exists_of_mem_history ho
  have hf : .enrol o ∈ ((run xs).thread a.thread).frames := by
    unfold enrolled enrolledBy at hm
    split at hm
    · rename_i p ht
      rw [(fits_of_act? hy).frames,ht,List.mem_singleton.1 hm]
      exact List.mem_cons_self
    · exact absurd hm List.not_mem_nil
  obtain ⟨w,hw,rfl⟩ | h := origin_of_frame (x := x) hf
  · exact Or.inl ⟨w,mem_history_append hw _,rfl⟩
  · exact Or.inr (mem_history_append h _)

theorem eq_of_ticket {o p : Operation H} (ho : o ∈ history enrolled moves)
    (hp : p ∈ history enrolled moves) (hr : o.registry = p.registry) (ht : o.ticket = p.ticket) :
    o = p := by
  have hn := nodup_registered p.registry moves
  rw [registered_eq] at hn
  exact List.inj_on_of_nodup_map hn (List.mem_filter.2 ⟨ho,decide_eq_true hr⟩)
    (List.mem_filter.2 ⟨hp,decide_eq_true rfl⟩) ht

/-- An operation that has claimed its ticket is ready. -/
theorem due_of_claimed {o : Operation H} (ho : o ∈ history enrolled moves)
    (hk : o.ticket ∈ history (claimed o.registry) moves) :
    o.due.any (· ≤ (run moves).shared.now) = true := by
  obtain ⟨xs,y,ys,a,rfl,hy,hz⟩ := exists_of_mem_history hk
  have ha := fits_of_act? hy
  obtain ⟨p,ht,hr,hp,hd⟩ := claimed_cases ha.deed hz
  have hm : .operation p ∈ ((run xs).thread a.thread).frames := by simp [ha.frames,ht]
  obtain rfl : p = o := eq_of_ticket (mem_history_append (enrolled_of_mem hm rfl) _) ho hr hp
  rw [run_append]
  exact due_mono hd (retains_after (run xs) (y :: ys)).clock

end Machine
end EventLoop
