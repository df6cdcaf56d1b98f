import EventLoop.Proofs.Conclusion
import EventLoop.Proofs.Expiry

/-! Calls that revoke the waits for a timer: they move its expiry, cancel its waits or drop it. Such
a call answers how many waits it has found and no wait that it has found elapses any more, however
the waits, the calls and the clock interleave. Main statement: `timely_run`. -/
namespace EventLoop

variable {H : Type}

/-- Whether a call revokes every wait for timer `x`. A timer that is dropped cancels them all. -/
def Call.revokes (x : Nat) (s : Shared H) : Call H → Bool
  | .expire y _ => y = x
  | .cancelAll r => r = (s.timers.get x).registry
  | _ => false

namespace Machine

theorem enrolled_of_dropped {r : Nat} {moves : List (Move H)} {o : Operation H}
    (h : o ∈ history (dropped r) moves) : o.registry = r ∧ o ∈ history enrolled moves := by
  obtain ⟨xs,y,ys,a,rfl,hy,hd⟩ := exists_of_mem_history h
  have hf := (fits_of_act? hy).frames
  have hm {f : Frame H} (ht : a.taken = [f]) (ho : f.operation? = some o) :
      o ∈ history enrolled (xs ++ y :: ys) := by
    refine mem_history_append (enrolled_of_mem (i := a.thread) (f := f) ?_ ho) _
    simp [hf,ht]
  unfold dropped droppedBy at hd
  split at hd
  · rename_i p ht hs
    split at hd
    · rename_i hr
      obtain rfl := List.mem_singleton.1 hd
      exact ⟨hr,hm ht rfl⟩
    · exact absurd hd List.not_mem_nil
  · rename_i p ts ht hs
    split at hd
    · rename_i hr
      obtain rfl := List.mem_singleton.1 hd
      exact ⟨hr,hm ht rfl⟩
    · exact absurd hd List.not_mem_nil
  · exact absurd hd List.not_mem_nil

/-- The operations of registry `r` that have been registered and whose ticket nobody has removed. -/
def waiting (r : Nat) (moves : List (Move H)) : List (Operation H) :=
  (history enrolled moves).filter fun o => o.registry = r ∧
    o.ticket ∉ history (claimed r) moves ∧ o.ticket ∉ history (cancelled r) moves ∧
      o.ticket ∉ history (forgotten r) moves

variable {r k : Nat} {moves : List (Move H)} {o : Operation H} {q : Outcome}

theorem mem_waiting : o ∈ waiting r moves ↔ o ∈ history enrolled moves ∧ o.registry = r ∧
    o.ticket ∉ history (claimed r) moves ∧ o.ticket ∉ history (cancelled r) moves ∧
      o.ticket ∉ history (forgotten r) moves := by
  simp [waiting]

theorem mem_registered : k ∈ history (registered r) moves ↔
    ∃ o ∈ history enrolled moves, o.registry = r ∧ o.ticket = k := by
  simp [registered_eq,and_assoc]

theorem mem_live_iff : k ∈ ((run moves).shared.registries.get r).live ↔
    k ∈ history (registered r) moves ∧ k ∉ history (claimed r) moves ∧
      k ∉ history (cancelled r) moves ∧ k ∉ history (forgotten r) moves := by
  obtain ⟨hd,hr,hp,-⟩ := ticketCounts_run r k moves
  simp only [ticketCounts,changes] at hd hr hp
  simp only [← List.count_pos_iff]
  omega

theorem live_perm (r : Nat) (moves : List (Move H)) :
    ((run moves).shared.registries.get r).live.Perm ((waiting r moves).map Operation.ticket) := by
  have hn : ((waiting r moves).map Operation.ticket).Nodup := by
    refine (nodup_registered r moves).sublist ?_
    rw [registered_eq]
    refine List.Sublist.map _ (List.monotone_filter_right _ ?_)
    intro o ho
    simp_all
  refine (List.perm_ext_iff_of_nodup ?_ hn).2 ?_
  · exact (pairwise_live r moves).imp Nat.ne_of_lt
  · intro k
    rw [mem_live_iff,mem_registered,List.mem_map]
    constructor
    · rintro ⟨⟨o,ho,hr,rfl⟩,hc⟩
      exact ⟨o,mem_waiting.2 ⟨ho,hr,hc⟩,rfl⟩
    · rintro ⟨o,ho,rfl⟩
      obtain ⟨ho,hr,hc⟩ := mem_waiting.1 ho
      exact ⟨⟨o,ho,hr,rfl⟩,hc⟩

theorem not_claimed_of_gone (h : k ∈ history (cancelled r) moves ∨ k ∈ history (forgotten r) moves) :
    k ∉ history (claimed r) moves := by
  obtain ⟨hd,hr,hp,-⟩ := ticketCounts_run r k moves
  simp only [ticketCounts,changes] at hd hr hp
  simp only [← List.count_pos_iff] at h ⊢
  omega

theorem dropped_of_forgotten (ho : o ∈ history enrolled moves)
    (hk : o.ticket ∈ history (forgotten o.registry) moves) :
    o ∈ history (dropped o.registry) moves := by
  obtain ⟨-,-,-,-,-,-,hd,-⟩ := ticketCounts_run o.registry o.ticket moves
  have hc : 0 < (history (dropped o.registry) moves).countP (·.ticket = o.ticket) := by
    apply hd
    have hk := List.count_pos_iff.2 hk
    simp only [changes]
    omega
  obtain ⟨p,hp,ht⟩ := List.countP_pos_iff.1 hc
  obtain ⟨hr,hm⟩ := enrolled_of_dropped hp
  obtain rfl := eq_of_ticket hm ho hr (of_decide_eq_true ht)
  exact hp

theorem aborted_of_reported (h : (o, q) ∈ history reported moves)
    (hc : o.ticket ∉ history (claimed o.registry) moves) :
    q = .failed .aborted ∨ (∃ v, q = .failed v) ∧ o ∈ history (dropped o.registry) moves := by
  cases justified_reported h with
  | own hr hk => exact absurd hk hc
  | aborted hr hk => exact Or.inl hr
  | refused v hr hw hd => exact Or.inr ⟨⟨v,hr⟩,hd⟩

section

variable {m : Machine H} {a : Act H} {x : Nat} {c : Call H}

theorem revoke_act (ha : a.Fits m) (ht : a.taken = [.call c]) (hc : c.revokes x m.shared = true) :
    m.cancelled (m.shared.timers.get x).registry a =
        (m.shared.registries.get (m.shared.timers.get x).registry).live ∧
      a.effect.frames = Frame.revoke m.shared (m.shared.timers.get x).registry := by
  have hd := ha.deed
  rw [ht] at hd
  rw [hd.eq_step rfl,cancelled,ht]
  cases c with
  | expire y t =>
    obtain rfl := of_decide_eq_true hc
    exact ⟨if_pos rfl,rfl⟩
  | cancelAll s =>
    obtain rfl := of_decide_eq_true hc
    exact ⟨if_pos rfl,rfl⟩
  | _ => cases hc

end

/-- A call of thread `i` that has removed the tickets `ks` sends their signals, the first of them
already. -/
def Sends (r : Nat) (ks : List Nat) (i : Nat) (below : List (Frame H)) (m : Machine H) : Prop :=
  ∃ js ls, ks = js ++ ls ∧ (∀ k ∈ js, k ∈ (m.shared.registries.get r).signalled) ∧
    (m.thread i).frames = .signal r ls :: .reply (.count ks.length) :: below

/-- The call has sent all signals and answers how many. -/
def Answers (r : Nat) (ks : List Nat) (i : Nat) (below : List (Frame H)) (m : Machine H) : Prop :=
  (∀ k ∈ ks, k ∈ (m.shared.registries.get r).signalled) ∧
    (m.thread i).frames = .reply (.count ks.length) :: below

section

variable {i : Nat} {ks js : List Nat} {below : List (Frame H)} {xs : List (Move H)}

theorem sent_concat {y : Move H} {l : Nat}
    (hs : ∀ k ∈ js, k ∈ ((run xs).shared.registries.get r).signalled)
    (hl : l ∈ ((run (xs ++ [y])).shared.registries.get r).signalled) :
    ∀ k ∈ js ++ [l], k ∈ ((run (xs ++ [y])).shared.registries.get r).signalled := by
  intro k hk
  obtain hk | hk := List.mem_append.1 hk
  · exact signalled_concat (hs k hk) y
  · exact List.mem_singleton.1 hk ▸ hl

theorem sends_concat (h : (run xs).Sends r ks i below) (y : Move H) :
    (run (xs ++ [y])).Sends r ks i below ∨ (run (xs ++ [y])).Answers r ks i below := by
  obtain ⟨js,ls,hk,hs,hf⟩ := h
  have hkeep (k : Nat) (hj : k ∈ js) := signalled_concat (hs k hj) y
  have hn : ((run xs).thread i).frames ≠ [] := by simp [hf]
  obtain hm | ⟨a,hy,ha,rfl,hm⟩ := act_of_move hn y
  · refine Or.inl ⟨js,ls,hk,hkeep,?_⟩
    rw [run_concat,hm,hf]
  obtain ⟨-,hr,he⟩ := ha.eq_step hf rfl
  rw [he,hr,← run_concat] at hm
  cases ls with
  | nil => exact Or.inr ⟨by simpa [hk] using hkeep,congrArg Thread.frames hm⟩
  | cons l ls =>
    refine Or.inl ⟨js ++ [l],ls,by simp [hk],sent_concat hs ?_,congrArg Thread.frames hm⟩
    rw [run_concat,move_of_act? hy,shared_perform,he]
    exact signalled_signal _ _ _

theorem until_answers (ys : List (Move H)) (h : (run xs).Sends r ks i below) :
    Until (Sends r ks i below) (fun m _ => Answers r ks i below m) (run xs) ys := by
  refine until_of_step (I := fun m _ => ∃ us, m = run us) ?_ ?_ ys ⟨xs,rfl⟩ h
  · rintro m y ys ⟨us,rfl⟩
    exact ⟨us ++ [y],(run_concat us y).symm⟩
  · rintro m y ys ⟨us,rfl⟩ hs
    rw [← run_concat]
    exact sends_concat hs y

theorem answers_of_sends (h : (run xs).Sends r ks i below) :
    ∃ n, ((run xs).advance i n).Answers r ks i below := by
  obtain ⟨js,ls,rfl,hs,hf⟩ := h
  induction ls generalizing js xs with
  | nil =>
    refine ⟨1,?_⟩
    have ha : (run xs).advance i 1 = run (xs ++ [.step i]) := (run_concat xs (.step i)).symm
    rw [ha]
    refine ⟨?_,frames_run_step hf rfl⟩
    intro k hk
    exact signalled_concat (hs k (by simpa using hk)) _
  | cons l ls ih =>
    have hl : l ∈ ((run (xs ++ [.step i])).shared.registries.get r).signalled := by
      rw [run_concat,shared_move_step hf rfl]
      exact signalled_signal _ _ _
    have hn : ((run (xs ++ [.step i])).thread i).frames =
        .signal r ls :: .reply (.count (js ++ [l] ++ ls).length) :: below := by
      rw [List.append_assoc]
      exact frames_run_step hf rfl
    obtain ⟨n,hn⟩ := ih (js ++ [l]) (sent_concat hs hl) hn
    refine ⟨n + 1,?_⟩
    rw [advance_succ,← run_concat]
    simpa using hn

end

/-- An operation reports nothing but that it was aborted, and by some steps of threads it does,
unless its reactor drops it. -/
structure Aborts (o : Operation H) (moves : List (Move H)) : Prop where
  only : ∀ q, (o, q) ∈ history reported moves →
    q = .failed .aborted ∨ (∃ v, q = .failed v) ∧ o ∈ history (dropped o.registry) moves
  ends : Served o moves → ∃ us, (∀ u ∈ us, ∃ i, u = .step i) ∧
    (o, .failed .aborted) ∈ history reported (moves ++ us)

/-- What follows once act `a` of move `y` has revoked the waits for timer `x`, after the moves `xs`
and whatever the moves `zs` after it. -/
structure Revoked (x : Nat) (xs : List (Move H)) (y : Move H) (a : Act H) (zs : List (Move H)) :
    Prop where
  /-- The call answers how many operations it has found waiting, as soon as it has sent their
  signals, and does nothing else before. -/
  answers : ∃ ks : List Nat,
    ks.Perm ((waiting ((run xs).shared.timers.get x).registry xs).map Operation.ticket) ∧
    Until (Sends ((run xs).shared.timers.get x).registry ks a.thread a.rest)
      (fun m _ => Answers ((run xs).shared.timers.get x).registry ks a.thread a.rest m)
      (run (xs ++ [y])) zs ∧
    ∃ n, ((run (xs ++ [y])).advance a.thread n).Answers
      ((run xs).shared.timers.get x).registry ks a.thread a.rest
  /-- Every operation that it has found waiting aborts. -/
  aborts : ∀ o ∈ waiting ((run xs).shared.timers.get x).registry xs, Aborts o (xs ++ y :: zs)
  /-- A wait that was registered before has claimed its ticket at an expiry that the clock had
  reached before the call, or it aborts. -/
  final : ∀ w ∈ history (waited x) xs, w.2 ∈ history enrolled xs →
    (w.2.ticket ∈ history (claimed w.2.registry) xs ∧ w.1 ≤ (run xs).shared.now) ∨
      Aborts w.2 (xs ++ y :: zs)

/-- What timer `x` promises to those who wait for it. -/
structure Timely (x : Nat) (moves : List (Move H)) : Prop where
  /-- A wait keeps the expiry that the timer has when it is started, and it is an operation of the
  timer's registry. -/
  stored : ∀ w ∈ history (waited x) moves, w.2.due = some w.1 ∧
    w.2.registry = ((run moves).shared.timers.get x).registry
  /-- An operation is a wait for the timer unless it was started with another call. -/
  origin : ∀ o ∈ history enrolled moves,
    (∃ w ∈ history (waited x) moves, w.2 = o) ∨ o ∈ history (foreign x) moves
  /-- A wait that is not registered yet is still inside of its call. -/
  registered : ∀ w ∈ history (waited x) moves, w.2 ∈ history enrolled moves ∨
    ∃ i fs, ((run moves).thread i).frames = .enrol w.2 :: fs
  /-- A wait reports that it has elapsed if it has claimed its ticket, at an expiry that the clock
  has reached, and that it was aborted if a cancel has removed its ticket. -/
  reports : ∀ w ∈ history (waited x) moves, ∀ q, (w.2, q) ∈ history reported moves →
    (q = .elapsed ∧ w.1 ≤ (run moves).shared.now ∧
      w.2.ticket ∈ history (claimed w.2.registry) moves) ∨
    (q = .failed .aborted ∧ w.2.ticket ∈ history (cancelled w.2.registry) moves) ∨
    ((∃ v, q = .failed v) ∧ w.2 ∈ history (dropped w.2.registry) moves)
  /-- A call that moves the expiry or cancels all waits revokes them. -/
  revoked : ∀ xs y zs a c, moves = xs ++ y :: zs → (run xs).act? y = some a →
    a.taken = [.call c] → c.revokes x (run xs).shared = true → Revoked x xs y a zs

variable {x : Nat} {w : Instant × Operation H} {xs : List (Move H)} {y : Move H} {a : Act H}
  {c : Call H}

theorem expiry_le_of_claimed (hw : w ∈ history (waited x) moves) (ho : w.2 ∈ history enrolled moves)
    (hk : w.2.ticket ∈ history (claimed w.2.registry) moves) : w.1 ≤ (run moves).shared.now := by
  obtain ⟨-,hd,-⟩ := stored_run hw
  have hr := due_of_claimed ho hk
  rw [hd] at hr
  exact of_decide_eq_true hr

theorem reports_run (hw : w ∈ history (waited x) moves) (h : (w.2, q) ∈ history reported moves) :
    (q = .elapsed ∧ w.1 ≤ (run moves).shared.now ∧
      w.2.ticket ∈ history (claimed w.2.registry) moves) ∨
    (q = .failed .aborted ∧ w.2.ticket ∈ history (cancelled w.2.registry) moves) ∨
    ((∃ v, q = .failed v) ∧ w.2 ∈ history (dropped w.2.registry) moves) := by
  have ho : w.2 ∈ history enrolled moves := enrolled_of_reported h
  cases justified_reported h with
  | own hr hk =>
    obtain ⟨-,-,he,-⟩ := stored_run hw
    exact Or.inl ⟨hr.trans he,expiry_le_of_claimed hw ho hk,hk⟩
  | aborted hr hk => exact Or.inr (Or.inl ⟨hr,hk⟩)
  | refused v hr hv hd => exact Or.inr (Or.inr ⟨⟨v,hr⟩,hd⟩)

theorem aborts_of_cancelled (ho : o ∈ history enrolled moves)
    (hk : o.ticket ∈ history (cancelled o.registry) moves) : Aborts o moves where
  only _ h := aborted_of_reported h (not_claimed_of_gone (Or.inl hk))
  ends h := by
    obtain ⟨us,hs,hc,hd,-⟩ := completes_of_cancelled ho hk h
    rw [completed_eq] at hc
    obtain ⟨⟨p,q⟩,hq,rfl⟩ := List.mem_map.1 hc
    have hn := not_claimed_of_gone (Or.inl (mem_history_append hk us))
    obtain rfl | ⟨-,hp⟩ := aborted_of_reported hq hn
    · exact ⟨us,hs,hq⟩
    · exact absurd hp hd

theorem aborts_of_forgotten (ho : o ∈ history enrolled moves)
    (hk : o.ticket ∈ history (forgotten o.registry) moves) : Aborts o moves where
  only _ h := aborted_of_reported h (not_claimed_of_gone (Or.inr hk))
  ends h := absurd (dropped_of_forgotten ho hk) h.kept

section

variable (hy : (run xs).act? y = some a) (ht : a.taken = [.call c])
  (hc : c.revokes x (run xs).shared = true)

include hy ht hc

theorem cancelled_of_live
    (hk : k ∈ ((run xs).shared.registries.get ((run xs).shared.timers.get x).registry).live)
    (zs : List (Move H)) :
    k ∈ history (cancelled ((run xs).shared.timers.get x).registry) (xs ++ y :: zs) := by
  obtain ⟨hr,-⟩ := revoke_act (fits_of_act? hy) ht hc
  have h : k ∈ history (cancelled ((run xs).shared.timers.get x).registry) (xs ++ [y]) := by
    rw [history_concat,noted_of_act? hy,hr]
    exact List.mem_append_right _ hk
  simpa using mem_history_append h zs

theorem sends_of_revoke : (run (xs ++ [y])).Sends ((run xs).shared.timers.get x).registry
    ((run xs).shared.registries.get ((run xs).shared.timers.get x).registry).live a.thread a.rest := by
  obtain ⟨-,he⟩ := revoke_act (fits_of_act? hy) ht hc
  refine ⟨[],_,rfl,fun _ hk => absurd hk List.not_mem_nil,?_⟩
  rw [run_concat,move_of_act? hy,thread_perform_self,he]
  rfl

theorem aborts_of_revoke (hr : o.registry = ((run xs).shared.timers.get x).registry)
    (ho : o ∈ history enrolled xs) (hn : o.ticket ∉ history (claimed o.registry) xs)
    (zs : List (Move H)) : Aborts o (xs ++ y :: zs) := by
  have hm := mem_history_append ho (y :: zs)
  by_cases hx : o.ticket ∈ history (cancelled o.registry) xs
  · exact aborts_of_cancelled hm (mem_history_append hx _)
  by_cases hf : o.ticket ∈ history (forgotten o.registry) xs
  · exact aborts_of_forgotten hm (mem_history_append hf _)
  · have hl := mem_live_iff.2 ⟨mem_registered.2 ⟨o,ho,rfl,rfl⟩,hn,hx,hf⟩
    rw [hr] at hl
    exact aborts_of_cancelled hm (hr ▸ cancelled_of_live hy ht hc hl zs)

theorem revoked_of_act (zs : List (Move H)) : Revoked x xs y a zs where
  answers := by
    have hs := sends_of_revoke hy ht hc
    exact ⟨_,live_perm _ _,until_answers zs hs,answers_of_sends hs⟩
  aborts o ho := by
    obtain ⟨hm,hr,hn,-⟩ := mem_waiting.1 ho
    exact aborts_of_revoke hy ht hc hr hm (hr ▸ hn) zs
  final w hw ho := by
    obtain ⟨-,-,-,hr⟩ := stored_run hw
    by_cases hn : w.2.ticket ∈ history (claimed w.2.registry) xs
    · exact Or.inl ⟨hn,expiry_le_of_claimed hw ho hn⟩
    · exact Or.inr (aborts_of_revoke hy ht hc hr ho hn zs)

end

theorem timely_run (x : Nat) (moves : List (Move H)) : Timely x moves where
  stored w hw := by
    obtain ⟨-,hd,-,hr⟩ := stored_run hw
    exact ⟨hd,hr⟩
  origin _ ho := origin_of_enrolled ho
  registered w hw := by
    obtain h | ⟨i,hi⟩ := enrolled_of_waited hw
    · exact Or.inl h
    · exact Or.inr ⟨i,head_of_mem (sound_run moves i).stacked hi rfl⟩
  reports w hw q h := reports_run hw h
  revoked xs y zs a c _ hy ht hc := revoked_of_act hy ht hc zs

def postponed : List (Move Unit) :=
  [.addLoop {}, .addTimer 0 5, .spawn (), .call 0 (.wait 0 (.body () none)), .step 0, .step 0,
    .step 0, .step 0, .step 0, .call 0 (.expire 0 100), .step 0, .clock 200, .step 1, .step 1,
    .step 1, .step 1]

/-- The clock passes both expiries before the wait hears of the signal. It aborts all the same. -/
example : (history (waited 0) postponed).map Prod.fst = [5] ∧
    (history reported postponed).map Prod.snd = [.failed .aborted] := by decide

end Machine
end EventLoop
