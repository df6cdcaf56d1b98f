import EventLoop.Proofs.Aborts
import EventLoop.Proofs.Progress
import EventLoop.Proofs.Tickets
import EventLoop.Proofs.Work

/-! Cancels and operations agree. However the operations of a registry finish and are cancelled,
each of them completes once, it reports that it was aborted just if a cancel removed its ticket,
and the cancels answer how many did. -/
namespace EventLoop

variable {H : Type}

namespace Frame

def starting? : Frame H → Option (Operation H)
  | .enrol o | .countStart o | .addWork o | .enlist o => some o
  | _ => none

def attends : Frame H → Bool
  | .call (.wait _ _) | .call (.start _ _ _ _ _) | .enrol _ => true
  | f => f.operation?.isSome

def isUser : Frame H → Bool
  | .call _ | .code _ _ _ => true
  | _ => false

end Frame

section

variable {me : Nat} {s : Shared H} {active : List Executor} {o : Operation H} {e : Effect H}

theorem mem_droppedBy_of_lost {taken : List (Frame H)} (hd : Deed me s active taken e)
    (h : o ∈ lostBy taken e.frames) : o ∈ droppedBy o.registry taken e.frames e.started := by
  unfold lostBy at h
  split at h
  · rename_i p t fs hf
    obtain rfl := List.mem_singleton.1 h
    have hs : e.started = none := by
      obtain ⟨frames,-,rfl⟩ | hr := hd.rule_of_singleton
      · rfl
      cases hr with
      | enlist | enlistFirst => cases hf
      | _ => rfl
    simp [droppedBy,hs]
  · rename_i p ts hf
    obtain rfl := List.mem_singleton.1 h
    simp [droppedBy,hf]
  · exact absurd h List.not_mem_nil

theorem reactor_closed_of_abandon {ts : List (Task H)} (hd : Deed me s active [.operation o] e)
    (he : e.frames = [.dropTasks ts]) : (s.loops.get o.home).reactor = .closed := by
  obtain ⟨frames,hs,rfl⟩ | hr := hd.rule_of_singleton
  · cases hs
  cases hr with
  | abandon o hc => exact hc
  | rewrite h =>
    cases h with
    | destroy hf | ended hf | overdue hf => cases hf
    | _ => cases he
  | enqueue hf | take hf | runDry hf | sleep hf => cases hf
  | _ => cases he

attribute [local simp] Effect.put Frame.isUser

theorem isUser_of_attends {f g : Frame H} (hd : Deed me s active [f] e)
    (hf : f.attends = true) (hg : g ∈ e.put) : g.isUser = false := by
  revert g
  obtain ⟨frames,hs,rfl⟩ | hr := hd.rule_of_singleton
  · cases hs <;> cases hf
  cases hr with
  | rewrite h =>
    cases h with
    | refuse | startPanic | claimLost | heeded | linger | completeClosed => simp
    | destroy hf' | ended hf' | overdue hf' => cases hf' <;> cases hf
    | _ => cases hf
  | wait | start | enrol | countStart | addWork | enlist | enlistFirst | abandon | claim
  | withdrawAborted | withdraw | countAbort | complete => simp
  | enqueue hf' | take hf' | runDry hf' | sleep hf' => cases hf' <;> cases hf
  | _ => cases hf

end

namespace Machine

def refused (r : Nat) (_ : Machine H) (a : Act H) : List (Operation H) :=
  match a.taken, a.effect.started with
  | [.enlist o], none => if o.registry = r then [o] else []
  | _, _ => []

/-- Nobody shuts down a loop that the operations of registry `r` complete on, and its reactor
takes them all. -/
structure Calm (r : Nat) (moves : List (Move H)) : Prop where
  owned : ∀ o ∈ history enrolled moves, o.registry = r →
    ((run moves).shared.loops.get o.home).closed = false
  taken : history (refused r) moves = []

variable {r : Nat} {xs moves : List (Move H)}

theorem Calm.of_concat {y : Move H} (h : Calm r (xs ++ [y])) : Calm r xs := by
  obtain ⟨ho,ht⟩ := h
  rw [history_concat] at ho ht
  refine ⟨?_,(List.append_eq_nil_iff.1 ht).1⟩
  intro o hm hr
  have hc := ho o (List.mem_append_left _ hm) hr
  rw [run_concat] at hc
  by_contra hn
  have hg := (grows_move (run xs) y).closed o.home (by simpa using hn)
  rw [hg] at hc
  exact Bool.noConfusion hc

/-- A reactor is shut down only after its loop. -/
theorem closed_of_reactor {c : Nat} (h : ((run moves).shared.loops.get c).reactor = .closed) :
    ((run moves).shared.loops.get c).closed = true := by
  apply (balanced_ledger c moves).reactor
  simp [ledger,Loop.lacksReactor,h]

theorem dropped_of_calm {y : Move H} {a : Act H} (ha : (run moves).act? y = some a)
    (h : Calm r moves) (hn : refused r (run moves) a = []) :
    dropped r (run moves) a = [] := by
  have hf := fits_of_act? ha
  unfold dropped droppedBy
  split
  · rename_i o ht hs
    simpa [refused,ht,hs] using hn
  · rename_i o ts ht hs
    split
    · rename_i hr
      have hd := hf.deed
      rw [ht] at hd
      have hm : .operation o ∈ ((run moves).thread a.thread).frames := by simp [hf.frames,ht]
      have hc := closed_of_reactor (reactor_closed_of_abandon hd hs)
      rw [h.owned o (enrolled_of_mem hm rfl) hr] at hc
      exact Bool.noConfusion hc
    · rfl
  · rfl

theorem Calm.dropped (h : Calm r moves) : history (dropped r) moves = [] := by
  induction moves using run_induction with
  | start => rfl
  | move xs y ih =>
    have hx := h.of_concat
    have ht := h.taken
    rw [history_concat] at ht ⊢
    rw [ih hx,List.nil_append]
    obtain ⟨a,hy,-,-⟩ | ⟨hy,-⟩ := move_cases (run xs) y
    · rw [noted_of_act? hy] at ht ⊢
      exact dropped_of_calm hy hx (List.append_eq_nil_iff.1 ht).2
    · exact noted_of_act?_none hy

theorem dropped_of_lost {o : Operation H} (h : o ∈ history lost moves) :
    o ∈ history (dropped o.registry) moves := by
  induction moves using run_induction with
  | start => exact absurd h List.not_mem_nil
  | move xs y ih =>
    rw [history_concat] at h ⊢
    obtain h | h := List.mem_append.1 h
    · exact List.mem_append_left _ (ih h)
    · apply List.mem_append_right
      obtain ⟨a,hy,ha,-⟩ | ⟨hy,-⟩ := move_cases (run xs) y
      · rw [noted_of_act? hy] at h ⊢
        exact mem_droppedBy_of_lost ha.deed h
      · rw [noted_of_act?_none hy] at h
        exact absurd h List.not_mem_nil

theorem Calm.forgotten (h : Calm r moves) : history (forgotten r) moves = [] := by
  apply List.eq_nil_iff_forall_not_mem.2
  intro k hk
  obtain ⟨-,-,-,-,-,-,hd,-⟩ := ticketCounts_run r k moves
  have hp := List.count_pos_iff.2 hk
  simp only [changes,h.dropped,List.countP_nil] at hd
  omega

theorem Calm.registered_perm (h : Calm r moves) : (history (registered r) moves).Perm
    (((run moves).shared.registries.get r).live ++ history (claimed r) moves ++
      history (cancelled r) moves) := by
  rw [List.perm_iff_count]
  intro k
  obtain ⟨-,-,hp,-⟩ := ticketCounts_run r k moves
  simp only [ticketCounts,changes,h.forgotten,List.count_nil] at hp
  simp only [List.count_append]
  omega

end Machine

/-- Whether two operations have the same ticket. -/
def Operation.twin (o p : Operation H) : Bool := p.registry = o.registry ∧ p.ticket = o.ticket

namespace Machine

variable {r : Nat} {moves : List (Move H)}

theorem countP_twin_le (o : Operation H) (moves : List (Move H)) :
    (history enrolled moves).countP o.twin ≤ 1 := by
  have hk := List.nodup_iff_count_le_one.1 (nodup_registered o.registry moves) o.ticket
  rw [List.count,countP_registered] at hk
  convert hk using 3 with q
  by_cases hq : q.ticket = o.ticket <;> simp [Operation.twin,hq]

theorem countP_reported_le (o : Operation H) (moves : List (Move H)) :
    (history reported moves).countP (fun x => o.twin x.1) ≤ 1 := by
  have hc := countP_enrolled o.twin moves
  rw [completed_eq,List.countP_map] at hc
  have hn := countP_twin_le o moves
  simp only [Function.comp_def] at hc
  omega

/-- An operation that has been registered is on its way or has completed, and only once. -/
theorem Calm.once (h : Calm r moves) {o : Operation H} (ho : o ∈ history enrolled moves)
    (hr : o.registry = r) :
    (run moves).weight (Frame.carries o.twin) +
      (history reported moves).countP (fun x => o.twin x.1) = 1 := by
  have hc := countP_enrolled o.twin moves
  rw [completed_eq,List.countP_map] at hc
  have hl : (history lost moves).countP o.twin = 0 := by
    rw [List.countP_eq_zero]
    intro p hp ht
    have hd := dropped_of_lost hp
    rw [show p.registry = r by simp_all [Operation.twin],h.dropped] at hd
    exact List.not_mem_nil hd
  have hn := countP_twin_le o moves
  have hp : 0 < (history enrolled moves).countP o.twin :=
    List.countP_pos_iff.2 ⟨o,ho,by simp [Operation.twin]⟩
  simp only [Function.comp_def] at hc
  omega

theorem signal_of_cancelled {k : Nat} (hk : k ∈ history (cancelled r) moves) :
    k ∈ ((run moves).shared.registries.get r).signalled ∨
      ∃ i ks fs, ((run moves).thread i).frames = .signal r ks :: fs ∧ k ∈ ks := by
  obtain ⟨-,-,-,-,-,-,-,hs⟩ := ticketCounts_run r k moves
  have hp := List.count_pos_iff.2 hk
  simp only [ticketCounts,changes] at hs
  by_cases hm : k ∈ ((run moves).shared.registries.get r).signalled
  · exact Or.inl hm
  · rw [List.count_eq_zero.2 hm] at hs
    have ht : 0 < (run moves).weight (Frame.signals r k) := by omega
    obtain ⟨i,hi⟩ := Table.exists_of_total_pos _ ht
    obtain ⟨f,hf,hw⟩ := Table.exists_of_weigh_pos hi
    cases f with
    | signal q ks =>
      simp only [Frame.signals] at hw
      split at hw
      · rename_i hq
        subst hq
        obtain ⟨fs,hfs⟩ := head_of_mem (sound_run moves i).stacked hf rfl
        exact Or.inr ⟨i,ks,fs,hfs,List.count_pos_iff.1 hw⟩
      · exact absurd hw (Nat.lt_irrefl 0)
    | _ => exact absurd hw (Nat.lt_irrefl 0)

theorem signalled_of_cancelled {k : Nat} (hk : k ∈ history (cancelled r) moves) :
    ∃ i n, k ∈ (((run moves).advance i n).shared.registries.get r).signalled := by
  obtain hs | ⟨i,ks,fs,hf,hk⟩ := signal_of_cancelled hk
  · exact ⟨0,0,hs⟩
  · obtain ⟨n,hn⟩ := signals_of_signal hf hk
    exact ⟨i,n,hn⟩

theorem starts_of_mem {i : Nat} {f : Frame H} {o : Operation H}
    (hf : f ∈ ((run moves).thread i).frames) (ho : f.starting? = some o)
    (hr : ((run moves).shared.loops.get o.home).reactor = .running) :
    ∃ fs, ((run moves).thread i).frames = f :: fs ∧ (run moves).Starts i o fs := by
  have hh (hn : f.rests = false) : ∃ fs, ((run moves).thread i).frames = f :: fs :=
    head_of_mem (sound_run moves i).stacked hf hn
  cases f with
  | enrol p =>
    obtain rfl := Option.some.inj ho
    obtain ⟨fs,hfs⟩ := hh rfl
    exact ⟨fs,hfs,starts_of_enrol hfs hr⟩
  | countStart p =>
    obtain rfl := Option.some.inj ho
    obtain ⟨fs,hfs⟩ := hh rfl
    exact ⟨fs,hfs,starts_of_countStart hfs hr⟩
  | addWork p =>
    obtain rfl := Option.some.inj ho
    obtain ⟨fs,hfs⟩ := hh rfl
    exact ⟨fs,hfs,starts_of_addWork hfs hr⟩
  | enlist p =>
    obtain rfl := Option.some.inj ho
    obtain ⟨fs,hfs⟩ := hh rfl
    exact ⟨fs,hfs,starts_of_enlist hfs hr⟩
  | _ => cases ho

theorem queues_of_outcome {i : Nat} {f : Frame H} {o : Operation H} {q : Outcome}
    (hf : f ∈ ((run moves).thread i).frames) (ho : f.outcome? = some (o, q))
    (hc : ((run moves).shared.loops.get o.home).closed = false) : (run moves).Queues i o := by
  have hh (hn : f.rests = false) : ∃ fs, ((run moves).thread i).frames = f :: fs :=
    head_of_mem (sound_run moves i).stacked hf hn
  cases f with
  | withdraw p w =>
    cases ho
    obtain ⟨fs,hfs⟩ := hh rfl
    exact queues_of_withdraw hfs hc
  | countAbort p w =>
    cases ho
    obtain ⟨fs,hfs⟩ := hh rfl
    exact queues_of_countAbort hfs hc
  | complete p w =>
    cases ho
    obtain ⟨fs,hfs⟩ := hh rfl
    exact queues_of_complete hfs hc
  | _ => cases ho

theorem queues_of_ready {i : Nat} {o : Operation H}
    (hf : .operation o ∈ ((run moves).thread i).frames)
    (hc : ((run moves).shared.loops.get o.home).closed = false)
    (hd : o.due.any (· ≤ (run moves).shared.now) = true ∨
      o.ticket ∈ ((run moves).shared.registries.get o.registry).signalled) :
    (run moves).Queues i o := by
  obtain ⟨fs,hfs⟩ := head_of_mem (sound_run moves i).stacked hf rfl
  refine queues_of_operation hfs hc ?_ hd
  intro hr
  rw [closed_of_reactor hr] at hc
  exact Bool.noConfusion hc

/-- What the operations of registry `r` and those who cancel them agree on. -/
structure Agreement (r : Nat) (moves : List (Move H)) : Prop where
  /-- An operation that is started is on its way or has completed, and only once. -/
  once : ∀ o ∈ history enrolled moves, o.registry = r →
    (run moves).weight (Frame.carries o.twin) +
      (history reported moves).countP (fun x => o.twin x.1) = 1
  started : ∀ x ∈ history reported moves, x.1 ∈ history enrolled moves
  /-- With its completion the handler is queued once, with what the operation reports. -/
  queued : ∀ y a o q, (run moves).act? y = some a → a.taken = [.complete o q] → o.registry = r →
    (((run moves).move y).shared.loops.get o.home).queue =
      ((run moves).shared.loops.get o.home).queue ++ [.task (o.task.deliver q)]
  apart : ∀ y a f, (run moves).act? y = some a → a.taken = [f] → f.attends = true →
    ∀ g ∈ a.effect.put, g.isUser = false
  /-- An operation in flight goes on as a thread of its own. -/
  beside : ∀ i o fs, ((run moves).thread i).frames = .operation o :: fs → fs = []
  /-- Whoever gives up a ticket decides what its operation reports. -/
  reports : ∀ x ∈ history reported moves, x.1.registry = r →
    (x.2 = .failed .aborted ↔ x.1.ticket ∈ history (cancelled r) moves ∨
      x.1.outcome = .failed .aborted) ∧ (x.2 = .failed .aborted ∨ x.2 = x.1.outcome)
  /-- The cancels answer how many operations they cancelled. -/
  counts : (history (answered r) moves).sum = (history enrolled moves).countP fun o =>
    decide (o.registry = r) && decide (o.ticket ∈ history (cancelled r) moves)
  /-- Cancelling one operation takes the least of the live tickets. -/
  least : ∀ y a, (run moves).act? y = some a → a.taken = [.call (.cancelFirst r)] →
    ((run moves).cancelled r a = [] ∧ ((run moves).shared.registries.get r).live = []) ∨
      ∃ k, (run moves).cancelled r a = [k] ∧ ((run moves).shared.registries.get r).live =
          k :: (((run moves).move y).shared.registries.get r).live ∧
        ∀ j ∈ (((run moves).move y).shared.registries.get r).live, k < j
  pending : ((run moves).shared.registries.get r).pending + (history (claimed r) moves).length +
    (history (cancelled r) moves).length = (history (registered r) moves).length
  /-- A loop counts the aborted operations of all registries, each just before it completes. -/
  aborted : ∀ c, ((run moves).shared.loops.get c).counters.aborted =
    (history reported moves).countP (abortedOn c) + (run moves).weight (Frame.aborting c)
  signalled : ∀ k ∈ history (cancelled r) moves,
    ∃ i n, k ∈ (((run moves).advance i n).shared.registries.get r).signalled
  starts : ∀ i f o, f ∈ ((run moves).thread i).frames → f.starting? = some o →
    ((run moves).shared.loops.get o.home).reactor = .running →
      ∃ fs, ((run moves).thread i).frames = f :: fs ∧ (run moves).Starts i o fs
  /-- An operation that is ready, signalled or over gets its handler queued. -/
  finishes : ∀ i f o, f ∈ ((run moves).thread i).frames → o.registry = r →
    (∃ q, f.outcome? = some (o, q)) ∨ f = .operation o ∧
      (o.due.any (· ≤ (run moves).shared.now) = true ∨
        o.ticket ∈ ((run moves).shared.registries.get r).signalled) →
    (run moves).Queues i o

theorem agreement_run (r : Nat) (moves : List (Move H)) (h : Calm r moves) : Agreement r moves where
  once _ ho hr := h.once ho hr
  started x hx := by
    apply enrolled_of_completed
    rw [completed_eq]
    exact List.mem_map_of_mem hx
  queued y a o q ha ht hr := by
    have hf := fits_of_act? ha
    have hd := hf.deed
    rw [ht] at hd
    have hm : .complete o q ∈ ((run moves).thread a.thread).frames := by simp [hf.frames,ht]
    have hc := h.owned o (enrolled_of_mem hm rfl) hr
    rw [move_of_act? ha,shared_perform,hd.eq_step rfl]
    simp [Frame.step,hc,Shared.onLoop,Loop.enqueueCompletion]
  apart y a f ha ht hf g hg := by
    have hd := (fits_of_act? ha).deed
    rw [ht] at hd
    exact isUser_of_attends hd hf hg
  beside i o fs hf := by
    have hs := (sound_run moves i).stacked
    rw [hf] at hs
    exact hs.1.2.2.2 rfl
  reports x hx hr := by
    subst hr
    exact outcome_iff h.dropped (justified_reported hx)
  counts := by rw [sum_answered,countP_cancelled]
  least _ _ ha ht := cancelled_first ha ht
  pending := by
    have hl := h.registered_perm.length_eq
    simp only [List.length_append] at hl
    exact hl.symm
  aborted c := aborted_run c moves
  signalled _ hk := signalled_of_cancelled hk
  starts _ _ _ hf ho hr := starts_of_mem hf ho hr
  finishes i f o hf hr hd := by
    subst hr
    obtain ⟨q,hq⟩ | ⟨rfl,hd⟩ := hd
    · have ho : f.operation? = some o := by
        cases f <;> simp_all [Frame.outcome?,Frame.operation?]
      exact queues_of_outcome hf hq (h.owned o (enrolled_of_mem hf ho) rfl)
    · exact queues_of_ready hf (h.owned o (enrolled_of_mem hf rfl) rfl) hd

def cancelledWait : List (Move Unit) :=
  [.addLoop {}, .addTimer 0 5, .spawn (), .call 0 (.wait 0 (.body () none)), .step 0, .step 0,
    .step 0, .step 0, .step 0, .call 0 (.cancelFirst 0), .step 0, .receive 0, .step 1, .step 1,
    .step 1, .step 1]

theorem agreement_cancelledWait :
    Calm 0 cancelledWait ∧ (history reported cancelledWait).map Prod.snd = [.failed .aborted] ∧
      Agreement 0 cancelledWait := by
  have ho (c : Nat) : ((run cancelledWait).shared.loops.get c).closed = false := by
    cases c with
    | zero => rfl
    | succ c => rfl
  have hc : Calm 0 cancelledWait := ⟨fun o _ _ => ho o.home,rfl⟩
  exact ⟨hc,by decide,agreement_run 0 cancelledWait hc⟩

end Machine
end EventLoop
