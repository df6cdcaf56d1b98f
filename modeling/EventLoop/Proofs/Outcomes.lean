import EventLoop.Proofs.TicketCounts
import EventLoop.Proofs.OperationCounts

/-! What operations report. A frame that brings the outcome of an operation on its way says that
the operation was cancelled just if a cancel removed its ticket. -/
namespace EventLoop

variable {H : Type}

def Frame.outcome? : Frame H → Option (Operation H × Outcome)
  | .withdraw o r | .countAbort o r | .complete o r => some (o, r)
  | _ => none

/-- Where an outcome that an effect brings comes from: from a frame that brought it before, from
the operation itself, or from a reactor that does not take the operation. -/
inductive OutcomeSource (s : Shared H) (taken : List (Frame H)) (e : Effect H) (o : Operation H)
    (r : Outcome) : Prop
  | old (f : Frame H) (hf : f ∈ taken) (h : f.outcome? = some (o, r))
  | own (ht : taken = [.operation o]) (hr : r = o.outcome)
      (hl : o.ticket ∈ claimedBy o.registry s taken e)
  | aborted (ht : taken = [.operation o]) (hr : r = .failed .aborted)
      (hs : o.ticket ∉ (s.registries.get o.registry).live ∨
        o.ticket ∈ (s.registries.get o.registry).signalled)
  | refused (w : Failure) (hr : r = .failed w) (hw : w ≠ .aborted)
      (hd : o ∈ droppedBy o.registry taken e.frames e.started)

section

variable {me : Nat} {s : Shared H} {active : List Executor}

def NoOutcome (fs : List (Frame H)) : Prop := ∀ f ∈ fs, f.outcome? = none

attribute [local simp] NoOutcome Effect.put Frame.outcome?

variable {o q : Operation H} {r : Outcome} {f g : Frame H}

theorem outcomeSource_of_noOutcome {taken : List (Frame H)} {e : Effect H} (hs : NoOutcome e.put)
    (hf : f ∈ e.put) (h : f.outcome? = some (o, r)) : OutcomeSource s taken e o r := by
  rw [hs f hf] at h
  cases h

theorem outcomeSource_of_old {e : Effect H} {k : Frame H} (hp : e.put = [k])
    (hk : k.outcome? = g.outcome?) (hf : f ∈ e.put) (h : f.outcome? = some (o, r)) :
    OutcomeSource s [g] e o r := by
  rw [hp,List.mem_singleton] at hf
  subst hf
  exact .old g List.mem_cons_self (hk ▸ h)

theorem outcomeSource_claim (hl : o.ticket ∈ (s.registries.get o.registry).live) {e : Effect H}
    (hs : e.shared = s.onRegistry o.registry (Registry.forget o.ticket))
    (hp : e.frames = [.withdraw o o.outcome]) (hn : e.started = none) (hf : f ∈ e.put)
    (h : f.outcome? = some (q, r)) : OutcomeSource s [.operation o] e q r := by
  simp [hp,hn] at hf
  subst hf
  simp at h
  obtain ⟨rfl,rfl⟩ := h
  refine .own rfl rfl ?_
  simp [claimedBy,concludes,removedBy,hs,hp,hl,Shared.onRegistry,Registry.forget]

theorem outcomeSource_aborted (hs : o.ticket ∉ (s.registries.get o.registry).live ∨
      o.ticket ∈ (s.registries.get o.registry).signalled)
    (hf : f ∈ [.withdraw o (.failed .aborted)]) {e : Effect H} (h : f.outcome? = some (q, r)) :
    OutcomeSource s [.operation o] e q r := by
  obtain rfl := List.mem_singleton.1 hf
  simp at h
  obtain ⟨rfl,rfl⟩ := h
  exact .aborted rfl rfl hs

theorem outcomeSource_refuse {why : String}
    (hf : f ∈ [.complete o (.failed (.reactor why)), .forget o.registry o.ticket])
    {e : Effect H} (hn : e.started = none) (h : f.outcome? = some (q, r)) :
    OutcomeSource s [.enlist o] e q r := by
  simp at hf
  obtain rfl | rfl := hf
  · simp at h
    obtain ⟨rfl,rfl⟩ := h
    exact .refused _ rfl (by simp) (by simp [hn,droppedBy])
  · cases h

theorem outcomeSource_rewrite {frames : List (Frame H)} (hr : Rewrite me s active g frames)
    (hf : f ∈ frames) (h : f.outcome? = some (o, r)) :
    OutcomeSource s [g] { shared := s, active, frames } o r := by
  cases hr with
  | claimLost p hd hl => exact outcomeSource_aborted (Or.inl hl) hf h
  | heeded p hs => exact outcomeSource_aborted (Or.inr hs) hf h
  | refuse p why => exact outcomeSource_refuse hf rfl h
  | dropJobsCons j => cases j <;> exact outcomeSource_of_noOutcome (by simp [Frame.dropJob]) hf h
  | destroy hs => cases hs <;> exact outcomeSource_of_noOutcome (by simp [Frame.dropJob]) hf h
  | _ => exact outcomeSource_of_noOutcome (by simp) hf h

theorem outcomeSource_rule {e : Effect H} (hr : Rule me s active g e) (hf : f ∈ e.put)
    (h : f.outcome? = some (o, r)) : OutcomeSource s [g] e o r := by
  cases hr with
  | rewrite hr => exact outcomeSource_rewrite hr hf h
  | claim p hd hl => exact outcomeSource_claim hl rfl rfl rfl hf h
  | withdrawAborted | withdraw | countAbort => exact outcomeSource_of_old rfl rfl hf h
  | take hs j => cases j <;> exact outcomeSource_of_noOutcome (by simp [Frame.execute]) hf h
  | _ => exact outcomeSource_of_noOutcome (by simp) hf h

theorem noOutcome_shift {taken frames : List (Frame H)} (hs : Shift taken frames) :
    NoOutcome frames := by
  cases hs with
  | cleanUp t g hc => cases g <;> simp_all [Frame.cleansUp]
  | _ => simp

theorem outcomeSource_deed {taken : List (Frame H)} {e : Effect H} (hd : Deed me s active taken e)
    (hf : f ∈ e.put) (h : f.outcome? = some (o, r)) : OutcomeSource s taken e o r := by
  obtain ⟨frames,hs,rfl⟩ | ⟨g,rfl,hr⟩ := hd.shift_or_rule
  · exact outcomeSource_of_noOutcome (noOutcome_shift hs) hf h
  · exact outcomeSource_rule hr hf h

end
namespace Machine

/-- What a run has done for an operation to end with an outcome. -/
inductive Justified (moves : List (Move H)) (o : Operation H) (r : Outcome) : Prop
  | own (hr : r = o.outcome) (hc : o.ticket ∈ history (claimed o.registry) moves)
  | aborted (hr : r = .failed .aborted) (hc : o.ticket ∈ history (cancelled o.registry) moves)
  | refused (w : Failure) (hr : r = .failed w) (hw : w ≠ .aborted)
      (hd : o ∈ history (dropped o.registry) moves)

variable {moves : List (Move H)} {o : Operation H} {r : Outcome}

theorem Justified.append (h : Justified moves o r) (ys : List (Move H)) :
    Justified (moves ++ ys) o r := by
  cases h with
  | own hr hc => exact .own hr (mem_history_append hc ys)
  | aborted hr hc => exact .aborted hr (mem_history_append hc ys)
  | refused w hr hw hd => exact .refused w hr hw (mem_history_append hd ys)

theorem cancelled_of_gone {y : Move H} {a : Act H} (ha : (run moves).act? y = some a)
    (ht : a.taken = [.operation o])
    (hs : o.ticket ∉ ((run moves).shared.registries.get o.registry).live ∨
      o.ticket ∈ ((run moves).shared.registries.get o.registry).signalled) :
    o.ticket ∈ history (cancelled o.registry) moves := by
  obtain ⟨hd,hr,hp,ho,-,-,-,hg⟩ := ticketCounts_run o.registry o.ticket moves
  obtain ⟨k,hk,-⟩ := exists_weight_perform (fits_of_act? ha) (Frame.opened o.registry o.ticket)
  rw [ht] at hk
  simp [Table.weigh,Frame.opened,Operation.mark] at hk
  simp only [ticketCounts,changes] at hd hr hp ho hg
  rw [← List.count_pos_iff]
  obtain hs | hs := hs
  · rw [← List.count_eq_zero] at hs
    omega
  · rw [← List.count_pos_iff] at hs
    omega

theorem justified_run {i : Nat} {f : Frame H} (hf : f ∈ ((run moves).thread i).frames)
    (h : f.outcome? = some (o, r)) : Justified moves o r := by
  refine frames_induction (P := fun xs f => ∀ o r, f.outcome? = some (o, r) → Justified xs o r)
    ?_ ?_ ?_ moves hf o r h
  · exact fun xs y f h o r hv => (h o r hv).append [y]
  · rintro xs u o r ⟨⟩
  · intro xs y a hy ha ht f hf o r h
    cases outcomeSource_deed ha.deed hf h with
    | old g hg hv => exact (ht g hg o r hv).append [y]
    | own ht hr hl =>
      refine .own hr ?_
      rw [history_concat,noted_of_act? hy]
      exact List.mem_append_right _ hl
    | aborted ht hr hs => exact (Justified.aborted hr (cancelled_of_gone hy ht hs)).append [y]
    | refused w hr hw hd =>
      refine .refused w hr hw ?_
      rw [history_concat,noted_of_act? hy]
      exact List.mem_append_right _ hd

/-- What an operation reports is borne out for good. -/
theorem justified_reported {x : Operation H × Outcome} (h : x ∈ history reported moves) :
    Justified moves x.1 x.2 := by
  obtain ⟨xs,y,ys,a,rfl,hy,hx⟩ := exists_of_mem_history h
  exact (justified_run (mem_of_reported (fits_of_act? hy) hx) rfl).append (y :: ys)

theorem outcome_iff (hn : history (dropped o.registry) moves = []) (h : Justified moves o r) :
    (r = .failed .aborted ↔ o.ticket ∈ history (cancelled o.registry) moves ∨
      o.outcome = .failed .aborted) ∧ (r = .failed .aborted ∨ r = o.outcome) := by
  cases h with
  | own hr hc =>
    have hx : o.ticket ∉ history (cancelled o.registry) moves := by
      intro hx
      obtain ⟨hd,he,hp,-⟩ := ticketCounts_run o.registry o.ticket moves
      rw [← List.count_pos_iff] at hc hx
      simp only [ticketCounts,changes] at hd he hp
      omega
    simp [hr,hx]
  | aborted hr hc => simp [hr,hc]
  | refused w hr hw hd =>
    rw [hn] at hd
    exact absurd hd List.not_mem_nil

end Machine
end EventLoop
