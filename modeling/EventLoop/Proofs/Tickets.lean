import EventLoop.Proofs.TicketCounts
import EventLoop.Proofs.OperationCounts
import EventLoop.Proofs.Growth
import Mathlib.Algebra.Ring.Nat
import Mathlib.Data.List.Nodup
import Mathlib.Data.List.TakeWhile

/-! The live tickets of a registry ascend, and a cancel answers how many of them it removed. -/
namespace EventLoop

variable {H : Type}

namespace Registry

theorem le_of_mem_dropWhile {k b : Nat} {l : List Nat} (hl : l.Pairwise (· < ·))
    (hb : b ∈ l.dropWhile (· < k)) : k ≤ b := by
  induction l with
  | nil => exact absurd hb List.not_mem_nil
  | cons a l ih =>
    obtain ⟨ha,hl⟩ := List.pairwise_cons.1 hl
    by_cases h : a < k
    · rw [List.dropWhile_cons_of_pos (by simpa using h)] at hb
      exact ih hl hb
    · rw [List.dropWhile_cons_of_neg (by simpa using h)] at hb
      obtain rfl | hb := List.mem_cons.1 hb
      · exact Nat.le_of_not_lt h
      · have hab := ha b hb
        omega

theorem pairwise_enrol {q : Registry} {k : Nat} (hq : q.live.Pairwise (· < ·))
    (hk : k ∉ q.live) : (q.enrol k).live.Pairwise (· < ·) := by
  have hd : (q.live.dropWhile (· < k)).Pairwise (· < ·) := hq.sublist (List.dropWhile_sublist _)
  have ht : (q.live.takeWhile (· < k)).Pairwise (· < ·) := hq.sublist (List.takeWhile_sublist _)
  have hlt {a : Nat} (ha : a ∈ q.live.takeWhile (· < k)) : a < k := by
    simpa using List.mem_takeWhile_imp ha
  have hgt {b : Nat} (hb : b ∈ q.live.dropWhile (· < k)) : k < b := by
    have hn : b ≠ k := by
      rintro rfl
      exact hk ((List.dropWhile_sublist _).subset hb)
    exact Nat.lt_of_le_of_ne (le_of_mem_dropWhile hq hb) hn.symm
  refine List.pairwise_append.2 ⟨ht,List.pairwise_cons.2 ⟨fun b => hgt,hd⟩,?_⟩
  intro a ha b hb
  obtain rfl | hb := List.mem_cons.1 hb
  · exact hlt ha
  · exact Nat.lt_trans (hlt ha) (hgt hb)

end Registry

/-- Whether a call cancels operations of registry `r`. -/
def Call.cancels (r : Nat) (s : Shared H) : Call H → Bool
  | .cancelAll q | .cancelFirst q => q = r
  | .expire x _ => (s.timers.get x).registry = r
  | _ => false

def Frame.count? : Frame H → Option Nat
  | .reply (.count n) => some n
  | _ => none

/-- The counts that cancels of registry `r` answer. -/
def answeredBy (r : Nat) (s : Shared H) : List (Frame H) → List (Frame H) → List Nat
  | [.call c], frames => if c.cancels r s then frames.filterMap Frame.count? else []
  | _, _ => []

section

variable {r me : Nat} {s : Shared H} {active : List Executor}

theorem live_deed {taken : List (Frame H)} {e : Effect H} (hd : Deed me s active taken e) :
    (∃ o, taken = [.enrol o]) ∨
      (e.shared.registries.get r).live.Sublist (s.registries.get r).live := by
  obtain ⟨frames,-,rfl⟩ | ⟨f,rfl,hr⟩ := hd.shift_or_rule
  · exact Or.inr (List.Sublist.refl _)
  obtain h | ⟨o,rfl,-⟩ | ⟨o,q,-,h⟩ := settles_rule hr
  · exact Or.inr (h.live r)
  · exact Or.inl ⟨o,rfl⟩
  · rw [h]
    exact Or.inr (List.Sublist.refl _)

theorem counts_revoke (q n : Nat) (ks : List Nat) :
    [Frame.signal (H := H) q ks, .reply (.count n)].filterMap Frame.count? = [n] := rfl

theorem counts_reply (n : Nat) :
    [Frame.reply (H := H) (.count n)].filterMap Frame.count? = [n] := rfl

theorem sum_answeredBy_rule {f : Frame H} {e : Effect H} (hr : Rule me s active f e) :
    (answeredBy r s [f] e.frames).sum = (cancelledBy r s [f]).length := by
  cases hr with
  | cancelAll q =>
    by_cases hq : q = r
    · simp [answeredBy,cancelledBy,Call.cancels,counts_revoke,hq,Registry.pending]
    · simp [answeredBy,cancelledBy,Call.cancels,hq]
  | expire x t =>
    by_cases hq : (s.timers.get x).registry = r
    · simp [answeredBy,cancelledBy,Call.cancels,counts_revoke,hq,Registry.pending]
    · simp [answeredBy,cancelledBy,Call.cancels,hq]
  | cancelFirst q =>
    by_cases hq : q = r
    · subst hq
      cases hl : (s.registries.get q).live <;>
        simp [answeredBy,cancelledBy,Call.cancels,counts_reply,Registry.first,hl]
    · simp [answeredBy,cancelledBy,Call.cancels,hq]
  | rewrite h =>
    cases h with
    | destroy hf | ended hf | overdue hf => cases hf <;> rfl
    | _ => rfl
  | enqueue hf | take hf | runDry hf | sleep hf => cases hf <;> rfl
  | _ => rfl

theorem sum_answeredBy {taken : List (Frame H)} {e : Effect H} (hd : Deed me s active taken e) :
    (answeredBy r s taken e.frames).sum = (cancelledBy r s taken).length := by
  obtain ⟨frames,hs,rfl⟩ | ⟨f,rfl,hr⟩ := hd.shift_or_rule
  · cases hs <;> rfl
  · exact sum_answeredBy_rule hr

end

namespace Machine

variable {r : Nat}

def answered (r : Nat) (m : Machine H) (a : Act H) : List Nat :=
  answeredBy r m.shared a.taken a.effect.frames

theorem sum_answered (r : Nat) (moves : List (Move H)) :
    (history (answered r) moves).sum = (history (cancelled r) moves).length := by
  induction moves using run_induction with
  | start => rfl
  | move xs y ih =>
    rw [history_concat,history_concat,List.sum_append,List.length_append,ih]
    obtain ⟨a,hy,ha,-⟩ | ⟨hy,-⟩ := move_cases (run xs) y
    · rw [noted_of_act? hy,noted_of_act? hy]
      exact congrArg _ (sum_answeredBy ha.deed)
    · rw [noted_of_act?_none hy,noted_of_act?_none hy]
      rfl

theorem not_mem_live_of_enrol {moves : List (Move H)} {a : Act H} (ha : a.Fits (run moves))
    {o : Operation H} (ht : a.taken = [.enrol o]) :
    o.ticket ∉ ((run moves).shared.registries.get o.registry).live := by
  obtain ⟨hd,hr,hp,-⟩ := ticketCounts_run o.registry o.ticket moves
  obtain ⟨k,hk,-⟩ := exists_weight_perform ha (Frame.enrolling o.registry o.ticket)
  rw [ht] at hk
  simp [Table.weigh,Frame.enrolling,Operation.mark] at hk
  simp only [ticketCounts] at hd hr hp
  rw [← List.count_eq_zero]
  omega

theorem pairwise_live_enrol {moves : List (Move H)} {a : Act H} (ha : a.Fits (run moves))
    {o : Operation H} (ht : a.taken = [.enrol o])
    (hl : ((run moves).shared.registries.get r).live.Pairwise (· < ·)) :
    (a.effect.shared.registries.get r).live.Pairwise (· < ·) := by
  have hd := ha.deed
  rw [ht] at hd
  rw [hd.eq_step rfl]
  simp only [Frame.step,Shared.onRegistry,Table.get_update]
  split
  · rename_i hr
    subst hr
    exact Registry.pairwise_enrol hl (not_mem_live_of_enrol ha ht)
  · exact hl

theorem pairwise_live (r : Nat) (moves : List (Move H)) :
    ((run moves).shared.registries.get r).live.Pairwise (· < ·) := by
  induction moves using run_induction with
  | start => exact List.Pairwise.nil
  | move xs y ih =>
    rw [run_concat]
    obtain ⟨a,-,ha,hmove⟩ | ⟨-,hmove⟩ := move_cases (run xs) y
    · rw [hmove]
      obtain ⟨o,ht⟩ | hl := live_deed (r := r) ha.deed
      · exact pairwise_live_enrol ha ht ih
      · exact ih.sublist hl
    · rw [hmove,registries_happen]
      exact ih

theorem cancelled_first {moves : List (Move H)} {y : Move H} {a : Act H}
    (ha : (run moves).act? y = some a) (ht : a.taken = [.call (.cancelFirst r)]) :
    ((run moves).cancelled r a = [] ∧ ((run moves).shared.registries.get r).live = []) ∨
      ∃ k, (run moves).cancelled r a = [k] ∧ ((run moves).shared.registries.get r).live =
          k :: (((run moves).move y).shared.registries.get r).live ∧
        ∀ j ∈ (((run moves).move y).shared.registries.get r).live, k < j := by
  have hd := (fits_of_act? ha).deed
  rw [ht] at hd
  rw [move_of_act? ha,shared_perform,hd.eq_step rfl]
  simp only [Frame.step,Frame.stepCall,Shared.onRegistry,Table.get_update_self]
  have hp := pairwise_live r moves
  cases hl : ((run moves).shared.registries.get r).live with
  | nil => exact Or.inl ⟨by simp [cancelled,cancelledBy,ht,hl],rfl⟩
  | cons k ks =>
    rw [hl] at hp
    refine Or.inr ⟨k,by simp [cancelled,cancelledBy,ht,hl],?_,?_⟩
    · simp [Registry.cancelFirst,hl]
    · simpa [Registry.cancelFirst,hl] using (List.pairwise_cons.1 hp).1

theorem registeredBy_eq (r : Nat) (taken : List (Frame H)) : registeredBy r taken =
    ((enrolledBy taken).filter fun o => o.registry = r).map Operation.ticket := by
  unfold registeredBy
  split
  · rename_i o
    by_cases ho : o.registry = r <;> simp [enrolledBy,ho]
  · rename_i hn
    have he : enrolledBy taken = [] := by
      unfold enrolledBy
      split
      · exact absurd rfl (hn _)
      · rfl
    rw [he]
    rfl

/-- The tickets that become live are those of the operations that are registered. -/
theorem registered_eq (r : Nat) (moves : List (Move H)) : history (registered r) moves =
    ((history enrolled moves).filter fun o => o.registry = r).map Operation.ticket := by
  have hg := history_hom (fun os : List (Operation H) =>
    (os.filter fun o => o.registry = r).map Operation.ticket) rfl (by simp) enrolled moves
  rw [← hg]
  congr
  funext m a
  exact registeredBy_eq r a.taken

theorem countP_registered (r : Nat) (p : Nat → Bool) (moves : List (Move H)) :
    (history (registered r) moves).countP p =
      (history enrolled moves).countP fun o => decide (o.registry = r) && p o.ticket := by
  rw [registered_eq,List.countP_map,List.countP_filter]
  congr
  funext o
  simp [Bool.and_comm]

theorem nodup_registered (r : Nat) (moves : List (Move H)) :
    (history (registered r) moves).Nodup := by
  rw [List.nodup_iff_count_le_one]
  intro k
  obtain ⟨hd,hr,-⟩ := ticketCounts_run r k moves
  simp only [ticketCounts,changes] at hd hr
  omega

theorem count_cancelled_le (r k : Nat) (moves : List (Move H)) :
    (history (cancelled r) moves).count k ≤ (history (registered r) moves).count k := by
  obtain ⟨-,-,hp,-⟩ := ticketCounts_run r k moves
  simp only [ticketCounts,changes] at hp
  omega

theorem countP_cancelled (r : Nat) (moves : List (Move H)) :
    (history enrolled moves).countP (fun o =>
      decide (o.registry = r) && decide (o.ticket ∈ history (cancelled r) moves)) =
        (history (cancelled r) moves).length := by
  have hr := nodup_registered r moves
  have hc : (history (cancelled r) moves).Nodup := by
    rw [List.nodup_iff_count_le_one] at hr ⊢
    intro k
    exact Nat.le_trans (count_cancelled_le r k moves) (hr k)
  have hs {k : Nat} (hk : k ∈ history (cancelled r) moves) : k ∈ history (registered r) moves := by
    rw [← List.count_pos_iff] at hk ⊢
    exact Nat.lt_of_lt_of_le hk (count_cancelled_le r k moves)
  rw [← countP_registered r (fun k => decide (k ∈ history (cancelled r) moves)),
    List.countP_eq_length_filter]
  apply List.Perm.length_eq
  rw [List.perm_ext_iff_of_nodup (hr.filter _) hc]
  intro k
  simpa using hs

end Machine
end EventLoop
