import EventLoop.Proofs.Ledger

/-! Outstanding work is exactly what there is to wait for: queued jobs, jobs that have not given
their unit back, guards, and operations whose handler is not queued. A loop stops by itself when
this comes to nothing, and only then. -/
namespace EventLoop

variable {H : Type}

open Table (weigh)

namespace Ledger

/-- What there is to wait for, when so many operations were cut short. -/
def load (v : Ledger) (cut : Nat) : Nat := v.queued + v.jobs + v.guards + (v.flights + cut)

/-- The books of a loop after so many operations have begun, completed and been cut short. -/
structure Balanced (v : Ledger) (begun completed cut : Nat) : Prop where
  closings : 0 < v.closings → v.closed = true
  reactor : v.reactorClosed = true → v.closed = true
  outstanding : v.closed = false → v.outstanding = v.load cut
  operations : v.closed = false → begun = completed + (v.flights + cut)

/-- How a change keeps the books of a loop with an owner: the last unit of work that goes stops
the loop, and the loop stops for no other reason unless a thread asks for it. -/
structure StopsWhenDry (v v' : Ledger) (cut cut' : Nat) (halted : Bool) : Prop where
  drained : v'.closed = false → v.load cut ≠ 0 → v'.load cut' = 0 → v'.stopped = true
  stops : v'.closed = false → v.stopped = false → v'.stopped = true →
    halted = true ∨ v'.load cut' = 0

variable {v v' : Ledger} {begun completed cut b d k : Nat} {halted : Bool}

theorem Step.balanced (h : Step v v' b d k halted) (hv : v.Balanced begun completed cut) :
    v'.Balanced (begun + b) (completed + d) (cut + k) := by
  obtain ⟨hc,hr,ho,hn⟩ := hv
  unfold load at ho
  cases h with
  | keep h => exact h ▸ ⟨hc,hr,ho,hn⟩
  | enqueue h | take n hl h | openGuard h =>
    subst h
    refine ⟨hc,hr,?_,hn⟩
    intro h
    have ho := ho h
    simp only [load]
    omega
  | endJob n hl h | closeGuard n hl h =>
    subst h
    refine ⟨hc,hr,?_,hn⟩
    intro h
    have ho := ho h
    simp only [load,less]
    omega
  | begin h | cutShort n hl h =>
    subst h
    refine ⟨hc,hr,?_,?_⟩
    · intro h
      have ho := ho h
      simp only [load]
      omega
    · intro h
      have hn := hn h
      simp only
      omega
  | complete n hl h =>
    subst h
    refine ⟨hc,hr,?_,?_⟩
    · intro h
      have h : v.closed = false := h
      have ho := ho h
      simp only [load,h]
      simp
      omega
    · intro h
      have hn := hn h
      simp only
      omega
  | runDry hq hl h => exact h ▸ ⟨hc,hr,ho,hn⟩
  | stop h => exact h ▸ ⟨hc,hr,ho,hn⟩
  | restart h => exact h ▸ ⟨hc,hr,ho,hn⟩
  | abandon n hg hl h =>
    have hv := hr hg
    subst h
    exact ⟨hc,hr,fun h => by simp [hv] at h,fun h => by simp [hv] at h⟩
  | close h =>
    subst h
    exact ⟨fun _ => rfl,fun _ => rfl,fun h => Bool.noConfusion h,fun h => Bool.noConfusion h⟩
  | closeReactor n hl h =>
    have hv := hc (by omega)
    exact h ▸ ⟨fun _ => hv,fun _ => hv,ho,hn⟩
  | forsake n hl h =>
    have hv := hc (by omega)
    exact h ▸ ⟨fun _ => hv,hr,ho,hn⟩

theorem stopsWhenDry_of_le {cut' : Nat} (hs : v'.stopped = v.stopped)
    (hl : v'.closed = false → v.load cut ≤ v'.load cut') : v.StopsWhenDry v' cut cut' halted := by
  refine ⟨?_,?_⟩
  · intro hc hn hz
    have hl := hl hc
    omega
  · intro _ hf ht
    rw [hs,hf] at ht
    exact Bool.noConfusion ht

theorem stopsWhenDry_of_less {cut' : Nat} (ho : v'.closed = false → v.outstanding = v'.load cut' + 1)
    (hs : v'.stopped = v.less.stopped) : v.StopsWhenDry v' cut cut' halted := by
  refine ⟨?_,?_⟩
  · intro hc _ hz
    have ho := ho hc
    simp only [hs,less,Bool.or_eq_true,decide_eq_true_eq]
    omega
  · intro hc hf ht
    have ho := ho hc
    simp only [hs,less,hf,Bool.false_or,decide_eq_true_eq] at ht
    omega

theorem Step.stopsWhenDry (h : Step v v' b d k halted) (hv : v.Balanced begun completed cut) :
    v.StopsWhenDry v' cut (cut + k) halted := by
  obtain ⟨hc,hr,ho,-⟩ := hv
  cases h with
  | keep h => exact h ▸ stopsWhenDry_of_le rfl fun _ => Nat.le_refl _
  | enqueue h | take n hl h | openGuard h | begin h | cutShort n hl h =>
    subst h
    refine stopsWhenDry_of_le ?_ ?_
    · rfl
    · intro _
      simp only [load]
      omega
  | complete n hl h =>
    subst h
    refine stopsWhenDry_of_le ?_ ?_
    · rfl
    · intro h
      have h : v.closed = false := h
      simp [load,h]
      omega
  | endJob n hl h | closeGuard n hl h =>
    subst h
    refine stopsWhenDry_of_less ?_ rfl
    intro h
    have ho := ho h
    simp only [load,less] at ho ⊢
    omega
  | abandon n hg hl h =>
    have hv := hr hg
    subst h
    exact stopsWhenDry_of_le rfl fun h => by simp [hv] at h
  | runDry hq hl h =>
    subst h
    refine ⟨fun _ _ _ => rfl,?_⟩
    intro h _ _
    have ho := ho h
    rw [hl] at ho
    exact Or.inr ho.symm
  | stop h => exact h ▸ ⟨fun _ _ _ => rfl,fun _ _ _ => Or.inl rfl⟩
  | restart h =>
    subst h
    exact ⟨fun _ hn hz => absurd hz hn,fun _ _ h => Bool.noConfusion h⟩
  | close h =>
    subst h
    exact ⟨fun h => Bool.noConfusion h,fun h => Bool.noConfusion h⟩
  | closeReactor n hl h | forsake n hl h =>
    subst h
    exact stopsWhenDry_of_le rfl fun _ => Nat.le_refl _

end Ledger

namespace Machine

/-- What loop `c` has to wait for after a run: its queue, the jobs that have not given their unit
back, the guards that own one, and the operations whose handler is not queued. -/
def load (c : Nat) (moves : List (Move H)) : Nat :=
  ((run moves).shared.loops.get c).queue.length + (run moves).weight (Frame.jobs c) +
    ownedUnits c (run moves).shared.guards +
    ((run moves).weight (Frame.flights c) + (history (cutShortHere c) moves).length)

def givesBack (c : Nat) (m : Machine H) (a : Act H) : Prop :=
  a.taken = [.finishWork c] ∨ ∃ g, a.taken = [.call (.closeGuard g)] ∧
    (m.shared.guards.get g).owns = true ∧ (m.shared.guards.get g).home = c

/-- What a loop promises about its work as long as it has an owner. -/
structure Accounts (c : Nat) (moves : List (Move H)) : Prop where
  outstanding : ((run moves).shared.loops.get c).closed = false →
    ((run moves).shared.loops.get c).outstanding = load c moves
  /-- An operation that has begun has its handler queued, is in flight, or was cut short. -/
  operations : ((run moves).shared.loops.get c).closed = false →
    (history (begunHere c) moves).length = (history (completedHere c) moves).length +
      ((run moves).weight (Frame.flights c) + (history (cutShortHere c) moves).length)
  /-- There is a unit of work wherever one is given back. -/
  backed : ((run moves).shared.loops.get c).closed = false → ∀ y a,
    (run moves).act? y = some a → (run moves).givesBack c a →
      0 < ((run moves).shared.loops.get c).outstanding
  drained : ∀ y, (((run moves).move y).shared.loops.get c).closed = false →
    load c moves ≠ 0 → load c (moves ++ [y]) = 0 →
      (((run moves).move y).shared.loops.get c).stopped = true
  stops : ∀ y, (((run moves).move y).shared.loops.get c).closed = false →
    ((run moves).shared.loops.get c).stopped = false →
      (((run moves).move y).shared.loops.get c).stopped = true →
        (∃ a, (run moves).act? y = some a ∧ a.taken = [.call (.stop c)]) ∨
          load c (moves ++ [y]) = 0
  /-- A call that finds neither a job nor work finds nothing to wait for. -/
  dry : ((run moves).shared.loops.get c).closed = false →
    ((run moves).shared.loops.get c).pick = .dry → load c moves = 0

theorem balanced_ledger (c : Nat) (moves : List (Move H)) :
    ((run moves).ledger c).Balanced (history (begunHere c) moves).length
      (history (completedHere c) moves).length (history (cutShortHere c) moves).length := by
  induction moves using run_induction with
  | start =>
    refine ⟨?_,?_,fun _ => rfl,fun _ => rfl⟩
    · intro h
      exact absurd h (Nat.lt_irrefl 0)
    · intro h
      exact Bool.noConfusion h
  | move xs y ih =>
    have h := (ledger_move c (sound_run xs) y).balanced ih
    simpa [run_concat,history_concat] using h

theorem stopsWhenDry_ledger (c : Nat) (moves : List (Move H)) (y : Move H) :
    ((run moves).ledger c).StopsWhenDry (((run moves).move y).ledger c)
      (history (cutShortHere c) moves).length (history (cutShortHere c) (moves ++ [y])).length
      (((run moves).act? y).any fun a => haltedOn c a.taken) := by
  have h := (ledger_move c (sound_run moves) y).stopsWhenDry (balanced_ledger c moves)
  simpa [history_concat] using h

theorem load_concat (c : Nat) (moves : List (Move H)) (y : Move H) :
    load c (moves ++ [y]) = (((run moves).move y).ledger c).load
      (history (cutShortHere c) (moves ++ [y])).length := by
  rw [← run_concat]
  rfl

theorem taken_of_haltedOn {c : Nat} {taken : List (Frame H)} (h : haltedOn c taken = true) :
    taken = [.call (.stop c)] := by
  unfold haltedOn at h
  split at h
  · simpa using h
  · exact Bool.noConfusion h

theorem halted_or_idle {c : Nat} {moves : List (Move H)} {y : Move H}
    (hc : (((run moves).move y).shared.loops.get c).closed = false)
    (hs : ((run moves).shared.loops.get c).stopped = false)
    (ht : (((run moves).move y).shared.loops.get c).stopped = true) :
    (∃ a, (run moves).act? y = some a ∧ a.taken = [.call (.stop c)]) ∨ load c (moves ++ [y]) = 0 := by
  rw [load_concat]
  obtain h | h := (stopsWhenDry_ledger c moves y).stops hc hs ht
  · rw [Option.any_eq_true] at h
    obtain ⟨a,ha,h⟩ := h
    exact Or.inl ⟨a,ha,taken_of_haltedOn h⟩
  · exact Or.inr h

theorem outstanding_pos {c : Nat} {moves : List (Move H)}
    (hc : ((run moves).shared.loops.get c).closed = false) {y : Move H} {a : Act H}
    (ha : (run moves).act? y = some a) (hg : (run moves).givesBack c a) :
    0 < ((run moves).shared.loops.get c).outstanding := by
  have ho := (balanced_ledger c moves).outstanding hc
  have ho : ((run moves).shared.loops.get c).outstanding = load c moves := ho
  rw [ho]
  unfold load
  obtain hf | ⟨g,-,hw,hh⟩ := hg
  · obtain ⟨k,hk,-⟩ := exists_weight_perform (fits_of_act? ha) (Frame.jobs c)
    rw [hf] at hk
    simp [weigh,Frame.jobs] at hk
    omega
  · have hu := Table.le_total (f := Guard.units c) rfl (run moves).shared.guards g
    have hg : ((run moves).shared.guards.get g).units c = 1 := by simp [Guard.units,hw,hh]
    rw [hg] at hu
    unfold ownedUnits
    omega

/-- Every run keeps the accounts of every loop. -/
theorem accounts_run (c : Nat) (moves : List (Move H)) : Accounts c moves where
  outstanding := (balanced_ledger c moves).outstanding
  operations := (balanced_ledger c moves).operations
  backed hc _ _ ha hg := outstanding_pos hc ha hg
  drained y hc hn hz := by
    rw [load_concat] at hz
    exact (stopsWhenDry_ledger c moves y).drained hc hn hz
  stops _ hc hs ht := halted_or_idle hc hs ht
  dry hc hd := by
    have ho := (balanced_ledger c moves).outstanding hc
    exact ho.symm.trans (pick_dry hd).2.2

end Machine
end EventLoop
