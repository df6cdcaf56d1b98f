import EventLoop.Proofs.Stack

/-! What no move takes back: strands and timers stay on their loop, and a loop that has lost its
owner never gets another. -/
namespace EventLoop

variable {H : Type}

structure Shared.Grows (s t : Shared H) : Prop where
  size : s.strands.size ≤ t.strands.size
  home : ∀ x, x < s.strands.size → (t.strands.get x).home = (s.strands.get x).home
  closed : ∀ c, (s.loops.get c).closed = true → (t.loops.get c).closed = true
  timers : s.timers.size ≤ t.timers.size
  timerHome : ∀ x, x < s.timers.size → (t.timers.get x).home = (s.timers.get x).home

/-- Growth in which no operation is counted as aborted and no ticket becomes live. -/
structure Shared.Settles (s t : Shared H) : Prop extends s.Grows t where
  aborted : ∀ c, (t.loops.get c).counters.aborted = (s.loops.get c).counters.aborted
  live : ∀ r, (t.registries.get r).live.Sublist (s.registries.get r).live

theorem Shared.Grows.of_eq {s t : Shared H} (hs : t.strands = s.strands) (ht : t.timers = s.timers)
    (hc : ∀ c, (s.loops.get c).closed = true → (t.loops.get c).closed = true) : s.Grows t :=
  ⟨hs ▸ Nat.le_refl _,fun _ _ => by rw [hs],hc,ht ▸ Nat.le_refl _,fun _ _ => by rw [ht]⟩

theorem Shared.Grows.refl (s : Shared H) : s.Grows s := .of_eq rfl rfl fun _ h => h

theorem Shared.Grows.onLoop {s t : Shared H} (h : s.Grows t) {c : Nat} {f : Loop H → Loop H}
    (hf : ∀ l, l.closed = true → (f l).closed = true) : s.Grows (t.onLoop c f) := by
  refine ⟨h.size,h.home,?_,h.timers,h.timerHome⟩
  intro d hd
  have hd := h.closed d hd
  simp only [Shared.onLoop,Table.get_update]
  split
  · exact hf _ hd
  · exact hd

namespace Shared.Settles

variable {s t : Shared H}

theorem refl (s : Shared H) : s.Settles s := ⟨.refl s,fun _ => rfl,fun _ => List.Sublist.refl _⟩

theorem onLoop (h : s.Settles t) {c : Nat} {f : Loop H → Loop H}
    (hc : ∀ l, l.closed = true → (f l).closed = true)
    (ha : ∀ l, (f l).counters.aborted = l.counters.aborted) : s.Settles (t.onLoop c f) := by
  refine ⟨h.toGrows.onLoop hc,?_,h.live⟩
  intro d
  exact (Table.read_update (fun l : Loop H => l.counters.aborted) ha _ _ _).trans (h.aborted d)

theorem onStrand (h : s.Settles t) {x : Nat} {f : Strand H → Strand H}
    (hf : ∀ y, (f y).home = y.home) : s.Settles (t.onStrand x f) := by
  refine ⟨⟨?_,?_,h.closed,h.timers,h.timerHome⟩,h.aborted,h.live⟩
  · simp only [Shared.onStrand,Table.size_update]
    exact Nat.le_trans h.size (Nat.le_max_left _ _)
  · intro y hy
    exact (Table.read_update Strand.home hf _ _ _).trans (h.home y hy)

theorem onGuard (h : s.Settles t) {g : Nat} {f : Guard → Guard} : s.Settles (t.onGuard g f) :=
  ⟨⟨h.size,h.home,h.closed,h.timers,h.timerHome⟩,h.aborted,h.live⟩

theorem onRegistry (h : s.Settles t) {r : Nat} {f : Registry → Registry}
    (hf : ∀ p, (f p).live.Sublist p.live) : s.Settles (t.onRegistry r f) := by
  refine ⟨⟨h.size,h.home,h.closed,h.timers,h.timerHome⟩,h.aborted,?_⟩
  intro q
  refine List.Sublist.trans ?_ (h.live q)
  simp only [Shared.onRegistry,Table.get_update]
  split
  · exact hf _
  · exact List.Sublist.refl _

theorem onTimer (h : s.Settles t) {x : Nat} {f : Timer → Timer}
    (hf : ∀ d, (f d).home = d.home) : s.Settles (t.onTimer x f) := by
  refine ⟨⟨h.size,h.home,h.closed,?_,?_⟩,h.aborted,h.live⟩
  · simp only [Shared.onTimer,Table.size_update]
    exact Nat.le_trans h.timers (Nat.le_max_left _ _)
  · intro y hy
    exact (Table.read_update Timer.home hf _ _ _).trans (h.timerHome y hy)

end Shared.Settles

section

variable {me : Nat} {s : Shared H} {active : List Executor}

open Shared.Settles

theorem settles_rule {f : Frame H} {e : Effect H} (hr : Rule me s active f e) :
    s.Settles e.shared ∨
      (∃ o, f = .enrol o ∧ e.shared = s.onRegistry o.registry (Registry.enrol o.ticket)) ∨
      ∃ o r, f = .countAbort o r ∧ e.shared = s.onLoop o.home Loop.countAborted := by
  cases hr with
  | enrol o => exact Or.inr (Or.inl ⟨o,rfl,rfl⟩)
  | countAbort o r => exact Or.inr (Or.inr ⟨o,r,rfl,rfl⟩)
  | dropOwner => exact Or.inl ((refl s).onLoop (fun _ _ => rfl) fun _ => rfl)
  | postIdle | postBusy | turn | lock | free | dropTurn =>
    exact Or.inl ((refl s).onStrand fun _ => rfl)
  | openGuard | closeGuard | closeLastGuard =>
    exact Or.inl ((refl s).onGuard.onLoop (fun _ h => h) fun _ => rfl)
  | wait | start | signal => exact Or.inl ((refl s).onRegistry fun _ => List.Sublist.refl _)
  | expire =>
    exact Or.inl (((refl s).onRegistry fun _ => List.nil_sublist _).onTimer fun _ => rfl)
  | cancelAll => exact Or.inl ((refl s).onRegistry fun _ => List.nil_sublist _)
  | cancelFirst => exact Or.inl ((refl s).onRegistry fun _ => List.tail_sublist _)
  | abandon | claim | withdrawAborted | withdraw | forget =>
    exact Or.inl ((refl s).onRegistry fun _ => List.filter_sublist)
  | _ =>
    left
    first | exact refl s | exact (refl s).onLoop (fun _ h => h) fun _ => rfl

/-- Only the registration of an operation and the count of an aborted one do not settle. -/
theorem Rule.settles {f : Frame H} {e : Effect H} (hr : Rule me s active f e)
    (he : ∀ o, f ≠ .enrol o) (ha : ∀ o r, f ≠ .countAbort o r) : s.Settles e.shared := by
  obtain h | ⟨o,rfl,-⟩ | ⟨o,r,rfl,-⟩ := settles_rule hr
  · exact h
  · exact absurd rfl (he o)
  · exact absurd rfl (ha o r)

theorem grows_deed {taken : List (Frame H)} {e : Effect H} (hd : Deed me s active taken e) :
    s.Grows e.shared := by
  obtain ⟨frames,-,rfl⟩ | ⟨f,rfl,hr⟩ := hd.shift_or_rule
  · exact .refl s
  · obtain h | ⟨o,-,h⟩ | ⟨o,r,-,h⟩ := settles_rule hr
    · exact h.toGrows
    · rw [h]
      exact .of_eq rfl rfl fun _ h => h
    · rw [h]
      exact (Shared.Grows.refl s).onLoop fun _ h => h

end

namespace Machine

theorem grows_happen (m : Machine H) (y : Move H) : m.shared.Grows (m.happen y).shared := by
  cases y with
  | prefer c i =>
    apply (Shared.Grows.refl m.shared).onLoop
    intro l h
    unfold Loop.prefer
    split <;> exact h
  | addLoop settings =>
    refine .of_eq rfl rfl ?_
    intro c hc
    have hn : c ≠ m.shared.loops.size := by
      intro h
      rw [Table.get_of_size_le _ (Nat.le_of_eq h.symm)] at hc
      exact Bool.noConfusion hc
    simp only [happen,mapShared,Table.get_push,hn,if_false]
    exact hc
  | addStrand home =>
    refine ⟨?_,?_,fun _ h => h,Nat.le_refl _,fun _ _ => rfl⟩
    · simp [happen,mapShared]
    · intro x hx
      simp [happen,mapShared,Table.get_push,Nat.ne_of_lt hx]
  | addTimer home expiry =>
    refine ⟨Nat.le_refl _,fun _ _ => rfl,fun _ h => h,?_,?_⟩
    · simp [happen,mapShared]
    · intro x hx
      simp [happen,mapShared,Table.get_push,Nat.ne_of_lt hx]
  | _ => exact .of_eq rfl rfl fun _ h => h

theorem grows_move (m : Machine H) (y : Move H) : m.shared.Grows (m.move y).shared := by
  obtain ⟨a,-,ha,hmove⟩ | ⟨-,hmove⟩ := move_cases m y
  · rw [hmove]
    exact grows_deed ha.deed
  · rw [hmove]
    exact grows_happen m y

end Machine
end EventLoop
