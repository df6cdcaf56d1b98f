import EventLoop.Proofs.Rule

/-! What a loop and a timer are made with: nothing that happens afterwards changes the settings of
the one or the registry of the other. The clock never goes back, and no thread moves it. -/
namespace EventLoop

variable {H : Type}

/-- Loops keep their settings and timers their registry, and the clock does not go back. -/
structure Shared.Retains (s t : Shared H) : Prop where
  loops : s.loops.size ≤ t.loops.size
  settings : ∀ c, c < s.loops.size → (t.loops.get c).settings = (s.loops.get c).settings
  timers : s.timers.size ≤ t.timers.size
  registry : ∀ x, x < s.timers.size → (t.timers.get x).registry = (s.timers.get x).registry
  clock : s.now ≤ t.now

namespace Shared.Retains

variable {s t u : Shared H}

theorem of_eq (hl : t.loops = s.loops) (ht : t.timers = s.timers) (hn : t.now = s.now) :
    s.Retains t :=
  ⟨hl ▸ Nat.le_refl _,fun _ _ => by rw [hl],ht ▸ Nat.le_refl _,fun _ _ => by rw [ht],
    Int.le_of_eq hn.symm⟩

theorem refl (s : Shared H) : s.Retains s := .of_eq rfl rfl rfl

theorem trans (h : s.Retains t) (hu : t.Retains u) : s.Retains u where
  loops := Nat.le_trans h.loops hu.loops
  settings c hc := (hu.settings c (Nat.lt_of_lt_of_le hc h.loops)).trans (h.settings c hc)
  timers := Nat.le_trans h.timers hu.timers
  registry x hx := (hu.registry x (Nat.lt_of_lt_of_le hx h.timers)).trans (h.registry x hx)
  clock := Int.le_trans h.clock hu.clock

theorem onLoop (h : s.Retains t) {c : Nat} {f : Loop H → Loop H}
    (hf : ∀ l, (f l).settings = l.settings) : s.Retains (t.onLoop c f) := by
  refine ⟨?_,?_,h.timers,h.registry,h.clock⟩
  · simp only [Shared.onLoop,Table.size_update]
    exact Nat.le_trans h.loops (Nat.le_max_left _ _)
  · intro d hd
    exact (Table.read_update Loop.settings hf _ _ _).trans (h.settings d hd)

theorem onGuard (h : s.Retains t) {g : Nat} {f : Guard → Guard} : s.Retains (t.onGuard g f) :=
  ⟨h.loops,h.settings,h.timers,h.registry,h.clock⟩

theorem onRegistry (h : s.Retains t) {r : Nat} {f : Registry → Registry} :
    s.Retains (t.onRegistry r f) := ⟨h.loops,h.settings,h.timers,h.registry,h.clock⟩

theorem onTimer (h : s.Retains t) {x : Nat} {f : Timer → Timer}
    (hf : ∀ d, (f d).registry = d.registry) : s.Retains (t.onTimer x f) := by
  refine ⟨h.loops,h.settings,?_,?_,h.clock⟩
  · simp only [Shared.onTimer,Table.size_update]
    exact Nat.le_trans h.timers (Nat.le_max_left _ _)
  · intro y hy
    exact (Table.read_update Timer.registry hf _ _ _).trans (h.registry y hy)

end Shared.Retains

section

variable {me : Nat} {s : Shared H} {active : List Executor}

open Shared.Retains

theorem retains_rule {f : Frame H} {e : Effect H} (hr : Rule me s active f e) :
    s.Retains e.shared := by
  cases hr with
  | openGuard | closeGuard | closeLastGuard => exact (refl s).onGuard.onLoop fun _ => rfl
  | expire => exact (refl s).onRegistry.onTimer fun _ => rfl
  | _ => first | exact .of_eq rfl rfl rfl | exact (refl s).onLoop fun _ => rfl

theorem retains_deed {taken : List (Frame H)} {e : Effect H} (hd : Deed me s active taken e) :
    s.Retains e.shared := by
  obtain ⟨frames,-,rfl⟩ | ⟨f,-,hr⟩ := hd.shift_or_rule
  · exact refl s
  · exact retains_rule hr

def Shared.Abides (c : Nat) (s t : Shared H) : Prop :=
  (t.loops.get c).closed = (s.loops.get c).closed ∧
    (t.loops.get c).settings = (s.loops.get c).settings

theorem Shared.Abides.onLoop {c d : Nat} {t : Shared H} (h : s.Abides c t) {f : Loop H → Loop H}
    (hc : ∀ l, (f l).closed = l.closed) (hs : ∀ l, (f l).settings = l.settings) :
    s.Abides c (t.onLoop d f) :=
  ⟨(Table.read_update Loop.closed hc _ _ _).trans h.1,
    (Table.read_update Loop.settings hs _ _ _).trans h.2⟩

/-- Only its drop takes a loop its owner. -/
theorem Rule.abides {f : Frame H} {e : Effect H} (hr : Rule me s active f e)
    (hn : ∀ d, f ≠ .call (.dropOwner d)) (c : Nat) : s.Abides c e.shared := by
  cases hr with
  | dropOwner d => exact absurd rfl (hn d)
  | _ =>
    first
      | exact ⟨rfl,rfl⟩
      | exact Shared.Abides.onLoop ⟨rfl,rfl⟩ (fun _ => rfl) fun _ => rfl

end

namespace Machine

theorem retains_happen (m : Machine H) (y : Move H) : m.shared.Retains (m.happen y).shared := by
  cases y with
  | prefer c i =>
    apply (Shared.Retains.refl m.shared).onLoop
    intro l
    unfold Loop.prefer
    split <;> rfl
  | addLoop settings =>
    refine ⟨?_,?_,Nat.le_refl _,fun _ _ => rfl,Int.le_refl _⟩
    · simp [happen,mapShared]
    · intro c hc
      simp [happen,mapShared,Table.get_push,Nat.ne_of_lt hc]
  | addTimer home expiry =>
    refine ⟨Nat.le_refl _,fun _ _ => rfl,?_,?_,Int.le_refl _⟩
    · simp [happen,mapShared]
    · intro x hx
      simp [happen,mapShared,Table.get_push,Nat.ne_of_lt hx]
  | clock t =>
    exact ⟨Nat.le_refl _,fun _ _ => rfl,Nat.le_refl _,fun _ _ => rfl,Int.le_max_left _ _⟩
  | _ => exact .of_eq rfl rfl rfl

theorem retains_move (m : Machine H) (y : Move H) : m.shared.Retains (m.move y).shared := by
  obtain ⟨a,-,ha,hmove⟩ | ⟨-,hmove⟩ := move_cases m y
  · rw [hmove]
    exact retains_deed ha.deed
  · rw [hmove]
    exact retains_happen m y

theorem retains_after (m : Machine H) (ys : List (Move H)) :
    m.shared.Retains (m.after ys).shared := by
  induction ys generalizing m with
  | nil => exact .refl _
  | cons y ys ih => exact (retains_move m y).trans (ih (m.move y))

end Machine
end EventLoop
