import EventLoop.Clock
import EventLoop.Script.Perform

/-! Deadlines and the end of the clock. A deadline is exact as far as the clock can show it, and
behind that it is a stand-in for a time that never comes. A longer wait ends no sooner than a
shorter one, unless only the longer one reaches beyond the clock and the shorter one beyond the
stand-in. So it is for runs of a loop and for timers. Main statement: `deadlines_horizon`. -/
namespace EventLoop
namespace Clock

/-- The longest wait that can be asked for, of 2^64 seconds less a nanosecond. -/
def longestWait : Span := 0x10000000000000000 * second - 1

/-- The wait in place of one that reaches beyond the clock: none at all where not even thirty
years are left. -/
def standIn (now : Instant) : Span := if Representable (now + farFuture) then farFuture else 0

variable {now : Instant} {d e : Span}

theorem standIn_nonneg (now : Instant) : 0 ≤ standIn now := by
  unfold standIn
  split <;> decide

theorem representable_standIn (h : Representable now) : Representable (now + standIn now) := by
  unfold standIn
  split
  · assumption
  · simpa using h

theorem deadlineAfter_of_representable (h : Representable (now + d)) :
    deadlineAfter now d = now + d := if_pos h

theorem deadlineAfter_beyond (h : ¬ Representable (now + d)) :
    deadlineAfter now d = now + standIn now := by
  rw [deadlineAfter,if_neg h,standIn]
  split
  · rfl
  · exact (Int.add_zero now).symm

theorem representable_deadlineAfter (h : Representable now) (d : Span) :
    Representable (deadlineAfter now d) := by
  by_cases hd : Representable (now + d)
  · rwa [deadlineAfter_of_representable hd]
  · rw [deadlineAfter_beyond hd]
    exact representable_standIn h

theorem le_deadlineAfter (hd : 0 ≤ d) : now ≤ deadlineAfter now d := by
  by_cases hr : Representable (now + d)
  · rw [deadlineAfter_of_representable hr]
    exact Int.le_add_of_nonneg_right hd
  · rw [deadlineAfter_beyond hr]
    exact Int.le_add_of_nonneg_right (standIn_nonneg now)

theorem representable_of_le (h : Representable now) (hd : 0 ≤ d) (hde : d ≤ e)
    (he : Representable (now + e)) : Representable (now + d) :=
  ⟨Int.le_trans h.1 (Int.le_add_of_nonneg_right hd),
    Int.lt_of_le_of_lt (Int.add_le_add_left hde now) he.2⟩

theorem deadlineAfter_le_iff (h : Representable now) (hd : 0 ≤ d) (hde : d ≤ e) :
    deadlineAfter now d ≤ deadlineAfter now e ↔
      (Representable (now + d) → ¬ Representable (now + e) → d ≤ standIn now) := by
  by_cases he : Representable (now + e)
  · rw [deadlineAfter_of_representable he,
      deadlineAfter_of_representable (representable_of_le h hd hde he)]
    simp [he,hde]
  rw [deadlineAfter_beyond he]
  by_cases hr : Representable (now + d)
  · rw [deadlineAfter_of_representable hr]
    simp [hr,he]
  · rw [deadlineAfter_beyond hr]
    simp [hr]

/-- What waits that start at one reading of the clock come to. -/
structure Horizon (now : Instant) : Prop where
  shown : ∀ d, Representable (deadlineAfter now d)
  later : ∀ d, 0 ≤ d → now ≤ deadlineAfter now d
  exact : ∀ d, deadlineAfter now d = now + d ↔ Representable (now + d)
  beyond : ∀ d, ¬ Representable (now + d) → deadlineAfter now d = now + standIn now
  ordered : ∀ d e, 0 ≤ d → d ≤ e → (deadlineAfter now d ≤ deadlineAfter now e ↔
    (Representable (now + d) → ¬ Representable (now + e) → d ≤ standIn now))

theorem horizon_of_representable (h : Representable now) : Horizon now where
  shown := representable_deadlineAfter h
  later _ := le_deadlineAfter
  exact d := by
    constructor
    · intro hd
      rw [← hd]
      exact representable_deadlineAfter h d
    · exact deadlineAfter_of_representable
  beyond _ := deadlineAfter_beyond
  ordered _ _ := deadlineAfter_le_iff h

/-- The longest wait ends long before one of 2^62 seconds. -/
theorem not_ordered_longestWait : ¬ ∀ (now : Instant) (d e : Span), Representable now → 0 ≤ d →
    d ≤ e → e ≤ longestWait → deadlineAfter now d ≤ deadlineAfter now e := by
  intro h
  have hw := h (1000 * second) (0x4000000000000000 * second) longestWait (by decide) (by decide)
    (by decide) (by decide)
  exact absurd hw (by decide)

end Clock

namespace Session

variable {now : Instant}

theorem get?_placeTimer (s : Session) (name : String) (c : Nat) (t : Instant) :
    (s.placeTimer name c t).1.timers.get? name = some s.shared.timers.size :=
  Names.get?_set_self _ _ _

theorem expiry_placeTimer (s : Session) (name : String) (c : Nat) (t : Instant) :
    ((s.placeTimer name c t).1.shared.timers.get s.shared.timers.size).expiry = t := by
  have ht : (s.placeTimer name c t).1.shared.timers =
      s.shared.timers.push ⟨c,s.shared.registries.size,t⟩ := rfl
  rw [ht,Table.get_push,if_pos rfl]

theorem expiry_expire {H : Type} (me : Nat) (w : Shared H) (active : List Executor) (x : Nat)
    (t : Instant) :
    (((Frame.call (.expire x t)).step me w active).shared.timers.get x).expiry = t := by
  simp [Frame.step,Frame.stepCall,Shared.onTimer]

def Sets (k : Call Code) (x : Nat) (t : Instant) : Prop :=
  ∀ me w active, (((Frame.call k).step me w active).shared.timers.get x).expiry = t

/-- What becomes of the times that runs and timers are given when the clock shows `now`. -/
structure Deadlines (now : Instant) : Prop extends Clock.Horizon now where
  runs : ∀ (s : Session) c ms, s.now = now → (s.course (.runFor c ms)).2 =
    .calls [.run c (.deadline (Clock.deadlineAfter now (ms * Clock.millisecond))) none]
  made : ∀ (s : Session) name c ms, s.now = now → ∃ x,
    (s.course (.timerAfter name c ms)).1.timers.get? name = some x ∧
      ((s.course (.timerAfter name c ms)).1.shared.timers.get x).expiry =
        Clock.deadlineAfter now (ms * Clock.millisecond)
  moved : ∀ (s : Session) name x ms, s.now = now → s.timers.get? name = some x → ∃ k,
    (s.course (.expiresAfter name ms)).2 = .calls [k] ∧
      (s.course (.setExpiresFromNow name ms)).2 = .calls [k] ∧
      Sets k x (Clock.deadlineAfter now (ms * Clock.millisecond))

theorem deadlines_horizon (h : Clock.Representable now) : Deadlines now where
  toHorizon := Clock.horizon_of_representable h
  runs s c ms hs := by
    subst hs
    rfl
  made s name c ms hs := by
    subst hs
    exact ⟨_,get?_placeTimer s name c _,expiry_placeTimer s name c _⟩
  moved s name x ms hs hx := by
    subst hs
    refine ⟨.expire x (s.after ms),?_,?_,fun me w active => expiry_expire me w active x _⟩
    · simp [course,onTimer,hx,orNone]
    · simp [course,onTimer,hx,orNone]

/-- With a year left on the clock there is no stand-in to wait for. -/
theorem deadlines_lastYear : Clock.Representable (Clock.range - 86400 * 365 * Clock.second) ∧
    Clock.standIn (Clock.range - 86400 * 365 * Clock.second) = 0 ∧
      Deadlines (Clock.range - 86400 * 365 * Clock.second) :=
  ⟨by decide,by decide,deadlines_horizon (by decide)⟩

end Session
end EventLoop
