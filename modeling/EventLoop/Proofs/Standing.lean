import EventLoop.Cursor

/-! Where a cursor stands. A cursor that has been moved `k` times is at its end when its snapshot has
no more than `k` entries, and else in front of the entry behind the first `k`; what it hands out from
there on follows. -/
namespace EventLoop
namespace Cursor

/-- The cursor goes over a snapshot and has been moved `k` times. At the end it does not matter any
more what it went over. -/
structure Over (h : Held) (k : Nat) (c : Cursor) : Prop where
  atEnd : c.atEnd = true ↔ h.snapshot.entries.length ≤ k
  held : c.atEnd = false → c.held = some h
  position : c.atEnd = false → c.position = k

def Sound (c : Cursor) : Prop :=
  c.atEnd = true ∨ ∃ h, c.held = some h ∧ c.position < h.snapshot.entries.length

/-- Calls of `next` hand out the entries one after the other, and then nothing, ever. -/
inductive Drains : Cursor → List Entry → Prop
  | done {c : Cursor} (h : c.next = (none, c)) : Drains c []
  | more {c d : Cursor} {e : Entry} {es : List Entry} (h : c.next = (some e, d))
      (hd : Drains d es) : Drains c (e :: es)

/-- What a cursor shows of the entries that it goes over when it has been moved `k` times. -/
structure Shows (es : List Entry) (k : Nat) (c : Cursor) : Prop where
  sound : c.Sound
  atEnd : c.atEnd = true ↔ es.length ≤ k
  entry : c.current?.isSome = !c.atEnd
  current : c.current? = es[k]?
  room : c.atEnd = false → c.position ≤ c.size
  remaining : c.remaining = es.length - k
  drains : ∀ xs, c.Drains xs ↔ xs = es.drop k
  yields : ∀ xs, c.Drains xs → xs.length = c.remaining
  nth : ∀ n, (c.nth n).1 = es[k + n]?
  take : ∀ n, (c.take n).1 = (es.drop k).take n

/-- What a cursor has still to come is determined. -/
theorem Drains.unique {c : Cursor} {xs ys : List Entry} (hx : Drains c xs) (hy : Drains c ys) :
    xs = ys := by
  induction hx generalizing ys with
  | done h =>
    cases hy with
    | done _ => rfl
    | more h' _ => cases h.symm.trans h'
  | more h _ ih =>
    cases hy with
    | done h' => cases h.symm.trans h'
    | more h' hd =>
      obtain ⟨he,rfl⟩ := Prod.mk.inj (h.symm.trans h')
      rw [Option.some.inj he,ih hd]

variable {h : Held} {k : Nat} {c : Cursor}

theorem over_start (h : Held) : (start h).Over h 0 where
  atEnd := by simp [start]
  held _ := rfl
  position _ := rfl

/-- A cursor at its end could have been moved over any snapshot that is no longer. -/
theorem over_of_atEnd (hc : c.atEnd = true) (hk : h.snapshot.entries.length ≤ k) : c.Over h k where
  atEnd := by simp [hc,hk]
  held hn := by simp [hc] at hn
  position hn := by simp [hc] at hn

theorem advance_of_atEnd (hc : c.atEnd = true) : c.advance = c := by simp [advance,hc]

namespace Over

theorem size (ho : c.Over h k) (hc : c.atEnd = false) : c.size = h.snapshot.entries.length := by
  simp [Cursor.size,ho.held hc,Snapshot.size]

theorem lt_length (ho : c.Over h k) (hc : c.atEnd = false) : k < h.snapshot.entries.length := by
  have hn := ho.atEnd
  rw [hc] at hn
  simpa using hn

theorem sound (ho : c.Over h k) : c.Sound := by
  cases hc : c.atEnd with
  | true => exact Or.inl hc
  | false => exact Or.inr ⟨h,ho.held hc,ho.position hc ▸ ho.lt_length hc⟩

theorem current? (ho : c.Over h k) : c.current? = h.snapshot.entries[k]? := by
  cases hc : c.atEnd with
  | true => simp [Cursor.current?,hc,ho.atEnd.1 hc]
  | false => simp [Cursor.current?,hc,ho.held hc,ho.position hc,Snapshot.get?]

theorem remaining (ho : c.Over h k) : c.remaining = h.snapshot.entries.length - k := by
  cases hc : c.atEnd with
  | true =>
    have hk := ho.atEnd.1 hc
    simp only [Cursor.remaining,hc,if_true]
    omega
  | false => simp [Cursor.remaining,hc,ho.size hc,ho.position hc]

theorem advance (ho : c.Over h k) : c.advance.Over h (k + 1) := by
  cases hc : c.atEnd with
  | true =>
    have hk := ho.atEnd.1 hc
    rw [advance_of_atEnd hc]
    exact over_of_atEnd hc (by omega)
  | false =>
    have hp := ho.position hc
    refine ⟨?_,fun _ => ?_,fun _ => ?_⟩
    · simp [Cursor.advance,hc,ho.size hc,hp]
    · simp [Cursor.advance,hc,ho.held hc]
    · simp [Cursor.advance,hc,hp]

theorem moved (ho : c.Over h k) (n : Nat) : (n.repeat Cursor.advance c).Over h (k + n) := by
  induction n with
  | zero => exact ho
  | succ n ih => exact ih.advance

theorem next (ho : c.Over h k) : c.next = (h.snapshot.entries[k]?, c.advance) := by
  rw [Cursor.next,ho.current?]

theorem atEnd_of_none (ho : c.Over h k) (hn : h.snapshot.entries[k]? = none) : c.atEnd = true :=
  ho.atEnd.2 (List.getElem?_eq_none_iff.1 hn)

theorem nth (ho : c.Over h k) (n : Nat) :
    (c.nth n).1 = h.snapshot.entries[k + n]? ∧ (c.nth n).2.Over h (k + n + 1) := by
  induction n generalizing c k with
  | zero => exact ⟨ho.current?,ho.advance⟩
  | succ n ih =>
    rw [Cursor.nth,ho.next]
    cases he : h.snapshot.entries[k]? with
    | none =>
      have hc := ho.atEnd_of_none he
      have hk := ho.atEnd.1 hc
      rw [advance_of_atEnd hc]
      exact ⟨(List.getElem?_eq_none (by omega)).symm,over_of_atEnd hc (by omega)⟩
    | some e =>
      have ih := ih ho.advance
      rw [Nat.add_right_comm k 1 n] at ih
      exact ih

theorem take (ho : c.Over h k) (n : Nat) :
    (c.take n).1 = (h.snapshot.entries.drop k).take n ∧ (c.take n).2.Over h (k + n) := by
  induction n generalizing c k with
  | zero => exact ⟨rfl,ho⟩
  | succ n ih =>
    rw [Cursor.take,ho.next]
    cases he : h.snapshot.entries[k]? with
    | none =>
      have hc := ho.atEnd_of_none he
      have hk := ho.atEnd.1 hc
      rw [advance_of_atEnd hc]
      exact ⟨by simp [hk],over_of_atEnd hc (by omega)⟩
    | some e =>
      obtain ⟨hv,hc⟩ := ih ho.advance
      rw [Nat.add_right_comm k 1 n] at hc
      obtain ⟨hk,rfl⟩ := List.getElem?_eq_some_iff.1 he
      refine ⟨?_,hc⟩
      rw [List.drop_eq_getElem_cons hk,List.take_succ_cons]
      exact congrArg _ hv

theorem rest (ho : c.Over h k) : c.rest = h.snapshot.entries.drop k := by
  rw [Cursor.rest,(ho.take _).1,ho.remaining]
  exact List.take_of_length_le (by simp)

theorem drains (ho : c.Over h k) : c.Drains (h.snapshot.entries.drop k) := by
  generalize hn : h.snapshot.entries.length - k = n
  induction n generalizing c k with
  | zero =>
    have hc := ho.atEnd.2 (by omega)
    rw [List.drop_eq_nil_of_le (by omega)]
    refine .done ?_
    rw [ho.next,advance_of_atEnd hc,List.getElem?_eq_none (by omega)]
  | succ n ih =>
    have hk : k < h.snapshot.entries.length := by omega
    rw [List.drop_eq_getElem_cons hk]
    refine .more ?_ (ih ho.advance (by omega))
    rw [ho.next,List.getElem?_eq_getElem hk]

theorem drains_iff (ho : c.Over h k) (xs : List Entry) :
    c.Drains xs ↔ xs = h.snapshot.entries.drop k := by
  constructor
  · exact fun hd => hd.unique ho.drains
  · rintro rfl
    exact ho.drains

theorem shows (ho : c.Over h k) : c.Shows h.snapshot.entries k where
  sound := ho.sound
  atEnd := ho.atEnd
  entry := by
    cases hc : c.atEnd with
    | true => simp [Cursor.current?,hc]
    | false => simp [ho.current?,ho.lt_length hc]
  current := ho.current?
  room hc := by
    rw [ho.position hc,ho.size hc]
    exact Nat.le_of_lt (ho.lt_length hc)
  remaining := ho.remaining
  drains := ho.drains_iff
  yields xs hx := by rw [hx.unique ho.drains,List.length_drop,ho.remaining]
  nth n := (ho.nth n).1
  take n := (ho.take n).1

end Over

theorem Sound.same_self (hc : c.Sound) : c.same c = true := by
  unfold same
  rcases hc with hc | ⟨h,hh,-⟩
  · simp [hc]
  · cases c.atEnd <;> simp [hh]

end Cursor
end EventLoop
