import EventLoop.Proofs.Browsing

/-! Equality of cursors. Two cursors of a script are equal when both are at their end, or when they go
over the same snapshot and were moved equally often; snapshots that were built apart are not the same
even where their entries are. Equal cursors show the same and go on to be equal. Main statement:
`agrees`. -/
namespace EventLoop
namespace Cursor

variable {a b c : Cursor} {h : Held} {k : Nat}

theorem same_iff : a.same b = true ↔ a.atEnd = true ∧ b.atEnd = true ∨
    a.atEnd = false ∧ b.atEnd = false ∧ a.position = b.position ∧
      ∃ h h', a.held = some h ∧ b.held = some h' ∧ h.id = h'.id := by
  unfold same
  cases a.atEnd <;> cases b.atEnd <;> cases a.held <;> cases b.held <;> simp [and_comm]

theorem same_symm (hs : a.same b = true) : b.same a = true := by
  obtain ⟨ha,hb⟩ | ⟨ha,hb,hp,h,h',hh,hh',hi⟩ := same_iff.1 hs
  · exact same_iff.2 (Or.inl ⟨hb,ha⟩)
  · exact same_iff.2 (Or.inr ⟨hb,ha,hp.symm,h',h,hh',hh,hi.symm⟩)

theorem same_trans (hab : a.same b = true) (hbc : b.same c = true) : a.same c = true := by
  obtain ⟨ha,hb⟩ | ⟨ha,hb,hp,h,h',hh,hh',hi⟩ := same_iff.1 hab
  · obtain ⟨-,hc⟩ | ⟨hb',-⟩ := same_iff.1 hbc
    · exact same_iff.2 (Or.inl ⟨ha,hc⟩)
    · simp [hb] at hb'
  · obtain ⟨hb',-⟩ | ⟨-,hc,hp',g,g',hg,hg',hj⟩ := same_iff.1 hbc
    · simp [hb] at hb'
    · obtain rfl := Option.some.inj (hh'.symm.trans hg)
      exact same_iff.2 (Or.inr ⟨ha,hc,hp.trans hp',h,g',hh,hg',hi.trans hj⟩)

/-- Cursors that were moved equally often over one snapshot are equal. -/
theorem Over.same (ha : a.Over h k) (hb : b.Over h k) : a.same b = true := by
  have he : a.atEnd = b.atEnd := by rw [Bool.eq_iff_iff,ha.atEnd,hb.atEnd]
  cases hc : a.atEnd with
  | true => exact same_iff.2 (Or.inl ⟨hc,he ▸ hc⟩)
  | false =>
    have hd : b.atEnd = false := he ▸ hc
    have hp : a.position = b.position := by rw [ha.position hc,hb.position hd]
    exact same_iff.2 (Or.inr ⟨hc,hd,hp,h,h,ha.held hc,hb.held hd,rfl⟩)

/-- Nothing tells two cursors apart. -/
structure Alike (a b : Cursor) : Prop where
  current : a.current? = b.current?
  remaining : a.remaining = b.remaining
  rest : a.rest = b.rest
  drains : ∀ xs, a.Drains xs ↔ b.Drains xs
  /-- They are still equal when both have been moved on. -/
  moved : ∀ n : Nat, (n.repeat advance a).same (n.repeat advance b) = true
  nth : ∀ n, (a.nth n).1 = (b.nth n).1 ∧ (a.nth n).2.same (b.nth n).2 = true
  take : ∀ n, (a.take n).1 = (b.take n).1 ∧ (a.take n).2.same (b.take n).2 = true

theorem Over.alike (ha : a.Over h k) (hb : b.Over h k) : a.Alike b where
  current := by rw [ha.current?,hb.current?]
  remaining := by rw [ha.remaining,hb.remaining]
  rest := by rw [ha.rest,hb.rest]
  drains xs := by rw [ha.drains_iff,hb.drains_iff]
  moved n := (ha.moved n).same (hb.moved n)
  nth n := ⟨by rw [(ha.nth n).1,(hb.nth n).1],(ha.nth n).2.same (hb.nth n).2⟩
  take n := ⟨by rw [(ha.take n).1,(hb.take n).1],(ha.take n).2.same (hb.take n).2⟩

end Cursor

namespace Browse

theorem Holds.unique {built : List (List Entry)} {i : Nat} {h h' : Held}
    (hh : Holds built (some i) h) (hh' : Holds built (some i) h') : h = h' := by
  have hi : h.id = h'.id := hh.1.trans hh'.1.symm
  have he : h.snapshot.entries = h'.snapshot.entries := Option.some.inj (hh.2.symm.trans hh'.2)
  cases h with | mk id s => cases h' with | mk id' s' => cases s; cases s'; simp_all

variable {steps : List Browse} {x y : String}

theorem exists_over (hc : ((shelf steps).cursor x).atEnd = false) :
    ∃ i k h, (lineage steps).cursors x = some (i, k) ∧ Holds (lineage steps).built (some i) h ∧
      ((shelf steps).cursor x).Over h k := by
  have hf := (follows_shelf steps).cursors x
  cases hl : (lineage steps).cursors x with
  | none =>
    rw [hl] at hf
    simp [Fits,hc] at hf
  | some p =>
    rw [hl] at hf
    obtain ⟨h,hh,ho⟩ := hf
    exact ⟨p.1,p.2,h,rfl,hh,ho⟩

theorem exists_common {i k : Nat} (hx : (lineage steps).cursors x = some (i, k))
    (hy : (lineage steps).cursors y = some (i, k)) :
    ∃ h, ((shelf steps).cursor x).Over h k ∧ ((shelf steps).cursor y).Over h k := by
  have hfx := (follows_shelf steps).cursors x
  have hfy := (follows_shelf steps).cursors y
  rw [hx] at hfx
  rw [hy] at hfy
  obtain ⟨h,hh,ho⟩ := hfx
  obtain ⟨h',hh',ho'⟩ := hfy
  obtain rfl := hh.unique hh'
  exact ⟨h,ho,ho'⟩

theorem same_iff_lineage : ((shelf steps).cursor x).same ((shelf steps).cursor y) = true ↔
    ((shelf steps).cursor x).atEnd = true ∧ ((shelf steps).cursor y).atEnd = true ∨
      ((shelf steps).cursor x).atEnd = false ∧ ((shelf steps).cursor y).atEnd = false ∧
        ∃ i k, (lineage steps).cursors x = some (i, k) ∧ (lineage steps).cursors y = some (i, k) := by
  constructor
  · intro hs
    obtain hend | ⟨hx,hy,hp,g,g',hg,hg',hi⟩ := Cursor.same_iff.1 hs
    · exact Or.inl hend
    · obtain ⟨i,k,h,hl,hh,ho⟩ := exists_over hx
      obtain ⟨j,m,h',hl',hh',ho'⟩ := exists_over hy
      obtain rfl := Option.some.inj ((ho.held hx).symm.trans hg)
      obtain rfl := Option.some.inj ((ho'.held hy).symm.trans hg')
      have hij : i = j := by rw [← hh.1,hi,hh'.1]
      have hkm : k = m := by rw [← ho.position hx,hp,ho'.position hy]
      subst hij hkm
      exact Or.inr ⟨hx,hy,i,k,hl,hl'⟩
  · rintro (hend | ⟨-,-,i,k,hl,hl'⟩)
    · exact Cursor.same_iff.2 (Or.inl hend)
    · obtain ⟨h,ho,ho'⟩ := exists_common hl hl'
      exact ho.same ho'

theorem alike_of_same (hs : ((shelf steps).cursor x).same ((shelf steps).cursor y) = true) :
    ((shelf steps).cursor x).Alike ((shelf steps).cursor y) := by
  obtain ⟨hx,hy⟩ | ⟨-,-,i,k,hl,hl'⟩ := same_iff_lineage.1 hs
  · have hn : (default : Held).snapshot.entries.length ≤ 0 := Nat.le_refl 0
    exact (Cursor.over_of_atEnd hx hn).alike (Cursor.over_of_atEnd hy hn)
  · obtain ⟨h,ho,ho'⟩ := exists_common hl hl'
    exact ho.alike ho'

/-- What equality says of the cursors and snapshots of a script. -/
structure Agrees (steps : List Browse) : Prop where
  same : ∀ x y, ((shelf steps).cursor x).same ((shelf steps).cursor y) = true ↔
    ((shelf steps).cursor x).atEnd = true ∧ ((shelf steps).cursor y).atEnd = true ∨
      ((shelf steps).cursor x).atEnd = false ∧ ((shelf steps).cursor y).atEnd = false ∧
        ∃ i k, (lineage steps).cursors x = some (i, k) ∧ (lineage steps).cursors y = some (i, k)
  equivalence : Equivalence fun x y =>
    ((shelf steps).cursor x).same ((shelf steps).cursor y) = true
  alike : ∀ x y, ((shelf steps).cursor x).same ((shelf steps).cursor y) = true →
    ((shelf steps).cursor x).Alike ((shelf steps).cursor y)
  /-- Snapshots are the same when they were built by one step. -/
  shared : ∀ x y i j, (lineage steps).snapshots x = some i → (lineage steps).snapshots y = some j →
    (answer steps (.sameSnapshot x y) = .bool true ↔ i = j)

theorem agrees (steps : List Browse) : Agrees steps where
  same _ _ := same_iff_lineage
  equivalence :=
    ⟨fun x => (shows_shelf steps x).sound.same_self,Cursor.same_symm,Cursor.same_trans⟩
  alike _ _ := alike_of_same
  shared x y i j hx hy := by
    have hi := (follows_shelf steps).snapshots x
    have hj := (follows_shelf steps).snapshots y
    rw [hx] at hi
    rw [hy] at hj
    simp [answer,step,hi.1,hj.1]

end Browse
end EventLoop
