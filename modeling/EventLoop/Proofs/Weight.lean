import EventLoop.Proofs.Stack

/-! Sums of a weight over the frames of all threads. An act changes such a sum by what it takes
off a stack and what it puts there, so that a count of the threads at some place of the library
follows from one look at each deed. -/
namespace EventLoop

variable {H : Type}

open Table (weigh)

/-- The weight of frames that hold nothing is zero. -/
def Frame.Weightless (w : Frame H → Nat) : Prop := ∀ f, f.idles = true → w f = 0

theorem weigh_shift {w : Frame H → Nat} (hw : Frame.Weightless w) {taken frames : List (Frame H)}
    (hs : Shift taken frames) (hr : taken.tail.all Frame.rests = true) :
    weigh w frames = weigh w taken := by
  cases hs with
  | cleanUp t f hc => simp [weigh,hw (.panic t) rfl]
  | skip t f hs hc =>
    have hi : f.idles = true := idles_of_skip (by simpa using hr) hs hc
    simp [weigh,hw (.panic t) rfl,hw f hi]
  | answer r => simp [weigh,hw (.reply r) rfl]
  | die t => simp [weigh,hw (.panic t) rfl]
  | call role h made c =>
    simp [weigh,hw (.call c) rfl,hw (.code role h made) rfl,hw (.code role h (made + 1)) rfl]
  | finish role h made => simp [weigh,hw (.code role h made) rfl]
  | raise role h made t => simp [weigh,hw (.panic t) rfl]
  | pass role h made t => simp [weigh,hw (.code role h made) rfl]
  | recover role h made t => simp [weigh,hw (.panic t) rfl]

/-- The frames that an effect puts on a stack or starts beside it. -/
def Effect.put (e : Effect H) : List (Frame H) :=
  match e.started with
  | none => e.frames
  | some o => .operation o :: e.frames

/-- An operation that weighs nothing can start unseen. -/
theorem weigh_put {w : Frame H → Nat} (hw : ∀ o, w (.operation o) = 0) (e : Effect H) :
    weigh w e.put = weigh w e.frames := by
  unfold Effect.put
  split <;> simp [weigh,hw]

namespace Machine

def weight (w : Frame H → Nat) (m : Machine H) : Nat :=
  m.threads.total fun t => weigh w t.frames

theorem weight_perform (w : Frame H → Nat) (m : Machine H) (a : Act H) :
    (m.perform a).weight w + weigh w (m.thread a.thread).frames =
      m.weight w + weigh w a.effect.put + weigh w a.rest := by
  have hu := Table.total_update (f := fun t : Thread H => weigh w t.frames) rfl m.threads
    a.thread fun _ => ⟨a.effect.frames ++ a.rest, a.effect.active⟩
  simp only [Table.weigh_append] at hu
  cases hs : a.effect.started with
  | none =>
    simp [weight,perform,Effect.put,thread,hs] at hu ⊢
    omega
  | some o =>
    simp [weight,perform,Effect.put,thread,hs,weigh] at hu ⊢
    omega

/-- An act leaves the weight of the frames that it does not touch as it is. -/
theorem exists_weight_perform {m : Machine H} {a : Act H} (ha : a.Fits m)
    (w : Frame H → Nat) :
    ∃ k, m.weight w = weigh w a.taken + k ∧ (m.perform a).weight w = weigh w a.effect.put + k := by
  have hp := weight_perform w m a
  have ht : weigh w (m.thread a.thread).frames ≤ m.weight w :=
    Table.le_total (f := fun t : Thread H => weigh w t.frames) rfl m.threads a.thread
  rw [ha.frames,Table.weigh_append] at hp ht
  exact ⟨m.weight w - weigh w a.taken,by omega,by omega⟩

/-- A thread that starts weighs nothing if programs weigh nothing. -/
theorem weight_happen_of {w : Frame H → Nat} (hw : ∀ h, w (.code .program h 0) = 0)
    (m : Machine H) (x : Move H) : (m.happen x).weight w = m.weight w := by
  cases x with
  | spawn h => simp [weight,happen,weigh,hw h]
  | _ => rfl

theorem weight_happen {w : Frame H → Nat} (hw : Frame.Weightless w) (m : Machine H)
    (x : Move H) : (m.happen x).weight w = m.weight w :=
  weight_happen_of (fun _ => hw _ rfl) m x

theorem weight_eq_zero {m : Machine H} {w : Frame H → Nat}
    (h : ∀ i, ∀ f ∈ (m.thread i).frames, w f = 0) : m.weight w = 0 := by
  by_contra hn
  obtain ⟨i,hi⟩ := Table.exists_of_total_pos _ (Nat.pos_of_ne_zero hn)
  obtain ⟨f,hf,hp⟩ := Table.exists_of_weigh_pos hi
  exact absurd (h i f hf) (Nat.ne_of_gt hp)

theorem mem_frames_perform {m : Machine H} {a : Act H} (ha : a.Fits m) {i : Nat} {f : Frame H}
    (hf : f ∈ ((m.perform a).thread i).frames) :
    f ∈ a.effect.put ∨ ∃ j, f ∈ (m.thread j).frames := by
  obtain h | ⟨o,ho,h⟩ | ⟨-,h⟩ := thread_perform m a i
  · rw [h] at hf
    obtain hf | hf := List.mem_append.1 hf
    · left
      unfold Effect.put
      split
      · exact hf
      · exact List.mem_cons_of_mem _ hf
    · exact Or.inr ⟨a.thread,ha.frames ▸ List.mem_append_right _ hf⟩
  · rw [h] at hf
    left
    simpa [Effect.put,ho] using Or.inl (List.mem_singleton.1 hf)
  · exact Or.inr ⟨i,h ▸ hf⟩

theorem mem_frames_happen {m : Machine H} {x : Move H} {i : Nat} {f : Frame H}
    (hf : f ∈ ((m.happen x).thread i).frames) :
    (∃ u, f = .code .program u 0) ∨ ∃ j, f ∈ (m.thread j).frames := by
  obtain ⟨u,h⟩ | h := thread_happen m x i
  · rw [h] at hf
    exact Or.inl ⟨u,List.mem_singleton.1 hf⟩
  · exact Or.inr ⟨i,h ▸ hf⟩

/-- What is true of the frames that acts put on a stack is true of every frame of a run, if nothing
that happens later makes it false. -/
theorem frames_induction {P : List (Move H) → Frame H → Prop}
    (later : ∀ xs y f, P xs f → P (xs ++ [y]) f) (start : ∀ xs u, P xs (.code .program u 0))
    (act : ∀ xs y a, (run xs).act? y = some a → a.Fits (run xs) → (∀ f ∈ a.taken, P xs f) →
      ∀ f ∈ a.effect.put, P (xs ++ [y]) f)
    (moves : List (Move H)) {i : Nat} {f : Frame H} (hf : f ∈ ((run moves).thread i).frames) :
    P moves f := by
  induction moves using run_induction generalizing i f with
  | start => exact absurd hf List.not_mem_nil
  | move xs y ih =>
    rw [run_concat] at hf
    obtain ⟨a,hy,ha,hmove⟩ | ⟨-,hmove⟩ := move_cases (run xs) y
    · rw [hmove] at hf
      obtain hf | ⟨j,hf⟩ := mem_frames_perform ha hf
      · have ht (g : Frame H) (hg : g ∈ a.taken) : P xs g :=
          ih (i := a.thread) (ha.frames ▸ List.mem_append_left _ hg)
        exact act xs y a hy ha ht f hf
      · exact later xs y f (ih hf)
    · rw [hmove] at hf
      obtain ⟨u,rfl⟩ | ⟨j,hf⟩ := mem_frames_happen hf
      · exact start (xs ++ [y]) u
      · exact later xs y f (ih hf)

end Machine
end EventLoop
