import EventLoop.Proofs.StrandCounts

/-! Strands exclude. A locked strand has exactly one holder, so two threads are never inside
its handlers at once, and whoever is inside can only call another handler of the strand at once
on the same thread. -/
namespace EventLoop

variable {H : Type}

open Table (weigh)

namespace StrandCounts

def holders (v : StrandCounts H) : Nat := v.turns + v.losses + v.releases

/-- A strand with a holder is locked and has no other holder, and a turn that is to run finds a
handler. -/
structure Exact (v : StrandCounts H) : Prop where
  holders : v.holders = if v.locked then 1 else 0
  waiting : v.waiting ≠ [] → v.locked = true
  turns : 0 < v.turns → v.waiting ≠ []

theorem Step.exact {v v' : StrandCounts H} {submitted begun : List (Task H)}
    (h : Step v v' submitted begun) (hv : v.Exact) : v'.Exact := by
  obtain ⟨hh,hw,ht⟩ := hv
  unfold StrandCounts.holders at hh
  cases h with
  | keep h => exact h ▸ ⟨hh,hw,ht⟩
  | postIdle t hl h =>
    have hn : v.turns + v.losses + v.releases = 0 := by simpa [hl] using hh
    subst h
    exact ⟨by simp [StrandCounts.holders]; omega,fun _ => rfl,fun _ => by simp⟩
  | postBusy t hl h =>
    subst h
    exact ⟨by simpa [StrandCounts.holders,hl] using hh,fun _ => hl,fun _ => by simp⟩
  | acquire t hl h =>
    have hn : v.turns + v.losses + v.releases = 0 := by simpa [hl] using hh
    subst h
    exact ⟨by simp [StrandCounts.holders]; omega,fun _ => rfl,ht⟩
  | begin t ts n hb hn h =>
    have hl : v.locked = true := hw (by simp [hb])
    have ho : v.turns + v.losses + v.releases = 1 := by simpa [hl] using hh
    subst h
    refine ⟨by simp [StrandCounts.holders,hl]; omega,fun _ => hl,?_⟩
    intro h
    have h : 0 < n := h
    omega
  | beginNone n hb hn h => exact absurd hb (ht (by omega))
  | handOn n hb hn h =>
    have hl : v.locked = true := hw hb
    have ho : v.turns + v.losses + v.releases = 1 := by simpa [hl] using hh
    subst h
    exact ⟨by simp [StrandCounts.holders,hl]; omega,hw,fun _ => hb⟩
  | free n hb hn h =>
    have hl : v.locked = true := by
      by_contra hl
      simp [hl] at hh
      omega
    have ho : v.turns + v.losses + v.releases = 1 := by simpa [hl] using hh
    subst h
    refine ⟨by simp [StrandCounts.holders]; omega,fun hn => absurd hb hn,?_⟩
    intro h
    have h : 0 < v.turns := h
    omega
  | giveUp n k hn h =>
    subst h
    refine ⟨by simp only [StrandCounts.holders]; omega,hw,?_⟩
    intro h
    have h : 0 < n := h
    exact ht (by omega)
  | abandon n hn h =>
    have hl : v.locked = true := by
      by_contra hl
      simp [hl] at hh
      omega
    have ho : v.turns + v.losses + v.releases = 1 := by simpa [hl] using hh
    subst h
    refine ⟨by simp [StrandCounts.holders]; omega,fun hn => absurd rfl hn,?_⟩
    intro h
    have h : 0 < v.turns := h
    omega

theorem Step.begun_eq_nil {v v' : StrandCounts H} {submitted begun : List (Task H)}
    (h : Step v v' submitted begun) (hv : v.Exact) (hr : 0 < v.releases) : begun = [] := by
  have hh := hv.holders
  unfold StrandCounts.holders at hh
  cases h with
  | acquire t hl h =>
    simp [hl] at hh
    omega
  | begin t ts n hw ht h => split at hh <;> omega
  | _ => rfl

end StrandCounts

theorem count_leaves_le (x : Nat) {fs : List (Frame H)} (h : Stacked fs) :
    (leaves fs).count (.strand x) ≤ weigh (Frame.releases x) fs ∧
      (firstCalm fs = some (.release x) →
        (leaves fs).count (.strand x) + 1 ≤ weigh (Frame.releases x) fs) := by
  induction fs with
  | nil => simp [leaves,firstCalm]
  | cons f fs ih =>
    obtain ⟨⟨-,hl,-⟩,hs⟩ := h
    obtain ⟨hc,hr⟩ := ih hs
    have hn : leaves (f :: fs) = f.left ++ leaves fs := by simp [leaves]
    cases f with
    | leave e =>
      refine ⟨?_,by simp [firstCalm]⟩
      by_cases he : e = .strand x
      · subst he
        have h := hr (hl x rfl)
        simpa [hn,Frame.left,Frame.releases,weigh] using h
      · simp [hn,he,Frame.left,Frame.releases,weigh]
        omega
    | release y =>
      by_cases hy : y = x
      · subst hy
        simp [hn,Frame.left,Frame.releases,weigh,firstCalm]
        omega
      · simp [hn,hy,Frame.left,Frame.releases,weigh,firstCalm]
        omega
    | panic t => simpa [hn,Frame.left,Frame.releases,weigh,firstCalm] using ⟨hc,hr⟩
    | _ => simpa [hn,Frame.left,Frame.releases,weigh,firstCalm] using hc

section

variable {x me : Nat} {s : Shared H} {active : List Executor}

theorem begunBy_of_enters {taken : List (Frame H)} {e : Effect H}
    (hd : Deed me s active taken e) (he : (.strand x) ∈ e.active) :
    (.strand x) ∈ active ∨ begunBy x s taken ≠ [] := by
  obtain ⟨frames,-,rfl⟩ | ⟨f,rfl,hr⟩ := hd.shift_or_rule
  · exact Or.inl he
  cases hr with
  | turn y t ts hw =>
    obtain h | he := List.mem_cons.1 he
    · obtain rfl := Executor.strand.inj h
      exact Or.inr (by simp [begunBy,hw])
    · exact Or.inl he
  | lock y t hl =>
    obtain h | he := List.mem_cons.1 he
    · obtain rfl := Executor.strand.inj h
      exact Or.inr (by simp [begunBy,hl])
    · exact Or.inl he
  | take => exact Or.inl (by simpa using he)
  | leave e => exact Or.inl (List.mem_of_mem_erase he)
  | _ => exact Or.inl he

end

namespace Machine

/-- Thread `i` is inside a handler of strand `x`. -/
def inside (x : Nat) (m : Machine H) (i : Nat) : Prop := .strand x ∈ (m.thread i).active

/-- Handler `t` of strand `x` begins: as an outermost one, or because a dispatch from inside
calls it at once. -/
def begins (x : Nat) (m : Machine H) (a : Act H) (t : Task H) : Prop :=
  t ∈ m.begun x a ∨ a.taken = [.call (.dispatch (.strand x) t)] ∧ m.inside x a.thread

/-- What a strand promises in one state. -/
structure Exclusive (x : Nat) (m : Machine H) : Prop where
  /-- Nobody holds a free strand, and just one a locked one. -/
  holders : (m.strandCounts x).holders = if (m.shared.strands.get x).locked then 1 else 0
  one : ∀ i j, m.inside x i → m.inside x j → i = j
  once : ∀ i, (m.thread i).active.count (.strand x) ≤ 1
  /-- A thread comes to be inside by the outermost handlers only. -/
  enters : ∀ y a, m.act? y = some a → ¬ m.inside x a.thread → (.strand x) ∈ a.effect.active →
    m.begun x a ≠ []
  /-- What begins while a thread is inside begins on this thread, in the handler that dispatches
  it. -/
  nested : ∀ y a t i, m.act? y = some a → m.begins x a t → m.inside x i →
    a.thread = i ∧ a.taken = [.call (.dispatch (.strand x) t)]

theorem exact_strandCounts (x : Nat) (moves : List (Move H)) :
    ((run moves).strandCounts x).Exact := by
  induction moves using run_induction with
  | start => exact ⟨rfl,fun h => absurd rfl h,fun h => absurd h (Nat.lt_irrefl 0)⟩
  | move xs y ih =>
    rw [run_concat]
    exact (strandCounts_move x (sound_run xs) y).exact ih

theorem count_active_le (x : Nat) (moves : List (Move H)) (i : Nat) :
    ((run moves).thread i).active.count (.strand x) ≤
      weigh (Frame.releases x) ((run moves).thread i).frames := by
  have h := sound_run moves i
  rw [h.active]
  exact (count_leaves_le x h.stacked).1

theorem releases_le (x : Nat) (m : Machine H) (i : Nat) :
    weigh (Frame.releases x) (m.thread i).frames ≤ m.weight (Frame.releases x) :=
  Table.le_total (f := fun t : Thread H => weigh (Frame.releases x) t.frames) rfl m.threads i

theorem releases_le_one (x : Nat) (moves : List (Move H)) :
    (run moves).weight (Frame.releases x) ≤ 1 := by
  have h := (exact_strandCounts x moves).holders
  have hr : ((run moves).strandCounts x).releases = (run moves).weight (Frame.releases x) := rfl
  unfold StrandCounts.holders at h
  split at h <;> omega

theorem inside_unique {x : Nat} {moves : List (Move H)} {i j : Nat}
    (hi : (run moves).inside x i) (hj : (run moves).inside x j) : i = j := by
  by_contra hij
  have h := Table.add_le_total (f := fun t : Thread H => weigh (Frame.releases x) t.frames) rfl
    (run moves).threads hij
  have ho := releases_le_one x moves
  have hci := List.count_pos_iff.2 hi
  have hcj := List.count_pos_iff.2 hj
  have hli := count_active_le x moves i
  have hlj := count_active_le x moves j
  unfold weight at ho
  unfold thread at hci hcj hli hlj
  omega

theorem begun_eq_nil {x : Nat} {moves : List (Move H)} {y : Move H} {a : Act H} {i : Nat}
    (ha : (run moves).act? y = some a) (hi : (run moves).inside x i) :
    (run moves).begun x a = [] := by
  have hs := strandCounts_move x (sound_run moves) y
  rw [noted_of_act? ha,noted_of_act? ha] at hs
  apply hs.begun_eq_nil (exact_strandCounts x moves)
  have hc := List.count_pos_iff.2 hi
  have hl := count_active_le x moves i
  have hw := releases_le x (run moves) i
  exact Nat.lt_of_lt_of_le hc (Nat.le_trans hl hw)

theorem exclusive_run (x : Nat) (moves : List (Move H)) : (run moves).Exclusive x where
  holders := (exact_strandCounts x moves).holders
  one _ _ hi hj := inside_unique hi hj
  once i := by
    have hl := count_active_le x moves i
    have hw := releases_le x (run moves) i
    exact Nat.le_trans hl (Nat.le_trans hw (releases_le_one x moves))
  enters y a ha hn he := (begunBy_of_enters (fits_of_act? ha).deed he).resolve_left hn
  nested y a t i ha hb hi := by
    obtain hb | ⟨ht,hj⟩ := hb
    · rw [begun_eq_nil ha hi] at hb
      exact absurd hb List.not_mem_nil
    · exact ⟨inside_unique hj hi,ht⟩

end Machine
end EventLoop
