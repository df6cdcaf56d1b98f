import EventLoop.Proofs.OperationCounts
import EventLoop.Proofs.Reckoning

/-! What a snapshot of the counters tells. The counters of a loop agree with one another at every
moment, but a snapshot reads them one after the other: each value was right when it was read, and
the later ones count what has happened since the first. -/
namespace EventLoop

variable {H : Type}

open Table (weigh)

/-- Operations of loop `c` that are counted as started and not, or not yet, as aborted. -/
def Frame.underway (c : Nat) : Frame H → Nat
  | .addWork o | .enlist o | .operation o | .withdraw o _ | .countAbort o _ =>
    if o.home = c then 1 else 0
  | _ => 0

abbrev Starts (c : Nat) (taken : List (Frame H)) (e : Effect H) : Prop :=
  weigh (Frame.underway c) e.put + (abortCountedBy c taken).length ≤
    weigh (Frame.underway c) taken + (startedBy c taken).length

/-- Every counter is at most what it is later. -/
structure Counters.Le (v w : Counters) : Prop where
  posted : v.posted ≤ w.posted
  executed : v.executed ≤ w.executed
  started : v.started ≤ w.started
  aborted : v.aborted ≤ w.aborted

def Counters.Spans (low high : Counters) (ns : List Nat) : Prop :=
  ns.length ≤ 4 ∧ ∀ (k n : Nat), ns[k]? = some n →
    low.toList[k]?.getD 0 ≤ n ∧ n ≤ high.toList[k]?.getD 0

/-- The frames of a snapshot in progress, since the counters were `low`. -/
inductive Reading (c : Nat) (low high : Counters) : List (Frame H) → Prop
  | begin : Reading c low high [.call (.counters c)]
  | reading (ns : List Nat) (h : low.Spans high ns) : Reading c low high [.tally c ns]
  | done (ns : List Nat) (h : low.Spans high ns) (hn : ns.length = 4) :
      Reading c low high [.reply (.counts ns)]

section

variable {c me : Nat} {s : Shared H} {active : List Executor} {low high now : Counters}

theorem weightless_underway : Frame.Weightless (H := H) (Frame.underway c) := by
  intro f hf
  cases f <;> simp_all [Frame.idles,Frame.underway]

attribute [local simp] weigh Frame.underway abortCountedBy startedBy Effect.put

theorem starts_rewrite {f : Frame H} {frames : List (Frame H)}
    (hr : Rewrite me s active f frames) : Starts c [f] { shared := s, active, frames } := by
  cases hr with
  | destroy hf | ended hf | overdue hf => cases hf <;> exact Nat.le_refl 0
  | dropJobsCons j => cases j <;> exact Nat.le_refl 0
  | _ => simp

theorem starts_rule {f : Frame H} {e : Effect H} (hr : Rule me s active f e) :
    Starts c [f] e := by
  cases hr with
  | rewrite hr => exact starts_rewrite hr
  | enqueue hf | runDry hf | sleep hf => cases hf <;> exact Nat.le_refl 0
  | take hf j => cases hf <;> cases j <;> exact Nat.le_refl 0
  | countStart o | countAbort o => by_cases ho : o.home = c <;> simp [ho]
  | _ => simp

theorem starts_deed {taken : List (Frame H)} {e : Effect H} (hd : Deed me s active taken e)
    (hr : taken.tail.all Frame.rests = true) : Starts c taken e := by
  obtain ⟨frames,hs,rfl⟩ | ⟨f,rfl,hf⟩ := hd.shift_or_rule
  · have ht : abortCountedBy c taken = [] := by cases hs <;> rfl
    simp only [Starts,Effect.put,weigh_shift weightless_underway hs hr,ht]
    simp
  · exact starts_rule hf

theorem Counters.Le.refl (v : Counters) : v.Le v :=
  ⟨Nat.le_refl _,Nat.le_refl _,Nat.le_refl _,Nat.le_refl _⟩

theorem Counters.Le.trans (h : low.Le now) (h' : now.Le high) : low.Le high :=
  ⟨Nat.le_trans h.posted h'.posted,Nat.le_trans h.executed h'.executed,
    Nat.le_trans h.started h'.started,Nat.le_trans h.aborted h'.aborted⟩

theorem Counters.Le.getD (h : low.Le high) (k : Nat) :
    low.toList[k]?.getD 0 ≤ high.toList[k]?.getD 0 := by
  rcases k with _ | _ | _ | _ | k
  · exact h.posted
  · exact h.executed
  · exact h.started
  · exact h.aborted
  · exact Nat.le_refl 0

theorem Counters.Spans.mono {ns : List Nat} (h : low.Spans now ns) (hl : now.Le high) :
    low.Spans high ns := by
  refine ⟨h.1,?_⟩
  intro k n hn
  obtain ⟨hlow,hnow⟩ := h.2 k n hn
  exact ⟨hlow,Nat.le_trans hnow (hl.getD k)⟩

theorem Counters.spans_nil : low.Spans high [] := by
  refine ⟨Nat.zero_le _,?_⟩
  intro k n hn
  simp at hn

theorem Counters.Spans.concat {ns : List Nat} (h : low.Spans now ns) (hl : low.Le now) {n : Nat}
    (hn : now.toList[ns.length]? = some n) : low.Spans now (ns ++ [n]) := by
  have hlt : ns.length < 4 := (List.getElem?_eq_some_iff.1 hn).1
  refine ⟨by simp; omega,?_⟩
  intro k v hv
  rw [List.getElem?_append] at hv
  split at hv
  · exact h.2 k v hv
  · have hk : k = ns.length := by
      have hlen := (List.getElem?_eq_some_iff.1 hv).1
      simp at hlen
      omega
    subst hk
    obtain rfl : n = v := by simpa using hv
    have hle := hl.getD ns.length
    rw [hn] at hle ⊢
    exact ⟨hle,Nat.le_refl n⟩

theorem Counters.Spans.eq_toList {ns : List Nat} (h : low.Spans high ns) (hn : ns.length = 4) :
    ∃ v : Counters, ns = v.toList ∧ low.Le v ∧ v.Le high := by
  obtain ⟨p,e,b,a,rfl⟩ : ∃ p e b a, ns = [p, e, b, a] := by
    match ns, hn with
    | [p, e, b, a], _ => exact ⟨p,e,b,a,rfl⟩
  have hp := h.2 0 p rfl
  have he := h.2 1 e rfl
  have hb := h.2 2 b rfl
  have ha := h.2 3 a rfl
  exact ⟨⟨p,e,b,a⟩,rfl,⟨hp.1,he.1,hb.1,ha.1⟩,⟨hp.2,he.2,hb.2,ha.2⟩⟩

end

namespace Machine

section

variable {c i : Nat} {m : Machine H} {low : Counters} {rest gs : List (Frame H)}

theorem counters_move (c : Nat) (m : Machine H) (y : Move H) :
    (m.shared.loops.get c).counters.Le ((m.move y).shared.loops.get c).counters := by
  obtain ⟨a,hy,-,hmove⟩ | ⟨-,hmove⟩ := move_cases m y
  · have hk := counterStep_move c hy
    rw [hmove,shared_perform]
    exact ⟨Nat.le.intro (queued_move c hy).count.symm,Nat.le.intro hk.executed.symm,
      Nat.le.intro hk.started.symm,Nat.le.intro hk.aborted.symm⟩
  · have hl := (counterStep_happen m y c).1
    rw [hmove]
    exact ⟨Nat.le_of_eq (posted_happen m y c).symm,Nat.le_of_eq hl.executed.symm,
      Nat.le_of_eq hl.started.symm,Nat.le_of_eq hl.aborted.symm⟩

theorem Reading.mono {now high : Counters} (h : Reading c low now gs) (hl : now.Le high) :
    Reading c low high gs := by
  cases h with
  | begin => exact .begin
  | reading ns h => exact .reading ns (h.mono hl)
  | done ns h hn => exact .done ns (h.mono hl) hn

theorem reading_move (h : Reading c low (m.shared.loops.get c).counters gs)
    (hl : low.Le (m.shared.loops.get c).counters) (hf : (m.thread i).frames = gs ++ rest)
    (y : Move H) (hab : (m.move y).Above i rest) :
    ∃ hs, Reading c low ((m.move y).shared.loops.get c).counters hs ∧
      ((m.move y).thread i).frames = hs ++ rest := by
  have hm := counters_move c m y
  cases h with
  | begin =>
    obtain hy | hy := frames_move_of_proceeds hf rfl y
    · exact ⟨_,.begin,hy⟩
    · refine ⟨_,.reading [] Counters.spans_nil,hy⟩
  | reading ns h =>
    obtain hy | hy := frames_move_of_proceeds hf rfl y
    · exact ⟨_,.reading ns (h.mono hm),hy⟩
    · cases hn : (m.shared.loops.get c).counters.toList[ns.length]? with
      | some n =>
        refine ⟨_,.reading (ns ++ [n]) ((h.concat hl hn).mono hm),?_⟩
        rw [hy]
        simp [Frame.step,hn]
      | none =>
        have hlen : 4 ≤ ns.length := List.getElem?_eq_none_iff.1 hn
        refine ⟨_,.done ns (h.mono hm) (Nat.le_antisymm h.1 hlen),?_⟩
        rw [hy]
        simp [Frame.step,hn]
  | done ns h hn =>
    obtain hy | ⟨e,hd,hy⟩ := frames_move_of_head hf (by simp) y
    · exact ⟨_,.done ns (h.mono hm) hn,hy⟩
    · obtain he | he := hd.reply_cases
      · rw [Above,hy,he] at hab
        exact absurd hab not_above_self
      · rw [he] at hy
        exact ⟨_,.done ns (h.mono hm) hn,hy⟩

theorem reading_after (h : Reading c low (m.shared.loops.get c).counters gs)
    (hl : low.Le (m.shared.loops.get c).counters) (hf : (m.thread i).frames = gs ++ rest)
    (ys : List (Move H)) (hab : ∀ zs, zs <+: ys → (m.after zs).Above i rest) :
    ∃ hs, Reading c low ((m.after ys).shared.loops.get c).counters hs ∧
      ((m.after ys).thread i).frames = hs ++ rest := by
  induction ys generalizing m gs with
  | nil => exact ⟨gs,h,hf⟩
  | cons y ys ih =>
    obtain ⟨hs,hh,hg⟩ := reading_move h hl hf y (hab [y] (by simp))
    have hys (zs : List (Move H)) (hz : zs <+: ys) : ((m.move y).after zs).Above i rest :=
      hab (y :: zs) (by simpa using hz)
    exact ih hh (hl.trans (counters_move c m y)) hg hys

theorem started_run (c : Nat) (moves : List (Move H)) :
    ((run moves).shared.loops.get c).counters.started =
      (history (startCounted c) moves).length := by
  induction moves using run_induction with
  | start => rfl
  | move xs y ih =>
    rw [run_concat,history_concat,List.length_append,← ih]
    obtain ⟨a,hy,-,hmove⟩ | ⟨hy,hmove⟩ := move_cases (run xs) y
    · rw [hmove,noted_of_act? hy]
      exact (counterStep_move c hy).started
    · rw [hmove,noted_of_act?_none hy]
      exact (counterStep_happen (run xs) y c).1.started

theorem executed_le_posted (c : Nat) (moves : List (Move H)) :
    ((run moves).shared.loops.get c).counters.executed ≤
      ((run moves).shared.loops.get c).counters.posted := by
  rw [posted_eq]
  omega

theorem aborted_le_started (c : Nat) (moves : List (Move H)) :
    ((run moves).shared.loops.get c).counters.aborted + (run moves).weight (Frame.underway c) ≤
      ((run moves).shared.loops.get c).counters.started := by
  induction moves using run_induction with
  | start => exact Nat.le_refl 0
  | move xs y ih =>
    rw [run_concat]
    obtain ⟨a,hy,ha,hmove⟩ | ⟨-,hmove⟩ := move_cases (run xs) y
    · obtain ⟨k,hk,hk'⟩ := exists_weight_perform ha (Frame.underway c)
      have hs := starts_deed (c := c) ha.deed (ha.rests_tail (sound_run xs))
      have hm := counterStep_move c hy
      rw [hmove,shared_perform,hm.aborted,hm.started,hk']
      omega
    · have hl := (counterStep_happen (run xs) y c).1
      rw [hmove,hl.aborted,hl.started,weight_happen weightless_underway]
      exact ih

/-- What the counters of a loop and a snapshot of them tell. -/
structure Tallied (c : Nat) (moves : List (Move H)) : Prop where
  executed : ((run moves).shared.loops.get c).counters.executed ≤
    ((run moves).shared.loops.get c).counters.posted
  aborted : ((run moves).shared.loops.get c).counters.aborted ≤
    ((run moves).shared.loops.get c).counters.started
  /-- A snapshot tells values between those before and after it. It may tell more executed than
  posted jobs by as many as are posted while it is taken, and more aborted than started operations
  by as many as are started. -/
  snapshot : ∀ i rest, ((run moves).thread i).frames = .call (.counters c) :: rest → ∀ ys ns,
    (∀ zs, zs <+: ys → ((run moves).after zs).Above i rest) →
      (((run moves).after ys).thread i).frames = .reply (.counts ns) :: rest →
        ∃ v : Counters, ns = v.toList ∧ ((run moves).shared.loops.get c).counters.Le v ∧
          v.Le (((run moves).after ys).shared.loops.get c).counters ∧
          v.executed ≤ v.posted + (notes (accepted c) (run moves) ys).length ∧
          v.aborted ≤ v.started + (notes (startCounted c) (run moves) ys).length

theorem snapshot_of_call {moves : List (Move H)}
    (hf : ((run moves).thread i).frames = .call (.counters c) :: rest) {ys : List (Move H)}
    (hab : ∀ zs, zs <+: ys → ((run moves).after zs).Above i rest) {ns : List Nat}
    (hr : (((run moves).after ys).thread i).frames = .reply (.counts ns) :: rest) :
    ∃ v : Counters, ns = v.toList ∧ ((run moves).shared.loops.get c).counters.Le v ∧
      v.Le (((run moves).after ys).shared.loops.get c).counters ∧
      v.executed ≤ v.posted + (notes (accepted c) (run moves) ys).length ∧
      v.aborted ≤ v.started + (notes (startCounted c) (run moves) ys).length := by
  obtain ⟨hs,hh,hg⟩ := reading_after (.begin : Reading c _ _ [.call (.counters c)]) (.refl _) hf ys hab
  have he : hs = [.reply (.counts ns)] := List.append_cancel_right (hg.symm.trans hr)
  cases hh with
  | done ks h hn =>
    obtain rfl : ks = ns := by simpa using he
    obtain ⟨v,rfl,hlow,hhigh⟩ := h.eq_toList hn
    have hp := posted_run c (moves ++ ys)
    have hs := started_run c (moves ++ ys)
    have hx := executed_le_posted c (moves ++ ys)
    have ha := aborted_le_started c (moves ++ ys)
    simp only [run_append,history_append,List.length_append] at hp hs hx ha
    have hp' := posted_run c moves
    have hs' := started_run c moves
    refine ⟨v,rfl,hlow,hhigh,?_,?_⟩
    · have h1 := hhigh.executed
      have h2 := hlow.posted
      omega
    · have h1 := hhigh.aborted
      have h2 := hlow.started
      omega
  | _ => cases he

theorem tallied_run (c : Nat) (moves : List (Move H)) : Tallied c moves where
  executed := executed_le_posted c moves
  aborted := Nat.le_trans (Nat.le_add_right _ _) (aborted_le_started c moves)
  snapshot _ _ hf _ _ hab hr := snapshot_of_call hf hab hr

end

def interrupted : List (Move Unit) :=
  [.addLoop {}, .spawn (), .spawn (), .call 0 (.counters 0), .step 0, .step 0,
    .call 1 (.post (.loop 0) (.body () none)), .step 1, .step 1, .call 1 (.run 0 .poll none),
    .step 1, .step 1, .step 1, .finish 1, .step 1, .step 0, .step 0, .step 0, .step 0]

/-- The snapshot tells of one executed job and of none that was posted. -/
theorem not_consistent_interrupted :
    ¬ ∀ (i : Nat) (moves : List (Move Unit)) (v : Counters) (rest : List (Frame Unit)),
      ((run moves).thread i).frames = .reply (.counts v.toList) :: rest →
        v.executed ≤ v.posted ∧ v.aborted ≤ v.started := by
  intro h
  have hv := h 0 interrupted ⟨0,1,0,0⟩ [.code .program () 1] rfl
  exact absurd hv.1 (by decide)

end Machine
end EventLoop
