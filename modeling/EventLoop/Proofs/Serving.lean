import EventLoop.Proofs.Delivery
import EventLoop.Proofs.Retention
import EventLoop.Proofs.Winding
import EventLoop.Proofs.Work

/-! Jobs come up. A thread that looks for work in a call without a limit gets to any job that waits,
when the handlers ahead of it return.
Main statement: `begun_of_drain`. -/
namespace EventLoop

variable {H : Type}

section

variable {c me : Nat} {s : Shared H} {active : List Executor}

theorem closed_of_runsTasks {f : Frame H} {e : Effect H} (hd : Deed me s active [f] e)
    (hf : f.runsTasks = true) : (e.shared.loops.get c).closed = (s.loops.get c).closed := by
  obtain ⟨frames,-,rfl⟩ | hr := hd.rule_of_singleton
  · rfl
  · refine (hr.abides ?_ c).1
    rintro d rfl
    cases hf

end

namespace Machine

variable {c i k n : Nat} {j : Job H} {moves : List (Move H)}

/-- Loop `c` goes on and has handed out `n` jobs, and it has accepted more than `k`. -/
structure Ahead (c n k : Nat) (moves : List (Move H)) : Prop where
  opened : ((run moves).shared.loops.get c).closed = false
  going : ((run moves).shared.loops.get c).stopped = false
  count : (history (handedOut c) moves).length = n
  waits : n ≤ k
  accepted : k < (history (accepted c) moves).length

theorem length_queue (hc : ((run moves).shared.loops.get c).closed = false) :
    (history (handedOut c) moves).length + ((run moves).shared.loops.get c).queue.length =
      (history (accepted c) moves).length := by
  rw [← fifo_run c moves hc,List.length_append]

/-- As long as a job waits, the loop goes on unless it is told to stop. -/
theorem Ahead.concat {n' : Nat} {y : Move H} {a : Act H} (h : Ahead c n k moves)
    (hy : (run moves).act? y = some a) (ht : a.taken ≠ [.call (.stop c)])
    (hc : ((run (moves ++ [y])).shared.loops.get c).closed = false)
    (hh : n + (handedOut c (run moves) a).length = n') (hk : n' ≤ k) :
    Ahead c n' k (moves ++ [y]) := by
  have hcount : (history (handedOut c) (moves ++ [y])).length = n' := by
    rw [history_concat,noted_of_act? hy,List.length_append,h.count,hh]
  have hacc : k < (history (Machine.accepted c) (moves ++ [y])).length := by
    rw [history_concat,List.length_append]
    exact Nat.lt_add_right _ h.accepted
  refine ⟨hc,?_,hcount,hk,hacc⟩
  by_contra hs
  have hc' := hc
  rw [run_concat] at hs hc'
  obtain ⟨b,hb,hbt⟩ | hl := halted_or_idle hc' h.going (by simpa using hs)
  · obtain rfl := Option.some.inj (hy.symm.trans hb)
    exact ht hbt
  · have hq := length_queue hc
    unfold load at hl
    omega

theorem handedOut_of_runsTasks {y : Move H} {a : Act H} {f : Frame H}
    (hy : (run moves).act? y = some a) (ht : a.taken = [f]) (hf : f.runsTasks = true) :
    handedOut c (run moves) a = [] := by
  by_contra hne
  have hl := length_handedOut_le c (run moves) a
  obtain ⟨j,hj⟩ := List.length_eq_one_iff.1
    (Nat.le_antisymm hl (List.length_pos_iff.2 hne))
  obtain ⟨g,w,limit,ran,hg,hlook,-⟩ := looks_of_handed (fits_of_act? hy).deed hj
  obtain rfl := List.singleton_inj.1 (ht.symm.trans hg)
  cases f with
  | drain d w l r | asleep d w l r | awake d w l r => cases hf
  | _ => cases hlook

theorem Ahead.runsTasks {y : Move H} {a : Act H} {f : Frame H} (h : Ahead c n k moves)
    (hy : (run moves).act? y = some a) (ht : a.taken = [f]) (hf : f.runsTasks = true) :
    Ahead c n k (moves ++ [y]) := by
  refine h.concat hy ?_ ?_ ?_ h.waits
  · intro hs
    obtain rfl := List.singleton_inj.1 (ht.symm.trans hs)
    cases hf
  · have hd := (fits_of_act? hy).deed
    rw [ht] at hd
    rw [run_concat,move_of_act? hy,shared_perform,closed_of_runsTasks hd hf]
    exact h.opened
  · rw [handedOut_of_runsTasks hy ht hf]
    rfl

variable {w : Wait} {ran : Nat} {fs : List (Frame H)}

theorem Ahead.front (h : Ahead c n k moves) :
    ∃ j js, ((run moves).shared.loops.get c).queue = j :: js ∧
      ((run moves).shared.loops.get c).pick = .job j js := by
  have hq := length_queue h.opened
  have hn := h.count
  have hw := h.waits
  have ha := h.accepted
  obtain ⟨j,js,hj⟩ := List.exists_cons_of_length_pos
    (l := ((run moves).shared.loops.get c).queue) (by omega)
  exact ⟨j,js,hj,by simp [Loop.pick,h.opened,h.going,hj]⟩

theorem Ahead.look (h : Ahead c n k moves)
    (hf : ((run moves).thread i).frames = .drain c w none ran :: fs) : ∃ j,
      ((run (moves ++ [.step i])).thread i).frames = jobFrames c w none ran j ++ fs ∧
      ((run (moves ++ [.step i])).shared.loops.get c).closed = false ∧
      (history (handedOut c) (moves ++ [.step i])).length = n + 1 ∧
      (n < k → Ahead c (n + 1) k (moves ++ [.step i])) := by
  obtain ⟨j,js,hj,hp⟩ := h.front
  have hy := act?_step hf rfl
  have he : ((Frame.drain c w none ran).step i (run moves).shared
      ((run moves).thread i).active).frames = jobFrames c w none ran j := by
    simp [Frame.step,Frame.seek,hp,jobFrames]
  have hh := handedOut_of_look hy rfl rfl rfl (by simp [he,jobFrames]) h.opened h.going
    (List.head?_eq_some_iff.2 ⟨js,hj⟩)
  have hc : ((run (moves ++ [.step i])).shared.loops.get c).closed = false := by
    rw [run_concat,shared_move_step hf rfl]
    exact ((Rule.step (.drain c w none ran) rfl).abides (by simp) c).1.trans h.opened
  refine ⟨j,?_,hc,?_,fun hk => h.concat hy (by simp) hc (by rw [hh]; rfl) hk⟩
  · rw [run_concat,frames_move_step hf rfl,he]
  · rw [history_concat,noted_of_act? hy,List.length_append,h.count,hh]
    rfl

theorem Ahead.round (h : Ahead c n k moves)
    (hf : ((run moves).thread i).frames = jobFrames c w none ran j ++ fs) :
    ReachesBy i (Ahead c n k) ({} : Machine H) (.drain c w none (ran + 1) :: fs) moves := by
  have hj : ((run moves).thread i).frames =
      [Frame.execute j,.finish c,.leave (.loop c)] ++ .drain c w none (ran + 1) :: fs := hf
  refine reachesBy_of_all ?_ hj h
  intro g hg
  refine reaches_of_winds (fun xs y a f hi hy ht hm => hi.runsTasks hy ht hm) ?_
  simp only [List.mem_cons,List.not_mem_nil,or_false] at hg
  obtain rfl | rfl | rfl := hg
  · exact Frame.winds_execute j
  · exact Frame.winds_of_cleansUp rfl
  · exact Frame.winds_of_cleansUp rfl

theorem handedOut_of_drain {d : Nat} (h : Ahead c n k moves) (hd : n + d = k)
    (hf : ((run moves).thread i).frames = .drain c w none ran :: fs) :
    ∃ us : List (Move H), (∀ u ∈ us, u.mover? = some i) ∧
      ((run (moves ++ us)).shared.loops.get c).closed = false ∧
      (history (handedOut c) (moves ++ us)).length = k + 1 := by
  induction d generalizing moves n ran with
  | zero =>
    obtain ⟨j,-,hc,hl,-⟩ := h.look hf
    exact ⟨[.step i],by simp [Move.mover?],hc,by omega⟩
  | succ d ih =>
    obtain ⟨j,hj,-,-,hn⟩ := h.look hf
    obtain ⟨us,hu,hf',ha⟩ := (hn (by omega)).round hj
    obtain ⟨vs,hv,hc,hl⟩ := ih ha (by omega) hf'
    refine ⟨.step i :: (us ++ vs),?_,?_,?_⟩
    · exact List.forall_mem_cons.2 ⟨rfl,List.forall_mem_append.2 ⟨hu,hv⟩⟩
    · simpa using hc
    · simpa using hl

/-- The job that a loop has accepted as number `k` is handed out, and only once, if a thread looks
for work and the handlers return. -/
theorem begun_of_drain (hc : ((run moves).shared.loops.get c).closed = false)
    (hs : ((run moves).shared.loops.get c).stopped = false)
    (hk : (history (accepted c) moves)[k]? = some j)
    (hf : ((run moves).thread i).frames = .drain c w none ran :: fs) :
    ∃ us : List (Move H), (∀ u ∈ us, u.mover? = some i) ∧
      ((run (moves ++ us)).shared.loops.get c).closed = false ∧
      ∃! xs, BegunAt c j k (moves ++ us) xs := by
  obtain ⟨hle,-⟩ | hb := waits_or_begun hc hk
  · have ha : Ahead c (history (handedOut c) moves).length k moves :=
      ⟨hc,hs,rfl,hle,(List.getElem?_eq_some_iff.1 hk).1⟩
    obtain ⟨us,hu,ho,hl⟩ := handedOut_of_drain ha (Nat.add_sub_cancel' hle) hf
    refine ⟨us,hu,ho,?_⟩
    have hk' : (history (accepted c) (moves ++ us))[k]? = some j := by
      rw [history_append,List.getElem?_append_left (List.getElem?_eq_some_iff.1 hk).1]
      exact hk
    refine (waits_or_begun ho hk').resolve_left ?_
    rintro ⟨hle',-⟩
    omega
  · exact ⟨[],by simp,by rwa [List.append_nil],by rwa [List.append_nil]⟩

end Machine
end EventLoop
