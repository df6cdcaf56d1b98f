import EventLoop.Proofs.Nesting
import EventLoop.Proofs.Queue
import EventLoop.Proofs.Rounds
import EventLoop.Proofs.Within

/-! How a loop hands out what it has accepted. The job that it has accepted as number `k` waits, or
it was handed out as number `k`, once, to a thread inside of a call of the run family.
Main statements: `waits_or_begun`, `begins_of_look`. -/
namespace EventLoop

variable {H : Type}

/-- The frames of a thread that has taken a job in a call of the run family with `ran` jobs before
it. -/
def jobFrames (c : Nat) (w : Wait) (limit : Option Nat) (ran : Nat) (j : Job H) : List (Frame H) :=
  [Frame.execute j, .finish c, .leave (.loop c), .drain c w limit (ran + 1)]

section

variable {c me : Nat} {s : Shared H} {active : List Executor} {w : Wait} {limit : Option Nat}
  {ran : Nat} {taken : List (Frame H)} {e : Effect H} {j : Job H}

theorem look_cases (hd : Deed me s active taken e) : Shift taken e.frames ∨
    (∃ c w limit, taken = [.call (.run c w limit)] ∧ e.frames = [.drain c w limit 0]) ∨
    (∃ f c w limit ran, taken = [f] ∧ f.looks? = some (c, w, limit, ran) ∧
      Finds c w limit ran e.frames) ∨
    (∀ g ∈ e.frames, g.looks? = none) ∧ ∀ c, handedBy c e.frames = [] := by
  have hlook {f : Frame H} {d n : Nat} {v : Wait} {l : Option Nat} {e : Effect H}
      (hr : Rule me s active f e) (hl : f.looks? = some (d, v, l, n)) :
      ∃ f' c w limit ran, [f] = [f'] ∧ f'.looks? = some (c, w, limit, ran) ∧
        Finds c w limit ran e.frames := ⟨f,d,v,l,n,rfl,hl,(finds_rule hr hl).1⟩
  obtain ⟨frames,hs,rfl⟩ | ⟨f,rfl,hr⟩ := hd.shift_or_rule
  · exact Or.inl hs
  have hr' := hr
  right
  cases hr with
  | rewrite hr =>
    cases hr with
    | run d v l => exact Or.inl ⟨d,v,l,rfl,rfl⟩
    | full => exact Or.inr (Or.inl (hlook hr' rfl))
    | ended hf | overdue hf => exact Or.inr (Or.inl (hlook hr' hf.looks?))
    | destroy hf =>
      cases hf <;> exact Or.inr (Or.inr ⟨by simp [Frame.looks?,Frame.dropJob],fun _ => rfl⟩)
    | dropJobsCons j =>
      cases j <;> exact Or.inr (Or.inr ⟨by simp [Frame.looks?,Frame.dropJob],fun _ => rfl⟩)
    | _ => exact Or.inr (Or.inr (by simp [Frame.looks?,handedBy]))
  | take hf | runDry hf | sleep hf => exact Or.inr (Or.inl (hlook hr' hf.looks?))
  | disturb => exact Or.inr (Or.inl (hlook hr' rfl))
  | _ => exact Or.inr (Or.inr (by simp [Frame.looks?,handedBy]))

theorem looks_of_shift {frames : List (Frame H)} (h : Shift taken frames) :
    ∀ f ∈ frames, f.looks? = none := by
  cases h with
  | cleanUp t f hc => cases f <;> simp_all [Frame.cleansUp,Frame.looks?]
  | _ => simp [Frame.looks?]

theorem Finds.bottom {fs gs hs : List (Frame H)} {f : Frame H} {d n : Nat} {v : Wait}
    {l : Option Nat} (h : Finds c w limit ran fs) (hf : fs = gs ++ f :: hs)
    (hl : f.looks? = some (d, v, l, n)) : d = c ∧ v = w ∧ l = limit ∧ hs = [] := by
  cases h with
  | take j =>
    rcases gs with _ | ⟨g,_ | ⟨g1,_ | ⟨g2,_ | ⟨g3,gs⟩⟩⟩⟩
    · obtain ⟨rfl,-⟩ := List.cons.inj hf
      cases j <;> cases hl
    · obtain ⟨-,rfl,-⟩ : _ ∧ Frame.finish c = f ∧ _ := by simpa using hf
      cases hl
    · obtain ⟨-,-,rfl,-⟩ : _ ∧ _ ∧ Frame.leave (.loop c) = f ∧ _ := by simpa using hf
      cases hl
    · obtain ⟨-,-,-,rfl,rfl⟩ : _ ∧ _ ∧ _ ∧ Frame.drain c w limit (ran + 1) = f ∧ hs = [] := by
        simpa [eq_comm] using hf
      cases hl
      exact ⟨rfl,rfl,rfl,rfl⟩
    · simp at hf
  | _ =>
    rcases gs with _ | ⟨g,_ | ⟨g1,gs⟩⟩
    · obtain ⟨rfl,rfl⟩ := List.cons.inj hf
      cases hl <;> exact ⟨rfl,rfl,rfl,rfl⟩
    · simp at hf
      try (obtain ⟨-,rfl,-⟩ := hf; cases hl)
    · simp at hf

theorem looks_of_handed (hd : Deed me s active taken e) (hh : handedBy c e.frames = [j]) :
    ∃ f w limit ran, taken = [f] ∧ f.looks? = some (c, w, limit, ran) ∧
      e.frames = jobFrames c w limit ran j := by
  obtain h | ⟨d,w,limit,-,he⟩ | ⟨f,d,w,limit,ran,ht,hl,h⟩ | ⟨-,h⟩ := look_cases hd
  · rw [handedBy_shift h] at hh
    cases hh
  · rw [he] at hh
    cases hh
  · generalize e.frames = fs at h hh
    cases h with
    | take i =>
      have hj : handedBy c (jobFrames d w limit ran i) = if d = c then [i] else [] := by
        cases i <;> rfl
      rw [← jobFrames,hj] at hh
      split at hh
      · next hdc =>
        subst hdc
        obtain rfl := List.singleton_inj.1 hh
        exact ⟨f,w,limit,ran,ht,hl,rfl⟩
      · cases hh
    | _ => cases hh
  · rw [h] at hh
    cases hh

theorem frames_of_look {f : Frame H} {rest : List (Job H)} (hd : Deed me s active [f] e)
    (hl : f.looks? = some (c, w, limit, ran)) (hn : limit.any (· ≤ ran) = false)
    (hw : e.frames ≠ [.awake c w limit ran]) (hp : (s.loops.get c).pick = .job j rest) :
    e.frames = jobFrames c w limit ran j := by
  obtain ⟨frames,hs,rfl⟩ | hr := hd.rule_of_singleton
  · cases hs <;> cases hl
  cases hr with
  | rewrite hr =>
    cases hr with
    | full d v l r hf =>
      cases hl
      rw [hn] at hf
      cases hf
    | ended hf hq | overdue hf hq =>
      cases hf.looks?.symm.trans hl
      cases hq.symm.trans hp
    | destroy hf => cases hf <;> cases hl
    | _ => cases hl
  | take hf i js hq =>
    cases hf.looks?.symm.trans hl
    cases hq.symm.trans hp
    rfl
  | runDry hf hq | sleep hf hq =>
    cases hf.looks?.symm.trans hl
    cases hq.symm.trans hp
  | disturb =>
    cases hl
    exact absurd rfl hw
  | enqueue hf => cases hf <;> cases hl
  | _ => cases hl

end

namespace Machine

variable {c i k : Nat} {j : Job H} {moves : List (Move H)}

def Entered (i c : Nat) (w : Wait) (limit : Option Nat) (rest : List (Frame H))
    (moves : List (Move H)) : Prop :=
  ∃ xs y ys a, moves = xs ++ y :: ys ∧ (run xs).act? y = some a ∧ a.thread = i ∧
    a.taken = [.call (.run c w limit)] ∧ a.rest = rest

theorem Entered.concat {w : Wait} {limit : Option Nat} {rest : List (Frame H)}
    (h : Entered i c w limit rest moves) (y : Move H) : Entered i c w limit rest (moves ++ [y]) := by
  obtain ⟨xs,x,ys,a,rfl,h⟩ := h
  exact ⟨xs,x,ys ++ [y],a,by simp,h⟩

theorem entered_of_put {xs : List (Move H)} {y : Move H} {a : Act H}
    (hy : (run xs).act? y = some a) {gs hs : List (Frame H)} {f : Frame H} {w : Wait}
    {limit : Option Nat} {ran : Nat} (hl : f.looks? = some (c, w, limit, ran))
    (he : a.effect.frames = gs ++ f :: hs)
    (ih : ∀ gs f ran, ((run xs).thread a.thread).frames = gs ++ f :: a.rest →
      f.looks? = some (c, w, limit, ran) → Entered a.thread c w limit a.rest xs) :
    hs = [] ∧ Entered a.thread c w limit a.rest (xs ++ [y]) := by
  have ha := fits_of_act? hy
  have hm : f ∈ a.effect.frames := by simp [he]
  obtain h | ⟨d,v,l,ht,hf⟩ | ⟨g,d,v,l,n,ht,hg,h⟩ | ⟨h,-⟩ := look_cases ha.deed
  · rw [looks_of_shift h f hm] at hl
    cases hl
  · rw [hf] at he
    obtain ⟨rfl,rfl,rfl⟩ : gs = [] ∧ f = .drain d v l 0 ∧ hs = [] := by
      cases gs <;> simp_all
    cases hl
    exact ⟨rfl,xs,y,[],a,rfl,hy,rfl,ht,rfl⟩
  · obtain ⟨rfl,rfl,rfl,rfl⟩ := h.bottom he hl
    refine ⟨rfl,(ih [] g n ?_ hg).concat y⟩
    rw [ha.frames,ht]
    rfl
  · rw [h f hm] at hl
    cases hl

theorem entered_of_looks (i : Nat) (moves : List (Move H)) : ∀ gs f rest c w limit ran,
    ((run moves).thread i).frames = gs ++ f :: rest → f.looks? = some (c, w, limit, ran) →
      Entered i c w limit rest moves := by
  induction moves using run_induction with
  | start =>
    intro gs f rest c w limit ran hf _
    have hf : [] = gs ++ f :: rest := hf
    simp at hf
  | move xs y ih =>
    intro gs f rest c w limit ran hf hl
    rw [run_concat] at hf
    by_cases hn : ((run xs).thread i).frames = []
    · have hm : f ∈ (((run xs).move y).thread i).frames := by simp [hf]
      obtain h | ⟨u,h⟩ | ⟨o,h⟩ := frames_move_idle hn y
      · rw [h] at hm
        exact absurd hm List.not_mem_nil
      · rw [h,List.mem_singleton] at hm
        subst hm
        cases hl
      · rw [h,List.mem_singleton] at hm
        subst hm
        cases hl
    obtain hm | ⟨a,hy,ha,rfl,hm⟩ := act_of_move hn y
    · rw [hm] at hf
      exact (ih gs f rest c w limit ran hf hl).concat y
    rw [hm] at hf
    have hbelow {hs : List (Frame H)} (hr : a.rest = hs ++ f :: rest) :
        Entered a.thread c w limit rest (xs ++ [y]) := by
      refine (ih (a.taken ++ hs) f rest c w limit ran ?_ hl).concat y
      rw [ha.frames,hr,List.append_assoc]
    obtain ⟨hs,-,hr⟩ | ⟨hs,he,hr⟩ := List.append_eq_append_iff.1 hf
    · exact hbelow hr
    cases hs with
    | nil => exact @hbelow [] hr.symm
    | cons g hs =>
      obtain ⟨rfl,rfl⟩ := List.cons.inj hr
      obtain ⟨rfl,h⟩ := entered_of_put hy hl he fun gs g n hg => ih gs g a.rest c w limit n hg
      exact h

/-- An act takes job `j` of loop `c` inside of a call of the run family, which goes on when the job
is over. -/
structure Begins (c : Nat) (j : Job H) (moves : List (Move H)) (a : Act H) : Prop where
  within : ∃ f w limit ran, a.taken = [f] ∧ f.looks? = some (c, w, limit, ran) ∧
    a.effect.frames = jobFrames c w limit ran j ∧ Entered a.thread c w limit a.rest moves
  active : a.effect.active = .loop c :: ((run moves).thread a.thread).active

theorem begins_of_handed {y : Move H} {a : Act H} (hy : (run moves).act? y = some a)
    (hh : handedOut c (run moves) a = [j]) : Begins c j moves a := by
  have ha := fits_of_act? hy
  obtain ⟨f,w,limit,ran,ht,hl,hf⟩ := looks_of_handed ha.deed hh
  refine ⟨⟨f,w,limit,ran,ht,hl,hf,?_⟩,?_⟩
  · exact entered_of_looks a.thread moves [] f a.rest c w limit ran (by rw [ha.frames,ht]; rfl) hl
  · cases crosses_deed ha.deed with
    | enter x gs post ht' hg hp hf' ho hact =>
      rw [hf] at ho
      cases j <;> (cases ho; exact hact)
    | exit x ht' hf' => simp [hf,jobFrames] at hf'
    | uncover t x ht' hf' => simp [hf,jobFrames] at hf'
    | stay ht' hf' => simp [hf,jobFrames,Frame.left] at hf'

/-! Numbers -/

section

variable {α : Type} {f : Machine H → Act H → List α} {z : α}

theorem exists_of_getElem?_history (h : (history f moves)[k]? = some z) :
    ∃ xs y ys a, moves = xs ++ y :: ys ∧ (run xs).act? y = some a ∧
      (history f xs).length ≤ k ∧ (f (run xs) a)[k - (history f xs).length]? = some z := by
  induction moves using run_induction with
  | start => simp at h
  | move xs y ih =>
    rw [history_concat] at h
    by_cases hk : k < (history f xs).length
    · rw [List.getElem?_append_left hk] at h
      obtain ⟨us,u,vs,a,rfl,hu⟩ := ih h
      exact ⟨us,u,vs ++ [y],a,by simp,hu⟩
    · rw [List.getElem?_append_right (by omega)] at h
      cases hy : (run xs).act? y with
      | none => simp [noted_of_act?_none hy] at h
      | some a =>
        rw [noted_of_act? hy] at h
        exact ⟨xs,y,[],a,rfl,hy,by omega,h⟩

theorem getElem?_history {xs ys : List (Move H)} {y : Move H} {a : Act H}
    (hy : (run xs).act? y = some a) (hz : f (run xs) a = [z]) :
    (history f (xs ++ y :: ys))[(history f xs).length]? = some z := by
  rw [history_append,List.getElem?_append_right (Nat.le_refl _),Nat.sub_self,notes,
    noted_of_act? hy,hz]
  rfl

theorem prefix_unique {xs ys xs' ys' : List (Move H)} {y y' : Move H} {a a' : Act H}
    (h : xs ++ y :: ys = xs' ++ y' :: ys') (hy : (run xs).act? y = some a)
    (hy' : (run xs').act? y' = some a') (hn : f (run xs) a ≠ []) (hn' : f (run xs') a' ≠ [])
    (hl : (history f xs).length = (history f xs').length) : xs = xs' := by
  have hno {us : List (Move H)} (vs : List (Move H)) {u : Move H} {b : Act H}
      (hu : (run us).act? u = some b) (hb : f (run us) b ≠ []) :
      (history f us).length < (history f (us ++ u :: vs)).length := by
    rw [history_append,notes,noted_of_act? hu]
    have hp := List.length_pos_iff.2 hb
    simp only [List.length_append]
    omega
  obtain ⟨ks,hk,h⟩ | ⟨ks,hk,h⟩ := List.append_eq_append_iff.1 h
  · cases ks with
    | nil => simpa using hk.symm
    | cons u us =>
      obtain ⟨rfl,-⟩ := List.cons.inj h
      have hlt := hno us hy hn
      rw [← hk] at hlt
      omega
  · cases ks with
    | nil => simpa using hk
    | cons u us =>
      obtain ⟨rfl,-⟩ := List.cons.inj h
      have hlt := hno us hy' hn'
      rw [← hk] at hlt
      omega

end

/-- Job `j` of loop `c` is handed out as number `k` after the moves `xs`. -/
def BegunAt (c : Nat) (j : Job H) (k : Nat) (moves xs : List (Move H)) : Prop :=
  ∃ y ys a, moves = xs ++ y :: ys ∧ (run xs).act? y = some a ∧
    (history (handedOut c) xs).length = k ∧ handedOut c (run xs) a = [j] ∧ Begins c j xs a

theorem length_handedOut_le (c : Nat) (m : Machine H) (a : Act H) :
    (handedOut c m a).length ≤ 1 := by
  unfold handedOut handedBy
  split <;> first | (split <;> simp) | simp

/-- The job that a loop has accepted as number `k` waits in the queue, or it was handed out as number
`k`, and only once. -/
theorem waits_or_begun (hc : ((run moves).shared.loops.get c).closed = false)
    (hk : (history (accepted c) moves)[k]? = some j) :
    ((history (handedOut c) moves).length ≤ k ∧
      ((run moves).shared.loops.get c).queue[k - (history (handedOut c) moves).length]? = some j) ∨
      ∃! xs, BegunAt c j k moves xs := by
  rw [← fifo_run c moves hc] at hk
  by_cases hl : k < (history (handedOut c) moves).length
  · right
    rw [List.getElem?_append_left hl] at hk
    obtain ⟨xs,y,ys,a,hm,hy,hle,hz⟩ := exists_of_getElem?_history hk
    have hlt := (List.getElem?_eq_some_iff.1 hz).1
    have hone := length_handedOut_le c (run xs) a
    have hk0 : k - (history (handedOut c) xs).length = 0 := by omega
    rw [hk0] at hz
    have hh : handedOut c (run xs) a = [j] := by
      obtain ⟨j',hj⟩ := List.length_eq_one_iff.1 (show (handedOut c (run xs) a).length = 1 by omega)
      rw [hj] at hz ⊢
      rw [Option.some.inj hz]
    refine ⟨xs,⟨y,ys,a,hm,hy,by omega,hh,begins_of_handed hy hh⟩,?_⟩
    rintro xs' ⟨y',ys',a',hm',hy',hl',hh',-⟩
    refine (prefix_unique (f := handedOut c) (hm.symm.trans hm') hy hy' ?_ ?_ (by omega)).symm
    · rw [hh]
      exact List.cons_ne_nil j []
    · rw [hh']
      exact List.cons_ne_nil j []
  · rw [List.getElem?_append_right (by omega)] at hk
    exact Or.inl ⟨by omega,hk⟩

/-- Below its limit a look at a loop that goes on hands out the job that comes next. -/
theorem handedOut_of_look {y : Move H} {a : Act H} {f : Frame H} {w : Wait} {limit : Option Nat}
    {ran : Nat} (hy : (run moves).act? y = some a) (ht : a.taken = [f])
    (hl : f.looks? = some (c, w, limit, ran)) (hn : limit.any (· ≤ ran) = false)
    (hw : a.effect.frames ≠ [.awake c w limit ran])
    (hc : ((run moves).shared.loops.get c).closed = false)
    (hs : ((run moves).shared.loops.get c).stopped = false)
    (hq : ((run moves).shared.loops.get c).queue.head? = some j) :
    handedOut c (run moves) a = [j] := by
  obtain ⟨js,hj⟩ := List.head?_eq_some_iff.1 hq
  have hp : ((run moves).shared.loops.get c).pick = .job j js := by simp [Loop.pick,hc,hs,hj]
  have hd := (fits_of_act? hy).deed
  rw [ht] at hd
  rw [handedOut,frames_of_look hd hl hn hw hp]
  cases j <;> simp [jobFrames,Frame.execute,handedBy]

end Machine
end EventLoop
