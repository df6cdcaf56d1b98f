import EventLoop.Proofs.Deadline
import EventLoop.Proofs.Until

/-! What calls of the run family return. Such a call looks for work again and again; it counts the
jobs that it takes, and when it returns it tells this count. -/
namespace EventLoop

variable {H : Type}

/-- How a call of the run family goes on that has taken `ran` jobs and looks for work. -/
inductive Finds (c : Nat) (w : Wait) (limit : Option Nat) (ran : Nat) : List (Frame H) → Prop
  | take (j : Job H) :
      Finds c w limit ran
        [Frame.execute j, .finish c, .leave (.loop c), .drain c w limit (ran + 1)]
  | ended : Finds c w limit ran [.reply (.count ran)]
  | dry : Finds c w limit ran [.notifyAll c, .reply (.count ran)]
  | sleep : Finds c w limit ran [.asleep c w limit ran]
  | wake : Finds c w limit ran [.awake c w limit ran]

def Frame.Bounded : Frame H → Prop
  | .drain _ _ limit ran => ∀ l ∈ limit, ran ≤ l
  | .asleep _ _ limit ran | .awake _ _ limit ran => limit.any (· ≤ ran) = false
  | _ => False

/-- The frames of a call of the run family that has taken `ran` jobs, under whatever it runs. -/
inductive Stage (c : Nat) (w : Wait) (limit : Option Nat) : Nat → List (Frame H) → Prop
  | begin : Stage c w limit 0 [.call (.run c w limit)]
  | looking {ran : Nat} (gs : List (Frame H)) (f : Frame H)
      (hl : f.looks? = some (c, w, limit, ran)) (hb : f.Bounded) : Stage c w limit ran (gs ++ [f])
  | stopping {ran : Nat} (h : ∀ l ∈ limit, ran ≤ l) :
      Stage c w limit ran [.notifyAll c, .reply (.count ran)]
  | returning {ran : Nat} (h : ∀ l ∈ limit, ran ≤ l) : Stage c w limit ran [.reply (.count ran)]
  | unwound {ran : Nat} (t : String) : Stage c w limit ran [.panic t]

section

variable {c me ran : Nat} {w : Wait} {limit : Option Nat} {s : Shared H} {active : List Executor}

theorem ne_panic_of_looks {f : Frame H} (hl : f.looks? = some (c, w, limit, ran)) (t : String) :
    f ≠ .panic t := by
  rintro rfl
  cases hl

theorem Frame.Looks.bounded {f : Frame H} (hf : f.Looks me s c w limit ran) :
    f.Bounded → limit.any (· ≤ ran) = false := by
  cases hf with
  | drain hl => exact fun _ => hl
  | asleep | awake => exact id

theorem finds_rule {f : Frame H} {e : Effect H} (hr : Rule me s active f e)
    (hl : f.looks? = some (c, w, limit, ran)) :
    Finds c w limit ran e.frames ∧
      (f.Bounded → e.frames = [.reply (.count ran)] ∨ limit.any (· ≤ ran) = false) := by
  cases hr with
  | rewrite hr =>
    cases hr with
    | full =>
      cases hl
      exact ⟨.ended,fun _ => Or.inl rfl⟩
    | ended hf | overdue hf =>
      cases hf.looks?.symm.trans hl
      exact ⟨.ended,fun _ => Or.inl rfl⟩
    | destroy hf => cases hf <;> cases hl
    | _ => cases hl
  | take hf j =>
    cases hf.looks?.symm.trans hl
    exact ⟨.take j,fun hb => Or.inr (hf.bounded hb)⟩
  | runDry hf =>
    cases hf.looks?.symm.trans hl
    exact ⟨.dry,fun hb => Or.inr (hf.bounded hb)⟩
  | sleep hf =>
    cases hf.looks?.symm.trans hl
    exact ⟨.sleep,fun hb => Or.inr (hf.bounded hb)⟩
  | disturb =>
    cases hl
    exact ⟨.wake,fun hb => Or.inr hb⟩
  | enqueue hf => cases hf <;> cases hl
  | _ => cases hl

theorem finds_deed {f : Frame H} {e : Effect H} (hd : Deed me s active [f] e)
    (hl : f.looks? = some (c, w, limit, ran)) :
    Finds c w limit ran e.frames ∧
      (f.Bounded → e.frames = [.reply (.count ran)] ∨ limit.any (· ≤ ran) = false) := by
  obtain ⟨frames,hs,rfl⟩ | hr := hd.rule_of_singleton
  · cases hs <;> cases hl
  · exact finds_rule hr hl

theorem le_of_any {l : Nat} (h : limit.any (· ≤ ran) = false) (hl : l ∈ limit) : ran + 1 ≤ l := by
  obtain rfl := hl
  have h : ran < l := by simpa using h
  exact h

theorem Frame.Bounded.le {f : Frame H} (hl : f.looks? = some (c, w, limit, ran)) (hb : f.Bounded) :
    ∀ l ∈ limit, ran ≤ l := by
  cases f with
  | drain d v l r =>
    cases hl
    exact hb
  | asleep d v l r | awake d v l r =>
    cases hl
    exact fun _ hm => Nat.le_of_succ_le (le_of_any hb hm)
  | _ => cases hl

theorem length_handedBy_execute (j : Job H) (fs : List (Frame H)) :
    (handedBy c (Frame.execute j :: .finish c :: fs)).length = 1 := by
  cases j <;> simp [Frame.execute,handedBy]

theorem Finds.stage {fs : List (Frame H)} (h : Finds c w limit ran fs)
    (hb : fs = [.reply (.count ran)] ∨ limit.any (· ≤ ran) = false)
    (hn : ∀ l ∈ limit, ran ≤ l) : Stage c w limit (ran + (handedBy c fs).length) fs := by
  cases h with
  | take j =>
    obtain hb | hb := hb
    · exact absurd (congrArg List.length hb) (by simp)
    rw [length_handedBy_execute]
    exact .looking [Frame.execute j, .finish c, .leave (.loop c)] (.drain c w limit (ran + 1)) rfl
      fun _ hm => le_of_any hb hm
  | ended => exact .returning hn
  | dry => exact .stopping hn
  | sleep =>
    obtain hb | hb := hb
    · cases hb
    exact .looking [] (.asleep c w limit ran) rfl hb
  | wake =>
    obtain hb | hb := hb
    · cases hb
    exact .looking [] (.awake c w limit ran) rfl hb

theorem Deed.reply_cases {r : Reply} {e : Effect H} (hd : Deed me s active [.reply r] e) :
    e.frames = [] ∨ e.frames = [.reply r] := by
  generalize ht : [Frame.reply r] = taken at hd
  cases hd with
  | step g =>
    obtain rfl := List.singleton_inj.1 ht
    exact Or.inr rfl
  | shift hs =>
    cases hs with
    | answer r => exact Or.inl rfl
    | _ => cases ht
  | _ => cases ht

theorem Deed.die_cases {t : String} {e : Effect H} (hd : Deed me s active [.panic t] e) :
    e.frames = [] ∨ e.frames = [.panic t] := by
  generalize ht : [Frame.panic t] = taken at hd
  cases hd with
  | step g =>
    obtain rfl := List.singleton_inj.1 ht
    exact Or.inr rfl
  | shift hs =>
    cases hs with
    | die t => exact Or.inl rfl
    | _ => cases ht
  | _ => cases ht

theorem not_above_self {fs : List (Frame H)} :
    ¬ ∃ hs : List (Frame H), hs ≠ [] ∧ fs = hs ++ fs := by
  rintro ⟨hs,hn,h⟩
  exact hn (List.self_eq_append_left.1 h)

theorem unwound_stays {t : String} {taken rest fs : List (Frame H)} {e : Effect H}
    (hd : Deed me s active taken e) (hf : taken ++ rest = .panic t :: fs)
    (hab : ∃ hs, hs ≠ [] ∧ e.frames ++ rest = hs ++ fs) : e.frames = [.panic t] ∧ rest = fs := by
  obtain ⟨g,rfl⟩ | ⟨u,g,rfl⟩ := hd.taken_cases
  · obtain ⟨rfl,rfl⟩ := List.cons.inj hf
    obtain he | he := hd.die_cases
    · rw [he] at hab
      exact absurd hab not_above_self
    · exact ⟨he,rfl⟩
  · obtain ⟨hu,rfl⟩ := List.cons.inj hf
    obtain rfl := Frame.panic.inj hu
    obtain ⟨hs,hn,hh⟩ := hab
    have hl := congrArg List.length hh
    have hp := List.length_pos_iff.2 hn
    simp at hl
    obtain he | ⟨-,he⟩ | ⟨hc,he⟩ := hd.panic_cases
    · simp [he] at hl
      omega
    · simp [he] at hl
      omega
    · obtain ⟨k,rfl⟩ := List.length_eq_one_iff.1 (by simp [he] at hl; omega : hs.length = 1)
      rw [he] at hh
      obtain ⟨-,hh⟩ := List.cons.inj hh
      obtain ⟨rfl,-⟩ := List.cons.inj hh
      exact Bool.noConfusion hc

end

namespace Machine

/-- The jobs of loop `c` that thread `i` takes with the frame above `depth` others. -/
def takenAt (c i depth : Nat) (_ : Machine H) (a : Act H) : List (Job H) :=
  if a.thread = i ∧ a.rest.length = depth then handedBy c a.effect.frames else []

/-- Thread `i` has something to do before it goes on with `rest`. -/
def Above (i : Nat) (rest : List (Frame H)) (m : Machine H) : Prop :=
  ∃ gs, gs ≠ [] ∧ (m.thread i).frames = gs ++ rest

section

variable {i c ran : Nat} {w : Wait} {limit : Option Nat} {rest gs : List (Frame H)} {m : Machine H}

theorem takenAt_of_ne {a : Act H} (h : a.rest.length ≠ rest.length) :
    m.takenAt c i rest.length a = [] := if_neg fun ha => h ha.2

theorem takenAt_of_handedBy {a : Act H} (h : handedBy c a.effect.frames = []) :
    m.takenAt c i rest.length a = [] := by
  unfold takenAt
  rw [h,ite_self]

theorem stage_looking {f : Frame H} {a : Act H} (hl : f.looks? = some (c, w, limit, ran))
    (hb : f.Bounded) (hd : Deed a.thread m.shared (m.thread a.thread).active a.taken a.effect)
    (hf : a.taken ++ a.rest = gs ++ f :: rest) :
    ∃ hs, Stage c w limit (ran + (m.takenAt c a.thread rest.length a).length) hs ∧
      a.effect.frames ++ a.rest = hs ++ rest := by
  obtain ⟨hs,hr⟩ | ⟨hr,ht | ⟨t,ht⟩⟩ := taken_over (ne_panic_of_looks hl) hd hf
  · rw [takenAt_of_ne (by rw [hr]; simp; omega),hr]
    exact ⟨_,.looking (a.effect.frames ++ hs) f hl hb,by simp⟩
  · rw [ht] at hd
    obtain ⟨hfs,hn⟩ := finds_deed hd hl
    have hn : m.takenAt c a.thread rest.length a = handedBy c a.effect.frames := by
      simp [takenAt,hr]
    rw [hn,hr]
    exact ⟨_,hfs.stage (by simp_all) (hb.le hl),rfl⟩
  · rw [ht] at hd
    have he : a.effect.frames = [.panic t] := by
      obtain he | ⟨hc,-⟩ | ⟨hc,-⟩ := hd.panic_cases
      · exact he
      · cases f <;> first | exact Bool.noConfusion hc | cases hl
      · cases f <;> first | exact Bool.noConfusion hc | cases hl
    rw [takenAt_of_handedBy (by rw [he]; rfl),he,hr]
    exact ⟨_,.unwound t,rfl⟩

theorem stage_act {a : Act H} (h : Stage c w limit ran gs) (ha : a.Fits m)
    (hf : a.taken ++ a.rest = gs ++ rest)
    (hab : ∃ hs, hs ≠ [] ∧ a.effect.frames ++ a.rest = hs ++ rest) :
    ∃ hs, Stage c w limit (ran + (m.takenAt c a.thread rest.length a).length) hs ∧
      a.effect.frames ++ a.rest = hs ++ rest := by
  have hd := ha.deed
  cases h with
  | begin =>
    obtain ⟨ht,hr⟩ := hd.taken_of_head (by simp) hf
    rw [ht] at hd
    have he : a.effect.frames = [.drain c w limit 0] := by
      rw [hd.eq_step rfl]
      rfl
    rw [takenAt_of_handedBy (by rw [he]; rfl),hr,he]
    exact ⟨_,.looking [] (.drain c w limit 0) rfl fun _ _ => Nat.zero_le _,rfl⟩
  | looking gs f hl hb =>
    rw [List.append_assoc,List.singleton_append] at hf
    exact stage_looking hl hb hd hf
  | stopping hn =>
    obtain ⟨ht,hr⟩ := hd.taken_of_head (by simp) hf
    rw [ht] at hd
    have he : a.effect.frames = [] := by
      rw [hd.eq_step rfl]
      rfl
    rw [takenAt_of_ne (by simp [hr]),he,hr]
    exact ⟨_,.returning hn,rfl⟩
  | returning hn =>
    obtain ⟨ht,hr⟩ := hd.taken_of_head (by simp) hf
    rw [ht] at hd
    obtain he | he := hd.reply_cases
    · rw [he,hr] at hab
      exact absurd hab not_above_self
    · rw [takenAt_of_handedBy (by rw [he]; rfl),he,hr]
      exact ⟨_,.returning hn,rfl⟩
  | unwound t =>
    obtain ⟨he,hr⟩ := unwound_stays hd hf hab
    rw [takenAt_of_handedBy (by rw [he]; rfl),he,hr]
    exact ⟨_,.unwound t,rfl⟩

theorem stage_move (h : Stage c w limit ran gs) (hf : (m.thread i).frames = gs ++ rest) (y : Move H)
    (hab : (m.move y).Above i rest) :
    ∃ hs, Stage c w limit (ran + (m.noted (takenAt c i rest.length) y).length) hs ∧
      ((m.move y).thread i).frames = hs ++ rest := by
  have hn : (m.thread i).frames ≠ [] := by
    rw [hf]
    cases h <;> simp
  obtain ⟨a,hy,ha,hmove⟩ | ⟨hy,hmove⟩ := move_cases m y
  · rw [hmove] at hab ⊢
    rw [noted_of_act? hy]
    by_cases hi : i = a.thread
    · subst hi
      rw [ha.frames] at hf
      rw [Above,thread_perform_self] at hab
      rw [thread_perform_self]
      exact stage_act h ha hf hab
    · have ht : m.takenAt c i rest.length a = [] := by simp [takenAt,Ne.symm hi]
      rw [thread_perform_ne hi hn,ht]
      exact ⟨gs,h,hf⟩
  · rw [hmove,thread_happen_eq hn,noted_of_act?_none hy]
    exact ⟨gs,h,hf⟩

theorem stage_after (h : Stage c w limit ran gs) (hf : (m.thread i).frames = gs ++ rest)
    (ys : List (Move H)) (hab : ∀ zs, zs <+: ys → (m.after zs).Above i rest) :
    ∃ hs, Stage c w limit (ran + (notes (takenAt c i rest.length) m ys).length) hs ∧
      ((m.after ys).thread i).frames = hs ++ rest := by
  induction ys generalizing m ran gs with
  | nil => exact ⟨gs,h,hf⟩
  | cons y ys ih =>
    have hy := hab [y] (by simp)
    obtain ⟨hs,hh,hg⟩ := stage_move h hf y hy
    have hys (zs : List (Move H)) (hz : zs <+: ys) : ((m.move y).after zs).Above i rest :=
      hab (y :: zs) (by simpa using hz)
    obtain ⟨ks,hk,hm⟩ := ih hh hg hys
    refine ⟨ks,?_,hm⟩
    simpa [notes,Nat.add_assoc] using hk

theorem returned_of_call (hf : (m.thread i).frames = .call (.run c w limit) :: rest)
    {ys : List (Move H)} (hab : ∀ zs, zs <+: ys → (m.after zs).Above i rest) {n : Nat}
    (hr : ((m.after ys).thread i).frames = .reply (.count n) :: rest) :
    n = (notes (takenAt c i rest.length) m ys).length ∧ ∀ l ∈ limit, n ≤ l := by
  obtain ⟨hs,hh,hg⟩ := stage_after (.begin : Stage c w limit 0 [.call (.run c w limit)]) hf ys hab
  have he : hs = [.reply (.count n)] := List.append_cancel_right (hg.symm.trans hr)
  rw [Nat.zero_add] at hh
  generalize (notes (takenAt c i rest.length) m ys).length = k at hh
  cases hh with
  | looking gs f hl hb =>
    have hl' := congrArg List.getLast? he
    rw [List.getLast?_append] at hl'
    simp at hl'
    subst hl'
    cases hl
  | returning hn =>
    cases he
    exact ⟨rfl,hn⟩
  | _ => cases he

end

end Machine
end EventLoop
