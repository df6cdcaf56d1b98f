import EventLoop.Proofs.Stack

/-! What a thread goes through, whatever the others do meanwhile. A thread stays where it is
until it makes its own next move, and what lies below on its stack waits. -/
namespace EventLoop

variable {H : Type}

/-- A thread takes off one frame, or a panic with the frame below it. -/
theorem Deed.taken_cases {me : Nat} {s : Shared H} {active : List Executor}
    {taken : List (Frame H)} {e : Effect H} (hd : Deed me s active taken e) :
    (∃ f, taken = [f]) ∨ ∃ t f, taken = [.panic t, f] := by
  cases hd with
  | shift hs =>
    cases hs with
    | cleanUp t f hc | skip t f hs hc => exact Or.inr ⟨t,f,rfl⟩
    | pass role h made t | recover role h made t => exact Or.inr ⟨t,_,rfl⟩
    | _ => exact Or.inl ⟨_,rfl⟩
  | _ => exact Or.inl ⟨_,rfl⟩

theorem Deed.code_cases {me : Nat} {s : Shared H} {active : List Executor} {role : Role} {h : H}
    {made : Nat} {e : Effect H} (hd : Deed me s active [.code role h made] e) :
    (∃ gs n, e.frames = gs ++ [.code role h n]) ∨ e.frames = [] := by
  generalize ht : [Frame.code role h made] = taken at hd
  cases hd with
  | step f =>
    obtain rfl := List.singleton_inj.1 ht
    exact Or.inl ⟨[],made,rfl⟩
  | shift hs =>
    cases hs with
    | call role h made c =>
      cases ht
      exact Or.inl ⟨[.call c],made + 1,rfl⟩
    | raise role h made t =>
      cases ht
      exact Or.inl ⟨[.panic t],made,rfl⟩
    | finish role h made => exact Or.inr rfl
    | _ => cases ht
  | _ => cases ht

/-- A panic stays above what it does not pass, and nothing is called. -/
theorem Deed.panic_cases {me : Nat} {s : Shared H} {active : List Executor} {t : String}
    {f : Frame H} {e : Effect H} (hd : Deed me s active [.panic t, f] e) :
    e.frames = [.panic t] ∨ (f.isCode = true ∧ e.frames = [f]) ∨
      (f.cleansUp = true ∧ e.frames = [f, .panic t]) := by
  generalize ht : [Frame.panic t, f] = taken at hd
  cases hd with
  | shift hs =>
    cases hs with
    | cleanUp u g hc =>
      cases ht
      exact Or.inr (Or.inr ⟨hc,rfl⟩)
    | skip u g hs hc | pass role h made u =>
      cases ht
      exact Or.inl rfl
    | recover role h made u =>
      cases ht
      exact Or.inr (Or.inl ⟨rfl,rfl⟩)
    | _ => cases ht
  | _ => cases ht

theorem Deed.panic_code_cases {me : Nat} {s : Shared H} {active : List Executor} {t : String}
    {role : Role} {h : H} {made : Nat} {e : Effect H}
    (hd : Deed me s active [.panic t, .code role h made] e) :
    e.frames = [.panic t] ∨ e.frames = [.code role h made] := by
  obtain he | ⟨-,he⟩ | ⟨hc,-⟩ := hd.panic_cases
  · exact Or.inl he
  · exact Or.inr he
  · cases hc

/-- A frame at the top that is no panic is what a thread takes off. -/
theorem Deed.taken_of_head {me : Nat} {s : Shared H} {active : List Executor} {f : Frame H}
    (hp : ∀ t, f ≠ .panic t) {taken rest fs : List (Frame H)}
    {e : Effect H} (hd : Deed me s active taken e) (hf : taken ++ rest = f :: fs) :
    taken = [f] ∧ rest = fs := by
  obtain ⟨g,rfl⟩ | ⟨t,g,rfl⟩ := hd.taken_cases
  · obtain ⟨rfl,rfl⟩ := List.cons.inj hf
    exact ⟨rfl,rfl⟩
  · exact absurd (List.cons.inj hf).1.symm (hp t)

/-- A frame at the top with which a thread can do one thing only is executed. -/
theorem Act.Fits.eq_step {m : Machine H} {a : Act H} (ha : a.Fits m) {f : Frame H}
    {fs : List (Frame H)} (hf : (m.thread a.thread).frames = f :: fs) (hp : f.proceeds = true) :
    a.taken = [f] ∧ a.rest = fs ∧
      a.effect = f.step a.thread m.shared (m.thread a.thread).active := by
  have hn (t : String) : f ≠ .panic t := by
    rintro rfl
    cases hp
  have hd := ha.deed
  obtain ⟨ht,hr⟩ := hd.taken_of_head hn (ha.frames.symm.trans hf)
  rw [ht] at hd
  exact ⟨ht,hr,hd.eq_step hp⟩

namespace Machine

theorem act_of_code {m : Machine H} {y : Move H} {a : Act H} {role : Role} {u : H} {made : Nat}
    (hy : m.act? y = some a) (ht : a.taken = [.code role u made]) :
    a.effect.frames = [] ∨ a.effect.frames = [.code role u made] ∨
      (∃ k, y = .call a.thread k ∧ a.effect.frames = [.call k, .code role u (made + 1)]) ∨
      ∃ t, y = .raise a.thread t := by
  cases y with
  | step i =>
    simp only [act?,stepAct?] at hy
    split at hy
    · cases hy
    · split at hy
      · cases hy
      · obtain rfl := Option.some.inj hy
        cases ht
    · obtain rfl := Option.some.inj hy
      cases ht
    · split at hy
      · cases hy
      · obtain rfl := Option.some.inj hy
        cases ht
    · split at hy
      · cases hy
      · obtain rfl := Option.some.inj hy
        cases ht
        exact Or.inr (Or.inl rfl)
  | call i k =>
    simp only [act?,codeAct?] at hy
    split at hy
    · obtain rfl := Option.some.inj hy
      cases ht
      exact Or.inr (Or.inr (Or.inl ⟨k,rfl,rfl⟩))
    · cases hy
  | finish i =>
    simp only [act?,codeAct?] at hy
    split at hy
    · obtain rfl := Option.some.inj hy
      exact Or.inl rfl
    · cases hy
  | raise i t =>
    simp only [act?,codeAct?] at hy
    split at hy
    · obtain rfl := Option.some.inj hy
      exact Or.inr (Or.inr (Or.inr ⟨t,rfl⟩))
    · cases hy
  | receive i | pass i | recover i | conclude i | heed i =>
    simp only [act?,receiveAct?,panicAct?,operationAct?] at hy
    split at hy
    · obtain rfl := Option.some.inj hy
      cases ht
    · cases hy
  | disturb i | refuse i why =>
    simp only [act?,disturbAct?,refuseAct?] at hy
    split at hy
    · split at hy
      · obtain rfl := Option.some.inj hy
        cases ht
      · cases hy
    · cases hy
  | _ => cases hy

/-- Along some moves `P` holds, until at some point `Q` holds of the moves that are left. -/
def Until (P : Machine H → Prop) (Q : Machine H → List (Move H) → Prop) :
    Machine H → List (Move H) → Prop
  | m, [] => P m ∨ Q m []
  | m, y :: ys => Q m (y :: ys) ∨ P m ∧ Until P Q (m.move y) ys

variable {P : Machine H → Prop} {Q : Machine H → List (Move H) → Prop} {m : Machine H} {i : Nat}

theorem until_of_now {ys : List (Move H)} (h : Q m ys) : Until P Q m ys := by
  cases ys with
  | nil => exact Or.inr h
  | cons y ys => exact Or.inl h

/-- What every move keeps or brings to its end, where `I` says what is known meanwhile. -/
theorem until_of_step {I : Machine H → List (Move H) → Prop}
    (hi : ∀ m y ys, I m (y :: ys) → I (m.move y) ys)
    (hs : ∀ m y ys, I m (y :: ys) → P m → P (m.move y) ∨ Q (m.move y) ys) (ys : List (Move H))
    (h : I m ys) (hp : P m) : Until P Q m ys := by
  induction ys generalizing m with
  | nil => exact Or.inl hp
  | cons y ys ih =>
    refine Or.inr ⟨hp,?_⟩
    obtain hp | hq := hs m y ys h hp
    · exact ih (hi m y ys h) hp
    · exact until_of_now hq

/-- A thread at work changes by an act of its own. -/
theorem act_of_move (hn : (m.thread i).frames ≠ []) (y : Move H) :
    (m.move y).thread i = m.thread i ∨ ∃ a : Act H, m.act? y = some a ∧ a.Fits m ∧ a.thread = i ∧
      (m.move y).thread i = ⟨a.effect.frames ++ a.rest,a.effect.active⟩ := by
  obtain ⟨a,hy,ha,hmove⟩ | ⟨-,hmove⟩ := move_cases m y
  · rw [hmove]
    by_cases hi : i = a.thread
    · subst hi
      exact Or.inr ⟨a,hy,ha,rfl,thread_perform_self m a⟩
    · exact Or.inl (thread_perform_ne hi hn)
  · rw [hmove]
    exact Or.inl (thread_happen_eq hn)

theorem frames_move (hn : (m.thread i).frames ≠ []) (y : Move H) :
    ((m.move y).thread i).frames = (m.thread i).frames ∨
      ∃ a : Act H, a.Fits m ∧ a.thread = i ∧
        ((m.move y).thread i).frames = a.effect.frames ++ a.rest := by
  obtain h | ⟨a,-,ha,hi,h⟩ := act_of_move hn y
  · exact Or.inl (congrArg Thread.frames h)
  · exact Or.inr ⟨a,ha,hi,congrArg Thread.frames h⟩

/-- A frame at the top that is no panic stays there until it is executed. -/
theorem frames_move_of_head {f : Frame H} {fs : List (Frame H)} (hf : (m.thread i).frames = f :: fs)
    (hp : ∀ t, f ≠ .panic t) (y : Move H) :
    ((m.move y).thread i).frames = f :: fs ∨
      ∃ e, Deed i m.shared (m.thread i).active [f] e ∧
        ((m.move y).thread i).frames = e.frames ++ fs := by
  obtain h | ⟨a,⟨ha,hd⟩,rfl,h⟩ := frames_move (m := m) (i := i) (by simp [hf]) y
  · exact Or.inl (h.trans hf)
  · right
    rw [ha] at hf
    obtain ⟨ht,hr⟩ := hd.taken_of_head hp hf
    rw [ht] at hd
    rw [hr] at h
    exact ⟨a.effect,hd,h⟩

theorem frames_move_of_proceeds {f : Frame H} {fs : List (Frame H)}
    (hf : (m.thread i).frames = f :: fs) (hp : f.proceeds = true) (y : Move H) :
    ((m.move y).thread i).frames = f :: fs ∨
      ((m.move y).thread i).frames = (f.step i m.shared (m.thread i).active).frames ++ fs := by
  have hn (t : String) : f ≠ .panic t := by
    rintro rfl
    exact Bool.noConfusion hp
  obtain h | ⟨e,hd,h⟩ := frames_move_of_head hf hn y
  · exact Or.inl h
  · exact Or.inr (hd.eq_step hp ▸ h)

/-- Whatever lies on a frame that is no panic, an act takes off frames above it, or the frame
itself. -/
theorem taken_over {me : Nat} {s : Shared H} {active : List Executor} {f : Frame H}
    (hp : ∀ t, f ≠ .panic t) {taken rest gs fs : List (Frame H)} {e : Effect H}
    (hd : Deed me s active taken e) (hf : taken ++ rest = gs ++ f :: fs) :
    (∃ hs, rest = hs ++ f :: fs) ∨ rest = fs ∧ (taken = [f] ∨ ∃ t, taken = [.panic t, f]) := by
  obtain ⟨g,rfl⟩ | ⟨t,g,rfl⟩ := hd.taken_cases
  · cases gs with
    | nil =>
      obtain ⟨rfl,rfl⟩ := List.cons.inj hf
      exact Or.inr ⟨rfl,Or.inl rfl⟩
    | cons g gs => exact Or.inl ⟨gs,(List.cons.inj hf).2⟩
  · rcases gs with _ | ⟨g,_ | ⟨g',gs⟩⟩
    · exact absurd (List.cons.inj hf).1.symm (hp t)
    · obtain ⟨-,hf⟩ := List.cons.inj hf
      obtain ⟨rfl,rfl⟩ := List.cons.inj hf
      exact Or.inr ⟨rfl,Or.inr ⟨t,rfl⟩⟩
    · exact Or.inl ⟨gs,(List.cons.inj (List.cons.inj hf).2).2⟩

theorem frames_move_of_code {role : Role} {h : H} {made : Nat} {gs fs : List (Frame H)}
    (hf : (m.thread i).frames = gs ++ .code role h made :: fs) (y : Move H) :
    (∃ hs n, ((m.move y).thread i).frames = hs ++ .code role h n :: fs) ∨
      ((m.move y).thread i).frames = fs ∨ ∃ t, ((m.move y).thread i).frames = .panic t :: fs := by
  obtain hm | ⟨a,⟨ha,hd⟩,rfl,hm⟩ := frames_move (m := m) (i := i) (by simp [hf]) y
  · exact Or.inl ⟨gs,made,hm.trans hf⟩
  · rw [ha] at hf
    rw [hm]
    obtain ⟨hs,hr⟩ | ⟨hr,ht | ⟨t,ht⟩⟩ := taken_over (by simp) hd hf
    · exact Or.inl ⟨a.effect.frames ++ hs,made,by simp [hr]⟩
    · rw [ht] at hd
      obtain ⟨hs,n,he⟩ | he := hd.code_cases
      · exact Or.inl ⟨hs,n,by simp [he,hr]⟩
      · exact Or.inr (Or.inl (by simp [he,hr]))
    · rw [ht] at hd
      obtain he | he := hd.panic_code_cases
      · exact Or.inr (Or.inr ⟨t,by simp [he,hr]⟩)
      · exact Or.inl ⟨[],made,by simp [he,hr]⟩

/-- A frame that can do one thing only stays until this is done. -/
theorem until_of_proceeds {I : Machine H → Prop} {f : Frame H} (gs : List (Frame H))
    {fs : List (Frame H)} (hp : f.proceeds = true) (hi : ∀ n y, I n → I (n.move y))
    (hs : ∀ n, I n → (f.step i n.shared (n.thread i).active).frames = gs)
    (hq : ∀ n ys, I n → (n.thread i).frames = gs ++ fs → Q n ys) (ys : List (Move H)) (hm : I m)
    (hf : (m.thread i).frames = f :: fs) :
    Until (fun n => (n.thread i).frames = f :: fs) Q m ys := by
  refine until_of_step (I := fun n _ => I n) (fun n y _ h => hi n y h) ?_ ys hm hf
  intro n y ys hn hf
  obtain h | h := frames_move_of_proceeds hf hp y
  · exact Or.inl h
  · exact Or.inr (hq _ ys (hi n y hn) (hs n hn ▸ h))

theorem until_of_code {role : Role} {h : H} {made : Nat} (gs : List (Frame H))
    {fs : List (Frame H)} (hf : (m.thread i).frames = gs ++ .code role h made :: fs) (ys : List (Move H)) :
    Until (fun n => ∃ gs k, (n.thread i).frames = gs ++ .code role h k :: fs)
      (fun n _ => (n.thread i).frames = fs ∨ ∃ w, (n.thread i).frames = .panic w :: fs) m ys := by
  refine until_of_step (I := fun _ _ => True) (fun _ _ _ h => h) ?_ ys trivial ⟨gs,made,hf⟩
  rintro n y ys - ⟨gs,k,hf⟩
  exact frames_move_of_code hf y

end Machine
end EventLoop
