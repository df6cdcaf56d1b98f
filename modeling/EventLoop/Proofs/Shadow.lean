import EventLoop.Proofs.Returns

/-! A machine beside one that is the same but for a panic somewhere on the stack of one thread. What
lies above the panic goes on in both machines alike, and the panic itself does nothing but set free
the frames below it, one after the other. -/
namespace EventLoop

variable {H : Type}

def Move.mover? : Move H → Option Nat
  | .step i | .call i _ | .finish i | .receive i | .raise i _ | .pass i | .recover i | .disturb i
  | .conclude i | .heed i | .refuse i _ => some i
  | _ => none

/-- Moves without some of those that thread `i` makes. -/
inductive Spares (i : Nat) : List (Move H) → List (Move H) → Prop
  | nil : Spares i [] []
  | keep {xs ys : List (Move H)} (y : Move H) (h : Spares i xs ys) : Spares i (y :: xs) (y :: ys)
  | drop {xs ys : List (Move H)} (y : Move H) (hy : y.mover? = some i) (h : Spares i xs ys) :
      Spares i xs (y :: ys)

theorem Spares.append {i : Nat} {xs ys us vs : List (Move H)} (h : Spares i xs ys)
    (h' : Spares i us vs) : Spares i (xs ++ us) (ys ++ vs) := by
  induction h with
  | nil => exact h'
  | keep y _ ih => exact .keep y ih
  | drop y hy _ ih => exact .drop y hy ih

def Capped : List (Frame H) → Prop
  | [] => True
  | [f] => f.cleansUp = true ∨ ∃ u, f = .panic u
  | _ :: g :: gs => Capped (g :: gs)

theorem capped_append {gs : List (Frame H)} (h : Capped gs) (hn : gs ≠ []) (fs : List (Frame H)) :
    Capped (fs ++ gs) := by
  induction fs with
  | nil => exact h
  | cons f fs ih =>
    obtain ⟨g,ks,hk⟩ := List.exists_cons_of_ne_nil (List.append_ne_nil_of_right_ne_nil fs hn)
    rw [hk] at ih
    rw [List.cons_append,hk]
    exact ih

theorem proceeds_of_cleansUp {f : Frame H} (h : f.cleansUp = true) : f.proceeds = true := by
  cases f <;> first | rfl | cases h

theorem stopsPanic_of_cleansUp {f : Frame H} (h : f.cleansUp = true) : f.stopsPanic = false := by
  cases f <;> first | rfl | cases h

theorem capped_rule {me : Nat} {s : Shared H} {active : List Executor} {f : Frame H}
    {e : Effect H} (hr : Rule me s active f e) (h : f.cleansUp = true) : Capped e.frames := by
  cases hr with
  | rewrite hr =>
    cases hr with
    | destroy hs =>
      cases hs with
      | post c t => cases h
      | schedule x => exact Or.inl rfl
    | handOn | dropTasksCons | dropJobsCons => exact Or.inl rfl
    | dropTasksNil | dropJobsNil => exact trivial
    | ended hl | overdue hl => cases hl <;> cases h
    | _ => cases h
  | enqueue | finish | finishLastWork | dropTurn => exact Or.inl rfl
  | finishWork | free | leave | notifyOne | notifyAll | forget => exact trivial
  | take hl | runDry hl | sleep hl => cases hl <;> cases h
  | _ => cases h

theorem capped_taken {me : Nat} {s : Shared H} {active : List Executor} {f g : Frame H}
    {e : Effect H} (hd : Deed me s active [f, g] e) (hg : Capped [f, g]) : Capped e.frames := by
  obtain ⟨k,hk⟩ | ⟨u,k,hk⟩ := hd.taken_cases
  · cases hk
  obtain ⟨rfl,rfl⟩ : f = .panic u ∧ g = k := by simpa using hk
  obtain he | ⟨hc,-⟩ | ⟨-,he⟩ := hd.panic_cases
  · rw [he]
    exact Or.inr ⟨u,rfl⟩
  · obtain hg | ⟨v,rfl⟩ := hg
    · cases g <;> cases hc
      cases hg
    · cases hc
  · rw [he]
    exact Or.inr ⟨u,rfl⟩

namespace Machine

variable {m n : Machine H} {i : Nat} {y : Move H} {a : Act H} {f : Frame H} {fs gs : List (Frame H)}

theorem mover_of_act? (h : m.act? y = some a) : y.mover? = some a.thread := by
  cases y with
  | step i =>
    simp only [act?,stepAct?] at h
    split at h
    · cases h
    · split at h
      · cases h
      · obtain rfl := Option.some.inj h
        rfl
    · obtain rfl := Option.some.inj h
      rfl
    · split at h
      · cases h
      · obtain rfl := Option.some.inj h
        rfl
    · split at h
      · cases h
      · obtain rfl := Option.some.inj h
        rfl
  | call i c | finish i | raise i t | pass i | recover i | receive i | conclude i | heed i =>
    simp only [act?,codeAct?,panicAct?,receiveAct?,operationAct?] at h
    split at h
    · obtain rfl := Option.some.inj h
      rfl
    · cases h
  | disturb i | refuse i why =>
    simp only [act?,disturbAct?,refuseAct?] at h
    split at h
    · split at h
      · obtain rfl := Option.some.inj h
        rfl
      · cases h
    · cases h
  | _ => cases h

theorem happen_of_mover (h : y.mover? = some i) : m.happen y = m := by
  cases y <;> first | rfl | cases h

theorem lt_size_of_frames (hn : (m.thread i).frames ≠ []) : i < m.threads.size := by
  by_contra hi
  apply hn
  rw [thread,Table.get_of_size_le _ (Nat.le_of_not_lt hi)]
  rfl

@[simp] theorem shared_setFrames : (m.setFrames i fs).shared = m.shared := rfl

@[simp] theorem thread_setFrames :
    (m.setFrames i fs).thread i = { m.thread i with frames := fs } := Table.get_update_self _ _ _

theorem thread_setFrames_ne {j : Nat} (h : i ≠ j) : (m.setFrames i fs).thread j = m.thread j :=
  Table.get_update_ne _ _ h

theorem only_setFrames : (m.setFrames i fs).only i gs = m.only i gs := by
  simp only [only,thread_setFrames,shared_setFrames]

theorem setFrames_setFrames : (m.setFrames i fs).setFrames i gs = m.setFrames i gs := by
  simp only [setFrames,Table.update_update]

theorem perform_only (taken : List (Frame H)) :
    m.perform ⟨i,taken,gs,m.only i fs⟩ = m.setFrames i (fs ++ gs) := by
  simp only [perform,only,setFrames]
  exact congrArg (Machine.mk m.shared) (Table.update_congr rfl)

theorem move_raise {role : Role} {h : H} {made : Nat} (t : String)
    (hf : (m.thread i).frames = .code role h made :: fs) :
    m.move (.raise i t) = m.setFrames i (.panic t :: .code role h made :: fs) := by
  have ha : m.act? (.raise i t) =
      some ⟨i,[.code role h made],fs,m.only i [.panic t, .code role h made]⟩ := by
    simp [act?,codeAct?,hf]
  rw [move_of_act? ha,perform_only]
  rfl

theorem move_finish {role : Role} {h : H} {made : Nat}
    (hf : (m.thread i).frames = .code role h made :: fs) :
    m.move (.finish i) = m.setFrames i fs := by
  have ha : m.act? (.finish i) = some ⟨i,[.code role h made],fs,m.only i []⟩ := by
    simp [act?,codeAct?,hf]
  rw [move_of_act? ha,perform_only]
  rfl

theorem move_pass {t : String} {role : Role} {h : H} {made : Nat}
    (hf : (m.thread i).frames = .panic t :: .code role h made :: fs) :
    m.move (.pass i) = m.setFrames i (.panic t :: fs) := by
  have ha : m.act? (.pass i) =
      some ⟨i,[.panic t, .code role h made],fs,m.only i [.panic t]⟩ := by
    simp [act?,panicAct?,hf]
  rw [move_of_act? ha,perform_only]
  rfl

theorem move_recover {t : String} {role : Role} {h : H} {made : Nat}
    (hf : (m.thread i).frames = .panic t :: .code role h made :: fs) :
    m.move (.recover i) = m.setFrames i (.code role h made :: fs) := by
  have ha : m.act? (.recover i) =
      some ⟨i,[.panic t, .code role h made],fs,m.only i [.code role h made]⟩ := by
    simp [act?,panicAct?,hf]
  rw [move_of_act? ha,perform_only]
  rfl

theorem move_skip {t : String} (hf : (m.thread i).frames = .panic t :: f :: fs)
    (hs : f.stopsPanic = false) (hc : f.cleansUp = false) :
    m.move (.step i) = m.setFrames i (.panic t :: fs) := by
  have ha : m.act? (.step i) = some ⟨i,[.panic t, f],fs,m.only i [.panic t]⟩ := by
    simp [act?,stepAct?,hf,hs,hc]
  rw [move_of_act? ha,perform_only]
  rfl

theorem move_cleanUp {t : String} (hf : (m.thread i).frames = .panic t :: f :: fs)
    (hc : f.cleansUp = true) : m.move (.step i) = m.setFrames i (f :: .panic t :: fs) := by
  have ha : m.act? (.step i) = some ⟨i,[.panic t, f],fs,m.only i [f, .panic t]⟩ := by
    simp [act?,stepAct?,hf,stopsPanic_of_cleansUp hc,hc]
  rw [move_of_act? ha,perform_only]
  rfl

theorem perform_setFrames_ne (hi : i < m.threads.size) (ha : a.thread ≠ i) :
    (m.setFrames i fs).perform a = (m.perform a).setFrames i fs := by
  have hs : i < (m.threads.update a.thread fun _ =>
      ⟨a.effect.frames ++ a.rest,a.effect.active⟩).size := by
    rw [Table.size_update]
    omega
  simp only [perform,setFrames,Table.update_comm m.threads (Ne.symm ha)]
  split
  · rfl
  · rw [Table.push_update _ hs]

theorem perform_setFrames (gs : List (Frame H)) :
    (m.setFrames a.thread fs).perform { a with rest := gs } =
      (m.perform a).setFrames a.thread (a.effect.frames ++ gs) := by
  have hs : a.thread < (m.threads.update a.thread fun _ =>
      ⟨a.effect.frames ++ a.rest,a.effect.active⟩).size := by
    rw [Table.size_update]
    omega
  simp only [perform,setFrames,Table.update_update]
  split
  · rw [Table.update_update]
  · rw [← Table.push_update _ hs,Table.update_update]

theorem happen_setFrames (hi : i < m.threads.size) :
    (m.setFrames i fs).happen y = (m.happen y).setFrames i fs := by
  cases y with
  | spawn h =>
    simp only [happen,setFrames]
    rw [Table.push_update _ hi]
  | _ => rfl

theorem act?_setFrames_ne (hy : y.mover? ≠ some i) : (m.setFrames i fs).act? y = m.act? y := by
  have h (j : Nat) (hj : some j ≠ some i) : (m.setFrames i fs).thread j = m.thread j :=
    thread_setFrames_ne fun hij => hj (congrArg some hij.symm)
  cases y with
  | step j | call j c | finish j | receive j | raise j t | pass j | recover j | disturb j
  | conclude j | heed j | refuse j why =>
    simp only [act?,stepAct?,codeAct?,panicAct?,operationAct?,receiveAct?,disturbAct?,refuseAct?,
      only,h j hy,shared_setFrames]
  | _ => rfl

theorem move_setFrames (hi : i < m.threads.size) (hy : y.mover? ≠ some i) :
    (m.setFrames i fs).move y = (m.move y).setFrames i fs := by
  simp only [move,act?_setFrames_ne hy]
  split
  · rename_i a ha
    refine perform_setFrames_ne hi ?_
    intro hai
    exact hy ((mover_of_act? ha).trans (congrArg some hai))
  · exact happen_setFrames hi

/-- What a thread finds to do does not depend on the stack below two frames. -/
inductive Below (i : Nat) (f g : Frame H) (fs gs : List (Frame H)) :
    Option (Act H) → Option (Act H) → Prop
  | none : Below i f g fs gs none none
  | one (e : Effect H) : Below i f g fs gs (some ⟨i,[f],g :: fs,e⟩) (some ⟨i,[f],g :: gs,e⟩)
  | two (e : Effect H) : Below i f g fs gs (some ⟨i,[f, g],fs,e⟩) (some ⟨i,[f, g],gs,e⟩)

theorem below_stepAct? {g : Frame H} (hf : (m.thread i).frames = f :: g :: fs)
    (gs : List (Frame H)) :
    Below i f g fs gs (m.stepAct? i) ((m.setFrames i (f :: g :: gs)).stepAct? i) := by
  cases f with
  | reply r =>
    by_cases hg : g.isCode = true <;>
      simp only [stepAct?,thread_setFrames,hf,List.head?_cons,Option.any_some,hg,only_setFrames]
    · exact .none
    · exact .one _
  | panic u =>
    by_cases hg : g.stopsPanic = true <;> simp only [stepAct?,thread_setFrames,hf,hg,only_setFrames]
    · exact .none
    · exact .two _
  | asleep c w limit ran =>
    simp only [stepAct?,thread_setFrames,hf,shared_setFrames]
    split
    · exact .none
    · exact .one _
  | _ =>
    simp only [stepAct?,thread_setFrames,hf,shared_setFrames]
    exact .one _

theorem below_act? {g : Frame H} (hf : (m.thread i).frames = f :: g :: fs)
    (hy : y.mover? = some i) (gs : List (Frame H)) :
    Below i f g fs gs (m.act? y) ((m.setFrames i (f :: g :: gs)).act? y) := by
  cases y with
  | step j =>
    obtain rfl := Option.some.inj hy
    exact below_stepAct? hf gs
  | call j c | finish j | raise j t =>
    obtain rfl := Option.some.inj hy
    simp only [act?,codeAct?,thread_setFrames,hf,only_setFrames]
    cases f with
    | code role h made => exact .one _
    | _ => exact .none
  | pass j | recover j =>
    obtain rfl := Option.some.inj hy
    simp only [act?,panicAct?,thread_setFrames,hf,only_setFrames]
    cases f with
    | panic t =>
      cases g with
      | code role h made => exact .two _
      | _ => exact .none
    | _ => exact .none
  | receive j =>
    obtain rfl := Option.some.inj hy
    simp only [act?,receiveAct?,thread_setFrames,hf,only_setFrames]
    cases f with
    | reply r => exact .one _
    | _ => exact .none
  | conclude j | heed j =>
    obtain rfl := Option.some.inj hy
    simp only [act?,operationAct?,thread_setFrames,hf,shared_setFrames]
    cases f with
    | operation o => exact .one _
    | _ => exact .none
  | disturb j =>
    obtain rfl := Option.some.inj hy
    simp only [act?,disturbAct?,thread_setFrames,hf,shared_setFrames,only_setFrames]
    cases f with
    | asleep c w limit ran =>
      by_cases hs : j ∈ (m.shared.loops.get c).sleepers <;> simp only [hs,if_true,if_false]
      · exact .one _
      · exact .none
    | _ => exact .none
  | refuse j why =>
    obtain rfl := Option.some.inj hy
    simp only [act?,refuseAct?,thread_setFrames,hf,shared_setFrames]
    cases f with
    | enlist o =>
      by_cases hr : (m.shared.loops.get o.home).reactor = .idle <;>
        simp only [hr,if_true,if_false]
      · exact .one _
      · exact .none
    | _ => exact .none
  | _ => cases hy

theorem act?_of_proceeds (hp : f.proceeds = true) (hy : y.mover? = some i) :
    (∀ (n : Machine H) fs, (n.thread i).frames = f :: fs → n.act? y = none) ∨
      ∀ (n : Machine H) fs, (n.thread i).frames = f :: fs →
        n.act? y = some ⟨i,[f],fs,f.step i n.shared (n.thread i).active⟩ := by
  cases y with
  | step j =>
    obtain rfl := Option.some.inj hy
    right
    intro n fs hf
    simp only [act?,stepAct?,hf]
    cases f <;> first | rfl | cases hp
  | call j c | finish j | receive j | raise j t | pass j | recover j | disturb j | conclude j
  | heed j | refuse j why =>
    obtain rfl := Option.some.inj hy
    left
    intro n fs hf
    simp only [act?,codeAct?,panicAct?,receiveAct?,operationAct?,disturbAct?,refuseAct?,hf]
    cases f <;> first | rfl | cases hp
  | _ => exact Or.inl fun _ _ _ => rfl

theorem act?_of_panics {t u : String} (hf : (m.thread i).frames = .panic u :: .panic t :: fs)
    (hy : y.mover? = some i) : m.act? y = none := by
  cases y with
  | step j =>
    obtain rfl := Option.some.inj hy
    simp [act?,stepAct?,hf,Frame.stopsPanic]
  | call j c | finish j | receive j | raise j v | pass j | recover j | disturb j | conclude j
  | heed j | refuse j why =>
    obtain rfl := Option.some.inj hy
    simp only [act?,codeAct?,panicAct?,receiveAct?,operationAct?,disturbAct?,refuseAct?,hf]
  | _ => rfl

theorem act?_of_cleansUp {t : String} (hf : (m.thread i).frames = .panic t :: f :: fs)
    (hc : f.cleansUp = true) (hy : y.mover? = some i) :
    m.act? y = none ∨ m.act? y = some ⟨i,[.panic t, f],fs,m.only i [f, .panic t]⟩ := by
  have hs := stopsPanic_of_cleansUp hc
  cases y with
  | step j =>
    obtain rfl := Option.some.inj hy
    right
    simp [act?,stepAct?,hf,hs,hc]
  | call j c | finish j | receive j | raise j u | disturb j | conclude j | heed j | refuse j why =>
    obtain rfl := Option.some.inj hy
    left
    simp only [act?,codeAct?,receiveAct?,operationAct?,disturbAct?,refuseAct?,hf]
  | pass j | recover j =>
    obtain rfl := Option.some.inj hy
    left
    simp only [act?,panicAct?,hf]
    cases f <;> first | rfl | cases hs
  | _ => exact Or.inl rfl

theorem thread_move_ne (hn : (m.thread i).frames ≠ []) (hy : y.mover? ≠ some i) :
    (m.move y).thread i = m.thread i := by
  obtain ⟨a,ha,-,hmove⟩ | ⟨-,hmove⟩ := move_cases m y
  · rw [hmove]
    refine thread_perform_ne ?_ hn
    rintro rfl
    exact hy (mover_of_act? ha)
  · rw [hmove]
    exact thread_happen_eq hn

/-- The moves bring thread `i` to a stack for the first time. -/
def Arrives (i : Nat) (fs : List (Frame H)) : Machine H → List (Move H) → Prop
  | m, [] => (m.thread i).frames = fs
  | m, y :: ys => (m.thread i).frames ≠ fs ∧ Arrives i fs (m.move y) ys

/-- The frames that clean up for a panic which comes out above `depth` frames of thread `i`, as the
panic reaches them. Each is executed before the panic goes on. -/
def roused (i depth : Nat) (_ : Machine H) (a : Act H) : List (Frame H) :=
  match a.taken with
  | [.panic _, f] =>
    if a.thread = i ∧ f.cleansUp = true ∧
      (a.rest.take (a.rest.length - depth)).all Frame.cleansUp = true then [f] else []
  | _ => []

/-- Thread `i` of `n` is where thread `i` of `m` is, but in `m` a panic lies above the frames `es`
that are still to be reached and those `below` them. -/
inductive Shadow (i : Nat) (t : String) (below es : List (Frame H)) (m : Machine H) :
    Machine H → Prop
  | mk (gs : List (Frame H)) (hf : (m.thread i).frames = gs ++ .panic t :: (es ++ below))
      (hg : Capped gs) (he : es.all Frame.cleansUp = true) :
      Shadow i t below es m (m.setFrames i (gs ++ (es ++ below)))

section

variable {t : String} {below es : List (Frame H)}

theorem shadow_stays (h : Shadow i t below es m n) (hy : y.mover? = some i)
    (hn : m.act? y = none) :
    ∃ zs es', Spares i zs [y] ∧ es = m.noted (roused i below.length) y ++ es' ∧
      Shadow i t below es' (m.move y) (n.after zs) := by
  rw [noted_of_act?_none hn,move_of_act?_none hn,happen_of_mover hy]
  exact ⟨[],es,.drop y hy .nil,rfl,h⟩

theorem noted_roused_ne {depth : Nat} (hy : y.mover? ≠ some i) :
    m.noted (roused i depth) y = [] := by
  cases ha : m.act? y with
  | none => exact noted_of_act?_none ha
  | some a =>
    have hi : a.thread ≠ i := fun h => hy ((mover_of_act? ha).trans (congrArg some h))
    rw [noted_of_act? ha]
    unfold roused
    split
    · exact if_neg fun h => hi h.1
    · rfl

theorem roused_above {hs : List (Frame H)} (hr : a.rest = hs ++ .panic t :: (es ++ below)) :
    m.roused i below.length a = [] := by
  unfold roused
  split
  · refine if_neg ?_
    rintro ⟨-,-,h⟩
    have hs : a.rest = (hs ++ .panic t :: es) ++ below := by simp [hr]
    rw [hs,List.length_append,Nat.add_sub_cancel,List.take_left] at h
    simp [Frame.cleansUp] at h
  · rfl

theorem shadow_act (hs : List (Frame H)) (he : es.all Frame.cleansUp = true)
    (hy : m.act? y = some a) (hi : a.thread = i) (hr : a.rest = hs ++ .panic t :: (es ++ below))
    (hc : Capped (a.effect.frames ++ hs))
    (hn : (m.setFrames i fs).act? y = some { a with rest := hs ++ (es ++ below) }) :
    ∃ zs es', Spares i zs [y] ∧ es = m.noted (roused i below.length) y ++ es' ∧
      Shadow i t below es' (m.move y) ((m.setFrames i fs).after zs) := by
  subst hi
  refine ⟨[y],es,.keep y .nil,?_,?_⟩
  · rw [noted_of_act? hy,roused_above hr]
    rfl
  · rw [after_cons,after_nil,move_of_act? hn,move_of_act? hy,perform_setFrames,← List.append_assoc]
    refine .mk (a.effect.frames ++ hs) ?_ hc he
    rw [thread_perform_self,hr]
    simp

theorem shadow_reach (he : (f :: es).all Frame.cleansUp = true)
    (hy : m.act? y = some ⟨i,[.panic t, f],es ++ below,m.only i [f, .panic t]⟩) :
    ∃ zs es', Spares i zs [y] ∧ f :: es = m.noted (roused i below.length) y ++ es' ∧
      Shadow i t below es' (m.move y) ((m.setFrames i (f :: es ++ below)).after zs) := by
  obtain ⟨hc,he⟩ := Bool.and_eq_true_iff.1 he
  refine ⟨[],es,.drop y (mover_of_act? hy) .nil,?_,?_⟩
  · simp [noted_of_act? hy,roused,hc,he]
  · have hm : m.move y = m.setFrames i ([f, .panic t] ++ (es ++ below)) := by
      rw [move_of_act? hy,perform_only]
    have hn : m.setFrames i (f :: es ++ below) = (m.move y).setFrames i ([f] ++ (es ++ below)) := by
      rw [hm,setFrames_setFrames]
      rfl
    rw [after_nil,hn]
    refine .mk [f] ?_ (Or.inl hc) he
    rw [hm]
    rw [thread_setFrames]
    rfl

theorem shadow_move (h : Shadow i t below es m n) (hl : (m.thread i).frames ≠ .panic t :: below)
    (y : Move H) :
    ∃ zs es', Spares i zs [y] ∧ es = m.noted (roused i below.length) y ++ es' ∧
      Shadow i t below es' (m.move y) (n.after zs) := by
  have hs := h
  obtain ⟨gs,hf,hg,he⟩ := h
  by_cases hy : y.mover? = some i
  · rcases gs with _ | ⟨f,_ | ⟨g,gs⟩⟩
    · cases es with
      | nil => exact absurd hf hl
      | cons f es =>
        obtain ha | ha := act?_of_cleansUp hf (Bool.and_eq_true_iff.1 he).1 hy
        · exact shadow_stays hs hy ha
        · exact shadow_reach he ha
    · obtain hc | ⟨u,rfl⟩ := hg
      · obtain ha | ha := act?_of_proceeds (proceeds_of_cleansUp hc) hy
        · exact shadow_stays hs hy (ha m _ hf)
        · refine shadow_act [] he (ha m _ hf) rfl rfl ?_ ?_
          · rw [List.append_nil]
            refine capped_rule (.step_of_ne ?_) hc
            rintro c w limit ran rfl
            cases hc
          · rw [ha _ _ (by rw [thread_setFrames]; rfl)]
            simp
      · exact shadow_stays hs hy (act?_of_panics hf hy)
    · have hb := below_act? hf hy (gs ++ (es ++ below))
      generalize hu : m.act? y = u at hb
      generalize hv : (m.setFrames i _).act? y = v at hb
      cases hb with
      | none => exact shadow_stays hs hy hu
      | one e =>
        have hg : Capped (g :: gs) := hg
        exact shadow_act (g :: gs) he hu rfl rfl (capped_append hg (by simp) _) hv
      | two e =>
        refine shadow_act gs he hu rfl rfl ?_ hv
        cases gs with
        | nil =>
          rw [List.append_nil]
          exact capped_taken (fits_of_act? hu).deed hg
        | cons k gs =>
          have hg : Capped (k :: gs) := hg
          exact capped_append hg (by simp) _
  · have hn : (m.thread i).frames ≠ [] := by simp [hf]
    refine ⟨[y],es,.keep y .nil,?_,?_⟩
    · rw [noted_roused_ne hy]
      rfl
    · rw [after_cons,after_nil,move_setFrames (lt_size_of_frames hn) hy]
      exact .mk gs ((congrArg Thread.frames (thread_move_ne hn hy)).trans hf) hg he

theorem shadow_after (h : Shadow i t below es m n) {ys : List (Move H)}
    (ha : Arrives i (.panic t :: below) m ys) :
    ∃ zs, Spares i zs ys ∧ notes (roused i below.length) m ys = es ∧
      n.after zs = (m.after ys).setFrames i below := by
  induction ys generalizing m n es with
  | nil =>
    obtain ⟨gs,hf,-,-⟩ := h
    have hl := congrArg List.length (hf.symm.trans ha)
    simp at hl
    obtain rfl : gs = [] := List.eq_nil_of_length_eq_zero (by omega)
    obtain rfl : es = [] := List.eq_nil_of_length_eq_zero (by omega)
    exact ⟨[],.nil,rfl,rfl⟩
  | cons y ys ih =>
    obtain ⟨hl,ha⟩ := ha
    obtain ⟨us,es',hu,he,hy⟩ := shadow_move h hl y
    obtain ⟨vs,hv,hn,hz⟩ := ih hy ha
    refine ⟨us ++ vs,hu.append hv,?_,?_⟩
    · rw [he,← hn]
      rfl
    · rw [after_append,hz,after_cons]

end

end Machine
end EventLoop
