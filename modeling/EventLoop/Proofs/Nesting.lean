import EventLoop.Proofs.Until

/-! What a thread is inside of. A handler begins with a frame below it that takes the thread out
again, so that the executors a thread is inside of are nested as the handlers are, whether these
return or panic. -/
namespace EventLoop

variable {H : Type}

/-- What lay on the frames `below` is over: it has returned, or a panic has come out of it. -/
def Back (below fs : List (Frame H)) : Prop := fs = below ∨ ∃ t, fs = .panic t :: below

/-- The executor of which a handler begins with these frames, and the frames that come after the
handler. -/
def opens? : List (Frame H) → Option (Executor × List (Frame H))
  | [_, .finish _, .leave e, .drain c w limit ran] => some (e, [.drain c w limit ran])
  | [.call (.invoke _), .leave e, .release x] => some (e, [.release x])
  | _ => none

/-- A thread gets inside of an executor, or out of it. -/
inductive Crossing
  | enter (e : Executor)
  | exit (e : Executor)
  deriving DecidableEq, Repr

def crossedBy (taken frames : List (Frame H)) : List Crossing :=
  match taken with
  | [.leave e] => [.exit e]
  | _ => (opens? frames).toList.map fun x => .enter x.1

/-- Every exit is that of the last entry that is still open; the open entries are listed, the last
one first. -/
inductive Nested : List Crossing → List Executor → Prop
  | nil : Nested [] []
  | enter {cs : List Crossing} {open' : List Executor} (e : Executor) (h : Nested cs open') :
      Nested (cs ++ [.enter e]) (e :: open')
  | exit {cs : List Crossing} {open' : List Executor} {e : Executor} (h : Nested cs (e :: open')) :
      Nested (cs ++ [.exit e]) open'

/-- What an act does to the executors that its thread is inside of. -/
inductive Crosses (active : List Executor) (taken : List (Frame H)) (e : Effect H) : Prop
  | enter (x : Executor) (gs post : List (Frame H)) (ht : leaves taken = []) (hg : leaves gs = [])
      (hp : leaves post = []) (hf : e.frames = gs ++ .leave x :: post)
      (ho : opens? e.frames = some (x, post)) (ha : e.active = x :: active)
  | exit (x : Executor) (ht : taken = [.leave x]) (hf : e.frames = [])
      (ha : e.active = active.erase x)
  | uncover (t : String) (x : Executor) (ht : taken = [.panic t, .leave x])
      (hf : e.frames = [.leave x, .panic t]) (ha : e.active = active)
  | stay (ht : leaves taken = []) (hf : leaves e.frames = []) (ha : e.active = active)

@[simp] theorem leaves_append (fs gs : List (Frame H)) :
    leaves (fs ++ gs) = leaves fs ++ leaves gs :=
  List.flatMap_append

@[simp] theorem leaves_cons (f : Frame H) (fs : List (Frame H)) :
    leaves (f :: fs) = f.left ++ leaves fs :=
  rfl

theorem mem_leaves {e : Executor} {fs : List (Frame H)} :
    e ∈ leaves fs ↔ ∃ gs hs, fs = gs ++ .leave e :: hs := by
  constructor
  · intro h
    obtain ⟨f,hf,he⟩ := List.mem_flatMap.1 h
    obtain ⟨gs,hs,rfl⟩ := List.append_of_mem hf
    cases f with
    | leave x => exact ⟨gs,hs,by rw [List.mem_singleton.1 he]⟩
    | _ => cases he
  · rintro ⟨gs,hs,rfl⟩
    simp [Frame.left]

theorem leave_unique {e x : Executor} {gs hs gs' hs' : List (Frame H)}
    (h : gs ++ .leave e :: hs = gs' ++ .leave x :: hs') (hg : leaves gs' = []) (hh : leaves hs' = []) :
    gs = gs' ∧ e = x ∧ hs = hs' := by
  obtain ⟨ks,rfl,hk⟩ | ⟨ks,rfl,hk⟩ := List.append_eq_append_iff.1 h
  · cases ks with
    | nil =>
      obtain ⟨he,rfl⟩ := List.cons.inj hk
      exact ⟨by simp,Frame.leave.inj he,rfl⟩
    | cons k ks =>
      obtain ⟨rfl,-⟩ := List.cons.inj hk
      simp [Frame.left] at hg
  · cases ks with
    | nil =>
      obtain ⟨he,rfl⟩ := List.cons.inj hk
      exact ⟨by simp,(Frame.leave.inj he).symm,rfl⟩
    | cons k ks =>
      obtain ⟨-,rfl⟩ := List.cons.inj hk
      simp [Frame.left] at hh

theorem opens?_eq {fs post : List (Frame H)} {e : Executor} (h : opens? fs = some (e, post)) :
    ∃ gs, fs = gs ++ .leave e :: post := by
  unfold opens? at h
  split at h
  · obtain ⟨rfl,rfl⟩ := Prod.mk.inj (Option.some.inj h)
    exact ⟨[_, _],rfl⟩
  · obtain ⟨rfl,rfl⟩ := Prod.mk.inj (Option.some.inj h)
    exact ⟨[_],rfl⟩
  · cases h

def Under (e : Executor) (base fs : List (Frame H)) : Prop :=
  (∃ gs, fs = gs ++ .leave e :: base) ∨ ∃ t, fs = .leave e :: .panic t :: base

theorem mem_leaves_of_under {e : Executor} {base fs : List (Frame H)} (h : Under e base fs) :
    e ∈ leaves fs := by
  obtain ⟨gs,rfl⟩ | ⟨t,rfl⟩ := h <;> simp [Frame.left]

theorem not_back_of_under {e : Executor} {base fs : List (Frame H)} (h : Under e base fs) :
    ¬ Back base fs := by
  obtain ⟨gs,rfl⟩ | ⟨t,rfl⟩ := h
  · rintro (hb | ⟨t,hb⟩)
    · have hl := congrArg List.length hb
      simp only [List.length_append,List.length_cons] at hl
      omega
    · have hl := congrArg List.length hb
      simp only [List.length_append,List.length_cons] at hl
      obtain rfl : gs = [] := List.eq_nil_of_length_eq_zero (by omega)
      cases (List.cons.inj hb).1
  · rintro (hb | ⟨u,hb⟩)
    · have hl := congrArg List.length hb
      simp only [List.length_cons] at hl
      omega
    · cases (List.cons.inj hb).1

section

variable {me : Nat} {s : Shared H} {active : List Executor}

theorem crosses_rewrite {f : Frame H} {frames : List (Frame H)}
    (hr : Rewrite me s active f frames) :
    Crosses active [f] { shared := s, active, frames } := by
  cases hr with
  | destroy hf | ended hf | overdue hf => cases hf <;> exact .stay rfl rfl rfl
  | dropJobsCons j => cases j <;> exact .stay rfl rfl rfl
  | _ => exact .stay rfl rfl rfl

theorem crosses_rule {f : Frame H} {e : Effect H} (hr : Rule me s active f e) :
    Crosses active [f] e := by
  cases hr with
  | rewrite hr => exact crosses_rewrite hr
  | @take _ c w limit ran hf j =>
    have ht : leaves [f] = [] := by cases hf <;> rfl
    refine .enter (.loop c) [Frame.execute j,.finish c] [.drain c w limit (ran + 1)] ht ?_ rfl rfl
      rfl rfl
    cases j <;> rfl
  | turn x t | lock x t =>
    exact .enter (.strand x) [.call (.invoke t)] [.release x] rfl rfl rfl rfl rfl rfl
  | leave e => exact .exit e rfl rfl rfl
  | enqueue hf | runDry hf | sleep hf => cases hf <;> exact .stay rfl rfl rfl
  | _ => exact .stay rfl rfl rfl

theorem crosses_shift {taken frames : List (Frame H)} (hs : Shift taken frames) :
    Crosses active taken { shared := s, active, frames } := by
  cases hs with
  | cleanUp t f hc =>
    cases f with
    | leave x => exact .uncover t x rfl rfl rfl
    | _ => exact .stay rfl rfl rfl
  | skip t f hs hc =>
    cases f with
    | leave x => exact Bool.noConfusion hc
    | _ => exact .stay rfl rfl rfl
  | _ => exact .stay rfl rfl rfl

theorem crosses_deed {taken : List (Frame H)} {e : Effect H} (hd : Deed me s active taken e) :
    Crosses active taken e := by
  obtain ⟨frames,hs,rfl⟩ | ⟨f,rfl,hr⟩ := hd.shift_or_rule
  · exact crosses_shift hs
  · exact crosses_rule hr

end

theorem Deed.taken_ne_nil {me : Nat} {s : Shared H} {active : List Executor}
    {taken : List (Frame H)} {e : Effect H} (hd : Deed me s active taken e) : taken ≠ [] := by
  obtain ⟨f,rfl⟩ | ⟨t,f,rfl⟩ := hd.taken_cases <;> simp

namespace Machine

variable {m : Machine H} {i : Nat} {y : Move H} {e : Executor} {base : List (Frame H)}

theorem frames_move_idle (hn : (m.thread i).frames = []) (y : Move H) :
    ((m.move y).thread i).frames = [] ∨
      (∃ u, ((m.move y).thread i).frames = [.code .program u 0]) ∨
        ∃ o, ((m.move y).thread i).frames = [.operation o] := by
  obtain ⟨a,-,ha,hmove⟩ | ⟨-,hmove⟩ := move_cases m y
  · rw [hmove]
    have hi : i ≠ a.thread := by
      rintro rfl
      have hf := ha.frames
      rw [hn] at hf
      exact ha.deed.taken_ne_nil (List.append_eq_nil_iff.1 hf.symm).1
    have hu : (m.threads.update a.thread fun _ =>
        ⟨a.effect.frames ++ a.rest,a.effect.active⟩).get i = m.thread i :=
      Table.get_update_ne _ _ (Ne.symm hi)
    simp only [perform,thread]
    split
    · rw [hu,hn]
      exact Or.inl rfl
    · rename_i o ho
      rw [Table.get_push]
      split
      · exact Or.inr (Or.inr ⟨o,rfl⟩)
      · rw [hu,hn]
        exact Or.inl rfl
  · rw [hmove]
    obtain ⟨u,ht⟩ | ht := thread_happen m y i
    · rw [ht]
      exact Or.inr (Or.inl ⟨u,rfl⟩)
    · rw [ht,hn]
      exact Or.inl rfl

theorem leaves_move_idle (hn : (m.thread i).frames = []) (y : Move H) :
    leaves ((m.move y).thread i).frames = [] := by
  obtain h | ⟨u,h⟩ | ⟨o,h⟩ := frames_move_idle hn y <;> rw [h] <;> rfl

theorem thread_move_of_others (hi : ¬ ∃ a, m.act? y = some a ∧ a.thread = i)
    (hn : (m.thread i).frames ≠ []) : (m.move y).thread i = m.thread i := by
  obtain h | ⟨a,hy,-,ha,-⟩ := act_of_move hn y
  · exact h
  · exact absurd ⟨a,hy,ha⟩ hi

theorem noted_of_others {α : Type} {f : Machine H → Act H → List α}
    (hf : ∀ a : Act H, a.thread ≠ i → f m a = [])
    (hi : ¬ ∃ a, m.act? y = some a ∧ a.thread = i) : m.noted f y = [] := by
  cases hy : m.act? y with
  | none => exact noted_of_act?_none hy
  | some a => rw [noted_of_act? hy,hf a fun h => hi ⟨a,hy,h⟩]

theorem under_move (h : Under e base (m.thread i).frames) (y : Move H) :
    Under e base ((m.move y).thread i).frames ∨ Back base ((m.move y).thread i).frames := by
  obtain ⟨gs,hf⟩ | ⟨t,hf⟩ := h
  · obtain hm | ⟨a,⟨ha,hd⟩,rfl,hm⟩ := frames_move (m := m) (i := i) (by simp [hf]) y
    · exact Or.inl (Or.inl ⟨gs,hm.trans hf⟩)
    · rw [ha] at hf
      rw [hm]
      obtain ⟨hs,hr⟩ | ⟨hr,ht | ⟨t,ht⟩⟩ := taken_over (by simp) hd hf
      · exact Or.inl (Or.inl ⟨a.effect.frames ++ hs,by simp [hr]⟩)
      · rw [ht] at hd
        rw [hd.eq_step rfl,hr]
        exact Or.inr (Or.inl rfl)
      · rw [ht] at hd
        cases crosses_deed hd with
        | uncover u x ht hf ha =>
          obtain ⟨rfl,rfl⟩ : t = u ∧ e = x := by simpa using ht
          rw [hf,hr]
          exact Or.inl (Or.inr ⟨t,rfl⟩)
        | exit x ht hf ha => cases ht
        | enter x gs post ht | stay ht => cases ht
  · obtain hm | hm := frames_move_of_proceeds hf rfl y
    · exact Or.inl (Or.inr ⟨t,hm⟩)
    · exact Or.inr (Or.inr ⟨t,hm⟩)

/-- A handler of `e` has begun on thread `i` above the frames `base` and is not over. -/
inductive Begun (i : Nat) (e : Executor) (base : List (Frame H)) : List (Move H) → Prop
  | mk (xs : List (Move H)) (y : Move H) (ys : List (Move H)) (a : Act H) (post : List (Frame H))
      (hy : (run xs).act? y = some a) (hi : a.thread = i)
      (ho : opens? a.effect.frames = some (e, post)) (hb : base = post ++ a.rest)
      (hn : ∀ zs, zs <+: ys → ¬ Back base ((run (xs ++ y :: zs)).thread i).frames) :
      Begun i e base (xs ++ y :: ys)

/-- A handler of `e` is in progress on thread `i`. -/
def InProgress (i : Nat) (e : Executor) (moves : List (Move H)) : Prop := ∃ base, Begun i e base moves

theorem Begun.concat {moves : List (Move H)} (h : Begun i e base moves) {x : Move H}
    (hx : ¬ Back base ((run (moves ++ [x])).thread i).frames) : Begun i e base (moves ++ [x]) := by
  obtain ⟨xs,y,ys,a,post,hy,hi,ho,hb,hn⟩ := h
  have hm : xs ++ y :: ys ++ [x] = xs ++ y :: (ys ++ [x]) := by simp
  rw [hm] at hx ⊢
  refine .mk xs y (ys ++ [x]) a post hy hi ho hb ?_
  intro zs hz
  obtain rfl | hz := List.prefix_concat_iff.1 hz
  · exact hx
  · exact hn zs hz

theorem Begun.under {moves : List (Move H)} (h : Begun i e base moves) :
    Under e base ((run moves).thread i).frames := by
  obtain ⟨xs,y,ys,a,post,hy,rfl,ho,rfl,hn⟩ := h
  induction ys using List.reverseRecOn with
  | nil =>
    obtain ⟨gs,hg⟩ := opens?_eq ho
    rw [run_concat,move_of_act? hy,thread_perform_self]
    exact Or.inl ⟨gs,by simp [hg]⟩
  | append_singleton ys z ih =>
    have hu := ih fun zs hz => hn zs (hz.trans (List.prefix_append ys [z]))
    have hz := hn _ (List.prefix_refl _)
    have hm : xs ++ y :: (ys ++ [z]) = xs ++ y :: ys ++ [z] := by simp
    rw [hm,run_concat] at hz ⊢
    exact (under_move hu z).resolve_right hz

def Opened (i : Nat) (e : Executor) (gs fs : List (Frame H)) (moves : List (Move H)) : Prop :=
  ∃ base, (fs = base ∨ gs = [] ∧ ∃ t, fs = .panic t :: base) ∧ Begun i e base moves

section

variable {xs : List (Move H)} {x : Move H} {gs hs fs : List (Frame H)}

theorem Begun.keep (h : Begun i e base xs)
    (hf : ((run (xs ++ [x])).thread i).frames = gs ++ .leave e :: fs)
    (hb : fs = base ∨ gs = [] ∧ ∃ t, fs = .panic t :: base) : Begun i e base (xs ++ [x]) := by
  apply h.concat
  apply not_back_of_under (e := e)
  rw [hf]
  obtain rfl | ⟨rfl,t,rfl⟩ := hb
  · exact Or.inl ⟨gs,rfl⟩
  · exact Or.inr ⟨t,rfl⟩

theorem opened_of_put {a : Act H} (hy : (run xs).act? x = some a) (hi : a.thread = i)
    (ih : ∀ gs e fs, ((run xs).thread i).frames = gs ++ .leave e :: fs → Opened i e gs fs xs)
    (he : a.effect.frames = gs ++ .leave e :: hs)
    (hf : ((run (xs ++ [x])).thread i).frames = gs ++ .leave e :: (hs ++ a.rest)) :
    Opened i e gs (hs ++ a.rest) (xs ++ [x]) := by
  have ha := fits_of_act? hy
  cases crosses_deed ha.deed with
  | enter x' gs' post ht hg hp hf' ho ha' =>
    obtain ⟨rfl,rfl,rfl⟩ := leave_unique (he.symm.trans hf') hg hp
    refine ⟨hs ++ a.rest,Or.inl rfl,.mk xs x [] a hs hy hi ho rfl ?_⟩
    intro zs hz
    rw [List.prefix_nil.1 hz,hf]
    exact not_back_of_under (Or.inl ⟨gs,rfl⟩)
  | exit x' ht hf' => simp [hf'] at he
  | uncover t x' ht hf' =>
    obtain ⟨rfl,rfl,rfl⟩ : gs = [] ∧ e = x' ∧ hs = [.panic t] := by
      rw [hf'] at he
      cases gs with
      | nil => simpa [eq_comm] using he
      | cons g gs => cases gs <;> simp at he
    have hold : ((run xs).thread i).frames = [.panic t] ++ .leave e :: a.rest := by
      rw [← hi,ha.frames,ht]
      rfl
    obtain ⟨base,rfl | ⟨hg,-⟩,h⟩ := ih [.panic t] e a.rest hold
    · exact ⟨a.rest,Or.inr ⟨rfl,t,rfl⟩,h.keep hf (Or.inr ⟨rfl,t,rfl⟩)⟩
    · cases hg
  | stay ht hf' => simp [he,Frame.left] at hf'

end

theorem opened_of_leave (i : Nat) (moves : List (Move H)) :
    ∀ gs e fs, ((run moves).thread i).frames = gs ++ .leave e :: fs → Opened i e gs fs moves := by
  induction moves using run_induction with
  | start =>
    intro gs e fs hf
    have hf : [] = gs ++ .leave e :: fs := hf
    simp at hf
  | move xs x ih =>
    intro gs e fs hf
    have hmove := hf
    rw [run_concat] at hmove
    by_cases hn : ((run xs).thread i).frames = []
    · have hl := leaves_move_idle hn x
      rw [hmove] at hl
      simp [Frame.left] at hl
    obtain hm | ⟨a,hy,ha,hi,hm⟩ := act_of_move hn x
    · rw [hm] at hmove
      obtain ⟨base,hb,h⟩ := ih gs e fs hmove
      exact ⟨base,hb,h.keep hf hb⟩
    rw [hm] at hmove
    have hbelow {hs : List (Frame H)} (hr : a.rest = hs ++ .leave e :: fs) :
        Opened i e gs fs (xs ++ [x]) := by
      have hold : ((run xs).thread i).frames = a.taken ++ hs ++ .leave e :: fs := by
        rw [← hi,ha.frames,hr,List.append_assoc]
      obtain ⟨base,hb | ⟨hg,-⟩,h⟩ := ih (a.taken ++ hs) e fs hold
      · exact ⟨base,Or.inl hb,h.keep hf (Or.inl hb)⟩
      · exact absurd (List.append_eq_nil_iff.1 hg).1 ha.deed.taken_ne_nil
    obtain ⟨hs,-,hr⟩ | ⟨hs,he,hr⟩ := List.append_eq_append_iff.1 hmove
    · exact hbelow hr
    cases hs with
    | nil => exact @hbelow [] hr.symm
    | cons f hs =>
      obtain ⟨rfl,rfl⟩ := List.cons.inj hr
      exact opened_of_put hy hi ih he hf

theorem inProgress_iff {moves : List (Move H)} :
    InProgress i e moves ↔ e ∈ ((run moves).thread i).active := by
  rw [(sound_run moves i).active]
  constructor
  · rintro ⟨base,h⟩
    exact mem_leaves_of_under h.under
  · intro h
    obtain ⟨gs,fs,hf⟩ := mem_leaves.1 h
    obtain ⟨base,-,h⟩ := opened_of_leave i moves gs e fs hf
    exact ⟨base,h⟩

/-- The crossings of thread `i` with an act. -/
def crossings (i : Nat) (_ : Machine H) (a : Act H) : List Crossing :=
  if a.thread = i then crossedBy a.taken a.effect.frames else []

theorem crossedBy_of_not_leave {taken frames : List (Frame H)} (ht : leaves taken = []) :
    crossedBy taken frames = (opens? frames).toList.map fun x => .enter x.1 := by
  unfold crossedBy
  split
  · cases ht
  · rfl

theorem opens?_eq_none {fs : List (Frame H)} (h : leaves fs = []) : opens? fs = none := by
  cases ho : opens? fs with
  | none => rfl
  | some x =>
    obtain ⟨gs,rfl⟩ := opens?_eq ho
    simp [Frame.left] at h

theorem crossings_move (hm : ∀ j, (m.thread j).Sound) (i : Nat) (y : Move H) :
    (m.noted (crossings i) y = [] ∧ ((m.move y).thread i).active = (m.thread i).active) ∨
      (∃ e, m.noted (crossings i) y = [.enter e] ∧
        ((m.move y).thread i).active = e :: (m.thread i).active) ∨
      ∃ e, m.noted (crossings i) y = [.exit e] ∧
        (m.thread i).active = e :: ((m.move y).thread i).active := by
  by_cases hi : ∃ a, m.act? y = some a ∧ a.thread = i
  · obtain ⟨a,hy,rfl⟩ := hi
    obtain ⟨hf,hd⟩ := fits_of_act? hy
    rw [noted_of_act? hy,move_of_act? hy,thread_perform_self,crossings,if_pos rfl]
    cases crosses_deed hd with
    | enter x gs post ht hg hp hf' ho ha =>
      refine Or.inr (Or.inl ⟨x,?_,ha⟩)
      rw [crossedBy_of_not_leave ht,ho]
      rfl
    | exit x ht hf' ha =>
      have hact : (m.thread a.thread).active = x :: leaves a.rest := by
        rw [(hm a.thread).active,hf,ht]
        rfl
      refine Or.inr (Or.inr ⟨x,by rw [ht]; rfl,?_⟩)
      simp only [ha,hact]
      rw [List.erase_cons_head]
    | uncover t x ht hf' ha => exact Or.inl ⟨by rw [ht,hf']; rfl,ha⟩
    | stay ht hf' ha =>
      refine Or.inl ⟨?_,ha⟩
      rw [crossedBy_of_not_leave ht,opens?_eq_none hf']
      rfl
  · refine Or.inl ⟨noted_of_others (fun a ha => if_neg ha) hi,?_⟩
    by_cases hn : (m.thread i).frames = []
    · rw [(sound_move hm y i).active,(hm i).active,leaves_move_idle hn,hn]
      rfl
    · rw [thread_move_of_others hi hn]

/-- The executors that a thread is inside of are those that it has entered and not left. -/
theorem nested_run (i : Nat) (moves : List (Move H)) :
    Nested (history (crossings i) moves) ((run moves).thread i).active := by
  induction moves using run_induction with
  | start => exact .nil
  | move xs x ih =>
    rw [history_concat,run_concat]
    obtain ⟨hc,ha⟩ | ⟨e,hc,ha⟩ | ⟨e,hc,ha⟩ := crossings_move (sound_run xs) i x
    · rw [hc,ha,List.append_nil]
      exact ih
    · rw [hc,ha]
      exact .enter e ih
    · rw [ha] at ih
      rw [hc]
      exact .exit ih

end Machine
end EventLoop
