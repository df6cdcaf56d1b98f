import EventLoop.Proofs.Growth
import EventLoop.Proofs.Nesting
import EventLoop.Proofs.Progress

/-! What comes of a dispatch. It calls its handler before it returns or it posts the handler, and
what lies on the stack until then decides nothing else about the handler. -/
namespace EventLoop

variable {H : Type}

/-- How many times a task is bound, which tells it from the tasks inside of it. -/
def Task.layers : Task H → Nat
  | .body _ _ => 0
  | .bound _ t => t.layers + 1

/-- What a dispatch decides about its handler. -/
inductive Decision (H : Type)
  | tried (x : Nat) (locked : Bool)
  | ran (t : Task H)
  | sent (e : Executor) (t : Task H)

/-- What comes of the dispatch of task `t` by a thread that is inside of `active`. -/
inductive Decides (active : List Executor) (home : Nat → Nat) (t : Task H) :
    Executor → List (Decision H) → Prop
  | inside {e : Executor} (h : e ∈ active) : Decides active home t e [.ran t]
  | outside {c : Nat} (h : .loop c ∉ active) :
      Decides active home t (.loop c) [.sent (.loop c) t]
  | away {x : Nat} (h : .strand x ∉ active) (hh : .loop (home x) ∉ active) :
      Decides active home t (.strand x) [.sent (.strand x) t]
  | free {x : Nat} (h : .strand x ∉ active) (hh : .loop (home x) ∈ active) :
      Decides active home t (.strand x) [.tried x false, .ran t]
  | busy {x : Nat} (h : .strand x ∉ active) (hh : .loop (home x) ∈ active) :
      Decides active home t (.strand x) [.tried x true, .sent (.strand x) t]

namespace Frame

/-- What a strand leaves below a handler that is called at once. -/
def guards : Frame H → Bool
  | .leave _ | .release _ => true
  | _ => false

def guardOrPanic : Frame H → Bool
  | .leave _ | .release _ | .panic _ => true
  | _ => false

/-- The frames that decide nothing about a task with `n` layers when they are at the top. -/
def decidesNothing (n : Nat) : Frame H → Bool
  | .code _ _ _ | .dropTasks _ | .dropTurn _ | .schedule _ | .notifyOne _ => true
  | .call (.invoke t) | .call (.dispatch _ t) | .call (.post _ t) | .tryLock _ t => t.layers < n
  | _ => false

/-- The frames that leave nothing to decide about a task with `n` layers when they are executed. -/
def settles (n : Nat) : Frame H → Bool
  | .leave _ | .release _ | .call (.post _ _) => true
  | .call (.invoke t) => t.layers ≤ n
  | f => f.decidesNothing n

end Frame

/-- What is decided about a task with `n` layers when these frames are executed. -/
def decidedBy (n : Nat) (s : Shared H) : List (Frame H) → List (Decision H)
  | [.tryLock x t] => if t.layers = n then [.tried x (s.strands.get x).locked] else []
  | [.call (.invoke t)] => if t.layers = n then [.ran t] else []
  | [.call (.post e t)] => if t.layers = n then [.sent e t] else []
  | _ => []

/-- Nothing more is decided with these frames at the top: the lowest that is more than a guard or a
panic decides nothing. -/
def Quiet (n : Nat) (fs : List (Frame H)) : Prop :=
  fs.all Frame.guardOrPanic = true ∨ ∃ gs f hs, fs = gs ++ f :: hs ∧ f.decidesNothing n = true ∧
    hs.all Frame.guardOrPanic = true

section

variable {n me : Nat} {s : Shared H} {active : List Executor} {f : Frame H} {fs : List (Frame H)}

theorem quiet_nil : Quiet n ([] : List (Frame H)) := Or.inl rfl

theorem quiet_of_decidesNothing (gs : List (Frame H)) (hf : f.decidesNothing n = true) :
    Quiet n (gs ++ [f]) :=
  Or.inr ⟨gs,f,[],rfl,hf,rfl⟩

theorem Quiet.append (h : Quiet n fs) {hs : List (Frame H)} (hh : hs.all Frame.guardOrPanic = true) :
    Quiet n (fs ++ hs) := by
  obtain hf | ⟨gs,f,ks,rfl,hs',hk⟩ := h
  · exact Or.inl (by rw [List.all_append,hf,hh]; rfl)
  · exact Or.inr ⟨gs,f,ks ++ hs,by simp,hs',by rw [List.all_append,hk,hh]; rfl⟩

theorem Frame.settles_of_decidesNothing (hf : f.decidesNothing n = true) : f.settles n = true := by
  cases f with
  | call k =>
    cases k with
    | invoke t => exact decide_eq_true (Nat.le_of_lt (of_decide_eq_true hf))
    | post e t => rfl
    | _ => exact hf
  | leave e | release x => rfl
  | _ => exact hf

theorem quiet_rewrite {frames : List (Frame H)} (hr : Rewrite me s active f frames)
    (hf : f.settles n = true) : Quiet n frames := by
  cases hr with
  | code role h made => exact quiet_of_decidesNothing [] rfl
  | @destroy _ c j hs => cases j <;> exact quiet_of_decidesNothing [] rfl
  | invokeBody h given => exact quiet_of_decidesNothing [] rfl
  | invokeBound e t => exact quiet_of_decidesNothing [] hf
  | dispatchInside e t | dispatchLock x t | dispatchOutside e t | lockBusy x t =>
    exact quiet_of_decidesNothing [] hf
  | handOn x => exact quiet_of_decidesNothing [] rfl
  | dropTasksNil => exact quiet_nil
  | dropTasksCons t ts => exact quiet_of_decidesNothing [.code .destructor t.core 0] rfl
  | ended hl | overdue hl => cases hl <;> cases hf
  | _ => cases hf

theorem quiet_rule {e : Effect H} (hr : Rule me s active f e) (hf : f.settles n = true) :
    Quiet n e.frames := by
  cases hr with
  | rewrite h => exact quiet_rewrite h hf
  | enqueue hs => exact quiet_of_decidesNothing [] rfl
  | postIdle x t => exact quiet_of_decidesNothing [] rfl
  | lock x t => exact Or.inr ⟨[],.call (.invoke t),[.leave (.strand x), .release x],rfl,hf,rfl⟩
  | dropTurn x => exact quiet_of_decidesNothing [] rfl
  | postBusy x t | free x | leave e | notifyOne c => exact quiet_nil
  | take hl | runDry hl | sleep hl => cases hl <;> cases hf
  | _ => cases hf

theorem quiet_deed {e : Effect H} (hd : Deed me s active [f] e) (hf : f.settles n = true) :
    Quiet n e.frames := by
  obtain ⟨frames,hs,rfl⟩ | hr := hd.rule_of_singleton
  · cases hs with
    | call role h made k => exact quiet_of_decidesNothing [.call k] rfl
    | raise role h made t => exact quiet_of_decidesNothing [.panic t] rfl
    | finish role h made => exact quiet_nil
    | _ => cases hf
  · exact quiet_rule hr hf

theorem quiet_panic {t : String} {e : Effect H} (hd : Deed me s active [.panic t] e) :
    Quiet n e.frames := by
  generalize ht : [Frame.panic t] = taken at hd
  cases hd with
  | shift hs =>
    cases hs with
    | die u => exact quiet_nil
    | _ => cases ht
  | step f =>
    obtain rfl := List.singleton_inj.1 ht
    exact Or.inl rfl
  | _ => cases ht

theorem quiet_unwind {t : String} {e : Effect H} (hd : Deed me s active [.panic t, f] e)
    (hf : f.guardOrPanic = true ∨ f.decidesNothing n = true) : Quiet n e.frames := by
  obtain he | ⟨-,he⟩ | ⟨-,he⟩ := hd.panic_cases
  · exact he ▸ Or.inl rfl
  · rw [he]
    obtain hf | hf := hf
    · exact Or.inl (by simp [hf])
    · exact quiet_of_decidesNothing [] hf
  · rw [he]
    obtain hf | hf := hf
    · exact Or.inl (by rw [List.all_cons,hf]; rfl)
    · exact Or.inr ⟨[],f,[.panic t],rfl,hf,rfl⟩

theorem decidedBy_of_decidesNothing (hf : f.decidesNothing n = true) : decidedBy n s [f] = [] := by
  cases f with
  | call k =>
    cases k with
    | invoke t | post e t => exact if_neg (Nat.ne_of_lt (of_decide_eq_true hf))
    | _ => rfl
  | tryLock x t => exact if_neg (Nat.ne_of_lt (of_decide_eq_true hf))
  | _ => rfl

theorem guardOrPanic_of_guards (h : fs.all Frame.guards = true) :
    fs.all Frame.guardOrPanic = true := by
  rw [List.all_eq_true] at h ⊢
  intro f hf
  have hg := h f hf
  cases f <;> first | rfl | cases hg

theorem guards_of_decidesNothing (hf : f.decidesNothing n = true) : f.guards = false := by
  cases f <;> first | rfl | cases hf

end

namespace Machine

/-- What thread `i` decides with an act about a task with `n` layers when nothing but guards lies on
the frames of the given depth. -/
def decisions (i depth n : Nat) (m : Machine H) (a : Act H) : List (Decision H) :=
  if a.thread = i ∧ (a.rest.take (a.rest.length - depth)).all Frame.guards = true then
    decidedBy n m.shared a.taken
  else []

/-- Up to the last move at most thread `i` has not come back to `below`. -/
def Lasts (i : Nat) (below : List (Frame H)) : Machine H → List (Move H) → Prop
  | _, [] => True
  | m, y :: ys => ¬ Back below (m.thread i).frames ∧ Lasts i below (m.move y) ys

variable {m : Machine H} {i n : Nat} {below : List (Frame H)}

theorem decisions_above {a : Act H} (hi : a.thread = i) {gs : List (Frame H)}
    (hr : a.rest = gs ++ below) :
    m.decisions i below.length n a =
      if gs.all Frame.guards = true then decidedBy n m.shared a.taken else [] := by
  simp [decisions,hi,hr]

theorem quiet_act_of_guardOrPanic {fs : List (Frame H)} (hfs : fs.all Frame.guardOrPanic = true)
    {a : Act H}
    (hd : Deed a.thread m.shared (m.thread a.thread).active a.taken a.effect) (hi : a.thread = i)
    (hf : a.taken ++ a.rest = fs ++ below) (hb : ¬ Back below (fs ++ below)) :
    m.decisions i below.length n a = [] ∧
      ∃ gs, a.effect.frames ++ a.rest = gs ++ below ∧ Quiet n gs := by
  cases fs with
  | nil => exact absurd (Or.inl rfl) hb
  | cons g gs =>
    obtain ⟨hg,hgs⟩ := Bool.and_eq_true_iff.1 hfs
    obtain ⟨k,ht⟩ | ⟨t,k,ht⟩ := hd.taken_cases
    · obtain ⟨rfl,hr⟩ : k = g ∧ a.rest = gs ++ below := by simpa [ht] using hf
      rw [ht] at hd
      refine ⟨?_,a.effect.frames ++ gs,by simp [hr],Quiet.append ?_ hgs⟩
      · rw [decisions_above hi hr,ht]
        cases k <;> first | exact ite_self _ | cases hg
      · cases k with
        | panic t => exact quiet_panic hd
        | leave e | release x => exact quiet_deed hd rfl
        | _ => cases hg
    · cases gs with
      | nil =>
        obtain ⟨rfl,-⟩ : .panic t = g ∧ k :: a.rest = below := by simpa [ht] using hf
        exact absurd (Or.inr ⟨t,rfl⟩) hb
      | cons l gs =>
        obtain ⟨-,rfl,hr⟩ : .panic t = g ∧ k = l ∧ a.rest = gs ++ below := by simpa [ht] using hf
        obtain ⟨hk,hgs⟩ := Bool.and_eq_true_iff.1 hgs
        rw [ht] at hd
        refine ⟨?_,a.effect.frames ++ gs,by simp [hr],(quiet_unwind hd (Or.inl hk)).append hgs⟩
        rw [decisions_above hi hr,ht]
        exact ite_self _

theorem quiet_act_of_decidesNothing {gs hs : List (Frame H)} {f : Frame H}
    (hd0 : f.decidesNothing n = true)
    (hh : hs.all Frame.guardOrPanic = true) {a : Act H}
    (hd : Deed a.thread m.shared (m.thread a.thread).active a.taken a.effect) (hi : a.thread = i)
    (hf : a.taken ++ a.rest = gs ++ f :: (hs ++ below)) :
    m.decisions i below.length n a = [] ∧
      ∃ gs, a.effect.frames ++ a.rest = gs ++ below ∧ Quiet n gs := by
  have hp (t : String) : f ≠ .panic t := by
    rintro rfl
    cases hd0
  obtain ⟨ks,hr⟩ | ⟨hr,ht | ⟨t,ht⟩⟩ := taken_over hp hd hf
  · refine ⟨?_,a.effect.frames ++ (ks ++ f :: hs),by simp [hr],?_⟩
    · have hr : a.rest = (ks ++ f :: hs) ++ below := by rw [hr,List.append_assoc,List.cons_append]
      rw [decisions_above hi hr]
      exact if_neg (by simp [guards_of_decidesNothing hd0])
    · exact Or.inr ⟨a.effect.frames ++ ks,f,hs,by simp,hd0,hh⟩
  · rw [ht] at hd
    have hq := quiet_deed hd (Frame.settles_of_decidesNothing hd0)
    refine ⟨?_,a.effect.frames ++ hs,by simp [hr],hq.append hh⟩
    rw [decisions_above hi hr,ht,decidedBy_of_decidesNothing hd0]
    exact ite_self _
  · rw [ht] at hd
    refine ⟨?_,a.effect.frames ++ hs,by simp [hr],(quiet_unwind hd (Or.inr hd0)).append hh⟩
    rw [decisions_above hi hr,ht]
    exact ite_self _

theorem quiet_act {fs : List (Frame H)} (hq : Quiet n fs) {a : Act H} (ha : a.Fits m)
    (hi : a.thread = i)
    (hf : a.taken ++ a.rest = fs ++ below) (hb : ¬ Back below (fs ++ below)) :
    m.decisions i below.length n a = [] ∧
      ∃ gs, a.effect.frames ++ a.rest = gs ++ below ∧ Quiet n gs := by
  obtain hfs | ⟨gs,f,hs,rfl,hd0,hh⟩ := hq
  · exact quiet_act_of_guardOrPanic hfs ha.2 hi hf hb
  · rw [List.append_assoc,List.cons_append] at hf
    exact quiet_act_of_decidesNothing hd0 hh ha.2 hi hf

/-- How far a dispatch of task `t` to executor `e` by a thread with the frames `below` has come, by
what it has decided and by the stack. -/
inductive Course (home : Nat → Nat) (t : Task H) (e : Executor) (below : List (Frame H)) :
    List (Decision H) → List (Frame H) → Prop
  | asked : Course home t e below [] (.call (.dispatch e t) :: below)
  | trying (x : Nat) (he : e = .strand x) (hs : .strand x ∉ leaves below)
      (hh : .loop (home x) ∈ leaves below) : Course home t e below [] (.tryLock x t :: below)
  | calling {ds : List (Decision H)} (gs : List (Frame H)) (hg : gs.all Frame.guards = true)
      (h : Decides (leaves below) home t e (ds ++ [.ran t])) :
      Course home t e below ds (.call (.invoke t) :: (gs ++ below))
  | posting {ds : List (Decision H)} (e' : Executor)
      (h : Decides (leaves below) home t e (ds ++ [.sent e' t])) :
      Course home t e below ds (.call (.post e' t) :: below)
  | decided {ds : List (Decision H)} (fs : List (Frame H)) (hq : Quiet t.layers fs)
      (h : Decides (leaves below) home t e ds) : Course home t e below ds (fs ++ below)

section

variable {home : Nat → Nat} {t : Task H} {e : Executor} {ds : List (Decision H)}

theorem exists_decides (active : List Executor) (home : Nat → Nat) (t : Task H) (e : Executor) :
    ∃ ds, Decides active home t e ds := by
  by_cases h : e ∈ active
  · exact ⟨_,.inside h⟩
  · cases e with
    | loop c => exact ⟨_,.outside h⟩
    | strand x =>
      by_cases hh : .loop (home x) ∈ active
      · exact ⟨_,.free h hh⟩
      · exact ⟨_,.away h hh⟩

theorem not_back_of_head {f : Frame H} (hf : ∀ t, f ≠ .panic t) (gs : List (Frame H)) :
    ¬ Back below (f :: (gs ++ below)) := by
  rintro (h | ⟨t,h⟩)
  · have hl := congrArg List.length h
    simp only [List.length_cons,List.length_append] at hl
    omega
  · exact hf t (List.cons.inj h).1

theorem Course.decides {fs : List (Frame H)} (h : Course home t e below ds fs) :
    ∃ ds', Decides (leaves below) home t e ds' ∧ ds <+: ds' ∧ (Back below fs → ds = ds') := by
  cases h with
  | asked =>
    obtain ⟨ds',hd⟩ := exists_decides (leaves below) home t e
    exact ⟨ds',hd,List.nil_prefix,fun hb => absurd hb (not_back_of_head (by simp) [])⟩
  | trying x he hs hh =>
    subst he
    exact ⟨_,.free hs hh,List.nil_prefix,fun hb => absurd hb (not_back_of_head (by simp) [])⟩
  | calling gs hg hd =>
    exact ⟨_,hd,List.prefix_append _ _,fun hb => absurd hb (not_back_of_head (by simp) gs)⟩
  | posting e' hd =>
    exact ⟨_,hd,List.prefix_append _ _,fun hb => absurd hb (not_back_of_head (by simp) [])⟩
  | decided fs hq hd => exact ⟨ds,hd,List.prefix_refl _,fun _ => rfl⟩

def HasHome (home : Nat → Nat) (e : Executor) (s : Shared H) : Prop :=
  ∀ x, e = .strand x → x < s.strands.size ∧ (s.strands.get x).home = home x

theorem HasHome.mono {s s' : Shared H} (h : HasHome home e s) (hg : s.Grows s') :
    HasHome home e s' := by
  intro x hx
  obtain ⟨hs,hh⟩ := h x hx
  exact ⟨Nat.lt_of_lt_of_le hs hg.size,(hg.home x hs).trans hh⟩

theorem course_asked {me : Nat} {s : Shared H} (hs : HasHome home e s) :
    Course home t e below []
      ((Frame.step me s (leaves below) (.call (.dispatch e t))).frames ++ below) := by
  cases e with
  | loop c =>
    simp only [Frame.step,Frame.stepCall]
    split
    · next h => exact .calling [] rfl (.inside h)
    · next h => exact .posting (.loop c) (.outside h)
  | strand x =>
    obtain ⟨hx,hh⟩ := hs x rfl
    simp only [Frame.step,Frame.stepCall]
    split
    · next h => exact .calling [] rfl (.inside h)
    · next h =>
      split
      · next hl => exact .trying x rfl h (hh ▸ hl.2)
      · next hl => exact .posting (.strand x) (.away h fun hm => hl ⟨hx,hh ▸ hm⟩)

theorem course_trying {me x : Nat} {s : Shared H} {active : List Executor}
    (hs : .strand x ∉ leaves below) (hh : .loop (home x) ∈ leaves below) :
    Course home t (.strand x) below [.tried x (s.strands.get x).locked]
      ((Frame.step me s active (.tryLock x t)).frames ++ below) := by
  cases hl : (s.strands.get x).locked with
  | true =>
    simp only [Frame.step,hl,if_true]
    exact .posting (.strand x) (.busy hs hh)
  | false =>
    simp only [Frame.step,hl]
    exact .calling [.leave (.strand x), .release x] rfl (.free hs hh)

theorem course_act (h : Course home t e below ds (m.thread i).frames) (hm : (m.thread i).Sound)
    (hs : HasHome home e m.shared) (hb : ¬ Back below (m.thread i).frames) {a : Act H} (ha : a.Fits m)
    (hi : a.thread = i) :
    Course home t e below (ds ++ m.decisions i below.length t.layers a)
      (a.effect.frames ++ a.rest) := by
  have hf := ha.frames
  have hd := ha.deed
  rw [hi] at hf hd
  have htop {f : Frame H} {gs : List (Frame H)} (hp : f.proceeds = true)
      (hg : (m.thread i).frames = f :: (gs ++ below)) (hgs : gs.all Frame.guards = true) :
      a.effect = f.step i m.shared (m.thread i).active ∧ a.rest = gs ++ below ∧
        m.decisions i below.length t.layers a = decidedBy t.layers m.shared [f] := by
    obtain ⟨ht,hr,he⟩ := ha.eq_step (hi ▸ hg) hp
    rw [hi] at he
    refine ⟨he,hr,?_⟩
    rw [decisions_above hi hr,if_pos hgs,ht]
  generalize hfs : (m.thread i).frames = fs at h
  cases h with
  | asked =>
    obtain ⟨he,hr,hdec⟩ := @htop _ [] rfl hfs rfl
    have hact : (m.thread i).active = leaves below := by rw [hm.active,hfs]; rfl
    rw [hdec,he,hr,hact]
    exact course_asked hs
  | trying x hx hstr hh =>
    subst hx
    obtain ⟨he,hr,hdec⟩ := @htop _ [] rfl hfs rfl
    rw [hdec,he,hr,decidedBy,if_pos rfl]
    exact course_trying hstr hh
  | calling gs hg hdc =>
    obtain ⟨he,hr,hdec⟩ := htop rfl hfs hg
    have hq : Quiet t.layers (Frame.step i m.shared (m.thread i).active (.call (.invoke t))).frames :=
      quiet_rule (.step _ rfl) (decide_eq_true (Nat.le_refl _))
    rw [hdec,he,hr,decidedBy,if_pos rfl,← List.append_assoc]
    exact .decided _ (hq.append (guardOrPanic_of_guards hg)) hdc
  | posting e' hdc =>
    obtain ⟨he,hr,hdec⟩ := @htop _ [] rfl hfs rfl
    rw [hdec,he,hr,decidedBy,if_pos rfl]
    exact .decided _ (quiet_rule (.step _ rfl) rfl) hdc
  | decided fs hq hdc =>
    rw [hfs] at hb hf
    obtain ⟨hdec,gs,hg,hq⟩ := quiet_act hq ha hi hf.symm hb
    rw [hdec,hg,List.append_nil]
    exact .decided gs hq hdc

theorem Course.ne_nil {fs : List (Frame H)} (h : Course home t e below ds fs)
    (hb : ¬ Back below fs) :
    fs ≠ [] := by
  rintro rfl
  generalize hg : ([] : List (Frame H)) = gs at h hb
  cases h with
  | decided fs hq hd =>
    have hg := List.append_eq_nil_iff.1 hg.symm
    exact hb (Or.inl (by rw [hg.1,List.nil_append]))
  | _ => cases hg

theorem course_move (h : Course home t e below ds (m.thread i).frames) (hm : (m.thread i).Sound)
    (hs : HasHome home e m.shared) (hb : ¬ Back below (m.thread i).frames) (y : Move H) :
    Course home t e below (ds ++ m.noted (decisions i below.length t.layers) y)
      ((m.move y).thread i).frames := by
  by_cases hi : ∃ a, m.act? y = some a ∧ a.thread = i
  · obtain ⟨a,hy,hi⟩ := hi
    have hc := course_act h hm hs hb (fits_of_act? hy) hi
    subst hi
    rw [noted_of_act? hy,move_of_act? hy,thread_perform_self]
    exact hc
  · rw [noted_of_others (fun a ha => if_neg fun h => ha h.1) hi,thread_move_of_others hi (h.ne_nil hb),
      List.append_nil]
    exact h

theorem course_after {ys : List (Move H)} (h : Course home t e below ds (m.thread i).frames)
    (hm : ∀ j, (m.thread j).Sound) (hs : HasHome home e m.shared) (hl : Lasts i below m ys) :
    Course home t e below (ds ++ notes (decisions i below.length t.layers) m ys)
      ((m.after ys).thread i).frames := by
  induction ys generalizing m ds with
  | nil =>
    rw [notes,List.append_nil]
    exact h
  | cons y ys ih =>
    obtain ⟨hb,hl⟩ := hl
    have hc := course_move h (hm i) hs hb y
    have hc := ih hc (sound_move hm y) (hs.mono (grows_move m y)) hl
    rw [List.append_assoc] at hc
    exact hc

end

/-- What holds of the executors that thread `i` is inside of, and of what it dispatches. -/
structure Nests (i : Nat) (moves : List (Move H)) : Prop where
  /-- A thread is inside of the executors that the frames on its stack leave, in this order. -/
  active : ((run moves).thread i).active = leaves ((run moves).thread i).frames
  /-- These are the executors that it has entered and not left, the last one first. -/
  nested : Nested (history (crossings i) moves) ((run moves).thread i).active
  /-- Whoever leaves an executor leaves the one that was entered last. -/
  popped : ∀ e rest, ((run moves).thread i).frames = .leave e :: rest →
    ((run moves).thread i).active = e :: leaves rest ∧
      (run (moves ++ [.step i])).thread i = ⟨rest, leaves rest⟩
  /-- A call that is over, by returning or by a panic, has left the executors as it found them. -/
  kept : ∀ k below, ((run moves).thread i).frames = .call k :: below → ∀ ys,
    (Back below ((run (moves ++ ys)).thread i).frames ∨
      ∃ r, ((run (moves ++ ys)).thread i).frames = .reply r :: below) →
    ((run (moves ++ ys)).thread i).active = ((run moves).thread i).active
  inProgress : ∀ e, e ∈ ((run moves).thread i).active ↔ InProgress i e moves
  /-- Code is told that it runs inside of an executor when a handler of that is in progress. -/
  answered : ∀ e below, ((run moves).thread i).frames = .call (.isInside e) :: below →
    ∃ b, ((run (moves ++ [.step i])).thread i).frames = .reply (.flag b) :: below ∧
      (b = true ↔ InProgress i e moves)
  /-- A dispatch calls its handler once before it returns, or it posts the handler once. -/
  dispatched : ∀ e t below, ((run moves).thread i).frames = .call (.dispatch e t) :: below →
    (∀ x, e = .strand x → x < (run moves).shared.strands.size) →
    ∀ ys, Lasts i below (run moves) ys → ∃ ds,
      Decides ((run moves).thread i).active (fun x => ((run moves).shared.strands.get x).home) t e ds ∧
      notes (decisions i below.length t.layers) (run moves) ys <+: ds ∧
      (Back below ((run (moves ++ ys)).thread i).frames →
        notes (decisions i below.length t.layers) (run moves) ys = ds)

theorem leaves_of_back {fs : List (Frame H)} (h : Back below fs) : leaves fs = leaves below := by
  obtain rfl | ⟨t,rfl⟩ := h <;> rfl

theorem nests_run (i : Nat) (moves : List (Move H)) : Nests i moves where
  active := (sound_run moves i).active
  nested := nested_run i moves
  popped e rest hf := by
    have ha := (sound_run moves i).active
    rw [hf] at ha
    refine ⟨ha,?_⟩
    rw [run_concat,thread_move_step hf rfl,Frame.step,ha]
    simp [Frame.left]
  kept k below hf ys hb := by
    have ha := (sound_run moves i).active
    rw [hf] at ha
    rw [(sound_run _ i).active,ha]
    obtain hb | ⟨r,hr⟩ := hb
    · have hl := leaves_of_back hb
      exact hl
    · rw [hr]
      rfl
  inProgress e := inProgress_iff.symm
  answered e below hf := by
    refine ⟨decide (e ∈ ((run moves).thread i).active),?_,?_⟩
    · rw [run_concat,thread_move_step hf rfl]
      rfl
    · rw [decide_eq_true_iff,inProgress_iff]
  dispatched e t below hf hx ys hl := by
    have hact : ((run moves).thread i).active = leaves below := by
      rw [(sound_run moves i).active,hf]
      rfl
    have hc : Course (fun x => ((run moves).shared.strands.get x).home) t e below []
        ((run moves).thread i).frames := by
      rw [hf]
      exact .asked
    have hc := course_after hc (sound_run moves) (fun x he => ⟨hx x he,rfl⟩) hl
    rw [hact,run_append]
    exact hc.decides

end Machine
end EventLoop
