import EventLoop.Proofs.Rule

/-! The discipline of a thread's stack. A thread is inside of a loop or strand exactly as long
as the frame that takes it out again is on its stack, that frame lies directly on the release of
the strand or directly under the finish of the job, and a panic passes over frames that hold
nothing. -/
namespace EventLoop

variable {H : Type}

namespace Frame

/-- The frames on which other frames may lie. -/
def rests : Frame H → Bool
  | .code _ _ _ | .reply _ | .panic _ | .drain _ _ _ _ | .finish _ | .leave _ | .release _
  | .dropTasks _ | .dropJobs _ | .closeReactor _ | .forget _ _ => true
  | _ => false

/-- The frames that wait for user code to go on, for a loop to go on, or for nothing. -/
def idles : Frame H → Bool
  | .call _ | .code _ _ _ | .reply _ | .panic _ | .drain _ _ _ _ | .asleep _ _ _ _
  | .awake _ _ _ _ | .closeReactor _ => true
  | _ => false

def isBeside : Frame H → Bool
  | .operation _ | .withdraw _ _ | .countAbort _ _ => true
  | _ => false

/-- The frames that may lie on whatever rests. -/
def plain : Frame H → Bool
  | .leave _ | .operation _ | .withdraw _ _ | .countAbort _ _ => false
  | _ => true

/-- The frames between the last code of a job of loop `c` and the end of the job. -/
def ends (c : Nat) : Frame H → Bool
  | .panic _ => true
  | .finish d | .finishWork d | .notifyAll d => d = c
  | _ => false

/-- What a frame takes its thread out of. -/
def left : Frame H → List Executor
  | .leave e => [e]
  | _ => []

end Frame

def firstCalm : List (Frame H) → Option (Frame H)
  | [] => none
  | .panic _ :: fs => firstCalm fs
  | f :: _ => some f

def leaves (fs : List (Frame H)) : List Executor := fs.flatMap Frame.left

/-- What has to lie below a frame. -/
def Frame.Over (f : Frame H) (fs : List (Frame H)) : Prop :=
  fs.all Frame.rests = true ∧
    (∀ x, f = .leave (.strand x) → firstCalm fs = some (.release x)) ∧
    (∀ c, firstCalm fs = some (.leave (.loop c)) → f.ends c = true) ∧
    (f.isBeside = true → fs = [])

def Stacked : List (Frame H) → Prop
  | [] => True
  | f :: fs => f.Over fs ∧ Stacked fs

structure Thread.Sound (t : Thread H) : Prop where
  stacked : Stacked t.frames
  active : t.active = leaves t.frames

/-- A stack on which the frames of a call may lie. -/
structure Ground (fs : List (Frame H)) : Prop where
  rests : fs.all Frame.rests = true
  calm : ∀ c, firstCalm fs ≠ some (.leave (.loop c))
  stacked : Stacked fs

def Effect.Lands (e : Effect H) (rest : List (Frame H)) : Prop :=
  Thread.Sound ⟨e.frames ++ rest, e.active⟩

theorem ground_of_over {f : Frame H} {fs : List (Frame H)} (h : Stacked (f :: fs))
    (hf : ∀ c, f.ends c = false) : Ground fs := by
  obtain ⟨⟨hr,-,hc,-⟩,hs⟩ := h
  refine ⟨hr,?_,hs⟩
  intro c hh
  have he := hc c hh
  rw [hf c] at he
  exact Bool.noConfusion he

theorem idles_of_skip {f : Frame H} (hr : f.rests = true) (hs : f.stopsPanic = false)
    (hc : f.cleansUp = false) : f.idles = true := by
  cases f <;> simp_all [Frame.rests,Frame.stopsPanic,Frame.cleansUp,Frame.idles]

theorem stacked_panic {t : String} {fs : List (Frame H)} (hr : fs.all Frame.rests = true)
    (hs : Stacked fs) : Stacked (.panic t :: fs) := by
  refine ⟨⟨hr,?_,fun _ _ => rfl,?_⟩,hs⟩
  · intro x hx
    cases hx
  · intro hb
    exact Bool.noConfusion hb

theorem stacked_cleanUp {t : String} {f : Frame H} {fs : List (Frame H)}
    (h : Stacked (.panic t :: f :: fs)) : Stacked (f :: .panic t :: fs) := by
  obtain ⟨⟨hp,-⟩,⟨hr,hl,hc,-⟩,hs⟩ := h
  refine ⟨⟨hr,hl,hc,?_⟩,stacked_panic hr hs⟩
  intro hb
  cases f with
  | operation o | withdraw o r | countAbort o r => exact Bool.noConfusion hp
  | _ => exact Bool.noConfusion hb

theorem left_of_idles {f : Frame H} (hf : f.idles = true) : f.left = [] := by
  cases f with
  | leave e => exact Bool.noConfusion hf
  | _ => rfl

namespace Ground

variable {f : Frame H} {rest : List (Frame H)}

theorem cons (h : Ground rest) (hf : f.plain = true) : Stacked (f :: rest) := by
  refine ⟨⟨h.rests,?_,fun c hc => absurd hc (h.calm c),?_⟩,h.stacked⟩
  · rintro x rfl
    exact Bool.noConfusion hf
  · intro hb
    cases f with
    | operation o | withdraw o r | countAbort o r => exact Bool.noConfusion hf
    | _ => exact Bool.noConfusion hb

theorem push (h : Ground rest) (hf : f.plain = true) (hr : f.rests = true) :
    Ground (f :: rest) := by
  refine ⟨?_,?_,h.cons hf⟩
  · rw [List.all_cons,hr,h.rests]
    rfl
  · intro c hc
    cases f with
    | panic t => exact h.calm c hc
    | leave e => exact Bool.noConfusion hf
    | _ => cases hc

theorem enterStrand (h : Ground rest) (x : Nat) :
    Ground (.leave (.strand x) :: .release x :: rest) := by
  have hg : Ground (.release x :: rest) := h.push rfl rfl
  refine ⟨hg.rests,?_,⟨hg.rests,?_,fun c hc => absurd hc (hg.calm c),?_⟩,hg.stacked⟩
  · intro c hc
    cases hc
  · intro y hy
    cases hy
    rfl
  · intro hb
    exact Bool.noConfusion hb

theorem enterLoop (h : Ground rest) (c : Nat) : Ground (.finish c :: .leave (.loop c) :: rest) := by
  have hs : Stacked (.leave (.loop c) :: rest) := by
    refine ⟨⟨h.rests,?_,fun d hd => absurd hd (h.calm d),?_⟩,h.stacked⟩
    · intro x hx
      cases hx
    · intro hb
      exact Bool.noConfusion hb
  refine ⟨h.rests,?_,⟨h.rests,?_,?_,?_⟩,hs⟩
  · intro d hd
    cases hd
  · intro x hx
    cases hx
  · intro d hd
    cases hd
    exact decide_eq_true rfl
  · intro hb
    exact Bool.noConfusion hb

end Ground

section

variable {me : Nat} {s : Shared H} {active : List Executor} {rest : List (Frame H)}

theorem lands_shift {taken frames : List (Frame H)} (hs : Shift taken frames)
    (h : Thread.Sound ⟨taken ++ rest, active⟩) :
    Effect.Lands { shared := s, active, frames } rest := by
  obtain ⟨hst,ha⟩ := h
  cases hs with
  | answer r => exact ⟨hst.2,ha⟩
  | die t => exact ⟨hst.2,ha⟩
  | cleanUp t f hc => exact ⟨stacked_cleanUp hst,ha⟩
  | skip t f hs hc =>
    obtain ⟨⟨hp,-⟩,⟨hr,-⟩,hs'⟩ := hst
    have hf : f.rests = true := (Bool.and_eq_true_iff.1 hp).1
    have hl : f.left = [] := left_of_idles (idles_of_skip hf hs hc)
    exact ⟨stacked_panic hr hs',ha.trans (congrArg (· ++ leaves rest) hl)⟩
  | call role u made c =>
    have hg : Ground rest := ground_of_over hst fun _ => rfl
    exact ⟨(hg.push rfl rfl).cons rfl,ha⟩
  | finish role u made => exact ⟨hst.2,ha⟩
  | raise role u made t =>
    have hg : Ground rest := ground_of_over hst fun _ => rfl
    exact ⟨(hg.push rfl rfl).cons rfl,ha⟩
  | pass role u made t =>
    have hg : Ground rest := ground_of_over hst.2 fun _ => rfl
    exact ⟨hg.cons rfl,ha⟩
  | recover role u made t => exact ⟨hst.2,ha⟩

theorem ground_nil : Ground ([] : List (Frame H)) := by
  refine ⟨rfl,?_,trivial⟩
  intro c hc
  cases hc

theorem sound_beside {f : Frame H} (hf : f.isBeside = true) : Thread.Sound ⟨[f], []⟩ := by
  cases f with
  | operation o | withdraw o r | countAbort o r =>
    refine ⟨⟨⟨rfl,?_,?_,fun _ => rfl⟩,trivial⟩,rfl⟩
    · intro x hx
      cases hx
    · intro c hc
      cases hc
  | _ => exact Bool.noConfusion hf

/-- A job that ends goes on to end, even if the thread is about to leave the loop. -/
theorem Frame.Over.ends {f g : Frame H} (h : f.Over rest) (hf : ∀ c, f.ends c = g.ends c)
    (hl : g.left = []) (hb : g.isBeside = false) : g.Over rest := by
  obtain ⟨hr,-,hc,-⟩ := h
  refine ⟨hr,?_,fun c hd => hf c ▸ hc c hd,?_⟩
  · rintro x rfl
    cases hl
  · intro hg
    rw [hb] at hg
    cases hg

theorem lands_rewrite {f : Frame H} {frames : List (Frame H)} (hr : Rewrite me s active f frames)
    (h : Thread.Sound ⟨f :: rest, active⟩) : Thread.Sound ⟨frames ++ rest, active⟩ := by
  have ⟨hst,ha⟩ := h
  have ⟨⟨_,_,_,hb⟩,hs⟩ := hst
  have hg := ground_of_over hst
  cases hr with
  | code | reply | panic => exact h
  | destroy hf => cases hf <;> exact ⟨(hg fun _ => rfl).cons rfl,ha⟩
  | ended hf | overdue hf => cases hf <;> exact ⟨(hg fun _ => rfl).cons rfl,ha⟩
  | guardOpen | guardClosed | dropTasksNil | dropJobsNil | signalNil => exact ⟨hs,ha⟩
  | dropTasksCons | refuse => exact ⟨((hg fun _ => rfl).push rfl rfl).cons rfl,ha⟩
  | dropJobsCons j => cases j <;> exact ⟨((hg fun _ => rfl).push rfl rfl).cons rfl,ha⟩
  | startPanic => exact ⟨(((hg fun _ => rfl).push rfl rfl).push rfl rfl).cons rfl,ha⟩
  | claimLost | heeded | linger =>
    obtain rfl := hb rfl
    obtain rfl : active = [] := ha
    exact sound_beside rfl
  | _ => exact ⟨(hg fun _ => rfl).cons rfl,ha⟩

theorem lands_rule {f : Frame H} {e : Effect H} (hr : Rule me s active f e)
    (h : Thread.Sound ⟨f :: rest, active⟩) : e.Lands rest := by
  have ⟨hst,ha⟩ := h
  have ⟨ho,hs⟩ := hst
  have hg := ground_of_over hst
  cases hr with
  | rewrite hr => exact lands_rewrite hr h
  | enqueue hf | runDry hf | sleep hf =>
    cases hf <;> first
      | exact ⟨(hg fun _ => rfl).cons rfl,ha⟩
      | exact ⟨((hg fun _ => rfl).push rfl rfl).cons rfl,ha⟩
  | take hf j js =>
    cases hf <;> cases j <;>
      exact ⟨(((hg fun _ => rfl).push rfl rfl).enterLoop _).cons rfl,
        congrArg (Executor.loop _ :: ·) ha⟩
  | turn x | lock x =>
    exact ⟨((hg fun _ => rfl).enterStrand x).cons rfl,congrArg (Executor.strand x :: ·) ha⟩
  | leave e =>
    refine ⟨hs,?_⟩
    obtain rfl : active = e :: leaves rest := ha
    exact List.erase_cons_head e _
  | finish | finishLastWork => exact ⟨⟨ho.ends (fun _ => rfl) rfl rfl,hs⟩,ha⟩
  | dropOwner => exact ⟨(((hg fun _ => rfl).push rfl rfl).push rfl rfl).cons rfl,ha⟩
  | expire | cancelAll => exact ⟨((hg fun _ => rfl).push rfl rfl).cons rfl,ha⟩
  | postBusy | restart | openGuard | closeGuard | free | finishWork | closeReactor | notifyOne
  | notifyAll | enlist | enlistFirst | forget => exact ⟨hs,ha⟩
  | claim | withdrawAborted =>
    obtain rfl := ho.2.2.2 rfl
    obtain rfl : active = [] := ha
    exact sound_beside rfl
  | _ => exact ⟨(hg fun _ => rfl).cons rfl,ha⟩

theorem lands_deed {taken : List (Frame H)} {e : Effect H} (hd : Deed me s active taken e)
    (h : Thread.Sound ⟨taken ++ rest, active⟩) : e.Lands rest := by
  obtain ⟨frames,hs,rfl⟩ | ⟨f,rfl,hr⟩ := hd.shift_or_rule
  · exact lands_shift hs h
  · exact lands_rule hr h

end

/-- A frame on which no other may lie is at the top. -/
theorem head_of_mem {f : Frame H} {fs : List (Frame H)} (hs : Stacked fs) (hm : f ∈ fs)
    (hf : f.rests = false) : ∃ gs, fs = f :: gs := by
  cases fs with
  | nil => exact absurd hm List.not_mem_nil
  | cons g gs =>
    obtain ⟨⟨hr,-⟩,-⟩ := hs
    obtain rfl | hm := List.mem_cons.1 hm
    · exact ⟨gs,rfl⟩
    · have hr := List.all_eq_true.1 hr f hm
      rw [hf] at hr
      exact Bool.noConfusion hr

/-- The frames that an act takes off lie below one another. -/
theorem Act.Fits.rests_tail {m : Machine H} {a : Act H} (ha : a.Fits m)
    (hm : ∀ i, (m.thread i).Sound) : a.taken.tail.all Frame.rests = true := by
  have h := (hm a.thread).stacked
  rw [ha.frames] at h
  cases ht : a.taken with
  | nil => rfl
  | cons f fs =>
    rw [ht] at h
    obtain ⟨⟨hr,-⟩,-⟩ := h
    simp only [List.append_eq,List.all_append,Bool.and_eq_true] at hr
    exact hr.1

namespace Machine

theorem sound_move {m : Machine H} (hm : ∀ i, (m.thread i).Sound) (x : Move H) (i : Nat) :
    ((m.move x).thread i).Sound := by
  obtain ⟨a,-,⟨hf,hd⟩,hmove⟩ | ⟨-,hmove⟩ := move_cases m x
  · rw [hmove]
    obtain h | ⟨o,-,h⟩ | ⟨-,h⟩ := thread_perform m a i
    · rw [h]
      exact lands_deed hd ⟨hf ▸ (hm a.thread).stacked,hf ▸ (hm a.thread).active⟩
    · rw [h]
      exact sound_beside rfl
    · rw [h]
      exact hm i
  · rw [hmove]
    obtain ⟨u,h⟩ | h := thread_happen m x i
    · rw [h]
      exact ⟨ground_nil.cons rfl,rfl⟩
    · rw [h]
      exact hm i

/-- Every thread of every run keeps the discipline. -/
theorem sound_run (moves : List (Move H)) : ∀ i, ((run moves).thread i).Sound := by
  induction moves using run_induction with
  | start => exact fun i => ⟨trivial,rfl⟩
  | move xs x ih =>
    rw [run_concat]
    exact sound_move ih x

end Machine
end EventLoop
