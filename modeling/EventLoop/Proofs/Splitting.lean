import EventLoop.Proofs.Conduct
import Mathlib.Algebra.Ring.Nat

/-! How the work of a loop is split into calls does not matter. Whoever calls, for how many jobs and
with how much patience, the thread serves the loop one job after the other, and there is one way to
do so as far as the stop of the loop. Main statement: `splits_alike`. -/
namespace EventLoop

variable {H μ : Type}

/-- The calls of the run family that know no deadline. -/
inductive Visit
  | run | runOne | poll | pollOne
  /-- So many calls that take one job each. -/
  | runTimes (n : Nat)
  deriving DecidableEq, Repr

/-- How long each call waits, and how many jobs it takes at most. -/
def Visit.calls : Visit → List (Wait × Option Nat)
  | .run => [(.block,none)]
  | .runOne => [(.block,some 1)]
  | .poll => [(.poll,none)]
  | .pollOne => [(.poll,some 1)]
  | .runTimes n => List.replicate n (.block,some 1)

def Wait.timed : Wait → Bool
  | .deadline _ => true
  | _ => false

/-- What a thread begins that looks for work on loop `c`, with the number of jobs that it takes: the
next job, or the stop of a loop that has nothing left to do. -/
def Lane.look (c : Nat) (x : Lane H μ) : Option (Nat × Lane H μ) :=
  match (x.shared.loops.get c).pick with
  | .job j rest =>
    some (1,x.put []
      { shared := x.shared.onLoop c fun l => { l with queue := rest }
        active := .loop c :: x.active
        frames := [Frame.execute j,.finish c,.leave (.loop c)] } x.memory)
  | .dry =>
    some (0,x.put []
      { shared := x.shared.onLoop c Loop.stop, active := x.active, frames := [.notifyAll c] }
      x.memory)
  | _ => none

namespace Conduct

/-- Thread `i` has begun a call of the run family, and goes on until its code has the result. -/
inductive Plays (k : Conduct H μ) (i : Nat) (base : List (Frame H)) :
    Machine H → μ → List (Move H) → Nat → μ → Prop
  | take {m : Machine H} {a : μ} {n : Nat}
      (hf : (m.thread i).frames = .reply (.count n) :: base) : Plays k i base m a [.receive i] n a
  | go {m : Machine H} {a b d : μ} {y : Move H} {us : List (Move H)} {n : Nat}
      (hr : ∀ r, (m.thread i).frames ≠ .reply r :: base) (hy : k.Goes i m a y b)
      (h : Plays k i base (m.move y) b us n d) : Plays k i base m a (y :: us) n d

/-- Code of thread `i` calls into loop `c` time after time, and gets these results. -/
inductive Visits (k : Conduct H μ) (c i : Nat) :
    Machine H → μ → List (Wait × Option Nat) → List (Move H) → List Nat → μ → Prop
  | nil {m : Machine H} {a : μ} : Visits k c i m a [] [] [] a
  | cons {m : Machine H} {a b d : μ} {w : Wait} {limit : Option Nat}
      {ps : List (Wait × Option Nat)} {us vs : List (Move H)} {n : Nat} {ns : List Nat}
      {role : Role} {h : H} {made : Nat} {rest : List (Frame H)}
      (hf : (m.thread i).frames = .code role h made :: rest) (hw : w.timed = false)
      (hp : Plays k i (.code role h (made + 1) :: rest) (m.move (.call i (.run c w limit))) a us
        n b)
      (hv : Visits k c i ((m.move (.call i (.run c w limit))).after us) b ps vs ns d) :
      Visits k c i m a ((w,limit) :: ps) (.call i (.run c w limit) :: (us ++ vs)) (n :: ns) d

def isBack (depth : Nat) : List (Frame H) → Bool
  | .reply _ :: rest => rest.length = depth
  | _ => false

/-- At most so many moves of thread `i`, as far as a result that lies on so many frames, with the
machine and the memory after them. -/
def play (k : Conduct H μ) (i depth : Nat) : Nat → Machine H → μ → List (Move H) × Machine H × μ
  | 0, m, a => ([],m,a)
  | n + 1, m, a =>
    if isBack depth (m.thread i).frames then ([],m,a)
    else
      match k.choice? i m a with
      | none => ([],m,a)
      | some (y,b) => (y :: (play k i depth n (m.move y) b).1,(play k i depth n (m.move y) b).2)

/-- The thread serves loop `c` one job after the other, in however many calls. -/
inductive Serves (k : Conduct H μ) (c i : Nat) : Lane H μ → Nat → Lane H μ → Prop
  | rest {x : Lane H μ} (hx : x.frames = []) : Serves k c i x 0 x
  | go {x z : Lane H μ} {n : Nat} (hx : x.frames ≠ []) (h : Serves k c i (k.advance i x) n z) :
      Serves k c i x n z
  | look {x y z : Lane H μ} {n p : Nat} (hx : x.frames = []) (hl : x.look c = some (n,y))
      (h : Serves k c i y p z) : Serves k c i x (n + p) z

section

variable {k : Conduct H μ} {c i : Nat} {m : Machine H} {a b d : μ} {x y z : Lane H μ}
  {base : List (Frame H)} {log : List (Task H)} {n p : Nat}

theorem Plays.of_play (f : Nat)
    (hr : ((k.play i base.length f m a).2.1.thread i).frames = .reply (.count n) :: base) :
    Plays k i base m a ((k.play i base.length f m a).1 ++ [.receive i]) n
      (k.play i base.length f m a).2.2 := by
  induction f generalizing m a with
  | zero => exact .take hr
  | succ f ih =>
    unfold play at hr ⊢
    by_cases hb : isBack base.length (m.thread i).frames = true
    · rw [if_pos hb] at hr ⊢
      exact .take hr
    rw [if_neg hb] at hr ⊢
    have hn : ∀ r, (m.thread i).frames ≠ .reply r :: base := by
      intro r hr
      exact hb (by rw [hr]; exact decide_eq_true rfl)
    cases hy : k.choice? i m a with
    | none =>
      simp only [hy] at hr
      exact absurd hr (hn _)
    | some next =>
      simp only [hy] at hr ⊢
      exact .go hn (.own hy) (ih hr)

theorem Serves.append (h : Serves k c i x n y) (h' : Serves k c i y p z) :
    Serves k c i x (n + p) z := by
  induction h with
  | rest hx => rwa [Nat.zero_add]
  | go hx _ ih => exact .go hx (ih h')
  | look hx hl _ ih =>
    rw [Nat.add_assoc]
    exact .look hx hl (ih h')

theorem Serves.frames (h : Serves k c i x n y) : y.frames = [] := by
  induction h with
  | rest hx => exact hx
  | go _ _ ih | look _ _ _ ih => exact ih

theorem look_of_stopped (hx : (x.shared.loops.get c).stopped = true) : x.look c = none := by
  simp [Lane.look,Loop.pick,hx]

/-- There is one way to the stop of the loop. -/
theorem Serves.unique (h : Serves k c i x n y) (h' : Serves k c i x p z)
    (hy : (y.shared.loops.get c).stopped = true) (hz : (z.shared.loops.get c).stopped = true) :
    n = p ∧ y = z := by
  induction h generalizing p with
  | rest hx =>
    cases h' with
    | rest => exact ⟨rfl,rfl⟩
    | go hn => exact absurd hx hn
    | look _ hl => cases (look_of_stopped hy).symm.trans hl
  | go hn _ ih =>
    cases h' with
    | rest hx => exact absurd hx hn
    | go _ h => exact ih h hy
    | look hx => exact absurd hx hn
  | look hx hl _ ih =>
    cases h' with
    | rest => cases (look_of_stopped hz).symm.trans hl
    | go hn => exact absurd hx hn
    | look _ hl' h =>
      cases hl.symm.trans hl'
      obtain ⟨rfl,rfl⟩ := ih h hy
      exact ⟨rfl,rfl⟩

variable {us : List (Move H)} {mv : Move H} {r : Nat} {w : Wait} {limit : Option Nat}

theorem Shows.clock (hx : Shows i base m a log x) (t : Instant) :
    Shows i base (m.move (.clock t)) a (log ++ m.noted Machine.called (.clock t)) x :=
  ⟨hx.shared,hx.frames,hx.active,hx.memory,(List.append_nil log).trans hx.called⟩

theorem Shows.goes (hx : Shows i base m a log x) (hb : base.head?.any Frame.isCode = false)
    (hs : x.frames.all Frame.steady = true) (hn : x.frames ≠ []) (hy : k.Goes i m a mv b) :
    Shows i base (m.move mv) b (log ++ m.noted Machine.called mv) x ∨
      Shows i base (m.move mv) b (log ++ m.noted Machine.called mv) (k.advance i x) := by
  cases hy with
  | own h => exact Or.inr (hx.own hb hs hn h)
  | wake hf =>
    obtain ⟨f,rest,hr⟩ := List.exists_cons_of_ne_nil hn
    rw [hx.frames,hr] at hf
    obtain ⟨rfl,-⟩ := List.cons.inj hf
    rw [hr] at hs
    exact Bool.noConfusion hs
  | clock t => exact Or.inl (hx.clock t)

theorem Plays.returns (h : Plays k i base m a us n b)
    (hx : Shows i (.reply (.count r) :: base) m a log x) (hs : x.frames.all Frame.steady = true) :
    n = r ∧ ∃ z, Serves k c i x 0 z ∧
      Shows i base (m.after us) b (log ++ Machine.notes Machine.called m us) z := by
  induction h generalizing x log with
  | @take m a n hf =>
    obtain ⟨shared,active,frames,memory,called⟩ := x
    have hf' := hx.frames.symm.trans hf
    obtain rfl : frames = [] := by simpa using congrArg List.length hf'
    obtain rfl : a = memory := hx.memory
    cases hf'
    have hy : m.act? (.receive i) = some ⟨i,[.reply (.count r)],[] ++ base,m.only i []⟩ := by
      simp [Machine.act?,Machine.receiveAct?,hf]
    exact ⟨rfl,_,.rest rfl,by simpa [Machine.notes] using hx.reply hy a⟩
  | go hr hy _ ih =>
    have hn : x.frames ≠ [] := by
      intro hn
      apply hr (.count r)
      rw [hx.frames,hn]
      rfl
    rw [Machine.notes,← List.append_assoc]
    obtain hx | hx := hx.goes rfl hs hn hy
    · exact ih hx hs
    · obtain ⟨hr,z,hz,hx⟩ := ih hx (steady_advance hs)
      exact ⟨hr,z,.go hn hz,hx⟩

def Waits (c i : Nat) (base : List (Frame H)) (m : Machine H) : Prop :=
  (m.shared.loops.get c).pick = .idle ∧ ∃ f limit ran, (m.thread i).frames = f :: base ∧
    (f = .asleep c .block limit ran ∨ f = .awake c .block limit ran)

theorem Waits.of_act {limit : Option Nat} {ran : Nat} {f : Frame H} {e : Effect H}
    {g : Loop H → Loop H} (hp : (m.shared.loops.get c).pick = .idle)
    (hm : m.act? mv = some ⟨i,[f],base,e⟩) (hg : ∀ l, (g l).pick = l.pick)
    (hs : e.shared = m.shared.onLoop c g)
    (he : e.frames = [.asleep c .block limit ran] ∨ e.frames = [.awake c .block limit ran]) :
    Waits c i base (m.move mv) := by
  rw [Machine.move_of_act? hm]
  have ht := Machine.thread_perform_self m ⟨i,[f],base,e⟩
  refine ⟨?_,?_⟩
  · rw [Machine.shared_perform,hs]
    simpa [Shared.onLoop,hg] using hp
  · obtain he | he := he
    · exact ⟨_,limit,ran,by rw [ht,he]; rfl,Or.inl rfl⟩
    · exact ⟨_,limit,ran,by rw [ht,he]; rfl,Or.inr rfl⟩

theorem seek_of_idle {s : Shared H} {active : List Executor}
    (hp : (s.loops.get c).pick = .idle) : Frame.seek i s active c .block limit r =
      { shared := s.onLoop c (Loop.sleep i), active, frames := [.asleep c .block limit r] } := by
  simp [Frame.seek,hp,Wait.isOver]

theorem Waits.goes (hd : Waits c i base m) (hy : k.Goes i m a mv b) :
    Waits c i base (m.move mv) := by
  obtain ⟨hp,f,limit,ran,hf,hk⟩ := hd
  cases hy with
  | clock t => exact ⟨hp,f,limit,ran,hf,hk⟩
  | own h =>
    obtain rfl | rfl := hk
    · cases (choice?_step hf rfl).symm.trans h
      by_cases hs : i ∈ (m.shared.loops.get c).sleepers
      · have hm : m.act? (.step i) = none := by
          simp [Machine.act?,Machine.stepAct?,hf,Frame.sleeps,hs]
        rw [Machine.move_of_act?_none hm]
        exact ⟨hp,_,limit,ran,hf,Or.inl rfl⟩
      · have hm : m.act? (.step i) = some ⟨i,[.asleep c .block limit ran],base,
            Frame.seek i m.shared (m.thread i).active c .block limit ran⟩ := by
          simp [Machine.act?,Machine.stepAct?,hf,Frame.sleeps,hs,Frame.step]
        rw [seek_of_idle hp] at hm
        exact .of_act (g := Loop.sleep i) hp hm (fun _ => rfl) rfl (Or.inl rfl)
    · cases (choice?_step hf rfl).symm.trans h
      have hm := Machine.act?_step hf rfl
      rw [Frame.step,seek_of_idle hp] at hm
      exact .of_act (g := Loop.sleep i) hp hm (fun _ => rfl) rfl (Or.inl rfl)
  | wake hf' =>
    obtain rfl | rfl := hk
    · by_cases hs : i ∈ (m.shared.loops.get c).sleepers
      · have hm : m.act? (.disturb i) = some ⟨i,[.asleep c .block limit ran],base,
            { m.only i [.awake c .block limit ran] with
              shared := m.shared.onLoop c (Loop.awaken i) }⟩ := by
          simp [Machine.act?,Machine.disturbAct?,hf,hs]
        exact .of_act (g := Loop.awaken i) hp hm (fun _ => rfl) rfl (Or.inr rfl)
      · have hm : m.act? (.disturb i) = none := by simp [Machine.act?,Machine.disturbAct?,hf,hs]
        rw [Machine.move_of_act?_none hm]
        exact ⟨hp,_,limit,ran,hf,Or.inl rfl⟩
    · cases hf.symm.trans hf'

theorem Plays.not_waits (h : Plays k i base m a us n b) : ¬Waits c i base m := by
  induction h with
  | take hf =>
    rintro ⟨-,f,limit,ran,hf',hk⟩
    cases hf.symm.trans hf'
    simp at hk
  | go _ hy _ ih => exact fun hd => ih (hd.goes hy)

theorem Shows.below {fs gs rest taken : List (Frame H)} (hx : Shows i fs m a log x)
    (hn : x.frames = []) (hy : m.act? mv = some ⟨i,taken,rest,m.only i gs⟩)
    (hg : calledBy gs = []) :
    Shows i (gs ++ rest) (m.move mv) a (log ++ m.noted Machine.called mv) x := by
  obtain ⟨shared,active,frames,memory,called⟩ := x
  obtain rfl : frames = [] := hn
  obtain rfl : a = memory := hx.memory
  have h := hx.only hy (List.nil_append _).symm a
  rwa [hg,List.append_nil] at h

theorem Shows.swap {f g : Frame H} (hx : Shows i (f :: base) m a log x) (hn : x.frames = [])
    (hf : f.executes = true)
    (he : f.step i m.shared (m.thread i).active = m.only i [g]) (hg : calledBy [g] = []) :
    Shows i (g :: base) (m.move (.step i)) a (log ++ m.noted Machine.called (.step i)) x := by
  have hm : (m.thread i).frames = f :: base := by rw [hx.frames,hn]; rfl
  have hy := Machine.act?_step hm hf
  rw [he] at hy
  exact hx.below hn hy hg

/-- What comes of one look for work: the call returns, or a job begins, or the loop stops, or the
thread sleeps. -/
theorem Shows.drain (hx : Shows i (.drain c w limit r :: base) m a log x) (hn : x.frames = [])
    (hw : w.timed = false) :
    Shows i (.reply (.count r) :: base) (m.move (.step i)) a
        (log ++ m.noted Machine.called (.step i)) x ∨
      (∃ y, x.look c = some (1,y) ∧ y.frames.all Frame.steady = true ∧
        Shows i (.drain c w limit (r + 1) :: base) (m.move (.step i)) a
          (log ++ m.noted Machine.called (.step i)) y) ∨
      (∃ y, x.look c = some (0,y) ∧ y.frames.all Frame.steady = true ∧
        Shows i (.reply (.count r) :: base) (m.move (.step i)) a
          (log ++ m.noted Machine.called (.step i)) y) ∨
      Waits c i base (m.move (.step i)) := by
  have hs : x.shared.loops.get c = m.shared.loops.get c := by rw [← hx.shared]; rfl
  have hm : (m.thread i).frames = .drain c w limit r :: base := by rw [hx.frames,hn]; rfl
  by_cases hl : limit.any (· ≤ r) = true
  · exact Or.inl (hx.swap hn rfl (if_pos hl) rfl)
  have hk : (Frame.drain c w limit r).step i m.shared (m.thread i).active =
      Frame.seek i m.shared (m.thread i).active c w limit r := if_neg hl
  have hy := Machine.act?_step hm rfl
  rw [hk] at hy
  cases hp : (m.shared.loops.get c).pick with
  | ended =>
    refine Or.inl (hx.swap hn rfl ?_ rfl)
    rw [hk,Frame.seek,hp]
    rfl
  | job j rest =>
    refine Or.inr (Or.inl ⟨_,by rw [Lane.look,hs,hp],?_,?_⟩)
    · cases j <;> rfl
    · rw [Frame.seek,hp] at hy
      have h := hx.act (l := [Frame.execute j,.finish c,.leave (.loop c)]) hy rfl a
      rw [Lane.put,← hx.shared,← hx.active,← hx.memory]
      cases j <;> exact h
  | dry =>
    refine Or.inr (Or.inr (Or.inl ⟨_,by rw [Lane.look,hs,hp],rfl,?_⟩))
    rw [Frame.seek,hp] at hy
    rw [Lane.put,← hx.shared,← hx.active,← hx.memory]
    exact hx.act (l := [Frame.notifyAll c]) hy rfl a
  | idle =>
    by_cases ho : w.isOver m.shared.now = true
    · refine Or.inl (hx.swap hn rfl ?_ rfl)
      simp [hk,Frame.seek,hp,ho,Machine.only]
    · obtain rfl : w = .block := by cases w <;> simp_all [Wait.isOver,Wait.timed]
      rw [seek_of_idle hp] at hy
      refine Or.inr (Or.inr (Or.inr ?_))
      exact .of_act (g := Loop.sleep i) hp hy (fun _ => rfl) rfl (Or.inl rfl)

/-- A call serves the loop for a while, and its result is the number of the jobs. -/
theorem Plays.serves (h : Plays k i base m a us n b) (hw : w.timed = false)
    (hx : Shows i (.drain c w limit r :: base) m a log x) (hs : x.frames.all Frame.steady = true) :
    ∃ p z, Serves k c i x p z ∧ n = r + p ∧
      Shows i base (m.after us) b (log ++ Machine.notes Machine.called m us) z := by
  induction h generalizing x r log with
  | @take m a n hf =>
    have hf := hx.frames.symm.trans hf
    have hn : x.frames = [] := by simpa using congrArg List.length hf
    rw [hn] at hf
    cases hf
  | @go m a b d mv us n hr hy h ih =>
    rw [Machine.notes,← List.append_assoc]
    by_cases hn : x.frames = []
    · have hm : (m.thread i).frames = .drain c w limit r :: base := by rw [hx.frames,hn]; rfl
      cases hy with
      | wake hf => cases hm.symm.trans hf
      | clock t => exact ih (hx.clock t) hs
      | own hc =>
        cases (choice?_step hm rfl).symm.trans hc
        obtain hx | ⟨y,hl,hs,hy⟩ | ⟨y,hl,hs,hy⟩ | hd := hx.drain hn hw
        · obtain ⟨hp,z,hz,hx⟩ := h.returns hx hs
          exact ⟨0,z,hz,hp,hx⟩
        · obtain ⟨p,z,hz,hp,hx⟩ := ih hy hs
          exact ⟨1 + p,z,.look hn hl hz,by omega,hx⟩
        · obtain ⟨hp,z,hz,hx⟩ := h.returns hy hs
          exact ⟨0,z,.look hn hl hz,hp,hx⟩
        · exact absurd hd h.not_waits
    · obtain hx | hx := hx.goes rfl hs hn hy
      · exact ih hx hs
      · obtain ⟨p,z,hz,hp,hx⟩ := ih hx (steady_advance hs)
        exact ⟨p,z,.go hn hz,hp,hx⟩

/-- A call of the run family, as seen by the code that makes it. -/
theorem Plays.runs (h : Plays k i base m a us n b) (hw : w.timed = false)
    (hx : Shows i (.call (.run c w limit) :: base) m a log x) (hn : x.frames = []) :
    ∃ z, Serves k c i x n z ∧
      Shows i base (m.after us) b (log ++ Machine.notes Machine.called m us) z := by
  induction h generalizing log with
  | take hf =>
    have hf := hx.frames.symm.trans hf
    rw [hn] at hf
    cases hf
  | go _ hy h ih =>
    rw [Machine.notes,← List.append_assoc]
    have hm := hx.frames
    rw [hn,List.nil_append] at hm
    cases hy with
    | wake hf => cases hm.symm.trans hf
    | clock t => exact ih (hx.clock t)
    | own hc =>
      cases (choice?_step hm rfl).symm.trans hc
      have hx := hx.swap hn rfl rfl rfl
      obtain ⟨p,z,hz,hp,hx⟩ := h.serves hw hx (by rw [hn]; rfl)
      rw [Nat.zero_add] at hp
      exact ⟨z,hp ▸ hz,hx⟩

/-- However many calls there are, the thread serves the loop, and the results are the jobs. -/
theorem Visits.serves {ps : List (Wait × Option Nat)} {ns : List Nat}
    (h : Visits k c i m a ps us ns b) (hx : Shows i base m a log x) (hn : x.frames = []) :
    ∃ z fs, Serves k c i x ns.sum z ∧
      Shows i fs (m.after us) b (log ++ Machine.notes Machine.called m us) z := by
  induction h generalizing x log base with
  | nil => exact ⟨x,base,.rest hn,by simpa [Machine.notes] using hx⟩
  | @cons m a b d w limit ps us vs n ns role h made rest hf hw hp _ ih =>
    have hy := hx.below hn (Machine.act?_call hf (.run c w limit)) rfl
    obtain ⟨y,hy,hz⟩ := hp.runs hw hy hn
    obtain ⟨z,fs,hz,hx⟩ := ih hz hy.frames
    refine ⟨z,fs,hy.append hz,?_⟩
    simpa [Machine.notes,Machine.notes_append,Machine.after_append] using hx

end

/-- What two ways to go on from a machine have in common. -/
structure Alike (i : Nat) (m : Machine H) (us vs : List (Move H)) : Prop where
  /-- The same handlers are called in the same order. -/
  called : Machine.notes Machine.called m us = Machine.notes Machine.called m vs
  /-- Every loop ends with the same queue, outstanding work and counters. -/
  loops : (m.after us).shared.loops = (m.after vs).shared.loops
  strands : (m.after us).shared.strands = (m.after vs).shared.strands
  guards : (m.after us).shared.guards = (m.after vs).shared.guards
  registries : (m.after us).shared.registries = (m.after vs).shared.registries
  timers : (m.after us).shared.timers = (m.after vs).shared.timers
  active : ((m.after us).thread i).active = ((m.after vs).thread i).active

/-- It does not matter how the work of a loop is split into calls. Two sequences of calls that one
thread makes from the same start, with handlers that always do the same where everything is the
same, do the same if both come to the stop of the loop. -/
theorem splits_alike (k : Conduct H μ) {c i : Nat} {m : Machine H} {a b d : μ}
    {es fs : List Visit} {us vs : List (Move H)} {ns ps : List Nat}
    (hu : Visits k c i m a (es.flatMap Visit.calls) us ns b)
    (hv : Visits k c i m a (fs.flatMap Visit.calls) vs ps d)
    (hs : ((m.after us).shared.loops.get c).stopped = true)
    (ht : ((m.after vs).shared.loops.get c).stopped = true) :
    Alike i m us vs ∧ ns.sum = ps.sum ∧ b = d := by
  have hx : Shows i (m.thread i).frames m a []
      ⟨m.shared.timeless,(m.thread i).active,[],a,[]⟩ := ⟨rfl,rfl,rfl,rfl,rfl⟩
  obtain ⟨y,gs,hy,hus⟩ := hu.serves hx rfl
  obtain ⟨z,ls,hz,hvs⟩ := hv.serves hx rfl
  have hs : (y.shared.loops.get c).stopped = true := by rw [← hus.shared]; exact hs
  have ht : (z.shared.loops.get c).stopped = true := by rw [← hvs.shared]; exact ht
  obtain ⟨hn,rfl⟩ := hy.unique hz hs ht
  obtain ⟨hl,hst,hg,hr,htm,-⟩ := Shared.mk.inj (hus.shared.trans hvs.shared.symm)
  have hc := hus.called.trans hvs.called.symm
  have ha := hus.active.trans hvs.active.symm
  exact ⟨⟨hc,hl,hst,hg,hr,htm,ha⟩,hn,hus.memory.trans hvs.memory.symm⟩

/-- Five handlers: the first starts the second on a strand at once, posts the third behind it and
holds a guard; the second posts the fourth, which posts the last, which lets go of the guard. -/
def errands : Conduct Nat Nat where
  next a _ _ h made :=
    match h, made with
    | 0, 0 => (.call (.dispatch (.strand 0) (.body 1 none)) rfl,a)
    | 0, 1 => (.call (.post (.strand 0) (.body 2 none)) rfl,a)
    | 0, 2 => (.call (.openGuard 0) rfl,a)
    | 1, 0 => (.call (.post (.strand 0) (.body 3 none)) rfl,a)
    | 2, 0 => (.call (.isInside (.strand 0)) rfl,a)
    | 3, 0 => (.call (.post (.loop 0) (.body 4 none)) rfl,a)
    | 4, 0 => (.call (.closeGuard 0) rfl,a)
    | _, _ => (.finish,a)
  hear a r := if r = .flag true then a + 1 else a

def errandsQueued : Machine Nat :=
  { shared :=
      { loops := ⟨[{ queue := [.task (.body 0 none)], outstanding := 1 }]⟩
        strands := ⟨[{}]⟩
        guards := ⟨[{}]⟩ }
    threads := ⟨[{ frames := [.code .program 5 0] }]⟩ }

set_option maxRecDepth 2000 in
theorem splits_alike_errands : ∃ us vs b d,
    Visits errands 0 0 errandsQueued 0 ([Visit.run].flatMap Visit.calls) us [4] b ∧
    Visits errands 0 0 errandsQueued 0
      ([Visit.pollOne,.runTimes 2,.run,.poll].flatMap Visit.calls) vs [1,1,1,1,0] d ∧
    ((errandsQueued.after us).shared.loops.get 0).stopped = true ∧
    ((errandsQueued.after vs).shared.loops.get 0).stopped = true ∧
    Alike 0 errandsQueued us vs ∧ [4].sum = [1,1,1,1,0].sum ∧ b = d := by
  obtain ⟨us,b,hu,hs⟩ : ∃ us b,
      Visits errands 0 0 errandsQueued 0 ([Visit.run].flatMap Visit.calls) us [4] b ∧
      ((errandsQueued.after us).shared.loops.get 0).stopped = true :=
    ⟨_,_,.cons rfl rfl (.of_play 99 rfl) .nil,rfl⟩
  obtain ⟨vs,d,hv,ht⟩ : ∃ vs d, Visits errands 0 0 errandsQueued 0
      ([Visit.pollOne,.runTimes 2,.run,.poll].flatMap Visit.calls) vs [1,1,1,1,0] d ∧
      ((errandsQueued.after vs).shared.loops.get 0).stopped = true :=
    ⟨_,_,.cons rfl rfl (.of_play 99 rfl) (.cons rfl rfl (.of_play 99 rfl)
      (.cons rfl rfl (.of_play 99 rfl) (.cons rfl rfl (.of_play 99 rfl)
      (.cons rfl rfl (.of_play 99 rfl) .nil)))),rfl⟩
  exact ⟨us,vs,b,d,hu,hv,hs,ht,splits_alike errands hu hv hs ht⟩

end Conduct
end EventLoop
