import EventLoop.Proofs.Order
import EventLoop.Proofs.Rounds

/-! Loops on which handlers only submit handlers. Programs submit the first ones, and once the loop
is set up programs only run it. Then every thread that submits, calls or runs a handler is
within a job of the loop, and every job is within a call that runs it. -/
namespace EventLoop

variable {H : Type}

/-- The loop itself or one of its strands. -/
def Executor.On (c : Nat) (ss : Table (Strand H)) : Executor → Prop
  | .loop d => d = c
  | .strand x => x < ss.size ∧ (ss.get x).home = c

def Task.On (c : Nat) (ss : Table (Strand H)) : Task H → Prop
  | .body _ _ => True
  | .bound e t => e.On c ss ∧ t.On c ss

def Job.On (c : Nat) (ss : Table (Strand H)) : Job H → Prop
  | .task t => t.On c ss
  | .turn x => (Executor.strand x).On c ss

def Call.asks : Call H → Bool
  | .isStopped _ | .isInside _ | .counters _ | .ownsWork _ | .strandState _ | .pending _ => true
  | _ => false

def Call.Submits (c : Nat) (ss : Table (Strand H)) : Call H → Prop
  | .post e t | .dispatch e t => e.On c ss ∧ t.On c ss
  | _ => False

/-- What user code may ask for: programs submit handlers until the loop is set up, and run it after
that, and handlers submit handlers. -/
def Call.May (c : Nat) (isSetUp : Bool) (ss : Table (Strand H)) (k : Call H) : Role → Prop
  | .program =>
    k.asks = true ∨ isSetUp = false ∧ k.Submits c ss ∨ isSetUp = true ∧ k = .run c .block none
  | .handler _ => k.asks = true ∨ k.Submits c ss
  | .destructor => False

/-- What may lie on a stack, and above what. -/
def Frame.Allowed (c : Nat) (isSetUp : Bool) (ss : Table (Strand H)) (below : List (Frame H)) :
    Frame H → Prop
  | .call (.post e t) | .call (.dispatch e t) =>
    e.On c ss ∧ t.On c ss ∧ (isSetUp = true → .finish c ∈ below)
  | .call (.invoke t) => isSetUp = true ∧ t.On c ss ∧ .finish c ∈ below
  | .call (.run d w limit) => isSetUp = true ∧ d = c ∧ w = .block ∧ limit = none
  | .call k => k.asks = true
  | .code .program _ _ => True
  | .code (.handler _) _ _ => isSetUp = true ∧ .finish c ∈ below
  | .drain d w limit _ | .asleep d w limit _ | .awake d w limit _ =>
    isSetUp = true ∧ d = c ∧ w = .block ∧ limit = none
  | .runTurn x | .release x => isSetUp = true ∧ (Executor.strand x).On c ss ∧ .finish c ∈ below
  | .tryLock x t =>
    isSetUp = true ∧ (Executor.strand x).On c ss ∧ t.On c ss ∧ .finish c ∈ below
  | .schedule x => (Executor.strand x).On c ss ∧ (isSetUp = true → .finish c ∈ below)
  | .finish d | .finishWork d =>
    isSetUp = true ∧ d = c ∧ ∃ f ∈ below, ∃ ran, f = .drain c .block none ran
  | .leave _ => isSetUp = true
  | .reply _ | .notifyOne _ | .notifyAll _ | .tally _ _ => True
  | _ => False

def StackAllowed (c : Nat) (isSetUp : Bool) (ss : Table (Strand H)) : List (Frame H) → Prop
  | [] => True
  | f :: fs => f.Allowed c isSetUp ss fs ∧ StackAllowed c isSetUp ss fs

/-- Nobody has shut the loop down or holds a guard of it, and whatever waits is bound to it. -/
structure Shared.Allowed (c : Nat) (s : Shared H) : Prop where
  owned : (s.loops.get c).closed = false
  guards : ownedUnits c s.guards = 0
  queue : ∀ j ∈ (s.loops.get c).queue, j.On c s.strands
  waiting : ∀ x, ∀ t ∈ (s.strands.get x).waiting, t.On c s.strands

structure Effect.Allowed (c : Nat) (isSetUp : Bool) (e : Effect H) (rest : List (Frame H)) :
    Prop where
  shared : e.shared.Allowed c
  frames : StackAllowed c isSetUp e.shared.strands (e.frames ++ rest)
  started : e.started = none

section

variable {c me : Nat} {isSetUp : Bool} {s t : Shared H} {active : List Executor}
  {rest : List (Frame H)}

theorem Executor.On.mono {e : Executor} (h : e.On c s.strands) (hg : s.Grows t) :
    e.On c t.strands := by
  cases e with
  | loop d => exact h
  | strand x => exact ⟨Nat.lt_of_lt_of_le h.1 hg.size,(hg.home x h.1).trans h.2⟩

theorem Task.On.mono {u : Task H} (h : u.On c s.strands) (hg : s.Grows t) : u.On c t.strands := by
  induction u with
  | body v given => trivial
  | bound e u ih => exact ⟨h.1.mono hg,ih h.2⟩

theorem Job.On.mono {j : Job H} (h : j.On c s.strands) (hg : s.Grows t) : j.On c t.strands := by
  cases j with
  | task u => exact Task.On.mono h hg
  | turn x => exact Executor.On.mono (e := .strand x) h hg

theorem Frame.Allowed.mono {f : Frame H} {fs : List (Frame H)}
    (h : f.Allowed c isSetUp s.strands fs)
    (hg : s.Grows t) : f.Allowed c isSetUp t.strands fs := by
  cases f with
  | call k =>
    cases k with
    | post e u | dispatch e u => exact ⟨h.1.mono hg,h.2.1.mono hg,h.2.2⟩
    | invoke u => exact ⟨h.1,h.2.1.mono hg,h.2.2⟩
    | _ => exact h
  | code role u made => cases role <;> exact h
  | runTurn x | release x => exact ⟨h.1,h.2.1.mono hg,h.2.2⟩
  | tryLock x u => exact ⟨h.1,h.2.1.mono hg,h.2.2.1.mono hg,h.2.2.2⟩
  | schedule x => exact ⟨h.1.mono hg,h.2⟩
  | _ => exact h

theorem StackAllowed.mono {fs : List (Frame H)} (h : StackAllowed c isSetUp s.strands fs)
    (hg : s.Grows t) :
    StackAllowed c isSetUp t.strands fs := by
  induction fs with
  | nil => trivial
  | cons f fs ih => exact ⟨h.1.mono hg,ih h.2⟩

theorem leaves_of_stackAllowed {ss : Table (Strand H)} {fs : List (Frame H)}
    (h : StackAllowed c false ss fs) :
    leaves fs = [] := by
  induction fs with
  | nil => rfl
  | cons f fs ih =>
    have hl : f.left = [] := by
      cases f with
      | leave e => exact Bool.noConfusion h.1
      | _ => rfl
    simp only [leaves,List.flatMap_cons,hl,List.nil_append]
    exact ih h.2

theorem isSetUp_of_active {ss : Table (Strand H)} {fs : List (Frame H)} {e : Executor}
    (h : StackAllowed c isSetUp ss fs) (ha : active = leaves fs) (he : e ∈ active) :
    isSetUp = true := by
  cases isSetUp with
  | true => rfl
  | false =>
    rw [ha,leaves_of_stackAllowed h] at he
    exact absurd he List.not_mem_nil

theorem grows_onStrand {x : Nat} {f : Strand H → Strand H} (hf : ∀ y, (f y).home = y.home) :
    s.Grows (s.onStrand x f) := ((Shared.Settles.refl s).onStrand hf).toGrows

namespace Shared.Allowed

theorem onLoop (h : s.Allowed c) {d : Nat} {f : Loop H → Loop H}
    (hq : ∀ l, (f l).queue = l.queue) (hc : ∀ l, (f l).closed = l.closed) :
    (s.onLoop d f).Allowed c := by
  have hl : ((s.onLoop d f).loops.get c).queue = (s.loops.get c).queue :=
    Table.read_update Loop.queue hq _ _ _
  have ho : ((s.onLoop d f).loops.get c).closed = (s.loops.get c).closed :=
    Table.read_update Loop.closed hc _ _ _
  refine ⟨ho.trans h.owned,h.guards,?_,h.waiting⟩
  rw [hl]
  exact h.queue

theorem withQueue (h : s.Allowed c) {f : Loop H → Loop H} (hc : ∀ l, (f l).closed = l.closed)
    (hq : ∀ j ∈ (f (s.loops.get c)).queue, j ∈ (s.loops.get c).queue ∨ j.On c s.strands) :
    (s.onLoop c f).Allowed c := by
  have hg : (s.onLoop c f).loops.get c = f (s.loops.get c) := Table.get_update_self _ _ _
  refine ⟨?_,h.guards,?_,h.waiting⟩
  · rw [hg,hc]
    exact h.owned
  · intro j hj
    rw [hg] at hj
    obtain hj | hj := hq j hj
    · exact h.queue j hj
    · exact hj

theorem onStrand (h : s.Allowed c) {x : Nat} {f : Strand H → Strand H}
    (hh : ∀ y, (f y).home = y.home)
    (hw : ∀ u ∈ (f (s.strands.get x)).waiting, u ∈ (s.strands.get x).waiting ∨ u.On c s.strands) :
    (s.onStrand x f).Allowed c := by
  have hg : s.Grows (s.onStrand x f) := grows_onStrand hh
  refine ⟨h.owned,h.guards,fun j hj => (h.queue j hj).mono hg,?_⟩
  intro y u hu
  simp only [Shared.onStrand,Table.get_update] at hu
  split at hu
  · rename_i hx
    subst hx
    obtain hu | hu := hw u hu
    · exact (h.waiting x u hu).mono hg
    · exact hu.mono hg
  · exact (h.waiting y u hu).mono hg

theorem submit (h : s.Allowed c) {x : Nat} {u : Task H} (hu : u.On c s.strands) :
    (s.onStrand x (Strand.submit u)).Allowed c := by
  refine h.onStrand (fun _ => rfl) ?_
  intro v hv
  obtain hv | hv := List.mem_append.1 hv
  · exact Or.inl hv
  · obtain rfl := List.mem_singleton.1 hv
    exact Or.inr hu

end Shared.Allowed

theorem allowed_of_looks {f : Frame H} {d : Nat} {w : Wait} {limit : Option Nat} {ran : Nat}
    (hl : f.Looks me s d w limit ran) (hf : f.Allowed c isSetUp s.strands rest) :
    isSetUp = true ∧ d = c ∧ w = .block ∧ limit = none := by
  cases hl <;> exact hf

theorem on_of_submits {f : Frame H} {d : Nat} {j : Job H} (hq : f.Submits s d j)
    (hf : f.Allowed c isSetUp s.strands rest) : d = c ∧ j.On c s.strands := by
  cases hq with
  | post d u => exact ⟨hf.1,hf.2.1⟩
  | schedule x => exact ⟨hf.1.2,hf.1⟩

theorem allowed_rewrite {f : Frame H} {frames : List (Frame H)} (hr : Rewrite me s active f frames)
    (hs : s.Allowed c) (h : StackAllowed c isSetUp s.strands (f :: rest))
    (ha : active = leaves (f :: rest)) : StackAllowed c isSetUp s.strands (frames ++ rest) := by
  obtain ⟨hf,hrest⟩ := h
  cases hr with
  | destroy hq hc =>
    obtain ⟨rfl,-⟩ := on_of_submits hq hf
    rw [hs.owned] at hc
    cases hc
  | dispatchInside e u he =>
    obtain ⟨-,hu,hm⟩ := hf
    have hp := isSetUp_of_active hrest ha he
    exact ⟨⟨hp,hu,hm hp⟩,hrest⟩
  | dispatchLock x u he hx hl =>
    obtain ⟨hx,hu,hm⟩ := hf
    have hp := isSetUp_of_active hrest ha hl
    exact ⟨⟨hp,hx,hu,hm hp⟩,hrest⟩
  | invokeBody u given => exact ⟨⟨hf.1,hf.2.2⟩,hrest⟩
  | invokeBound e u =>
    obtain ⟨-,hu,hm⟩ := hf
    exact ⟨⟨hu.1,hu.2,fun _ => hm⟩,hrest⟩
  | lockBusy x u =>
    obtain ⟨-,hx,hu,hm⟩ := hf
    exact ⟨⟨hx,hu,fun _ => hm⟩,hrest⟩
  | handOn x =>
    obtain ⟨-,hx,hm⟩ := hf
    exact ⟨⟨hx,fun _ => hm⟩,hrest⟩
  | code | dispatchOutside | run | turnNone => exact ⟨hf,hrest⟩
  | _ => first | exact ⟨trivial,hrest⟩ | exact hf.elim | exact Bool.noConfusion hf

theorem allowed_rule {f : Frame H} {e : Effect H} (hr : Rule me s active f e) (hs : s.Allowed c)
    (h : StackAllowed c isSetUp s.strands (f :: rest)) (ha : active = leaves (f :: rest)) :
    e.Allowed c isSetUp rest := by
  have ⟨hf,hrest⟩ := h
  cases hr with
  | rewrite hr => exact ⟨hs,allowed_rewrite hr hs h ha,rfl⟩
  | enqueue hq =>
    obtain ⟨rfl,hj⟩ := on_of_submits hq hf
    refine ⟨hs.withQueue (fun _ => rfl) ?_,⟨trivial,hrest⟩,rfl⟩
    intro k hk
    obtain hk | hk := List.mem_append.1 hk
    · exact Or.inl hk
    · obtain rfl := List.mem_singleton.1 hk
      exact Or.inr hj
  | postIdle x u =>
    obtain ⟨hx,hu,hm⟩ := hf
    have hg : s.Grows (s.onStrand x (Strand.submit u)) := grows_onStrand fun _ => rfl
    exact ⟨hs.submit hu,⟨⟨hx.mono hg,hm⟩,hrest.mono hg⟩,rfl⟩
  | postBusy x u =>
    exact ⟨hs.submit hf.2.1,hrest.mono (grows_onStrand fun _ => rfl),rfl⟩
  | @take _ d w limit ran hl j js hp =>
    obtain ⟨rfl,rfl,rfl,rfl⟩ := allowed_of_looks hl hf
    have hq := (pick_job hp).2
    have hj := hs.queue j (by simp [hq])
    have hm : .drain d .block none (ran + 1) ∈
        .leave (.loop d) :: .drain d .block none (ran + 1) :: rest := by simp
    refine ⟨hs.withQueue (fun _ => rfl) ?_,
      ⟨?_,⟨rfl,rfl,_,hm,ran + 1,rfl⟩,rfl,⟨rfl,rfl,rfl,rfl⟩,hrest⟩,rfl⟩
    · intro k hk
      exact Or.inl (by simp [hq,hk])
    · cases j <;> exact ⟨rfl,hj,List.mem_cons_self⟩
  | runDry hl =>
    exact ⟨hs.onLoop (fun _ => rfl) fun _ => rfl,⟨trivial,trivial,hrest⟩,rfl⟩
  | sleep hl =>
    exact ⟨hs.onLoop (fun _ => rfl) fun _ => rfl,⟨allowed_of_looks hl hf,hrest⟩,rfl⟩
  | disturb => exact ⟨hs.onLoop (fun _ => rfl) fun _ => rfl,⟨hf,hrest⟩,rfl⟩
  | turn x u us hw =>
    obtain ⟨rfl,hx,hm⟩ := hf
    have hg : s.Grows (s.onStrand x Strand.pop) := grows_onStrand fun _ => rfl
    have hu : u.On c s.strands := hs.waiting x u (by simp [hw])
    refine ⟨hs.onStrand (fun _ => rfl) fun v hv => Or.inl (List.mem_of_mem_tail hv),?_,rfl⟩
    exact ⟨⟨rfl,hu.mono hg,by simp [hm]⟩,rfl,⟨rfl,hx.mono hg,hm⟩,hrest.mono hg⟩
  | lock x u =>
    obtain ⟨rfl,hx,hu,hm⟩ := hf
    have hg : s.Grows (s.onStrand x Strand.lock) := grows_onStrand fun _ => rfl
    refine ⟨hs.onStrand (fun _ => rfl) fun v hv => Or.inl hv,?_,rfl⟩
    exact ⟨⟨rfl,hu.mono hg,by simp [hm]⟩,rfl,⟨rfl,hx.mono hg,hm⟩,hrest.mono hg⟩
  | free x =>
    have hg : s.Grows (s.onStrand x Strand.unlock) := grows_onStrand fun _ => rfl
    exact ⟨hs.onStrand (fun _ => rfl) fun v hv => Or.inl hv,hrest.mono hg,rfl⟩
  | leave e => exact ⟨hs,hrest,rfl⟩
  | finish => exact ⟨hs.onLoop (fun _ => rfl) fun _ => rfl,⟨hf,hrest⟩,rfl⟩
  | finishWork | notifyOne | notifyAll =>
    exact ⟨hs.onLoop (fun _ => rfl) fun _ => rfl,hrest,rfl⟩
  | finishLastWork => exact ⟨hs.onLoop (fun _ => rfl) fun _ => rfl,⟨trivial,hrest⟩,rfl⟩
  | _ => first | exact hf.elim | exact Bool.noConfusion hf

/-- User code does nothing but what it may ask for. -/
structure Obeys (c : Nat) (isSetUp : Bool) (ss : Table (Strand H)) (taken frames : List (Frame H)) :
    Prop where
  calls : ∀ role u made k fs, taken = [.code role u made] → frames = .call k :: fs →
    k.May c isSetUp ss role
  calm : ∀ role u made t fs, taken = [.code role u made] → frames ≠ .panic t :: fs

theorem allowed_of_may {ss : Table (Strand H)} {k : Call H} {role : Role} {u : H} {made : Nat}
    (hk : k.May c isSetUp ss role) (hc : (Frame.code role u made).Allowed c isSetUp ss rest) :
    (Frame.call k).Allowed c isSetUp ss (.code role u (made + 1) :: rest) := by
  have hasks (h : k.asks = true) :
      (Frame.call k).Allowed c isSetUp ss (.code role u (made + 1) :: rest) := by
    cases k with
    | isStopped d | isInside e | counters d | ownsWork g | strandState x | pending r => exact h
    | _ => exact Bool.noConfusion h
  have hsubmits (h : k.Submits c ss) (hf : isSetUp = true → .finish c ∈ rest) :
      (Frame.call k).Allowed c isSetUp ss (.code role u (made + 1) :: rest) := by
    cases k with
    | post e t | dispatch e t => exact ⟨h.1,h.2,fun hp => List.mem_cons_of_mem _ (hf hp)⟩
    | _ => exact h.elim
  cases role with
  | program =>
    obtain h | ⟨hp,h⟩ | ⟨hp,rfl⟩ := hk
    · exact hasks h
    · exact hsubmits h fun hn => Bool.noConfusion (hp.symm.trans hn)
    · exact ⟨hp,rfl,rfl,rfl⟩
  | handler given =>
    obtain h | h := hk
    · exact hasks h
    · exact hsubmits h fun _ => hc.2
  | destructor => exact hk.elim

theorem allowed_deed {taken : List (Frame H)} {e : Effect H} (hd : Deed me s active taken e)
    (hs : s.Allowed c) (h : StackAllowed c isSetUp s.strands (taken ++ rest))
    (ha : active = leaves (taken ++ rest)) (ho : Obeys c isSetUp s.strands taken e.frames) :
    e.Allowed c isSetUp rest := by
  obtain ⟨frames,hshift,rfl⟩ | ⟨f,rfl,hr⟩ := hd.shift_or_rule
  · cases hshift with
    | answer r => exact ⟨hs,h.2,rfl⟩
    | call role u made k =>
      have hk := ho.calls role u made k _ rfl rfl
      refine ⟨hs,⟨allowed_of_may hk h.1,?_,h.2⟩,rfl⟩
      cases role <;> exact h.1
    | finish role u made => exact ⟨hs,h.2,rfl⟩
    | raise role u made t => exact absurd rfl (ho.calm role u made t _ rfl)
    | _ => exact h.1.elim
  · exact allowed_rule hr hs h ha

end

namespace Machine

/-- A move with which user code does nothing but what it may ask for. -/
def Behaves (c : Nat) (isSetUp : Bool) (m : Machine H) : Move H → Prop
  | .raise _ _ => False
  | .call i k =>
    match (m.thread i).frames with
    | .code role _ _ :: _ => k.May c isSetUp m.shared.strands role
    | _ => True
  | _ => True

def Behaving (c : Nat) (isSetUp : Bool) : Machine H → List (Move H) → Prop
  | _, [] => True
  | m, y :: ys => m.Behaves c isSetUp y ∧ Behaving c isSetUp (m.move y) ys

/-- Everybody submits handlers to loop `c` and its strands only, or runs the loop. -/
structure Submitting (c : Nat) (isSetUp : Bool) (m : Machine H) : Prop where
  shared : m.shared.Allowed c
  frames : ∀ i, StackAllowed c isSetUp m.shared.strands (m.thread i).frames

section

variable {c : Nat} {isSetUp : Bool} {m : Machine H} {y : Move H} {a : Act H}

theorem obeys_of_behaves (hb : m.Behaves c isSetUp y) (hy : m.act? y = some a) :
    Obeys c isSetUp m.shared.strands a.taken a.effect.frames := by
  constructor
  · intro role u made k fs ht hk
    obtain he | he | ⟨k',rfl,he⟩ | ⟨t,rfl⟩ := act_of_code hy ht
    · rw [he] at hk
      cases hk
    · rw [he] at hk
      cases hk
    · rw [he] at hk
      cases hk
      have hf := (fits_of_act? hy).frames
      rw [ht] at hf
      simpa [Behaves,hf] using hb
    · exact hb.elim
  · intro role u made t fs ht hp
    obtain he | he | ⟨k,rfl,he⟩ | ⟨t,rfl⟩ := act_of_code hy ht
    · rw [he] at hp
      cases hp
    · rw [he] at hp
      cases hp
    · rw [he] at hp
      cases hp
    · exact hb.elim

/-- Whoever acts takes one frame, which may lie on its stack. -/
theorem Submitting.taken (h : m.Submitting c isSetUp) (ha : a.Fits m) :
    ∃ f : Frame H, a.taken = [f] ∧ f.Allowed c isSetUp m.shared.strands a.rest ∧
      StackAllowed c isSetUp m.shared.strands a.rest := by
  have hs := h.frames a.thread
  rw [ha.frames] at hs
  obtain ⟨f,ht⟩ | ⟨t,f,ht⟩ := ha.deed.taken_cases
  · rw [ht] at hs
    exact ⟨f,ht,hs.1,hs.2⟩
  · rw [ht] at hs
    exact hs.1.elim

theorem submitting_perform (hm : ∀ i, (m.thread i).Sound) (h : m.Submitting c isSetUp)
    (hb : m.Behaves c isSetUp y) (hy : m.act? y = some a) : (m.perform a).Submitting c isSetUp := by
  have ha := fits_of_act? hy
  have hf := h.frames a.thread
  have hl := (hm a.thread).active
  rw [ha.frames] at hf hl
  obtain ⟨hs,hfs,hn⟩ := allowed_deed ha.deed h.shared hf hl (obeys_of_behaves hb hy)
  refine ⟨hs,?_⟩
  intro i
  obtain hi | ⟨o,ho,-⟩ | ⟨-,hi⟩ := thread_perform m a i
  · rw [hi]
    exact hfs
  · rw [hn] at ho
    cases ho
  · rw [hi]
    exact (h.frames i).mono (grows_deed ha.deed)

theorem submitting_happen (h : m.Submitting c isSetUp) (y : Move H) :
    (m.happen y).Submitting c isSetUp := by
  have hg := grows_happen m y
  have hl := ledger_happen c m y
  constructor
  · refine ⟨(congrArg Ledger.closed hl).trans h.shared.owned,
      (congrArg Ledger.guards hl).trans h.shared.guards,?_,?_⟩
    · rw [queue_happen]
      exact fun j hj => (h.shared.queue j hj).mono hg
    · intro x u hu
      refine Task.On.mono (h.shared.waiting x u ?_) hg
      cases y with
      | addStrand home =>
        simp only [happen,mapShared,Table.get_push] at hu
        split at hu
        · exact absurd hu List.not_mem_nil
        · exact hu
      | _ => exact hu
  · intro i
    obtain ⟨u,hi⟩ | hi := thread_happen m y i
    · rw [hi]
      exact ⟨trivial,trivial⟩
    · rw [hi]
      exact (h.frames i).mono hg

theorem submitting_move (hm : ∀ i, (m.thread i).Sound) (h : m.Submitting c isSetUp)
    (hb : m.Behaves c isSetUp y) : (m.move y).Submitting c isSetUp := by
  obtain ⟨a,hy,-,hmove⟩ | ⟨-,hmove⟩ := move_cases m y
  · rw [hmove]
    exact submitting_perform hm h hb hy
  · rw [hmove]
    exact submitting_happen h y

end

theorem submitting_start (c : Nat) : ({} : Machine H).Submitting c false := by
  refine ⟨⟨rfl,rfl,?_,?_⟩,fun i => trivial⟩
  · intro j hj
    exact absurd hj List.not_mem_nil
  · intro x u hu
    exact absurd hu List.not_mem_nil

/-- Every post is over, and every thread has user code to go on with. -/
def IsSetUp (m : Machine H) : Prop :=
  ∀ i, ∀ f ∈ (m.thread i).frames, (∃ u made, f = .code .program u made) ∨ ∃ r, f = .reply r

theorem Submitting.startRun {c : Nat} {m : Machine H} (h : m.Submitting c false) (hp : m.IsSetUp) :
    m.Submitting c true := by
  refine ⟨h.shared,?_⟩
  intro i
  have hi := hp i
  generalize (m.thread i).frames = fs at hi
  induction fs with
  | nil => trivial
  | cons f fs ih =>
    refine ⟨?_,ih fun g hg => hi g (List.mem_cons_of_mem _ hg)⟩
    obtain ⟨u,made,rfl⟩ | ⟨r,rfl⟩ := hi f List.mem_cons_self <;> trivial

end Machine
end EventLoop
