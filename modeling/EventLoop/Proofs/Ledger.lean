import EventLoop.Proofs.StrandCounts

/-! What a loop counts as outstanding, and what there is to count. `Ledger.Step` lists every way
in which a unit of work comes, moves on and is given back. -/
namespace EventLoop

variable {H : Type}

open Table (weigh)

/-- The units of work that a guard holds for loop `c`. -/
def Guard.units (c : Nat) (g : Guard) : Nat := if g.owns = true ∧ g.home = c then 1 else 0

def ownedUnits (c : Nat) (gs : Table Guard) : Nat := gs.total (Guard.units c)

theorem ownedUnits_update (c : Nat) (gs : Table Guard) (g : Nat) (f : Guard → Guard) :
    ownedUnits c (gs.update g f) + (gs.get g).units c =
      ownedUnits c gs + (f (gs.get g)).units c :=
  Table.total_update (f := Guard.units c) rfl gs g f

namespace Frame

/-- Jobs of loop `c` that are taken and have not given their unit of work back. -/
def jobs (c : Nat) : Frame H → Nat
  | .finish d | .finishWork d => if d = c then 1 else 0
  | _ => 0

/-- Operations of loop `c` that have brought a unit of work and whose handler is not queued. -/
def flights (c : Nat) : Frame H → Nat
  | .enlist o | .operation o | .withdraw o _ | .countAbort o _ | .complete o _ =>
    if o.home = c then 1 else 0
  | _ => 0

/-- Owners of loop `c` that are about to close its reactor. -/
def closings (c : Nat) : Frame H → Nat
  | .closeReactor d => if d = c then 1 else 0
  | _ => 0

end Frame

/-- Whether the reactor of a loop is shut down. -/
def Loop.lacksReactor (l : Loop H) : Bool :=
  match l.reactor with
  | .closed => true
  | _ => false

/-- The units of work of a loop, and what brought them. -/
structure Ledger where
  outstanding : Nat
  stopped : Bool
  closed : Bool
  reactorClosed : Bool
  queued : Nat
  jobs : Nat
  guards : Nat
  flights : Nat
  closings : Nat

namespace Ledger

def less (v : Ledger) : Ledger :=
  { v with
    outstanding := v.outstanding - 1
    stopped := v.stopped || decide (v.outstanding - 1 = 0) }

/-- What a change does to the units of work of a loop, with how many operations begin, complete
and are cut short because the reactor does not start, and whether a thread asks for the stop. -/
inductive Step (v v' : Ledger) : Nat → Nat → Nat → Bool → Prop
  | keep (h : v' = v) : Step v v' 0 0 0 false
  | enqueue (h : v' = { v with outstanding := v.outstanding + 1, queued := v.queued + 1 }) :
      Step v v' 0 0 0 false
  | take (n : Nat) (hq : v.queued = n + 1)
      (h : v' = { v with queued := n, jobs := v.jobs + 1 }) : Step v v' 0 0 0 false
  | endJob (n : Nat) (hj : v.jobs = n + 1) (h : v' = { v.less with jobs := n }) :
      Step v v' 0 0 0 false
  | openGuard (h : v' = { v with outstanding := v.outstanding + 1, guards := v.guards + 1 }) :
      Step v v' 0 0 0 false
  | closeGuard (n : Nat) (hg : v.guards = n + 1) (h : v' = { v.less with guards := n }) :
      Step v v' 0 0 0 false
  | begin (h : v' = { v with outstanding := v.outstanding + 1, flights := v.flights + 1 }) :
      Step v v' 1 0 0 false
  | complete (n : Nat) (hf : v.flights = n + 1)
      (h : v' = { v with queued := v.queued + if v.closed then 0 else 1, flights := n }) :
      Step v v' 0 1 0 false
  | cutShort (n : Nat) (hf : v.flights = n + 1) (h : v' = { v with flights := n }) :
      Step v v' 0 0 1 false
  | abandon (n : Nat) (hr : v.reactorClosed = true) (hf : v.flights = n + 1)
      (h : v' = { v with flights := n }) : Step v v' 0 0 0 false
  | runDry (hq : v.queued = 0) (ho : v.outstanding = 0) (h : v' = { v with stopped := true }) :
      Step v v' 0 0 0 false
  | stop (h : v' = { v with stopped := true }) : Step v v' 0 0 0 true
  | restart (h : v' = { v with stopped := false }) : Step v v' 0 0 0 false
  | close
      (h : v' = { v with
        outstanding := 0, stopped := true, closed := true, queued := 0,
        closings := v.closings + 1 }) : Step v v' 0 0 0 false
  | closeReactor (n : Nat) (hn : v.closings = n + 1)
      (h : v' = { v with reactorClosed := true, closings := n }) : Step v v' 0 0 0 false
  | forsake (n : Nat) (hn : v.closings = n + 1) (h : v' = { v with closings := n }) :
      Step v v' 0 0 0 false

/-- A loop is closed by one change only. -/
theorem Step.eq_close {v v' : Ledger} {b d k : Nat} {halted : Bool} (h : Step v v' b d k halted)
    (ho : v.closed = false) (hc : v'.closed = true) :
    v' = { v with
      outstanding := 0, stopped := true, closed := true, queued := 0,
      closings := v.closings + 1 } := by
  cases h with
  | close h => exact h
  | keep h | enqueue h | take n hq h | endJob n hj h | openGuard h | closeGuard n hg h | begin h
  | complete n hf h | cutShort n hf h | abandon n hr hf h | runDry hq hn h | stop h | restart h
  | closeReactor n hn h | forsake n hn h =>
    subst h
    exact absurd (ho.symm.trans hc) Bool.false_ne_true

def add (v : Ledger) (jobs flights closings : Nat) : Ledger :=
  { v with
    jobs := v.jobs + jobs
    flights := v.flights + flights
    closings := v.closings + closings }

theorem Step.add {v v' : Ledger} {b d k : Nat} {halted : Bool} (h : Step v v' b d k halted)
    (i j l : Nat) : Step (v.add i j l) (v'.add i j l) b d k halted := by
  cases h with
  | keep h => exact .keep (by rw [h])
  | enqueue h => exact .enqueue (by simp [h,Ledger.add])
  | take n hq h => exact .take n hq (by simp [h,Ledger.add]; omega)
  | endJob n hj h =>
    exact .endJob (n + i) (by simp [hj,Ledger.add]; omega) (by subst h; rfl)
  | openGuard h => exact .openGuard (by simp [h,Ledger.add])
  | closeGuard n hg h => exact .closeGuard n hg (by subst h; rfl)
  | begin h => exact .begin (by simp [h,Ledger.add]; omega)
  | complete n hf h =>
    exact .complete (n + j) (by simp [hf,Ledger.add]; omega) (by subst h; rfl)
  | cutShort n hf h =>
    exact .cutShort (n + j) (by simp [hf,Ledger.add]; omega) (by simp [h,Ledger.add])
  | abandon n hr hf h =>
    exact .abandon (n + j) hr (by simp [hf,Ledger.add]; omega) (by simp [h,Ledger.add])
  | runDry hq ho h => exact .runDry hq ho (by simp [h,Ledger.add])
  | stop h => exact .stop (by simp [h,Ledger.add])
  | restart h => exact .restart (by simp [h,Ledger.add])
  | close h => exact .close (by simp [h,Ledger.add]; omega)
  | closeReactor n hn h =>
    exact .closeReactor (n + l) (by simp [hn,Ledger.add]; omega) (by simp [h,Ledger.add])
  | forsake n hn h =>
    exact .forsake (n + l) (by simp [hn,Ledger.add]; omega) (by simp [h,Ledger.add])

end Ledger

/-- The ledger of loop `c` by what is shared and by some frames. -/
def Shared.ledger (c : Nat) (s : Shared H) (fs : List (Frame H)) : Ledger :=
  { outstanding := (s.loops.get c).outstanding
    stopped := (s.loops.get c).stopped
    closed := (s.loops.get c).closed
    reactorClosed := (s.loops.get c).lacksReactor
    queued := (s.loops.get c).queue.length
    jobs := weigh (Frame.jobs c) fs
    guards := ownedUnits c s.guards
    flights := weigh (Frame.flights c) fs
    closings := weigh (Frame.closings c) fs }

/-- The operations of loop `c` that bring a unit of work when these frames are executed. -/
def begunOn (c : Nat) : List (Frame H) → List (Operation H)
  | [.addWork o] => if o.home = c then [o] else []
  | _ => []

def completedOn (c : Nat) : List (Frame H) → List (Operation H)
  | [.complete o _] => if o.home = c then [o] else []
  | _ => []

/-- The operations of loop `c` that a panic ends while they start the reactor. -/
def cutShortOn (c : Nat) (taken frames : List (Frame H)) : List (Operation H) :=
  match taken, frames with
  | [.enlist o], .panic _ :: _ => if o.home = c then [o] else []
  | _, _ => []

def haltedOn (c : Nat) : List (Frame H) → Bool
  | [.call (.stop d)] => d = c
  | _ => false

abbrev Books (c : Nat) (s : Shared H) (taken : List (Frame H)) (e : Effect H) : Prop :=
  Ledger.Step (s.ledger c taken)
    (e.shared.ledger c e.put)
    (begunOn c taken).length (completedOn c taken).length (cutShortOn c taken e.frames).length
    (haltedOn c taken)

section

variable {c me : Nat} {s : Shared H} {active : List Executor}

theorem Books.of {taken : List (Frame H)} {e : Effect H} {b d k : Nat} {halted : Bool}
    (h : Ledger.Step (s.ledger c taken)
      (e.shared.ledger c e.put) b d k halted)
    (hb : (begunOn c taken).length = b) (hd : (completedOn c taken).length = d)
    (hk : (cutShortOn c taken e.frames).length = k) (hh : haltedOn c taken = halted) :
    Books c s taken e := by
  subst hb hd hk hh
  exact h

theorem ledger_onLoop_ne {d : Nat} (hd : d ≠ c) (f : Loop H → Loop H) (fs : List (Frame H)) :
    (s.onLoop d f).ledger c fs = s.ledger c fs := by
  simp [Shared.ledger,Shared.onLoop,Table.get_update_ne,hd]

theorem ledger_onLoop (f : Loop H → Loop H) (fs : List (Frame H)) :
    (s.onLoop c f).ledger c fs =
      { s.ledger c fs with
        outstanding := (f (s.loops.get c)).outstanding
        stopped := (f (s.loops.get c)).stopped
        closed := (f (s.loops.get c)).closed
        reactorClosed := (f (s.loops.get c)).lacksReactor
        queued := (f (s.loops.get c)).queue.length } := by
  simp [Shared.ledger,Shared.onLoop]

theorem ledger_onLoop_eq {d : Nat} {f : Loop H → Loop H} {fs : List (Frame H)}
    (hf : ∀ l, (f l).outstanding = l.outstanding ∧ (f l).stopped = l.stopped ∧
      (f l).closed = l.closed ∧ (f l).lacksReactor = l.lacksReactor ∧ (f l).queue = l.queue) :
    (s.onLoop d f).ledger c fs = s.ledger c fs := by
  by_cases hd : d = c
  · subst hd
    obtain ⟨ho,hs,hc,hr,hq⟩ := hf (s.loops.get d)
    rw [ledger_onLoop,ho,hs,hc,hr,hq]
    rfl
  · exact ledger_onLoop_ne hd f fs

attribute [local simp] weigh Shared.ledger Frame.jobs Frame.flights Frame.closings Effect.put

theorem ledger_startReactor {d : Nat} (hr : (s.loops.get d).reactor = .idle)
    (fs : List (Frame H)) : (s.onLoop d Loop.startReactor).ledger c fs = s.ledger c fs := by
  by_cases hd : d = c
  · subst hd
    rw [ledger_onLoop]
    simp [Loop.startReactor,Loop.lacksReactor,hr]
  · exact ledger_onLoop_ne hd _ _

theorem ledger_onGuard {g : Nat} {f : Guard → Guard} {fs : List (Frame H)}
    (h : (f (s.guards.get g)).units c = (s.guards.get g).units c) :
    (s.onGuard g f).ledger c fs = s.ledger c fs := by
  have hu := ownedUnits_update c s.guards g f
  have ho : ownedUnits c (s.guards.update g f) = ownedUnits c s.guards := by omega
  simp [Shared.onGuard,ho]

theorem ownedUnits_open {g : Nat} (ho : (s.guards.get g).owns = false)
    (hd : (s.guards.get g).home = c) :
    ownedUnits c (s.guards.update g fun x => { x with owns := true }) =
      ownedUnits c s.guards + 1 := by
  have hu := ownedUnits_update c s.guards g fun x => { x with owns := true }
  simpa [Guard.units,ho,hd] using hu

theorem ownedUnits_close {g : Nat} (ho : (s.guards.get g).owns = true)
    (hd : (s.guards.get g).home = c) :
    ownedUnits c s.guards =
      ownedUnits c (s.guards.update g fun x => { x with owns := false }) + 1 := by
  have hu := ownedUnits_update c s.guards g fun x => { x with owns := false }
  simpa [Guard.units,ho,hd] using hu.symm

theorem books_closeGuard {g : Nat} (ho : (s.guards.get g).owns = true) {fs : List (Frame H)}
    (hf : ∀ t : Shared H, t.ledger c fs = t.ledger c []) :
    Books c s [.call (.closeGuard g)]
      { shared := (s.onGuard g fun x => { x with owns := false }).onLoop (s.guards.get g).home
          Loop.finishWork
        active
        frames := fs } := by
  by_cases hd : (s.guards.get g).home = c
  · refine .of (.closeGuard _ (ownedUnits_close ho hd) ?_) rfl rfl rfl rfl
    rw [hd]
    exact (hf _).trans (ledger_onLoop _ _)
  · refine .of (.keep ((hf _).trans ((ledger_onLoop_ne hd _ _).trans (ledger_onGuard ?_)))) rfl rfl
      rfl rfl
    simp [Guard.units,hd]

theorem weightless_jobs : Frame.Weightless (H := H) (Frame.jobs c) := by
  intro f hf
  cases f <;> simp_all [Frame.idles,Frame.jobs]

theorem weightless_flights : Frame.Weightless (H := H) (Frame.flights c) := by
  intro f hf
  cases f <;> simp_all [Frame.idles,Frame.flights]

theorem books_rewrite {f : Frame H} {frames : List (Frame H)} (hr : Rewrite me s active f frames) :
    Books c s [f] { shared := s, active, frames } := by
  cases hr with
  | destroy hf | ended hf | overdue hf => cases hf <;> exact .keep rfl
  | dropJobsCons j => cases j <;> exact .keep rfl
  | startPanic o =>
    by_cases ho : o.home = c
    · exact .of (.cutShort 0 (by simp [ho]) (by simp)) rfl rfl (by simp [cutShortOn,ho]) rfl
    · exact .of (.keep (by simp [ho])) rfl rfl (by simp [cutShortOn,ho]) rfl
  | completeClosed o r hc =>
    by_cases ho : o.home = c
    · subst ho
      exact .of (.complete 0 (by simp) (by simp [hc])) rfl (by simp [completedOn]) rfl rfl
    · exact .of (.keep (by simp [ho])) rfl (by simp [completedOn,ho]) rfl rfl
  | _ => exact .keep rfl

theorem books_looks {f : Frame H} {d : Nat} {w : Wait} {limit : Option Nat} {ran : Nat}
    (hf : f.Looks me s d w limit ran) {e : Effect H}
    (h : Ledger.Step (s.ledger c []) (e.shared.ledger c e.put) 0 0 0 false) :
    Books c s [f] e := by
  cases hf <;> exact .of h rfl rfl rfl rfl

theorem books_rule {f : Frame H} {e : Effect H} (hr : Rule me s active f e) :
    Books c s [f] e := by
  cases hr with
  | rewrite hr => exact books_rewrite hr
  | @enqueue _ d j hf =>
    have h : Ledger.Step (s.ledger c []) ((s.onLoop d (Loop.enqueue j)).ledger c [.notifyOne d])
        0 0 0 false := by
      by_cases hd : d = c
      · subst hd
        refine .enqueue ((ledger_onLoop _ _).trans ?_)
        simp [Loop.enqueue,Loop.lacksReactor]
      · exact .keep (ledger_onLoop_ne hd _ _)
    cases hf <;> exact .of h rfl rfl rfl rfl
  | stop d =>
    by_cases hd : d = c
    · subst hd
      exact .of (.stop (ledger_onLoop _ _)) rfl rfl rfl (by simp [haltedOn])
    · exact .of (.keep (ledger_onLoop_ne hd _ _)) rfl rfl rfl (by simp [haltedOn,hd])
  | restart d =>
    by_cases hd : d = c
    · subst hd
      exact .restart (ledger_onLoop _ _)
    · exact .keep (ledger_onLoop_ne hd _ _)
  | dropOwner d =>
    by_cases hd : d = c
    · subst hd
      refine .close ((ledger_onLoop _ _).trans ?_)
      simp [Loop.close,Loop.lacksReactor]
    · exact .keep ((ledger_onLoop_ne hd _ _).trans (by simp [hd]))
  | openGuard g ho =>
    by_cases hd : (s.guards.get g).home = c
    · refine .openGuard ?_
      simp [Shared.onLoop,Shared.onGuard,Loop.addWork,Loop.lacksReactor,hd,ownedUnits_open ho hd]
    · refine .keep ((ledger_onLoop_ne hd _ _).trans (ledger_onGuard ?_))
      simp [Guard.units,hd]
  | closeGuard g ho | closeLastGuard g ho => exact books_closeGuard ho fun _ => rfl
  | wake d hr => exact .keep (ledger_startReactor hr [])
  | @take _ d w limit ran hf j rest hp =>
    refine books_looks hf ?_
    by_cases hd : d = c
    · subst hd
      refine .take rest.length (by simp [(pick_job hp).2]) ((ledger_onLoop _ _).trans ?_)
      cases j <;> simp [Frame.execute,Loop.lacksReactor]
    · refine .keep ((ledger_onLoop_ne hd _ _).trans ?_)
      cases j <;> simp [Frame.execute,hd]
  | @runDry _ d w limit ran hf hp =>
    refine books_looks hf ?_
    by_cases hd : d = c
    · subst hd
      obtain ⟨-,hq,ho⟩ := pick_dry hp
      exact .runDry (by simp [hq]) ho (ledger_onLoop _ _)
    · exact .keep (ledger_onLoop_ne hd _ _)
  | sleep hf => exact books_looks hf (.keep (ledger_onLoop_eq fun _ => ⟨rfl,rfl,rfl,rfl,rfl⟩))
  | finishWork d | finishLastWork d =>
    by_cases hd : d = c
    · subst hd
      exact .endJob 0 (by simp) (ledger_onLoop _ _)
    · exact .keep ((ledger_onLoop_ne hd _ _).trans (by simp [hd]))
  | closeReactor d =>
    by_cases hd : d = c
    · subst hd
      refine .closeReactor 0 (by simp) ((ledger_onLoop _ _).trans ?_)
      simp [Loop.closeReactor,Loop.lacksReactor]
    · exact .keep ((ledger_onLoop_ne hd _ _).trans (by simp [hd]))
  | addWork o =>
    by_cases ho : o.home = c
    · subst ho
      refine .of (.begin ((ledger_onLoop _ _).trans ?_)) (by simp [begunOn]) rfl rfl rfl
      simp [Loop.addWork,Loop.lacksReactor]
    · exact .of (.keep ((ledger_onLoop_ne ho _ _).trans (by simp [ho]))) (by simp [begunOn,ho]) rfl
        rfl rfl
  | enlistFirst o hr => exact .keep (ledger_startReactor hr _)
  | abandon o hr =>
    by_cases ho : o.home = c
    · refine .abandon 0 ?_ ?_ ?_
      · simp [Loop.lacksReactor,← ho,hr]
      · simp [ho]
      · simp [Shared.onRegistry]
    · exact .keep (by simp [Shared.onRegistry,ho])
  | complete o r hc =>
    by_cases ho : o.home = c
    · subst ho
      refine .of (.complete 0 (by simp) ((ledger_onLoop _ _).trans ?_)) rfl (by simp [completedOn])
        rfl rfl
      simp [hc,Loop.enqueueCompletion,Loop.lacksReactor]
    · exact .of (.keep ((ledger_onLoop_ne ho _ _).trans (by simp [ho]))) rfl
        (by simp [completedOn,ho]) rfl rfl
  | disturb | finish | notifyOne | notifyAll | countStart | countAbort =>
    exact .keep (ledger_onLoop_eq fun _ => ⟨rfl,rfl,rfl,rfl,rfl⟩)
  | _ => exact .keep rfl

theorem closings_shift {taken frames : List (Frame H)} (hs : Shift taken frames) :
    weigh (Frame.closings c) taken = weigh (Frame.closings c) frames ∨
      weigh (Frame.closings c) taken = weigh (Frame.closings c) frames + 1 := by
  cases hs with
  | cleanUp t f hc => exact Or.inl (Nat.add_comm _ _)
  | skip t f hs hc =>
    cases f with
    | closeReactor d =>
      by_cases hd : d = c
      · exact Or.inr (by simp [weigh,Frame.closings,hd])
      · exact Or.inl (by simp [weigh,Frame.closings,hd])
    | _ => exact Or.inl rfl
  | _ => exact Or.inl rfl

theorem books_shift {taken frames : List (Frame H)} (hs : Shift taken frames)
    (hr : taken.tail.all Frame.rests = true) :
    Books c s taken { shared := s, active, frames } := by
  have hn : begunOn c taken = [] ∧ completedOn c taken = [] ∧ cutShortOn c taken frames = [] ∧
      haltedOn c taken = false := by
    cases hs <;> exact ⟨rfl,rfl,rfl,rfl⟩
  obtain ⟨hb,hd,hk,hh⟩ := hn
  have hj := weigh_shift (weightless_jobs (c := c)) hs hr
  have hf := weigh_shift (weightless_flights (c := c)) hs hr
  obtain hc | hc := closings_shift (c := c) hs
  · refine .of (.keep ?_) (by simp [hb]) (by simp [hd]) (by simp [hk]) hh
    simp [Shared.ledger,Effect.put,hj,hf,hc]
  · refine .of (.forsake (weigh (Frame.closings c) frames) hc ?_) (by simp [hb]) (by simp [hd])
      (by simp [hk]) hh
    simp [Shared.ledger,Effect.put,hj,hf]

theorem books_deed {taken : List (Frame H)} {e : Effect H} (hd : Deed me s active taken e)
    (hr : taken.tail.all Frame.rests = true) : Books c s taken e := by
  obtain ⟨frames,hs,rfl⟩ | ⟨f,rfl,hf⟩ := hd.shift_or_rule
  · exact books_shift hs hr
  · exact books_rule hf

end

namespace Machine

def ledger (c : Nat) (m : Machine H) : Ledger :=
  { outstanding := (m.shared.loops.get c).outstanding
    stopped := (m.shared.loops.get c).stopped
    closed := (m.shared.loops.get c).closed
    reactorClosed := (m.shared.loops.get c).lacksReactor
    queued := (m.shared.loops.get c).queue.length
    jobs := m.weight (Frame.jobs c)
    guards := ownedUnits c m.shared.guards
    flights := m.weight (Frame.flights c)
    closings := m.weight (Frame.closings c) }

def begunHere (c : Nat) (_ : Machine H) (a : Act H) : List (Operation H) := begunOn c a.taken

def completedHere (c : Nat) (_ : Machine H) (a : Act H) : List (Operation H) :=
  completedOn c a.taken

def cutShortHere (c : Nat) (_ : Machine H) (a : Act H) : List (Operation H) :=
  cutShortOn c a.taken a.effect.frames

theorem ledger_perform (c : Nat) {m : Machine H} (hm : ∀ i, (m.thread i).Sound) {a : Act H}
    (ha : a.Fits m) :
    Ledger.Step (m.ledger c) ((m.perform a).ledger c) (begunOn c a.taken).length
      (completedOn c a.taken).length (cutShortOn c a.taken a.effect.frames).length
      (haltedOn c a.taken) := by
  obtain ⟨i,hj,hj'⟩ := exists_weight_perform ha (Frame.jobs c)
  obtain ⟨j,hf,hf'⟩ := exists_weight_perform ha (Frame.flights c)
  obtain ⟨k,hc,hc'⟩ := exists_weight_perform ha (Frame.closings c)
  have hs := (books_deed (c := c) ha.deed (ha.rests_tail hm)).add i j k
  have h : (m.shared.ledger c a.taken).add i j k = m.ledger c := by
    simp [Shared.ledger,Ledger.add,ledger,hj,hf,hc]
  have h' : (a.effect.shared.ledger c a.effect.put).add i j k = (m.perform a).ledger c := by
    simp only [Shared.ledger,Ledger.add,ledger,hj',hf',hc']
    rfl
  rwa [h,h'] at hs

theorem ledger_happen (c : Nat) (m : Machine H) (y : Move H) :
    (m.happen y).ledger c = m.ledger c := by
  simp only [ledger,weight_happen_of (w := Frame.jobs c) fun _ => rfl,
    weight_happen_of (w := Frame.flights c) fun _ => rfl,
    weight_happen_of (w := Frame.closings c) fun _ => rfl]
  cases y with
  | prefer d i =>
    have hp (l : Loop H) : (Loop.prefer i l).outstanding = l.outstanding ∧
        (Loop.prefer i l).stopped = l.stopped ∧ (Loop.prefer i l).closed = l.closed ∧
        (Loop.prefer i l).lacksReactor = l.lacksReactor ∧ (Loop.prefer i l).queue = l.queue := by
      unfold Loop.prefer
      split <;> exact ⟨rfl,rfl,rfl,rfl,rfl⟩
    obtain ⟨ho,hs,hc,hr,hq⟩ := hp (m.shared.loops.get c)
    by_cases hd : d = c
    · simp [happen,mapShared,Shared.onLoop,hd,ho,hs,hc,hr,hq]
    · simp [happen,mapShared,Shared.onLoop,Table.get_update,hd]
  | addLoop settings =>
    have hd : m.shared.loops.get m.shared.loops.size = default := by
      simp [Table.get,Table.size]
    simp only [happen,mapShared,Table.get_push]
    split
    · rename_i h
      rw [h,hd]
      rfl
    · rfl
  | addGuard home => simp [happen,mapShared,ownedUnits,Guard.units]
  | _ => rfl

theorem ledger_move (c : Nat) {m : Machine H} (hm : ∀ i, (m.thread i).Sound) (y : Move H) :
    Ledger.Step (m.ledger c) ((m.move y).ledger c) (m.noted (begunHere c) y).length
      (m.noted (completedHere c) y).length (m.noted (cutShortHere c) y).length
      ((m.act? y).any fun a => haltedOn c a.taken) := by
  obtain ⟨a,hy,ha,hmove⟩ | ⟨hy,hmove⟩ := move_cases m y
  · rw [hmove,noted_of_act? hy,noted_of_act? hy,noted_of_act? hy,hy]
    exact ledger_perform c hm ha
  · rw [hmove,noted_of_act?_none hy,noted_of_act?_none hy,noted_of_act?_none hy,hy]
    exact .keep (ledger_happen c m y)

end Machine
end EventLoop
