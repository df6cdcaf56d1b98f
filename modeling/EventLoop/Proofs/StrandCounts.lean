import EventLoop.Proofs.Weight

/-! What a strand is held by, and what one move can do about it: `StrandCounts.Step` lists every way
in which a strand is taken, handed on, given up and freed, with the handlers that are submitted
to it and begun by it. -/
namespace EventLoop

variable {H : Type}

open Table (weigh)

def Job.isTurn (x : Nat) : Job H → Bool
  | .turn y => y = x
  | .task _ => false

def turnsIn (x : Nat) (js : List (Job H)) : Nat := js.countP (Job.isTurn x)

def queuedTurns (x : Nat) (ls : Table (Loop H)) : Nat := ls.total fun l => turnsIn x l.queue

namespace Frame

/-- Turns of strand `x` on their way to a queue, or out of it and about to run. -/
def turns (x : Nat) : Frame H → Nat
  | .runTurn y | .schedule y => if y = x then 1 else 0
  | _ => 0

/-- Turns of strand `x` that are being destroyed. -/
def losses (x : Nat) : Frame H → Nat
  | .dropTurn y => if y = x then 1 else 0
  | .dropJobs js => turnsIn x js
  | _ => 0

/-- Handlers of strand `x` in progress, or over and not yet followed by a release. -/
def releases (x : Nat) : Frame H → Nat
  | .release y => if y = x then 1 else 0
  | _ => 0

end Frame

/-- A strand with what holds it. -/
structure StrandCounts (H : Type) where
  locked : Bool
  waiting : List (Task H)
  turns : Nat
  losses : Nat
  releases : Nat

namespace StrandCounts

/-- What a change does to the handlers of a strand: those submitted and those begun. -/
inductive Step (v v' : StrandCounts H) : List (Task H) → List (Task H) → Prop
  | keep (h : v' = v) : Step v v' [] []
  | postIdle (t : Task H) (hl : v.locked = false)
      (h : v' = { v with locked := true, waiting := v.waiting ++ [t], turns := v.turns + 1 }) :
      Step v v' [t] []
  | postBusy (t : Task H) (hl : v.locked = true)
      (h : v' = { v with waiting := v.waiting ++ [t] }) : Step v v' [t] []
  | acquire (t : Task H) (hl : v.locked = false)
      (h : v' = { v with locked := true, releases := v.releases + 1 }) : Step v v' [t] [t]
  | begin (t : Task H) (ts : List (Task H)) (n : Nat) (hw : v.waiting = t :: ts)
      (ht : v.turns = n + 1)
      (h : v' = { v with waiting := ts, turns := n, releases := v.releases + 1 }) :
      Step v v' [] [t]
  | beginNone (n : Nat) (hw : v.waiting = []) (ht : v.turns = n + 1)
      (h : v' = { v with turns := n, releases := v.releases + 1 }) : Step v v' [] []
  | handOn (n : Nat) (hw : v.waiting ≠ []) (hr : v.releases = n + 1)
      (h : v' = { v with turns := v.turns + 1, releases := n }) : Step v v' [] []
  | free (n : Nat) (hw : v.waiting = []) (hr : v.releases = n + 1)
      (h : v' = { v with locked := false, releases := n }) : Step v v' [] []
  | giveUp (n k : Nat) (ht : v.turns = n + k)
      (h : v' = { v with turns := n, losses := v.losses + k }) : Step v v' [] []
  | abandon (n : Nat) (hl : v.losses = n + 1)
      (h : v' = { v with locked := false, waiting := [], losses := n }) : Step v v' [] []

def add (v : StrandCounts H) (turns losses releases : Nat) : StrandCounts H :=
  { v with
    turns := v.turns + turns
    losses := v.losses + losses
    releases := v.releases + releases }

theorem Step.add {v v' : StrandCounts H} {submitted begun : List (Task H)}
    (h : Step v v' submitted begun) (i j k : Nat) :
    Step (v.add i j k) (v'.add i j k) submitted begun := by
  cases h with
  | keep h => exact .keep (by rw [h])
  | postIdle t hl h => exact .postIdle t hl (by simp [h,StrandCounts.add]; omega)
  | postBusy t hl h => exact .postBusy t hl (by simp [h,StrandCounts.add])
  | acquire t hl h => exact .acquire t hl (by simp [h,StrandCounts.add]; omega)
  | begin t ts n hw ht h =>
    exact .begin t ts (n + i) hw (by simp [ht,StrandCounts.add]; omega)
        (by simp [h,StrandCounts.add]; omega)
  | beginNone n hw ht h =>
    exact .beginNone (n + i) hw (by simp [ht,StrandCounts.add]; omega)
        (by simp [h,StrandCounts.add]; omega)
  | handOn n hw hr h =>
    exact .handOn (n + k) hw (by simp [hr,StrandCounts.add]; omega)
        (by simp [h,StrandCounts.add]; omega)
  | free n hw hr h =>
    exact .free (n + k) hw (by simp [hr,StrandCounts.add]; omega) (by simp [h,StrandCounts.add])
  | giveUp n l ht h =>
    exact .giveUp (n + i) l (by simp [ht,StrandCounts.add]; omega)
        (by simp [h,StrandCounts.add]; omega)
  | abandon n hl h =>
    exact .abandon (n + j) (by simp [hl,StrandCounts.add]; omega) (by simp [h,StrandCounts.add])

end StrandCounts

theorem queuedTurns_update (x : Nat) (ls : Table (Loop H)) (c : Nat) (f : Loop H → Loop H) :
    queuedTurns x (ls.update c f) + turnsIn x (ls.get c).queue =
      queuedTurns x ls + turnsIn x (f (ls.get c)).queue :=
  Table.total_update (f := fun l : Loop H => turnsIn x l.queue) rfl ls c f

/-- How often strand `x` is held, by the queues and by some frames. -/
def Shared.strandCounts (x : Nat) (s : Shared H) (fs : List (Frame H)) : StrandCounts H :=
  { locked := (s.strands.get x).locked
    waiting := (s.strands.get x).waiting
    turns := queuedTurns x s.loops + weigh (Frame.turns x) fs
    losses := weigh (Frame.losses x) fs
    releases := weigh (Frame.releases x) fs }

def submittedBy (x : Nat) (s : Shared H) : List (Frame H) → List (Task H)
  | [.call (.post (.strand y) t)] => if y = x then [t] else []
  | [.tryLock y t] => if y = x ∧ (s.strands.get x).locked = false then [t] else []
  | _ => []

/-- The outermost handlers of strand `x` that begin when these frames are executed. -/
def begunBy (x : Nat) (s : Shared H) : List (Frame H) → List (Task H)
  | [.runTurn y] => if y = x then (s.strands.get x).waiting.head?.toList else []
  | [.tryLock y t] => if y = x ∧ (s.strands.get x).locked = false then [t] else []
  | _ => []

section

variable {x me : Nat} {s : Shared H} {active : List Executor}

abbrev StrandDeed (x : Nat) (s : Shared H) (taken : List (Frame H)) (e : Effect H) : Prop :=
  StrandCounts.Step (s.strandCounts x taken) (e.shared.strandCounts x e.frames) (submittedBy x s taken)
    (begunBy x s taken)

theorem StrandDeed.of {taken : List (Frame H)} {e : Effect H} {submitted begun : List (Task H)}
    (h : StrandCounts.Step (s.strandCounts x taken) (e.shared.strandCounts x e.frames) submitted begun)
    (hs : submittedBy x s taken = submitted) (hb : begunBy x s taken = begun) :
    StrandDeed x s taken e := by
  subst hs hb
  exact h

theorem weightless_turns : Frame.Weightless (H := H) (Frame.turns x) := by
  intro f hf
  cases f <;> simp_all [Frame.idles,Frame.turns]

theorem weightless_losses : Frame.Weightless (H := H) (Frame.losses x) := by
  intro f hf
  cases f <;> simp_all [Frame.idles,Frame.losses]

theorem weightless_releases : Frame.Weightless (H := H) (Frame.releases x) := by
  intro f hf
  cases f <;> simp_all [Frame.idles,Frame.releases]

attribute [local simp] weigh Shared.strandCounts Frame.turns Frame.losses Frame.releases turnsIn
  Job.isTurn submittedBy begunBy

theorem strandCounts_onLoop {c : Nat} {f : Loop H → Loop H} {fs : List (Frame H)}
    (hf : turnsIn x (f (s.loops.get c)).queue = turnsIn x (s.loops.get c).queue) :
    (s.onLoop c f).strandCounts x fs = s.strandCounts x fs := by
  have hq := queuedTurns_update x s.loops c f
  have hn : queuedTurns x (s.loops.update c f) = queuedTurns x s.loops := by omega
  simp [Shared.onLoop,hn]

theorem strandCounts_onStrand (f : Strand H → Strand H) (fs : List (Frame H)) :
    (s.onStrand x f).strandCounts x fs =
      { s.strandCounts x fs with
        locked := (f (s.strands.get x)).locked
        waiting := (f (s.strands.get x)).waiting } := by
  simp [Shared.onStrand]

theorem strandCounts_onStrand_ne {y : Nat} (hy : y ≠ x) (f : Strand H → Strand H)
    (fs : List (Frame H)) : (s.onStrand y f).strandCounts x fs = s.strandCounts x fs := by
  simp [Shared.onStrand,Table.get_update_ne,hy]

theorem strandCounts_take {c : Nat} {j : Job H} {rest : List (Job H)}
    (hq : (s.loops.get c).queue = j :: rest) (w : Wait) (limit : Option Nat) (ran : Nat) :
    (s.onLoop c fun l => { l with queue := rest }).strandCounts x
      [Frame.execute j, .finish c, .leave (.loop c), .drain c w limit ran] = s.strandCounts x [] := by
  have hu := queuedTurns_update x s.loops c fun l => { l with queue := rest }
  rw [hq] at hu
  cases j with
  | task t =>
    simp at hu
    simp [Shared.onLoop,Frame.execute,hu]
  | turn y =>
    by_cases hy : y = x
    · simp [hy] at hu
      simp [Shared.onLoop,Frame.execute,hy]
      omega
    · simp [hy] at hu
      simp [Shared.onLoop,Frame.execute,hy,hu]

theorem strandCounts_enqueue (c y : Nat) :
    (s.onLoop c (Loop.enqueue (.turn y))).strandCounts x [.notifyOne c] =
      s.strandCounts x [.schedule y] := by
  have hu := queuedTurns_update x s.loops c (Loop.enqueue (.turn y))
  by_cases hy : y = x
  · simp [Loop.enqueue,hy] at hu
    simp [Shared.onLoop,hy]
    omega
  · exact (strandCounts_onLoop (by simp [Loop.enqueue,hy])).trans (by simp [hy])

theorem StrandDeed.of_ne {y : Nat} (hy : y ≠ x) {f : Frame H} {e : Effect H}
    (hf : e.shared.strandCounts x e.frames = s.strandCounts x [f])
    (hn : (∃ t, f = .call (.post (.strand y) t) ∨ f = .tryLock y t) ∨ f = .runTurn y) :
    StrandDeed x s [f] e := by
  obtain ⟨t,rfl | rfl⟩ | rfl := hn
  · exact .of (.keep hf) (by simp [hy]) rfl
  · exact .of (.keep hf) (by simp [hy]) (by simp [hy])
  · exact .of (.keep hf) rfl (by simp [hy])

theorem strandDeed_rewrite {f : Frame H} {frames : List (Frame H)}
    (hr : Rewrite me s active f frames) :
    StrandDeed x s [f] { shared := s, active, frames } := by
  cases hr with
  | destroy hf =>
    cases hf with
    | post c t => exact .keep rfl
    | schedule y =>
      by_cases hy : y = x
      · exact .giveUp (queuedTurns x s.loops) 1 (by simp [hy]) (by simp [Frame.dropJob,hy])
      · exact .keep (by simp [Frame.dropJob,hy])
  | ended hf | overdue hf => cases hf <;> exact .keep rfl
  | turnNone y hw =>
    by_cases hy : y = x
    · subst hy
      exact .of (.beginNone (queuedTurns y s.loops) hw (by simp) (by simp)) rfl (by simp [hw])
    · exact .of_ne hy (by simp [hy]) (Or.inr rfl)
  | lockBusy y t hl =>
    by_cases hy : y = x
    · subst hy
      exact .of (.keep rfl) (by simp [hl]) (by simp [hl])
    · exact .of_ne hy rfl (Or.inl ⟨t,Or.inr rfl⟩)
  | handOn y hw =>
    by_cases hy : y = x
    · subst hy
      exact .handOn 0 hw (by simp) (by simp)
    · exact .keep (by simp [hy])
  | dropJobsCons j js =>
    cases j with
    | task => exact .keep (by simp [Frame.dropJob])
    | turn => exact .keep (by simp [Frame.dropJob,List.countP_cons]; omega)
  | _ => exact .keep rfl

theorem strandDeed_rule {f : Frame H} {e : Effect H} (hr : Rule me s active f e) :
    StrandDeed x s [f] e := by
  cases hr with
  | rewrite hr => exact strandDeed_rewrite hr
  | enqueue hf =>
    cases hf with
    | post c t => exact .keep (strandCounts_onLoop (by simp [Loop.enqueue]))
    | schedule y => exact .keep (strandCounts_enqueue _ y)
  | postIdle y t hl =>
    by_cases hy : y = x
    · subst hy
      refine .of (.postIdle t hl ((strandCounts_onStrand _ _).trans ?_)) (by simp) rfl
      simp [Strand.submit]
    · exact .of_ne hy ((strandCounts_onStrand_ne hy _ _).trans (by simp [hy])) (Or.inl ⟨t,Or.inl rfl⟩)
  | postBusy y t hl =>
    by_cases hy : y = x
    · subst hy
      refine .of (.postBusy t hl ((strandCounts_onStrand _ _).trans ?_)) (by simp) rfl
      simp [Strand.submit,hl]
    · exact .of_ne hy (strandCounts_onStrand_ne hy _ _) (Or.inl ⟨t,Or.inl rfl⟩)
  | dropOwner c =>
    have hu := queuedTurns_update x s.loops c Loop.close
    refine .giveUp (queuedTurns x (s.loops.update c Loop.close)) (turnsIn x (s.loops.get c).queue)
      ?_ ?_
    · simpa [Loop.close] using hu.symm
    · simp [Shared.onLoop]
  | take hf j rest hp => cases hf <;> exact .keep (strandCounts_take (pick_job hp).2 _ _ _)
  | turn y t ts hw =>
    by_cases hy : y = x
    · subst hy
      refine .of (.begin t ts (queuedTurns y s.loops) hw (by simp) ?_) rfl (by simp [hw])
      simp [Shared.onStrand,Strand.pop,hw]
    · exact .of_ne hy ((strandCounts_onStrand_ne hy _ _).trans (by simp [hy])) (Or.inr rfl)
  | lock y t hl =>
    by_cases hy : y = x
    · subst hy
      refine .of (.acquire t hl ?_) (by simp [hl]) (by simp [hl])
      simp [Shared.onStrand,Strand.lock,hl]
    · exact .of_ne hy ((strandCounts_onStrand_ne hy _ _).trans (by simp [hy])) (Or.inl ⟨t,Or.inr rfl⟩)
  | free y hw =>
    by_cases hy : y = x
    · subst hy
      refine .free 0 hw (by simp) ?_
      simp [Shared.onStrand,Strand.unlock,hw]
    · exact .keep ((strandCounts_onStrand_ne hy _ _).trans (by simp [hy]))
  | dropTurn y =>
    by_cases hy : y = x
    · subst hy
      refine .abandon 0 (by simp) ((strandCounts_onStrand _ _).trans ?_)
      simp [Strand.abandon]
    · exact .keep ((strandCounts_onStrand_ne hy _ _).trans (by simp [hy]))
  | runDry hf | sleep hf => cases hf <;> exact .keep (strandCounts_onLoop rfl)
  | complete => exact .keep (strandCounts_onLoop (by simp [Loop.enqueueCompletion]))
  | _ => first | exact .keep rfl | exact .keep (strandCounts_onLoop rfl)

theorem strandDeed_shift {taken frames : List (Frame H)} (hs : Shift taken frames)
    (hr : taken.tail.all Frame.rests = true) :
    StrandDeed x s taken { shared := s, active, frames } := by
  have hn : submittedBy x s taken = [] ∧ begunBy x s taken = [] := by
    cases hs <;> exact ⟨rfl,rfl⟩
  refine .of (.keep ?_) hn.1 hn.2
  simp only [Shared.strandCounts,weigh_shift weightless_turns hs hr,
    weigh_shift weightless_losses hs hr,weigh_shift weightless_releases hs hr]

theorem strandDeed_deed {taken : List (Frame H)} {e : Effect H} (hd : Deed me s active taken e)
    (hr : taken.tail.all Frame.rests = true) : StrandDeed x s taken e := by
  obtain ⟨frames,hs,rfl⟩ | ⟨f,rfl,hf⟩ := hd.shift_or_rule
  · exact strandDeed_shift hs hr
  · exact strandDeed_rule hf

end

namespace Machine

def strandCounts (x : Nat) (m : Machine H) : StrandCounts H :=
  { locked := (m.shared.strands.get x).locked
    waiting := (m.shared.strands.get x).waiting
    turns := queuedTurns x m.shared.loops + m.weight (Frame.turns x)
    losses := m.weight (Frame.losses x)
    releases := m.weight (Frame.releases x) }

theorem strandCounts_perform (x : Nat) {m : Machine H} (hm : ∀ i, (m.thread i).Sound) {a : Act H}
    (ha : a.Fits m) :
    StrandCounts.Step (m.strandCounts x) ((m.perform a).strandCounts x) (submittedBy x m.shared a.taken)
      (begunBy x m.shared a.taken) := by
  obtain ⟨i,ht,ht'⟩ := exists_weight_perform ha (Frame.turns x)
  obtain ⟨j,hl,hl'⟩ := exists_weight_perform ha (Frame.losses x)
  obtain ⟨k,hr,hr'⟩ := exists_weight_perform ha (Frame.releases x)
  have hs := (strandDeed_deed (x := x) ha.deed (ha.rests_tail hm)).add i j k
  have h : (m.shared.strandCounts x a.taken).add i j k = m.strandCounts x := by
    simp [Shared.strandCounts,StrandCounts.add,strandCounts,ht,hl,hr,Nat.add_assoc]
  have h' : (a.effect.shared.strandCounts x a.effect.frames).add i j k =
      (m.perform a).strandCounts x := by
    rw [weigh_put fun _ => rfl] at ht' hl' hr'
    simp [Shared.strandCounts,StrandCounts.add,strandCounts,ht',hl',hr',Nat.add_assoc]
  rwa [h,h'] at hs

theorem strandCounts_happen (x : Nat) (m : Machine H) (y : Move H) :
    (m.happen y).strandCounts x = m.strandCounts x := by
  simp only [strandCounts,weight_happen weightless_turns,weight_happen weightless_losses,
    weight_happen weightless_releases]
  cases y with
  | prefer c i =>
    have hq := queuedTurns_update x m.shared.loops c (Loop.prefer i)
    have hp : (Loop.prefer i (m.shared.loops.get c)).queue = (m.shared.loops.get c).queue := by
      unfold Loop.prefer
      split <;> rfl
    rw [hp] at hq
    simp [happen,mapShared,Shared.onLoop]
    omega
  | addLoop settings => simp [happen,mapShared,queuedTurns,turnsIn]
  | addStrand home =>
    have hd : m.shared.strands.get m.shared.strands.size = default := by
      simp [Table.get,Table.size]
    simp only [happen,mapShared,Table.get_push]
    split
    · rename_i h
      rw [h,hd]
      rfl
    · rfl
  | _ => rfl

def submitted (x : Nat) (m : Machine H) (a : Act H) : List (Task H) :=
  submittedBy x m.shared a.taken

def begun (x : Nat) (m : Machine H) (a : Act H) : List (Task H) := begunBy x m.shared a.taken

theorem strandCounts_move (x : Nat) {m : Machine H} (hm : ∀ i, (m.thread i).Sound) (y : Move H) :
    StrandCounts.Step (m.strandCounts x) ((m.move y).strandCounts x) (m.noted (submitted x) y)
      (m.noted (begun x) y) := by
  obtain ⟨a,hy,ha,hmove⟩ | ⟨hy,hmove⟩ := move_cases m y
  · rw [hmove,noted_of_act? hy,noted_of_act? hy]
    exact strandCounts_perform x hm ha
  · rw [hmove,noted_of_act?_none hy,noted_of_act?_none hy]
    exact .keep (strandCounts_happen x m y)

end Machine
end EventLoop
