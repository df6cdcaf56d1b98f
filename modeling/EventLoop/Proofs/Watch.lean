import EventLoop.Proofs.StrandCounts
import EventLoop.Proofs.Ledger

/-! Who sleeps in a loop, who has been notified, and which notifications are still to be sent:
`Watch.Step` lists every way in which one move changes this together with what a sleeper waits
for. -/
namespace EventLoop

variable {H : Type}

open Table (weigh)

namespace Frame

/-- Threads that sleep in loop `c` or have been notified. -/
def sleeping (c : Nat) : Frame H → Nat
  | .asleep d _ _ _ => if d = c then 1 else 0
  | _ => 0

/-- Notifications of one sleeper of loop `c` that are still to be sent. -/
def notifyOnes (c : Nat) : Frame H → Nat
  | .notifyOne d => if d = c then 1 else 0
  | _ => 0

/-- Notifications of all sleepers of loop `c` that are still to be sent. -/
def notifyAlls (c : Nat) : Frame H → Nat
  | .notifyAll d => if d = c then 1 else 0
  | _ => 0

end Frame

/-- A loop as a sleeper sees it: why it should not sleep, and who is about to wake it. -/
structure Watch where
  halted : Bool
  outstanding : Nat
  queued : Nat
  sleepers : List Nat
  sleeping : Nat
  notifyOnes : Nat
  notifyAlls : Nat

namespace Watch

/-- What a change by thread `me` does to a watch. The number says how many notified threads look
for work with it. -/
inductive Step (me : Nat) (v v' : Watch) : Nat → Prop
  | keep (h : v' = v) : Step me v v' 0
  | arrive (n : Nat)
      (h : v' = { v with
        outstanding := v.outstanding + n, queued := v.queued + 1, notifyOnes := v.notifyOnes + 1 }) :
      Step me v v' 0
  | addWork (h : v' = { v with outstanding := v.outstanding + 1 }) : Step me v v' 0
  | giveBack (n : Nat) (ho : v.outstanding = n + 2) (h : v' = { v with outstanding := n + 1 }) :
      Step me v v' 0
  | restart (b : Bool) (hb : v.halted = false → b = false) (h : v' = { v with halted := b }) :
      Step me v v' 0
  | halt (d a n q : Nat) (ha : v.sleeping = a + d)
      (h : v' = { v with
        halted := true, outstanding := n, queued := q, sleeping := a
        notifyAlls := v.notifyAlls + 1 }) :
      Step me v v' d
  | giveUp (d a : Nat) (ha : v.sleeping = a + d) (hq : v.halted = true ∨ v.queued = 0)
      (h : v' = { v with sleeping := a }) : Step me v v' d
  | take (d a n : Nat) (hd : d ≤ 1) (ha : v.sleeping = a + d) (hq : v.queued = n + 1)
      (h : v' = { v with queued := n, sleeping := a }) : Step me v v' d
  | sleep (d a : Nat) (ha : v.sleeping = a + d) (hh : v.halted = false) (ho : v.outstanding ≠ 0)
      (hq : v.queued = 0)
      (h : v' = { v with sleepers := v.sleepers ++ [me], sleeping := a + 1 }) : Step me v v' d
  | awaken (a : Nat) (hm : me ∈ v.sleepers) (ha : v.sleeping = a + 1)
      (h : v' = { v with sleepers := v.sleepers.filter (· ≠ me), sleeping := a }) : Step me v v' 0
  | notifyOne (n : Nat) (hn : v.notifyOnes = n + 1)
      (h : v' = { v with notifyOnes := n, sleepers := v.sleepers.tail }) : Step me v v' 0
  | notifyAll (n : Nat) (hn : v.notifyAlls = n + 1)
      (h : v' = { v with notifyAlls := n, sleepers := [] }) : Step me v v' 0

def add (v : Watch) (sleeping notifyOnes notifyAlls : Nat) : Watch :=
  { v with
    sleeping := v.sleeping + sleeping
    notifyOnes := v.notifyOnes + notifyOnes
    notifyAlls := v.notifyAlls + notifyAlls }

theorem Step.add {me d : Nat} {v v' : Watch} (h : Step me v v' d) (i j k : Nat) :
    Step me (v.add i j k) (v'.add i j k) d := by
  cases h with
  | keep h => exact .keep (by rw [h])
  | arrive n h => exact .arrive n (by simp [h,Watch.add]; omega)
  | addWork h => exact .addWork (by simp [h,Watch.add])
  | giveBack n ho h => exact .giveBack n ho (by simp [h,Watch.add])
  | restart b hb h => exact .restart b hb (by simp [h,Watch.add])
  | halt d a n q ha h =>
    exact .halt d (a + i) n q (by simp [ha,Watch.add]; omega) (by simp [h,Watch.add]; omega)
  | giveUp d a ha hq h =>
    exact .giveUp d (a + i) (by simp [ha,Watch.add]; omega) hq (by simp [h,Watch.add])
  | take d a n hd ha hq h =>
    exact .take d (a + i) n hd (by simp [ha,Watch.add]; omega) hq (by simp [h,Watch.add])
  | sleep d a ha hh ho hq h =>
    exact .sleep d (a + i) (by simp [ha,Watch.add]; omega) hh ho hq
      (by simp [h,Watch.add]; omega)
  | awaken a hm ha h =>
    exact .awaken (a + i) hm (by simp [ha,Watch.add]; omega) (by simp [h,Watch.add])
  | notifyOne n hn h =>
    exact .notifyOne (n + j) (by simp [hn,Watch.add]; omega) (by simp [h,Watch.add])
  | notifyAll n hn h =>
    exact .notifyAll (n + k) (by simp [hn,Watch.add]; omega) (by simp [h,Watch.add])

end Watch

def Loop.halted (l : Loop H) : Bool := l.stopped || l.closed

def Shared.watch (c : Nat) (s : Shared H) (fs : List (Frame H)) : Watch :=
  { halted := (s.loops.get c).halted
    outstanding := (s.loops.get c).outstanding
    queued := (s.loops.get c).queue.length
    sleepers := (s.loops.get c).sleepers
    sleeping := weigh (Frame.sleeping c) fs
    notifyOnes := weigh (Frame.notifyOnes c) fs
    notifyAlls := weigh (Frame.notifyAlls c) fs }

section

variable {c me : Nat} {s : Shared H} {active : List Executor}

abbrev Watches (c me : Nat) (s : Shared H) (taken : List (Frame H)) (e : Effect H) (d : Nat) :
    Prop :=
  Watch.Step me (s.watch c taken) (e.shared.watch c e.put) d

attribute [local simp] weigh Shared.watch Frame.sleeping Frame.notifyOnes Frame.notifyAlls Effect.put

theorem watch_onLoop_ne {d : Nat} (hd : d ≠ c) (f : Loop H → Loop H) (fs : List (Frame H)) :
    (s.onLoop d f).watch c fs = s.watch c fs := by
  simp [Shared.onLoop,Table.get_update_ne,hd]

theorem watch_onLoop (f : Loop H → Loop H) (fs : List (Frame H)) :
    (s.onLoop c f).watch c fs =
      { s.watch c fs with
        halted := (f (s.loops.get c)).halted
        outstanding := (f (s.loops.get c)).outstanding
        queued := (f (s.loops.get c)).queue.length
        sleepers := (f (s.loops.get c)).sleepers } := by
  simp [Shared.onLoop]

theorem watch_onLoop_eq {d : Nat} {f : Loop H → Loop H} {fs : List (Frame H)}
    (hf : ∀ l, (f l).halted = l.halted ∧ (f l).outstanding = l.outstanding ∧
      (f l).queue = l.queue ∧ (f l).sleepers = l.sleepers) :
    (s.onLoop d f).watch c fs = s.watch c fs := by
  by_cases hd : d = c
  · subst hd
    obtain ⟨hh,ho,hq,hs⟩ := hf (s.loops.get d)
    rw [watch_onLoop,hh,ho,hq,hs]
    rfl
  · exact watch_onLoop_ne hd f fs

def Heard (c me : Nat) (s : Shared H) (taken : List (Frame H)) (n : Nat) : Prop :=
  n = 0 ∨
    n = 1 ∧ (∃ w limit ran, taken = [.asleep c w limit ran]) ∧ me ∉ (s.loops.get c).sleepers

theorem watches_looks {f : Frame H} {d : Nat} {w : Wait} {limit : Option Nat} {ran : Nat}
    (hf : f.Looks me s d w limit ran) {e : Effect H}
    (hn : d ≠ c → e.shared.watch c e.put = s.watch c [])
    (hs : ∀ n ≤ 1, d = c →
      Watch.Step me { s.watch c [] with sleeping := n } (e.shared.watch c e.put) n) :
    ∃ n, Watches c me s [f] e n ∧ Heard c me s [f] n := by
  by_cases hd : d = c
  · subst hd
    cases hf with
    | asleep hm =>
      refine ⟨1,?_,Or.inr ⟨rfl,⟨w,limit,ran,rfl⟩,hm⟩⟩
      have hw : s.watch d [Frame.asleep d w limit ran] =
          { s.watch d ([] : List (Frame H)) with sleeping := 1 } := by simp
      rw [Watches,hw]
      exact hs 1 (Nat.le_refl 1) rfl
    | drain | awake => exact ⟨0,hs 0 (Nat.zero_le 1) rfl,Or.inl rfl⟩
  · refine ⟨0,.keep ((hn hd).trans ?_),Or.inl rfl⟩
    cases hf <;> simp [hd]

theorem watches_giveBack {t : Shared H} {f : Frame H} {d : Nat} {e : Effect H}
    (ht : t.watch c [] = s.watch c [f]) (hs : e.shared = t.onLoop d Loop.finishWork)
    (hp : e.put = if (t.loops.get d).lastWork then [.notifyAll d] else []) :
    Watches c me s [f] e 0 := by
  rw [Watches,← ht,hs,hp]
  by_cases hd : d = c
  · subst hd
    by_cases hl : (t.loops.get d).outstanding - 1 = 0
    · refine .halt 0 0 0 (t.loops.get d).queue.length rfl ((watch_onLoop _ _).trans ?_)
      simp [Loop.lastWork,Loop.finishWork,Loop.halted,hl]
    · refine .giveBack ((t.loops.get d).outstanding - 2) ?_ ((watch_onLoop _ _).trans ?_)
      · simp only [Shared.watch]
        omega
      · simp [Loop.lastWork,Loop.finishWork,Loop.halted,hl]
        omega
  · refine .keep ((watch_onLoop_ne hd _ _).trans ?_)
    by_cases hl : (t.loops.get d).lastWork = true <;> simp [hl,hd]

theorem watches_rewrite {f : Frame H} {frames : List (Frame H)}
    (hr : Rewrite me s active f frames) :
    ∃ n, Watches c me s [f] { shared := s, active, frames } n ∧ Heard c me s [f] n := by
  cases hr with
  | ended hf hp =>
    refine watches_looks hf (fun _ => rfl) ?_
    rintro n - rfl
    exact .giveUp n 0 (Nat.zero_add n).symm (Or.inl (pick_ended hp)) rfl
  | overdue hf hp =>
    refine watches_looks hf (fun _ => rfl) ?_
    rintro n - rfl
    exact .giveUp n 0 (Nat.zero_add n).symm (Or.inr (by simp [(pick_idle hp).2.1])) rfl
  | destroy hf => cases hf <;> exact ⟨0,.keep rfl,Or.inl rfl⟩
  | dropJobsCons j => cases j <;> exact ⟨0,.keep rfl,Or.inl rfl⟩
  | _ => exact ⟨0,.keep rfl,Or.inl rfl⟩

theorem watches_onLoop {f : Frame H} {e : Effect H} {d : Nat} {g : Loop H → Loop H}
    (hs : e.shared.loops = s.loops.update d g)
    (hn : d ≠ c → s.watch c e.put = s.watch c [f])
    (hc : d = c → Watch.Step me (s.watch c [f])
      { s.watch c e.put with
        halted := (g (s.loops.get c)).halted
        outstanding := (g (s.loops.get c)).outstanding
        queued := (g (s.loops.get c)).queue.length
        sleepers := (g (s.loops.get c)).sleepers } 0) :
    ∃ n, Watches c me s [f] e n ∧ Heard c me s [f] n := by
  refine ⟨0,?_,Or.inl rfl⟩
  by_cases hd : d = c
  · have h := hc hd
    subst hd
    simpa [Watches,hs] using h
  · refine .keep (Eq.trans ?_ (hn hd))
    simp [hs,Table.get_update_ne,hd]

theorem watches_rule {f : Frame H} {e : Effect H} (hr : Rule me s active f e) :
    ∃ n, Watches c me s [f] e n ∧ Heard c me s [f] n := by
  cases hr with
  | rewrite hr => exact watches_rewrite hr
  | take hf j rest hp =>
    refine watches_looks hf (fun hd => (watch_onLoop_ne hd _ _).trans ?_) ?_
    · cases j <;> simp [Frame.execute]
    · rintro n hn rfl
      refine .take n 0 rest.length hn (Nat.zero_add n).symm (by simp [(pick_job hp).2])
        ((watch_onLoop _ _).trans ?_)
      cases j <;> simp [Frame.execute,Loop.halted]
  | @runDry f d w limit ran hf hp =>
    refine watches_looks hf (fun hd => (watch_onLoop_ne hd _ _).trans (by simp [hd])) ?_
    rintro n - rfl
    refine .halt n 0 (s.loops.get d).outstanding (s.loops.get d).queue.length
      (Nat.zero_add n).symm ((watch_onLoop _ _).trans ?_)
    simp [Loop.stop,Loop.halted]
  | sleep hf hp =>
    refine watches_looks hf (fun hd => (watch_onLoop_ne hd _ _).trans (by simp [hd])) ?_
    rintro n - rfl
    obtain ⟨hh,hq,ho⟩ := pick_idle hp
    refine .sleep n 0 (Nat.zero_add n).symm hh ho (by simp [hq]) ((watch_onLoop _ _).trans ?_)
    simp [Loop.sleep,Loop.halted]
  | enqueue hf =>
    refine watches_onLoop rfl (fun hd => by cases hf <;> simp [hd]) ?_
    rintro rfl
    exact .arrive 1 (by cases hf <;> simp [Loop.enqueue,Loop.halted])
  | complete =>
    refine watches_onLoop rfl (fun hd => by simp [hd]) ?_
    rintro rfl
    exact .arrive 0 (by simp [Loop.enqueueCompletion,Loop.halted])
  | stop d =>
    refine watches_onLoop rfl (fun hd => by simp [hd]) ?_
    rintro rfl
    exact .halt 0 0 (s.loops.get d).outstanding (s.loops.get d).queue.length rfl
      (by simp [Loop.stop,Loop.halted])
  | dropOwner d =>
    refine watches_onLoop rfl (fun hd => by simp [hd]) ?_
    rintro rfl
    exact .halt 0 0 0 0 rfl (by simp [Loop.close,Loop.halted])
  | restart d =>
    refine watches_onLoop rfl (fun _ => rfl) ?_
    rintro rfl
    exact .restart (s.loops.get d).closed (fun hh => (Bool.or_eq_false_iff.1 hh).2)
      (by simp [Loop.restart,Loop.halted])
  | openGuard | addWork =>
    refine watches_onLoop rfl (fun _ => rfl) ?_
    rintro rfl
    exact .addWork (by simp [Loop.addWork,Loop.halted])
  | closeGuard g ho hl | closeLastGuard g ho hl =>
    exact ⟨0,watches_giveBack (t := s.onGuard g _) rfl rfl (by simp [Shared.onGuard,hl]),
      Or.inl rfl⟩
  | finishWork d hl | finishLastWork d hl =>
    exact ⟨0,watches_giveBack (t := s) rfl rfl (by simp [hl]),Or.inl rfl⟩
  | disturb d w limit ran hm =>
    refine watches_onLoop rfl (fun hd => by simp [hd]) ?_
    rintro rfl
    exact .awaken 0 hm (by simp) (by simp [Loop.awaken,Loop.halted])
  | notifyOne d =>
    refine watches_onLoop rfl (fun hd => by simp [hd]) ?_
    rintro rfl
    exact .notifyOne 0 (by simp) (by simp [Loop.notifyOne,Loop.halted])
  | notifyAll d =>
    refine watches_onLoop rfl (fun hd => by simp [hd]) ?_
    rintro rfl
    exact .notifyAll 0 (by simp) (by simp [Loop.notifyAll,Loop.halted])
  | _ =>
    refine ⟨0,?_,Or.inl rfl⟩
    first
      | exact .keep rfl
      | exact .keep (watch_onLoop_eq fun _ => ⟨rfl,rfl,rfl,rfl⟩)

theorem weightless_notifyOnes : Frame.Weightless (H := H) (Frame.notifyOnes c) := by
  intro f hf
  cases f <;> simp_all [Frame.idles,Frame.notifyOnes]

theorem weightless_notifyAlls : Frame.Weightless (H := H) (Frame.notifyAlls c) := by
  intro f hf
  cases f <;> simp_all [Frame.idles,Frame.notifyAlls]

theorem sleeping_shift {taken frames : List (Frame H)} (hs : Shift taken frames)
    (hr : taken.tail.all Frame.rests = true) :
    weigh (Frame.sleeping c) frames = weigh (Frame.sleeping c) taken := by
  cases hs with
  | cleanUp t f hc => simp [weigh]
  | skip t f hs hc =>
    cases f with
    | asleep d w limit ran => exact Bool.noConfusion hr
    | _ => rfl
  | _ => rfl

theorem watches_shift {taken frames : List (Frame H)} (hs : Shift taken frames)
    (hr : taken.tail.all Frame.rests = true) :
    Watches c me s taken { shared := s, active, frames } 0 := by
  refine .keep ?_
  simp only [Shared.watch,Effect.put,sleeping_shift hs hr,weigh_shift weightless_notifyOnes hs hr,
    weigh_shift weightless_notifyAlls hs hr]

theorem watches_deed {taken : List (Frame H)} {e : Effect H} (hd : Deed me s active taken e)
    (hr : taken.tail.all Frame.rests = true) :
    ∃ n, Watches c me s taken e n ∧ Heard c me s taken n := by
  obtain ⟨frames,hs,rfl⟩ | ⟨f,rfl,hf⟩ := hd.shift_or_rule
  · exact ⟨0,watches_shift hs hr,Or.inl rfl⟩
  · exact watches_rule hf

theorem Deed.awakens {w : Wait} {limit : Option Nat} {ran : Nat} {e : Effect H}
    (hd : Deed me s active [.asleep c w limit ran] e) (hm : me ∈ (s.loops.get c).sleepers) :
    e.shared = s.onLoop c (Loop.awaken me) := by
  have hno {d n : Nat} {v : Wait} {l : Option Nat}
      (hf : Frame.Looks me s d v l n (.asleep c w limit ran)) : False := by
    cases hf with
    | asleep hn => exact hn hm
  obtain ⟨frames,hs,rfl⟩ | hr := hd.rule_of_singleton
  · cases hs
  cases hr with
  | disturb => rfl
  | take hf | runDry hf | sleep hf => exact (hno hf).elim
  | enqueue hf => cases hf
  | rewrite hr =>
    cases hr with
    | ended hf | overdue hf => exact (hno hf).elim
    | destroy hf => cases hf

end

end EventLoop
