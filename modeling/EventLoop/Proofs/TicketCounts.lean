import EventLoop.Proofs.StrandCounts

/-! What becomes of one ticket of a registry. `TicketCounts.Step` lists every way in which a ticket is
drawn, made live, claimed by its operation, cancelled, signalled and forgotten. -/
namespace EventLoop

variable {H : Type}

open Table (weigh)

/-- Whether an operation has ticket `k` of registry `r`. -/
def Operation.mark (r k : Nat) (o : Operation H) : Nat :=
  if o.registry = r ∧ o.ticket = k then 1 else 0

namespace Frame

/-- Operations whose ticket is drawn and not live yet. -/
def enrolling (r k : Nat) : Frame H → Nat
  | .enrol o => o.mark r k
  | _ => 0

/-- Operations that are being started or in flight. -/
def opened (r k : Nat) : Frame H → Nat
  | .countStart o | .addWork o | .enlist o | .operation o => o.mark r k
  | _ => 0

def withdrawing (r k : Nat) : Frame H → Nat
  | .withdraw o _ => o.mark r k
  | _ => 0

def forgetting (r k : Nat) : Frame H → Nat
  | .forget s j => if s = r ∧ j = k then 1 else 0
  | _ => 0

def signals (r k : Nat) : Frame H → Nat
  | .signal s js => if s = r then js.count k else 0
  | _ => 0

end Frame

/-- A ticket with its places in the registry and the frames that work on it. -/
structure TicketCounts where
  drawn : Nat
  live : Nat
  signalled : Nat
  enrolling : Nat
  opened : Nat
  withdrawing : Nat
  forgetting : Nat
  signals : Nat

namespace TicketCounts

/-- How often a ticket is made live and how often it is removed, and by whom, and how often its
operation is dropped by the reactor. -/
structure Change where
  registered : Nat := 0
  claimed : Nat := 0
  cancelled : Nat := 0
  forgotten : Nat := 0
  dropped : Nat := 0

def Change.add (t u : Change) : Change :=
  ⟨t.registered + u.registered,t.claimed + u.claimed,t.cancelled + u.cancelled,
    t.forgotten + u.forgotten,t.dropped + u.dropped⟩

inductive Step (v v' : TicketCounts) : Change → Prop
  | keep (h : v' = v) : Step v v' {}
  | draw (hd : v.drawn = 0) (h : v' = { v with drawn := 1, enrolling := v.enrolling + 1 }) :
      Step v v' {}
  | enrol (n : Nat) (he : v.enrolling = n + 1)
      (h : v' = { v with enrolling := n, live := v.live + 1, opened := v.opened + 1 }) :
      Step v v' { registered := 1 }
  | claim (n : Nat) (ho : v.opened = n + 1)
      (h : v' = { v with opened := n, live := 0, withdrawing := v.withdrawing + 1 }) :
      Step v v' { claimed := v.live }
  | miss (n : Nat) (ho : v.opened = n + 1) (hl : v.live = 0 ∨ 0 < v.signalled)
      (h : v' = { v with opened := n, withdrawing := v.withdrawing + 1 }) : Step v v' {}
  | refuse (n : Nat) (ho : v.opened = n + 1)
      (h : v' = { v with opened := n, forgetting := v.forgetting + 1 }) :
      Step v v' { dropped := 1 }
  | abandon (n : Nat) (ho : v.opened = n + 1) (h : v' = { v with opened := n, live := 0 }) :
      Step v v' { forgotten := v.live, dropped := 1 }
  | withdraw (n : Nat) (hw : v.withdrawing = n + 1)
      (h : v' = { v with withdrawing := n, live := 0 }) : Step v v' { forgotten := v.live }
  | forget (n : Nat) (hf : v.forgetting = n + 1)
      (h : v' = { v with forgetting := n, live := 0 }) : Step v v' { forgotten := v.live }
  | cancelAll (h : v' = { v with live := 0, signals := v.signals + v.live }) :
      Step v v' { cancelled := v.live }
  | cancelFirst (n : Nat) (hl : v.live = n + 1)
      (h : v' = { v with live := n, signalled := v.signalled + 1 }) : Step v v' { cancelled := 1 }
  | signal (n : Nat) (hs : v.signals = n + 1)
      (h : v' = { v with signals := n, signalled := v.signalled + 1 }) : Step v v' {}

def add (v : TicketCounts) (enrolling opened withdrawing forgetting signals : Nat) : TicketCounts :=
  { v with
    enrolling := v.enrolling + enrolling
    opened := v.opened + opened
    withdrawing := v.withdrawing + withdrawing
    forgetting := v.forgetting + forgetting
    signals := v.signals + signals }

theorem Step.add {v v' : TicketCounts} {t : Change} (h : Step v v' t) (i j k l n : Nat) :
    Step (v.add i j k l n) (v'.add i j k l n) t := by
  cases h with
  | keep h => exact .keep (by rw [h])
  | draw hd h => exact .draw hd (by simp [h,TicketCounts.add]; omega)
  | enrol q he h =>
    exact .enrol (q + i) (by simp [he,TicketCounts.add]; omega)
        (by simp [h,TicketCounts.add]; omega)
  | claim q ho h =>
    exact .claim (q + j) (by simp [ho,TicketCounts.add]; omega)
        (by simp [h,TicketCounts.add]; omega)
  | miss q ho hl h =>
    exact .miss (q + j) (by simp [ho,TicketCounts.add]; omega) hl
        (by simp [h,TicketCounts.add]; omega)
  | refuse q ho h =>
    exact .refuse (q + j) (by simp [ho,TicketCounts.add]; omega)
        (by simp [h,TicketCounts.add]; omega)
  | abandon q ho h =>
    exact .abandon (q + j) (by simp [ho,TicketCounts.add]; omega) (by simp [h,TicketCounts.add])
  | withdraw q hw h =>
    exact .withdraw (q + k) (by simp [hw,TicketCounts.add]; omega) (by simp [h,TicketCounts.add])
  | forget q hf h =>
    exact .forget (q + l) (by simp [hf,TicketCounts.add]; omega) (by simp [h,TicketCounts.add])
  | cancelAll h => exact .cancelAll (by simp [h,TicketCounts.add]; omega)
  | cancelFirst q hl h => exact .cancelFirst q hl (by simp [h,TicketCounts.add])
  | signal q hs h =>
    exact .signal (q + n) (by simp [hs,TicketCounts.add]; omega) (by simp [h,TicketCounts.add])

/-- What a ticket promises: it is drawn once, it is live, claimed, cancelled or forgotten, and
whoever can still claim it is alone. -/
structure Sound (v : TicketCounts) (t : Change) : Prop where
  drawn : v.drawn ≤ 1
  registered : v.enrolling + t.registered = v.drawn
  places : t.registered = v.live + t.claimed + t.cancelled + t.forgotten
  owner : v.enrolling + v.opened + t.claimed + t.forgotten ≤ v.drawn
  ended : 0 < v.withdrawing + v.forgetting → v.enrolling + v.opened = 0 ∧ v.drawn = 1
  withdrawn : v.withdrawing = 0 ∨ v.live = 0
  dropped : 0 < v.forgetting + t.forgotten → 0 < t.dropped
  signals : v.signalled + v.signals = t.cancelled

theorem Step.sound {v v' : TicketCounts} {t u : Change} (h : Step v v' u) (hv : v.Sound t) :
    v'.Sound (t.add u) := by
  obtain ⟨hd,hr,hp,ho,hx,hw,hf,hs⟩ := hv
  cases h with
  | keep h => exact h ▸ ⟨hd,hr,hp,ho,hx,hw,hf,hs⟩
  | draw hn h | enrol n hn h | claim n hn h | miss n hn hl h | refuse n hn h | abandon n hn h
  | withdraw n hn h | forget n hn h | cancelAll h | cancelFirst n hn h | signal n hn h =>
    subst h
    refine ⟨?_,?_,?_,?_,?_,?_,?_,?_⟩ <;> simp only [Change.add,or_true] <;> omega

end TicketCounts

/-- The places of ticket `k` of registry `r`, by what is shared and by some frames. -/
def Shared.ticketCounts (r k : Nat) (s : Shared H) (fs : List (Frame H)) : TicketCounts :=
  { drawn := if k < (s.registries.get r).next then 1 else 0
    live := (s.registries.get r).live.count k
    signalled := (s.registries.get r).signalled.count k
    enrolling := weigh (Frame.enrolling r k) fs
    opened := weigh (Frame.opened r k) fs
    withdrawing := weigh (Frame.withdrawing r k) fs
    forgetting := weigh (Frame.forgetting r k) fs
    signals := weigh (Frame.signals r k) fs }

/-- The tickets of registry `r` that are live before an effect and not after it. -/
def removedBy (r : Nat) (s : Shared H) (e : Effect H) : List Nat :=
  (s.registries.get r).live.filter (· ∉ (e.shared.registries.get r).live)

def registeredBy (r : Nat) : List (Frame H) → List Nat
  | [.enrol o] => if o.registry = r then [o.ticket] else []
  | _ => []

/-- The tickets that a cancel removes. -/
def cancelledBy (r : Nat) (s : Shared H) : List (Frame H) → List Nat
  | [.call (.cancelAll q)] => if q = r then (s.registries.get r).live else []
  | [.call (.expire x _)] =>
    if (s.timers.get x).registry = r then (s.registries.get r).live else []
  | [.call (.cancelFirst q)] => if q = r then (s.registries.get r).live.head?.toList else []
  | _ => []

def concludes : List (Frame H) → List (Frame H) → Bool
  | [.operation _], [.withdraw _ _] => true
  | _, _ => false

def isCall : List (Frame H) → Bool
  | [.call _] => true
  | _ => false

/-- The tickets that a finished operation takes for itself. -/
def claimedBy (r : Nat) (s : Shared H) (taken : List (Frame H)) (e : Effect H) : List Nat :=
  if concludes taken e.frames then removedBy r s e else []

def forgottenBy (r : Nat) (s : Shared H) (taken : List (Frame H)) (e : Effect H) : List Nat :=
  if isCall taken || concludes taken e.frames then [] else removedBy r s e

/-- The operations that the reactor does not take, or gives up when it is shut down. -/
def droppedBy (r : Nat) : List (Frame H) → List (Frame H) → Option (Operation H) →
    List (Operation H)
  | [.enlist o], _, none => if o.registry = r then [o] else []
  | [.operation o], [.dropTasks _], _ => if o.registry = r then [o] else []
  | _, _, _ => []

def changeBy (r k : Nat) (s : Shared H) (taken : List (Frame H)) (e : Effect H) :
    TicketCounts.Change :=
  { registered := (registeredBy r taken).count k
    claimed := (claimedBy r s taken e).count k
    cancelled := (cancelledBy r s taken).count k
    forgotten := (forgottenBy r s taken e).count k
    dropped := (droppedBy r taken e.frames e.started).countP (·.ticket = k) }

abbrev TicketDeed (r k : Nat) (s : Shared H) (taken : List (Frame H)) (e : Effect H) : Prop :=
  TicketCounts.Step (s.ticketCounts r k taken) (e.shared.ticketCounts r k e.put)
    (changeBy r k s taken e)

section

variable {r k me : Nat} {s : Shared H} {active : List Executor}

theorem TicketDeed.of {taken : List (Frame H)} {e : Effect H} {t : TicketCounts.Change}
    (h : TicketCounts.Step (s.ticketCounts r k taken) (e.shared.ticketCounts r k e.put) t)
    (ht : changeBy r k s taken e = t) : TicketDeed r k s taken e := by
  subst ht
  exact h

theorem removedBy_of_eq {e : Effect H}
    (h : (e.shared.registries.get r).live = (s.registries.get r).live) : removedBy r s e = [] := by
  simp [removedBy,h]

theorem count_live_enrol (q : Registry) (j : Nat) :
    (q.enrol j).live.count k = q.live.count k + if j = k then 1 else 0 := by
  have h := congrArg (List.count k)
    (List.takeWhile_append_dropWhile (p := fun i => i < j) (l := q.live))
  simp only [List.count_append] at h
  simp only [Registry.enrol,List.count_append,List.count_cons,beq_iff_eq]
  omega

theorem count_live_forget (q : Registry) (j : Nat) :
    (q.forget j).live.count k = if j = k then 0 else q.live.count k := by
  unfold Registry.forget
  split
  · rename_i h
    simp [h,List.count_eq_zero]
  · rename_i h
    exact List.count_filter (by simpa using fun h' => h h'.symm)

theorem next_forget (q : Registry) (j : Nat) : (q.forget j).next = q.next := rfl

theorem signalled_forget (q : Registry) (j : Nat) : (q.forget j).signalled = q.signalled := rfl

theorem next_enrol (q : Registry) (j : Nat) : (q.enrol j).next = q.next := rfl

theorem signalled_enrol (q : Registry) (j : Nat) : (q.enrol j).signalled = q.signalled := rfl

theorem ticketCounts_enrol (q j : Nat) (fs : List (Frame H)) :
    (s.onRegistry q (Registry.enrol j)).ticketCounts r k fs =
      { s.ticketCounts r k fs with
        live := (s.registries.get r).live.count k + if q = r ∧ j = k then 1 else 0 } := by
  by_cases hq : q = r
  · simp [Shared.ticketCounts,Shared.onRegistry,hq,count_live_enrol,next_enrol,signalled_enrol]
  · simp [Shared.ticketCounts,Shared.onRegistry,Table.get_update,hq]

theorem ticketCounts_forget (q j : Nat) (fs : List (Frame H)) :
    (s.onRegistry q (Registry.forget j)).ticketCounts r k fs =
      { s.ticketCounts r k fs with
        live := if q = r ∧ j = k then 0 else (s.registries.get r).live.count k } := by
  by_cases hq : q = r
  · simp [Shared.ticketCounts,Shared.onRegistry,hq,count_live_forget,next_forget,signalled_forget]
  · simp [Shared.ticketCounts,Shared.onRegistry,Table.get_update,hq]

theorem count_removedBy_forget {e : Effect H} {q j : Nat}
    (h : e.shared = s.onRegistry q (Registry.forget j)) : (removedBy r s e).count k =
      if q = r ∧ j = k then (s.registries.get r).live.count k else 0 := by
  by_cases hq : q = r
  · subst hq
    have hl : (e.shared.registries.get q).live = (s.registries.get q).live.filter (· ≠ j) := by
      simp [h,Shared.onRegistry,Registry.forget]
    unfold removedBy
    rw [hl]
    by_cases hj : j = k
    · subst hj
      rw [List.count_filter (by simp)]
      simp
    · rw [if_neg fun h => hj h.2]
      apply List.count_eq_zero.2
      simp [Ne.symm hj]
  · have hl : (e.shared.registries.get r).live = (s.registries.get r).live := by
      simp [h,Shared.onRegistry,Table.get_update,hq]
    rw [removedBy_of_eq hl,if_neg fun h => hq h.1]
    rfl

theorem removedBy_of_enrol {e : Effect H} {q j : Nat}
    (h : e.shared = s.onRegistry q (Registry.enrol j)) : removedBy r s e = [] := by
  unfold removedBy
  rw [h,List.filter_eq_nil_iff]
  intro i hi
  simp only [Shared.onRegistry,Table.get_update]
  split
  · have hc := count_live_enrol (k := i) (s.registries.get r) j
    have hi := List.count_pos_iff.2 hi
    have hm : i ∈ ((s.registries.get r).enrol j).live := List.count_pos_iff.1 (by omega)
    simpa using hm
  · simpa using hi

theorem live_onRegistry {q : Nat} {f : Registry → Registry} (hf : ∀ p, (f p).live = p.live) :
    ((s.onRegistry q f).registries.get r).live = (s.registries.get r).live := by
  simp only [Shared.onRegistry,Table.get_update]
  split
  · exact hf _
  · rfl

theorem changeBy_of_removedBy {taken : List (Frame H)} {e : Effect H}
    (hl : removedBy r s e = []) :
    changeBy r k s taken e =
      { registered := (registeredBy r taken).count k
        cancelled := (cancelledBy r s taken).count k
        dropped := (droppedBy r taken e.frames e.started).countP (·.ticket = k) } := by
  simp [changeBy,claimedBy,forgottenBy,hl]

theorem changeBy_of_forget {taken : List (Frame H)} {e : Effect H} {q j : Nat}
    (he : e.shared = s.onRegistry q (Registry.forget j)) (ht : isCall taken = false) :
    changeBy r k s taken e =
      { registered := (registeredBy r taken).count k
        claimed :=
          if concludes taken e.frames ∧ q = r ∧ j = k then (s.registries.get r).live.count k
          else 0
        cancelled := (cancelledBy r s taken).count k
        forgotten :=
          if concludes taken e.frames = false ∧ q = r ∧ j = k then
            (s.registries.get r).live.count k
          else 0
        dropped := (droppedBy r taken e.frames e.started).countP (·.ticket = k) } := by
  have hc : (removedBy r s e).count k = _ := count_removedBy_forget he
  cases hs : concludes taken e.frames <;> simp [changeBy,claimedBy,forgottenBy,hs,ht,hc]

theorem TicketDeed.of_live {taken : List (Frame H)} {e : Effect H} {i j n : Nat}
    (hl : (e.shared.registries.get r).live = (s.registries.get r).live)
    (h : TicketCounts.Step (s.ticketCounts r k taken) (e.shared.ticketCounts r k e.put)
      { registered := i, cancelled := j, dropped := n })
    (hr : (registeredBy r taken).count k = i) (hc : (cancelledBy r s taken).count k = j)
    (hd : (droppedBy r taken e.frames e.started).countP (·.ticket = k) = n) :
    TicketDeed r k s taken e := by
  refine .of h ?_
  rw [changeBy_of_removedBy (removedBy_of_eq hl),hr,hc,hd]

attribute [local simp] weigh Shared.ticketCounts Operation.mark Frame.enrolling Frame.opened
  Frame.withdrawing Frame.forgetting Frame.signals Effect.put Shared.onRegistry Table.get_update

attribute [local simp] changeBy registeredBy claimedBy cancelledBy forgottenBy droppedBy
  concludes isCall

theorem ticketDeed_initiate (c q : Nat) (due : Option Instant) (o : Outcome) (t : Task H)
    (k' : Call H)
    (hn : cancelledBy r s [.call k'] = []) :
    TicketDeed r k s [.call k'] (Frame.initiate s active c q due o t) := by
  have hl : ((Frame.initiate s active c q due o t).shared.registries.get r).live =
      (s.registries.get r).live := live_onRegistry fun _ => rfl
  by_cases h : q = r ∧ k = (s.registries.get r).next
  · obtain ⟨rfl,rfl⟩ := h
    refine .of_live hl (.draw ?_ ?_) rfl (by rw [hn]; rfl) rfl
    · simp
    · simp [Frame.initiate,Registry.draw]
  · refine .of_live hl (.keep ?_) rfl (by rw [hn]; rfl) rfl
    by_cases hq : q = r
    · have hk : k ≠ (s.registries.get r).next := fun hk => h ⟨hq,hk⟩
      have hi : k < (s.registries.get r).next + 1 ↔ k < (s.registries.get r).next := by omega
      simp [Frame.initiate,Registry.draw,hq,hk.symm,hi]
    · simp [Frame.initiate,hq]

theorem ticketDeed_expire (x : Nat) (t : Instant) :
    TicketDeed r k s [.call (.expire x t)]
      { shared := (s.onRegistry (s.timers.get x).registry Registry.cancelAll).onTimer x
          fun timer => { timer with expiry := t }
        active, frames := Frame.revoke s (s.timers.get x).registry } := by
  by_cases h : (s.timers.get x).registry = r
  · refine .of (.cancelAll ?_) ?_
    · simp [Frame.revoke,Shared.onTimer,Registry.cancelAll,h]
    · simp [h]
  · refine .of (.keep ?_) ?_
    · simp [Frame.revoke,Shared.onTimer,h]
    · simp [h]

theorem ticketDeed_cancelAll (q : Nat) :
    TicketDeed r k s [.call (.cancelAll q)]
      { shared := s.onRegistry q Registry.cancelAll, active, frames := Frame.revoke s q } := by
  by_cases h : q = r
  · refine .of (.cancelAll ?_) ?_
    · simp [Frame.revoke,Registry.cancelAll,h]
    · simp [h]
  · refine .of (.keep ?_) ?_
    · simp [Frame.revoke,h]
    · simp [h]

theorem ticketDeed_cancelFirst (q : Nat) :
    TicketDeed r k s [.call (.cancelFirst q)]
      { shared := s.onRegistry q Registry.cancelFirst, active
        frames := [.reply (.count (s.registries.get q).first)] } := by
  by_cases hq : q = r
  · subst hq
    cases hl : (s.registries.get q).live with
    | nil =>
      refine .of (.keep ?_) ?_
      · simp [Registry.cancelFirst,hl]
      · simp [hl]
    | cons j js =>
      by_cases hj : j = k
      · refine .of (.cancelFirst (js.count k) ?_ ?_) ?_
        · simp [hl,hj]
        · simp [Registry.cancelFirst,hl,hj]
        · simp [hl,hj]
      · refine .of (.keep ?_) ?_
        · simp [Registry.cancelFirst,hl,hj]
        · simp [hl,hj]
  · refine .of (.keep ?_) ?_
    · simp [hq]
    · simp [hq]

theorem weightless_enrolling : Frame.Weightless (H := H) (Frame.enrolling r k) := by
  intro f hf
  cases f <;> simp_all [Frame.idles,Frame.enrolling]

theorem weightless_opened : Frame.Weightless (H := H) (Frame.opened r k) := by
  intro f hf
  cases f <;> simp_all [Frame.idles,Frame.opened]

theorem weightless_withdrawing : Frame.Weightless (H := H) (Frame.withdrawing r k) := by
  intro f hf
  cases f <;> simp_all [Frame.idles,Frame.withdrawing]

theorem weightless_forgetting : Frame.Weightless (H := H) (Frame.forgetting r k) := by
  intro f hf
  cases f <;> simp_all [Frame.idles,Frame.forgetting]

theorem weightless_signals : Frame.Weightless (H := H) (Frame.signals r k) := by
  intro f hf
  cases f <;> simp_all [Frame.idles,Frame.signals]

theorem ticketDeed_drop {o : Operation H} {e : Effect H} (hs : e.shared = s) (hn : e.started = none)
    (hf : s.ticketCounts r k e.frames = s.ticketCounts r k [.forget o.registry o.ticket]) :
    TicketDeed r k s [.enlist o] e := by
  subst hs
  have hp : e.put = e.frames := by simp [hn]
  by_cases ho : o.registry = r ∧ o.ticket = k
  · refine .of_live rfl (.refuse 0 ?_ ?_) rfl rfl ?_
    · simp [ho]
    · rw [hp,hf]
      simp [ho]
    · simp [hn,ho]
  · refine .of_live rfl (.keep ?_) rfl rfl ?_
    · rw [hp,hf]
      simp [ho]
    · simpa [hn] using ho

theorem ticketDeed_claim (o : Operation H) :
    TicketDeed r k s [.operation o]
      { shared := s.onRegistry o.registry (Registry.forget o.ticket), active
        frames := [.withdraw o o.outcome] } := by
  by_cases ho : o.registry = r ∧ o.ticket = k
  · refine .of (.claim 0 ?_ ?_) ?_
    · simp [ho]
    · rw [ticketCounts_forget]
      simp [ho]
    · rw [changeBy_of_forget rfl rfl]
      simp [ho]
  · refine .of (.keep ?_) ?_
    · rw [ticketCounts_forget]
      simp [ho]
    · rw [changeBy_of_forget rfl rfl]
      simp [ho]

theorem ticketDeed_miss {o : Operation H} (hm : o.ticket ∉ (s.registries.get o.registry).live ∨
      o.ticket ∈ (s.registries.get o.registry).signalled) :
    TicketDeed r k s [.operation o]
      { shared := s, active, frames := [.withdraw o (.failed .aborted)] } := by
  by_cases ho : o.registry = r ∧ o.ticket = k
  · refine .of_live rfl (.miss 0 ?_ ?_ ?_) rfl rfl rfl
    · simp [ho]
    · obtain ⟨rfl,rfl⟩ := ho
      exact hm.imp List.count_eq_zero.2 List.count_pos_iff.2
    · simp [ho]
  · refine .of_live rfl (.keep ?_) rfl rfl rfl
    simp [ho]

theorem ticketDeed_abandon (o : Operation H) :
    TicketDeed r k s [.operation o] (Frame.abandon s active o) := by
  have hd : (Frame.abandon s active o).shared.ticketCounts r k (Frame.abandon s active o).put = _ :=
    ticketCounts_forget o.registry o.ticket [.dropTasks [o.task]]
  by_cases ho : o.registry = r ∧ o.ticket = k
  · refine .of (.abandon 0 ?_ ?_) ?_
    · simp [ho]
    · rw [hd]
      simp [ho]
    · rw [changeBy_of_forget rfl rfl]
      simp [Frame.abandon,ho]
  · refine .of (.keep ?_) ?_
    · rw [hd]
      simp [ho]
    · rw [changeBy_of_forget rfl rfl]
      simpa [Frame.abandon,if_neg ho] using ho

theorem ticketDeed_withdraw {o : Operation H} {q : Outcome} {g : Frame H}
    (hg : s.ticketCounts r k [g] = s.ticketCounts r k []) :
    TicketDeed r k s [.withdraw o q]
      { shared := s.onRegistry o.registry (Registry.forget o.ticket), active, frames := [g] } := by
  have hd : (s.onRegistry o.registry (Registry.forget o.ticket)).ticketCounts r k [g] = _ :=
    ticketCounts_forget o.registry o.ticket _
  by_cases ho : o.registry = r ∧ o.ticket = k
  · refine .of (.withdraw 0 ?_ ?_) ?_
    · simp [ho]
    · rw [Effect.put,hd,hg]
      simp [ho]
    · rw [changeBy_of_forget rfl rfl]
      simp [ho]
  · refine .of (.keep ?_) ?_
    · rw [Effect.put,hd,hg]
      simp [ho]
    · rw [changeBy_of_forget rfl rfl]
      simp [ho]

theorem ticketDeed_forget (q j : Nat) :
    TicketDeed r k s [.forget q j] { shared := s.onRegistry q (Registry.forget j), active } := by
  have hd : (s.onRegistry q (Registry.forget j)).ticketCounts r k ([] : List (Frame H)) = _ :=
    ticketCounts_forget q j []
  by_cases ho : q = r ∧ j = k
  · refine .of (.forget 0 ?_ ?_) ?_
    · simp [ho]
    · rw [Effect.put,hd]
      simp [ho]
    · rw [changeBy_of_forget rfl rfl]
      simp [ho]
  · refine .of (.keep ?_) ?_
    · rw [Effect.put,hd]
      simp [ho]
    · rw [changeBy_of_forget rfl rfl]
      simp [ho]

theorem ticketDeed_enrol (o : Operation H) :
    TicketDeed r k s [.enrol o]
      { shared := s.onRegistry o.registry (Registry.enrol o.ticket), active
        frames := [.countStart o] } := by
  have hd : (s.onRegistry o.registry (Registry.enrol o.ticket)).ticketCounts r k [.countStart o] = _ :=
    ticketCounts_enrol o.registry o.ticket [.countStart o]
  by_cases ho : o.registry = r ∧ o.ticket = k
  · refine .of (.enrol 0 ?_ ?_) ?_
    · simp [ho]
    · rw [Effect.put,hd]
      simp [ho]
    · rw [changeBy_of_removedBy (removedBy_of_enrol rfl)]
      simp [ho]
  · refine .of (.keep ?_) ?_
    · rw [Effect.put,hd]
      simp [ho]
    · rw [changeBy_of_removedBy (removedBy_of_enrol rfl)]
      by_cases hr : o.registry = r <;> simp_all

theorem ticketDeed_signal (q j : Nat) (js : List Nat) :
    TicketDeed r k s [.signal q (j :: js)]
      { shared := s.onRegistry q (Registry.signal j), active, frames := [.signal q js] } := by
  have hl : ((s.onRegistry q (Registry.signal j)).registries.get r).live =
      (s.registries.get r).live := live_onRegistry fun _ => rfl
  by_cases hq : q = r
  · by_cases hj : j = k
    · refine .of_live hl (.signal (js.count k) ?_ ?_) rfl rfl rfl
      · simp [hq,hj]
      · simp [Registry.signal,hq,hj]
    · refine .of_live hl (.keep ?_) rfl rfl rfl
      simp [Registry.signal,hq,hj]
  · refine .of_live hl (.keep ?_) rfl rfl rfl
    simp [hq]

theorem ticketDeed_rewrite {f : Frame H} {frames : List (Frame H)}
    (hr : Rewrite me s active f frames) :
    TicketDeed r k s [f] { shared := s, active, frames } := by
  cases hr with
  | refuse | startPanic => exact ticketDeed_drop rfl rfl (by simp)
  | claimLost o hd hl => exact ticketDeed_miss (Or.inl hl)
  | heeded o hs => exact ticketDeed_miss (Or.inr hs)
  | signalNil => exact .of_live rfl (.keep (by simp)) rfl rfl rfl
  | destroy hf | ended hf | overdue hf =>
    cases hf <;> exact .of_live rfl (.keep rfl) rfl rfl rfl
  | dropJobsCons j => cases j <;> exact .of_live rfl (.keep rfl) rfl rfl rfl
  | _ => exact .of_live rfl (.keep rfl) rfl rfl rfl

theorem ticketDeed_rule {f : Frame H} {e : Effect H} (hr : Rule me s active f e) :
    TicketDeed r k s [f] e := by
  cases hr with
  | rewrite hr => exact ticketDeed_rewrite hr
  | wait | start => exact ticketDeed_initiate _ _ _ _ _ _ rfl
  | expire x t => exact ticketDeed_expire x t
  | cancelAll q => exact ticketDeed_cancelAll q
  | cancelFirst q => exact ticketDeed_cancelFirst q
  | enrol o => exact ticketDeed_enrol o
  | abandon o => exact ticketDeed_abandon o
  | claim o => exact ticketDeed_claim o
  | withdraw | withdrawAborted => exact ticketDeed_withdraw (by simp)
  | forget q j => exact ticketDeed_forget q j
  | signal q j js => exact ticketDeed_signal q j js
  | enqueue hf | runDry hf | sleep hf => cases hf <;> exact .of_live rfl (.keep rfl) rfl rfl rfl
  | take hf j => cases hf <;> cases j <;> exact .of_live rfl (.keep rfl) rfl rfl rfl
  | _ => exact .of_live rfl (.keep rfl) rfl rfl rfl

theorem ticketDeed_shift {taken frames : List (Frame H)} (hs : Shift taken frames)
    (hr : taken.tail.all Frame.rests = true) :
    TicketDeed r k s taken { shared := s, active, frames } := by
  have hn : registeredBy r taken = [] ∧ cancelledBy r s taken = [] ∧
      droppedBy r taken frames none = [] := by
    cases hs <;> exact ⟨rfl,rfl,rfl⟩
  refine .of (.keep ?_) ?_
  · simp only [Shared.ticketCounts,Effect.put,weigh_shift weightless_enrolling hs hr,
      weigh_shift weightless_opened hs hr,weigh_shift weightless_withdrawing hs hr,
      weigh_shift weightless_forgetting hs hr,weigh_shift weightless_signals hs hr]
  · refine (changeBy_of_removedBy (removedBy_of_eq rfl)).trans ?_
    rw [hn.1,hn.2.1,hn.2.2]
    rfl

theorem ticketDeed_deed {taken : List (Frame H)} {e : Effect H} (hd : Deed me s active taken e)
    (hr : taken.tail.all Frame.rests = true) : TicketDeed r k s taken e := by
  obtain ⟨frames,hs,rfl⟩ | ⟨f,rfl,hf⟩ := hd.shift_or_rule
  · exact ticketDeed_shift hs hr
  · exact ticketDeed_rule hf

end

namespace Machine

def ticketCounts (r k : Nat) (m : Machine H) : TicketCounts :=
  { drawn := if k < (m.shared.registries.get r).next then 1 else 0
    live := (m.shared.registries.get r).live.count k
    signalled := (m.shared.registries.get r).signalled.count k
    enrolling := m.weight (Frame.enrolling r k)
    opened := m.weight (Frame.opened r k)
    withdrawing := m.weight (Frame.withdrawing r k)
    forgetting := m.weight (Frame.forgetting r k)
    signals := m.weight (Frame.signals r k) }

def registered (r : Nat) (_ : Machine H) (a : Act H) : List Nat := registeredBy r a.taken

def claimed (r : Nat) (m : Machine H) (a : Act H) : List Nat :=
  claimedBy r m.shared a.taken a.effect

def cancelled (r : Nat) (m : Machine H) (a : Act H) : List Nat :=
  cancelledBy r m.shared a.taken

def forgotten (r : Nat) (m : Machine H) (a : Act H) : List Nat :=
  forgottenBy r m.shared a.taken a.effect

def dropped (r : Nat) (_ : Machine H) (a : Act H) : List (Operation H) :=
  droppedBy r a.taken a.effect.frames a.effect.started

/-- What a run has done to ticket `k` of registry `r`. -/
def changes (r k : Nat) (moves : List (Move H)) : TicketCounts.Change :=
  { registered := (history (registered r) moves).count k
    claimed := (history (claimed r) moves).count k
    cancelled := (history (cancelled r) moves).count k
    forgotten := (history (forgotten r) moves).count k
    dropped := (history (dropped r) moves).countP (·.ticket = k) }

theorem ticketCounts_perform (r k : Nat) {m : Machine H} (hm : ∀ i, (m.thread i).Sound) {a : Act H}
    (ha : a.Fits m) :
    TicketCounts.Step (m.ticketCounts r k) ((m.perform a).ticketCounts r k)
      (changeBy r k m.shared a.taken a.effect) := by
  obtain ⟨i,hi,hi'⟩ := exists_weight_perform ha (Frame.enrolling r k)
  obtain ⟨j,hj,hj'⟩ := exists_weight_perform ha (Frame.opened r k)
  obtain ⟨l,hl,hl'⟩ := exists_weight_perform ha (Frame.withdrawing r k)
  obtain ⟨n,hn,hn'⟩ := exists_weight_perform ha (Frame.forgetting r k)
  obtain ⟨q,hq,hq'⟩ := exists_weight_perform ha (Frame.signals r k)
  have hs := (ticketDeed_deed (r := r) (k := k) ha.deed (ha.rests_tail hm)).add i j l n q
  have h : (m.shared.ticketCounts r k a.taken).add i j l n q = m.ticketCounts r k := by
    simp only [Shared.ticketCounts,TicketCounts.add,ticketCounts,hi,hj,hl,hn,hq]
  have h' : (a.effect.shared.ticketCounts r k a.effect.put).add i j l n q =
      (m.perform a).ticketCounts r k := by
    simp only [Shared.ticketCounts,TicketCounts.add,ticketCounts,hi',hj',hl',hn',hq']
    rfl
  rwa [h,h'] at hs

theorem registries_happen (r : Nat) (m : Machine H) (y : Move H) :
    (m.happen y).shared.registries.get r = m.shared.registries.get r := by
  have hd (h : r = m.shared.registries.size) : m.shared.registries.get r = {} :=
    Table.get_of_size_le _ (Nat.le_of_eq h.symm)
  cases y with
  | addRegistry | addTimer home expiry =>
    simp only [happen,mapShared,Table.get_push]
    split
    · rename_i h
      rw [hd h]
    · rfl
  | _ => rfl

theorem ticketCounts_happen (r k : Nat) (m : Machine H) (y : Move H) :
    (m.happen y).ticketCounts r k = m.ticketCounts r k := by
  simp only [ticketCounts,registries_happen,weight_happen weightless_enrolling,
    weight_happen weightless_opened,weight_happen weightless_withdrawing,
    weight_happen weightless_forgetting,weight_happen weightless_signals]

theorem ticketCounts_run (r k : Nat) (moves : List (Move H)) :
    ((run moves).ticketCounts r k).Sound (changes r k moves) := by
  induction moves using run_induction with
  | start =>
    have h : (run ([] : List (Move H))).ticketCounts r k = ⟨0,0,0,0,0,0,0,0⟩ := rfl
    rw [h]
    exact ⟨Nat.zero_le 1,rfl,rfl,Nat.le_refl 0,fun h => absurd h (Nat.lt_irrefl 0),Or.inl rfl,
      fun h => absurd h (Nat.lt_irrefl 0),rfl⟩
  | move xs y ih =>
    rw [run_concat]
    obtain ⟨a,hy,ha,hmove⟩ | ⟨hy,hmove⟩ := move_cases (run xs) y
    · have hs := (ticketCounts_perform r k (sound_run xs) ha).sound ih
      rw [hmove]
      simpa [changes,TicketCounts.Change.add,changeBy,history_concat,noted_of_act? hy,registered,
        claimed,cancelled,forgotten,dropped] using hs
    · rw [hmove,ticketCounts_happen]
      simpa [changes,history_concat,noted_of_act?_none hy] using ih

end Machine
end EventLoop
