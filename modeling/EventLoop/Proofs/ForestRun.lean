import EventLoop.Proofs.Submitters
import EventLoop.Proofs.Halting

/-! What a run of the loop leaves of a forest of handlers. Each handler that is submitted is on its
way, waits or has been called; the loop stops when no work is left, and from then on there is none,
since only what runs within a job submits more. -/
namespace EventLoop

variable {H : Type}

open Table (weigh)

/-- The handlers that user code asks to run. -/
def requestedBy : List (Frame H) → List (Frame H) → List H
  | [.code _ _ _], .call (.post _ t) :: _ | [.code _ _ _], .call (.dispatch _ t) :: _ => [t.core]
  | _, _ => []

def Task.isBody (p : H → Bool) : Task H → Bool
  | .body h _ => p h
  | .bound _ _ => false

def Frame.bears (p : H → Bool) : Frame H → Nat
  | .call (.post _ t) | .call (.dispatch _ t) | .call (.invoke (.bound _ t)) | .tryLock _ t =>
    if p t.core then 1 else 0
  | _ => 0

abbrev Requests (c : Nat) (p : H → Bool) (s : Shared H) (taken : List (Frame H)) (e : Effect H) :
    Prop :=
  (requestedBy taken e.frames).countP p + weigh (Frame.bears p) taken +
      (drawnBy c s taken e.frames).countP (fun t => p t.core) =
    weigh (Frame.bears p) e.put + (calledBy e.frames).countP (Task.isBody p) +
      (sentBy c s taken).countP fun t => p t.core

section

variable {c me : Nat} {isSetUp : Bool} {p : H → Bool} {s : Shared H} {active : List Executor}
  {rest : List (Frame H)}

theorem bears_invoke (t : Task H) :
    (Frame.call (.invoke t)).bears p + [t].countP (Task.isBody p) =
      [t].countP fun t => p t.core := by
  cases t with
  | body h given => by_cases hp : p h = true <;> simp [Frame.bears,Task.isBody,Task.core,hp]
  | bound e t => by_cases hp : p t.core = true <;> simp [Frame.bears,Task.isBody,Task.core,hp]

attribute [local simp] weigh requestedBy Frame.bears drawnBy handedBy tasksIn pickedBy sentBy postedBy
  reportedBy calledBy Effect.put

theorem requests_rewrite {f : Frame H} {frames : List (Frame H)}
    (hr : Rewrite me s active f frames) (hs : s.Allowed c)
    (hf : f.Allowed c isSetUp s.strands rest) :
    Requests c p s [f] { shared := s, active, frames } := by
  cases hr with
  | destroy hq hc =>
    cases hq with
    | post =>
      obtain rfl : _ = c := hf.1
      rw [hs.owned] at hc
      cases hc
    | schedule x =>
      have hx : (s.strands.get x).home = c := hf.1.2
      rw [hx,hs.owned] at hc
      cases hc
  | ended hl | overdue hl => cases hl <;> rfl
  | dispatchInside e t =>
    have ht := bears_invoke (p := p) t
    rw [List.countP_cons,List.countP_nil] at ht
    simpa [Requests] using ht.symm
  | turnNone x hw => simp [Requests,hw,hf.2.1.2]
  | _ => first | exact hf.elim | exact Bool.noConfusion hf | simp [Requests]

theorem requests_rule {f : Frame H} {e : Effect H} (hr : Rule me s active f e) (hs : s.Allowed c)
    (hf : f.Allowed c isSetUp s.strands rest) : Requests c p s [f] e := by
  cases hr with
  | rewrite hr => exact requests_rewrite hr hs hf
  | enqueue hq =>
    cases hq with
    | post =>
      obtain rfl : _ = c := hf.1
      simp [Requests,List.countP_cons]
    | schedule x => simp [Requests]
  | postIdle x t | postBusy x t => simp [Requests,hf.1.2,List.countP_cons]
  | take hl j =>
    cases hl <;> obtain ⟨-,rfl,rfl,rfl⟩ := hf <;> cases j with
    | task t =>
      have ht := bears_invoke (p := p) t
      simpa [Requests,Frame.execute] using ht.symm
    | turn x => simp [Requests,Frame.execute]
  | runDry hl | sleep hl => cases hl <;> rfl
  | turn x t ts hw =>
    have ht := bears_invoke (p := p) t
    simpa [Requests,hw,hf.2.1.2] using ht.symm
  | lock x t =>
    have ht := bears_invoke (p := p) t
    rw [List.countP_cons,List.countP_nil] at ht
    simpa [Requests] using ht.symm
  | _ => first | exact hf.elim | exact Bool.noConfusion hf | simp [Requests]

theorem requests_deed {taken : List (Frame H)} {e : Effect H} (hd : Deed me s active taken e)
    (hs : s.Allowed c) (h : StackAllowed c isSetUp s.strands (taken ++ rest))
    (ho : Obeys c isSetUp s.strands taken e.frames) : Requests c p s taken e := by
  obtain ⟨frames,hshift,rfl⟩ | ⟨f,rfl,hr⟩ := hd.shift_or_rule
  · cases hshift with
    | answer r => simp [Requests]
    | call role u made k =>
      have hk := allowed_of_may (ho.calls role u made k _ rfl rfl) h.1
      cases k with
      | post e t | dispatch e t => simp [Requests,List.countP_cons]
      | invoke t =>
        have hk := ho.calls role u made _ _ rfl rfl
        cases role <;> simp [Call.May,Call.asks,Call.Submits] at hk
      | _ => simp [Requests]
    | finish role u made => simp [Requests]
    | raise role u made t => exact absurd rfl (ho.calm role u made t _ rfl)
    | _ => exact h.1.elim
  · exact requests_rule hr hs h.1

theorem returnedBy_of_looks {f : Frame H} (hf : f.looks? = none) (fs : List (Frame H)) :
    returnedBy c [f] fs = [] := by
  unfold returnedBy
  split
  · rename_i g n hg hn
    obtain rfl := List.singleton_inj.1 hg
    simp [hf]
  · rfl

theorem halts_of_settingUp {f : Frame H} (hf : f.Allowed c false s.strands rest) :
    f.halts = false ∧ f.looks? = none := by
  cases f with
  | call k =>
    cases k with
    | stop d | closeGuard g | dropOwner d => exact Bool.noConfusion hf
    | _ => exact ⟨rfl,rfl⟩
  | finishWork d | drain d w limit ran | asleep d w limit ran | awake d w limit ran =>
    exact Bool.noConfusion hf.1
  | _ => exact ⟨rfl,rfl⟩

theorem finish_mem_of_bears {f : Frame H} (hf : f.Allowed c true s.strands rest)
    (h : 0 < f.bears p ∨ 0 < f.runs (Task.isBody p)) : .finish c ∈ rest := by
  cases f with
  | call k =>
    cases k with
    | post e t | dispatch e t => exact hf.2.2 rfl
    | invoke t => exact hf.2.2
    | _ => simp [Frame.bears,Frame.runs,Frame.running?] at h
  | tryLock x t => exact hf.2.2.2
  | code role u made =>
    cases role with
    | handler given => exact hf.2
    | _ => simp [Frame.bears,Frame.runs,Frame.running?] at h
  | _ => simp [Frame.bears,Frame.runs,Frame.running?] at h

theorem finish_mem_of_brought {f : Frame H} (hf : f.Allowed c true s.strands rest)
    (h : broughtBy s [f] ≠ none) : .finish c ∈ rest := by
  unfold broughtBy at h
  split at h
  · rename_i d t ht
    obtain rfl := List.singleton_inj.1 ht
    exact hf.2.2 rfl
  · rename_i x ht
    obtain rfl := List.singleton_inj.1 ht
    exact hf.2 rfl
  · rename_i o r ht
    obtain rfl := List.singleton_inj.1 ht
    exact hf.elim
  · exact absurd rfl h

end

theorem Ledger.Step.load_eq_zero {v v' : Ledger} {b d k cut : Nat} {halted : Bool}
    (h : Step v v' b d k halted) (hv : v.load cut = 0) (hq : v'.queued = 0) (hg : v'.guards = 0)
    (hb : b = 0) : v'.load (cut + k) = 0 := by
  unfold load at hv ⊢
  cases h with
  | begin h => exact absurd hb Nat.one_ne_zero
  | _ => simp_all

namespace Machine

def requested (_ : Machine H) (a : Act H) : List H := requestedBy a.taken a.effect.frames

/-- The jobs of loop `c` that are given up with an act since the owner goes. -/
def givenUp (c : Nat) (m : Machine H) (a : Act H) : List (Job H) :=
  match a.taken with
  | [.call (.dropOwner d)] => if d = c then (m.shared.loops.get c).queue else []
  | _ => []

/-- What stays true as long as user code only submits handlers and runs the loop. -/
structure Kept (c : Nat) (isSetUp : Bool) (moves : List (Move H)) : Prop where
  submitting : (run moves).Submitting c isSetUp
  requests : ∀ p : H → Bool, (history requested moves).countP p +
      (history (drawn c) moves).countP (fun t => p t.core) =
    (run moves).weight (Frame.bears p) + (history called moves).countP (Task.isBody p) +
      (history (sent c) moves).countP fun t => p t.core
  unwound : history (unwound c) moves = []
  givenUp : history (givenUp c) moves = []

section

variable {c : Nat} {isSetUp : Bool} {m : Machine H} {moves ys : List (Move H)} {y : Move H}

theorem behaving_concat (h : m.Behaving c isSetUp (ys ++ [y])) :
    m.Behaving c isSetUp ys ∧ (m.after ys).Behaves c isSetUp y := by
  induction ys generalizing m with
  | nil => exact ⟨trivial,h.1⟩
  | cons z ys ih => exact ⟨⟨h.1,(ih h.2).1⟩,(ih h.2).2⟩

theorem noted_of_submitting {α : Type} {note : Machine H → Act H → List α}
    (h : m.Submitting c isSetUp)
    (hn : ∀ (a : Act H) f, a.taken = [f] → f.Allowed c isSetUp m.shared.strands a.rest → note m a = [])
    (y : Move H) : m.noted note y = [] := by
  cases hy : m.act? y with
  | none => exact noted_of_act?_none hy
  | some a =>
    obtain ⟨f,hf,hmay,-⟩ := h.taken (fits_of_act? hy)
    rw [noted_of_act? hy]
    exact hn a f hf hmay

theorem restarts_of_submitting (h : m.Submitting c isSetUp) : m.noted (restarts c) y = [] := by
  refine noted_of_submitting h ?_ y
  intro a f hf ht
  unfold restarts
  rw [hf]
  split
  · rename_i d hd
    obtain rfl := List.singleton_inj.1 hd
    exact Bool.noConfusion ht
  · rfl

theorem begun_of_submitting (h : m.Submitting c isSetUp) : m.noted (begunHere c) y = [] := by
  refine noted_of_submitting h ?_ y
  intro a f hf ht
  rw [begunHere,hf]
  unfold begunOn
  split
  · rename_i o ho
    obtain rfl := List.singleton_inj.1 ho
    exact ht.elim
  · rfl

theorem unwound_of_submitting (h : m.Submitting c isSetUp) : m.noted (unwound c) y = [] := by
  refine noted_of_submitting h ?_ y
  intro a f hf _
  rw [unwound,hf]
  cases f <;> rfl

theorem givenUp_of_submitting (h : m.Submitting c isSetUp) : m.noted (givenUp c) y = [] := by
  refine noted_of_submitting h ?_ y
  intro a f hf ht
  unfold givenUp
  rw [hf]
  split
  · rename_i d hd
    obtain rfl := List.singleton_inj.1 hd
    exact Bool.noConfusion ht
  · rfl

theorem kept_start (c : Nat) : Kept (H := H) c false [] :=
  ⟨submitting_start c,fun _ => rfl,rfl,rfl⟩

theorem Kept.startRun (h : Kept c false moves) (hp : (run moves).IsSetUp) : Kept c true moves :=
  ⟨h.submitting.startRun hp,h.requests,h.unwound,h.givenUp⟩

theorem Kept.move (h : Kept c isSetUp moves) (hb : (run moves).Behaves c isSetUp y) :
    Kept c isSetUp (moves ++ [y]) := by
  have ht : ((run moves).move y).Submitting c isSetUp :=
    submitting_move (sound_run moves) h.submitting hb
  refine ⟨by rwa [run_concat],?_,?_,?_⟩
  · intro p
    have hq := h.requests p
    obtain ⟨a,hy,ha,hmove⟩ | ⟨hy,hmove⟩ := move_cases (run moves) y
    · obtain ⟨k,hk,hk'⟩ := exists_weight_perform ha (Frame.bears p)
      have hs := h.submitting.frames a.thread
      rw [ha.frames] at hs
      have hr : Requests c p (run moves).shared a.taken a.effect :=
        requests_deed ha.deed h.submitting.shared hs (obeys_of_behaves hb hy)
      simp only [run_concat,history_concat,List.countP_append,noted_of_act? hy,hmove,hk']
      simp only [requested,drawn,called,sent,Requests] at hr ⊢
      omega
    · simp only [run_concat,history_concat,noted_of_act?_none hy,hmove,
        weight_happen_of (w := Frame.bears p) fun _ => rfl]
      simpa using hq
  · rw [history_concat,h.unwound,unwound_of_submitting h.submitting]
    rfl
  · rw [history_concat,h.givenUp,givenUp_of_submitting h.submitting]
    rfl

theorem kept_settingUp (h : ({} : Machine H).Behaving c false moves) : Kept c false moves := by
  induction moves using List.reverseRecOn with
  | nil => exact kept_start c
  | append_singleton xs y ih =>
    obtain ⟨hxs,hy⟩ := behaving_concat h
    exact (ih hxs).move hy

theorem idle_settingUp (h : ({} : Machine H).Behaving c false moves) :
    ((run moves).shared.loops.get c).stopped = false ∧ history (returned c) moves = [] := by
  induction moves using List.reverseRecOn with
  | nil => exact ⟨rfl,rfl⟩
  | append_singleton xs y ih =>
    obtain ⟨hxs,-⟩ := behaving_concat h
    obtain ⟨hs,hr⟩ := ih hxs
    rw [run_concat,history_concat,hr]
    obtain ⟨a,hy,ha,hmove⟩ | ⟨hy,hmove⟩ := move_cases (run xs) y
    · obtain ⟨f,hf,hmay,-⟩ := (kept_settingUp hxs).submitting.taken ha
      obtain ⟨hh,hl⟩ := halts_of_settingUp hmay
      rw [hmove,noted_of_act? hy,returned,hf,returnedBy_of_looks hl]
      refine ⟨?_,rfl⟩
      by_contra hn
      obtain ⟨g,hg,hgh⟩ := (counterStep_move c hy).halted hs (by simpa using hn)
      rw [hf] at hg
      obtain rfl := List.singleton_inj.1 hg
      rw [hh] at hgh
      exact Bool.noConfusion hgh
    · rw [hmove,noted_of_act?_none hy]
      exact ⟨(counterStep_happen (run xs) y c).2.trans hs,rfl⟩

theorem stopped_of_returned (h : m.Submitting c isSetUp) {a : Act H} (hy : m.act? y = some a)
    (hr : m.returned c a ≠ []) : ((m.move y).shared.loops.get c).stopped = true := by
  have ha := fits_of_act? hy
  have hd := ha.deed
  obtain ⟨f,hf,hmay,-⟩ := h.taken ha
  rw [hf] at hd
  rw [returned,hf] at hr
  cases hl : f.looks? with
  | none => exact absurd (returnedBy_of_looks hl _) hr
  | some x =>
    obtain ⟨d,w,limit,ran⟩ := x
    have hx : d = c ∧ w = .block ∧ limit = none := by
      cases f with
      | drain d v l r | asleep d v l r | awake d v l r =>
        cases hl
        exact hmay.2
      | _ => cases hl
    obtain ⟨rfl,rfl,rfl⟩ := hx
    have hm : .reply (.count ran) ∈ a.effect.frames := by
      have hfinds := (finds_deed hd hl).1
      generalize a.effect.frames = fs at hr hfinds
      cases hfinds with
      | ended | dry => simp
      | _ => exact absurd rfl hr
    have hs := stopped_of_looks hd hl rfl hm
    rw [h.shared.owned] at hs
    rw [move_of_act? hy,shared_perform]
    exact hs.resolve_right Bool.false_ne_true

/-- A loop that is run, and that has stopped by itself once a call has returned. -/
structure ForestServed (c : Nat) (moves : List (Move H)) : Prop extends Kept c true moves where
  stops : history (returned c) moves ≠ [] → ((run moves).shared.loops.get c).stopped = true
  spent : ((run moves).shared.loops.get c).stopped = true → load c moves = 0

theorem queue_of_load (hz : load c moves = 0) : ((run moves).shared.loops.get c).queue = [] := by
  unfold load at hz
  exact List.eq_nil_of_length_eq_zero (by omega)

theorem outstanding_of_load (hc : ((run moves).shared.loops.get c).closed = false)
    (hz : load c moves = 0) : ((run moves).shared.loops.get c).outstanding = 0 :=
  ((balanced_ledger c moves).outstanding hc).trans hz

theorem queue_of_spent (h : (run moves).Submitting c true) (hz : load c moves = 0) (y : Move H) :
    (((run moves).move y).shared.loops.get c).queue = [] := by
  have hq := queue_of_load hz
  have ho := outstanding_of_load h.shared.owned hz
  obtain ⟨a,hy,ha,hmove⟩ | ⟨-,hmove⟩ := move_cases (run moves) y
  · obtain ⟨f,hf,hmay,-⟩ := h.taken ha
    have hb : broughtBy (run moves).shared a.taken = none := by
      by_contra hb
      rw [hf] at hb
      have hm : .finish c ∈ ((run moves).thread a.thread).frames := by
        rw [ha.frames]
        exact List.mem_append_right _ (finish_mem_of_brought hmay hb)
      exact outstanding_of_finish h.shared.owned hm ho
    have hn : a.taken ≠ [.call (.dropOwner c)] := by
      rw [hf]
      intro hn
      obtain rfl := List.singleton_inj.1 hn
      exact Bool.noConfusion hmay
    have hord := (queued_move c hy).order hn
    rw [hq,offeredBy,hb] at hord
    rw [hmove]
    exact (List.append_eq_nil_iff.1 hord).2
  · rw [hmove,queue_happen]
    exact hq

theorem ForestServed.move (h : ForestServed c moves) (hb : (run moves).Behaves c true y) :
    ForestServed c (moves ++ [y]) := by
  have hk := h.toKept.move hb
  have ht := hk.submitting
  rw [run_concat] at ht
  refine ⟨hk,?_,?_⟩
  · intro hr
    rw [run_concat]
    by_cases hp : history (returned c) moves = []
    · rw [history_concat,hp,List.nil_append] at hr
      cases hy : (run moves).act? y with
      | none => exact absurd (noted_of_act?_none hy) hr
      | some a =>
        rw [noted_of_act? hy] at hr
        exact stopped_of_returned h.submitting hy hr
    · exact stopped_move (h.stops hp) (restarts_of_submitting h.submitting)
  · intro hs
    rw [run_concat] at hs
    rw [load_concat]
    cases hp : ((run moves).shared.loops.get c).stopped with
    | false =>
      obtain hh | hl := (stopsWhenDry_ledger c moves y).stops ht.shared.owned hp hs
      · rw [Option.any_eq_true] at hh
        obtain ⟨a,ha,hh⟩ := hh
        obtain ⟨f,hf,hmay,-⟩ := h.submitting.taken (fits_of_act? ha)
        rw [taken_of_haltedOn hh] at hf
        obtain rfl := List.singleton_inj.1 hf
        exact Bool.noConfusion hmay
      · exact hl
    | true =>
      have hz := h.spent hp
      have hstep := ledger_move c (sound_run moves) y
      rw [history_concat,List.length_append]
      refine hstep.load_eq_zero hz ?_ ht.shared.guards ?_
      · exact congrArg List.length (queue_of_spent h.submitting hz y)
      · rw [begun_of_submitting h.submitting]
        rfl

end

end Machine
end EventLoop
