import EventLoop.Proofs.Queue

/-! Calls of the run family that end at a deadline. The deadline is tested when there is nothing
to do, so it keeps a call from sleeping and not from taking jobs: as long as jobs are ready, a
call outlasts its deadline. -/
namespace EventLoop

variable {H : Type}

/-- A call that looks for work: its loop, how long it waits, its limit and the jobs it has taken. -/
def Frame.looks? : Frame H → Option (Nat × Wait × Option Nat × Nat)
  | .drain c w limit ran | .asleep c w limit ran | .awake c w limit ran => some (c, w, limit, ran)
  | _ => none

/-- The job that a call with deadline `t` takes at `t` or later. -/
def lateBy (t : Instant) (s : Shared H) (frames : List (Frame H)) :
    List (Frame H) → List (Job H)
  | [f] =>
    match f.looks? with
    | some (c, .deadline u, _, _) => if u = t ∧ t ≤ s.now then handedBy c frames else []
    | _ => []
  | _ => []

/-- How a call with deadline `t` goes on from a frame with which it looks for work at `t` or later.
It never sleeps. -/
inductive Expires (f : Frame H) (c : Nat) (t : Instant) (limit : Option Nat) (ran : Nat)
    (s : Shared H) : List (Frame H) → Prop
  | take (j : Job H) (rest : List (Job H))
      (hs : (s.loops.get c).stopped = false ∧ (s.loops.get c).closed = false)
      (hq : (s.loops.get c).queue = j :: rest) :
      Expires f c t limit ran s
        [Frame.execute j, .finish c, .leave (.loop c), .drain c (.deadline t) limit (ran + 1)]
  | done
      (h : limit.any (· ≤ ran) = true ∨ (s.loops.get c).stopped = true ∨
        (s.loops.get c).closed = true ∨ (s.loops.get c).queue = []) :
      Expires f c t limit ran s [.reply (.count ran)]
  | dry (hq : (s.loops.get c).queue = [] ∧ (s.loops.get c).outstanding = 0) :
      Expires f c t limit ran s [.notifyAll c, .reply (.count ran)]
  | wake (hf : f = .asleep c (.deadline t) limit ran) :
      Expires f c t limit ran s [.awake c (.deadline t) limit ran]

theorem Frame.Looks.looks? {me : Nat} {s : Shared H} {c : Nat} {w : Wait} {limit : Option Nat}
    {ran : Nat} {f : Frame H} (h : f.Looks me s c w limit ran) :
    f.looks? = some (c, w, limit, ran) := by
  cases h <;> rfl

section

variable {me : Nat} {s : Shared H} {active : List Executor} {c : Nat} {t : Instant}
  {limit : Option Nat} {ran : Nat} {f : Frame H} {e : Effect H}

theorem expires_rule (hr : Rule me s active f e)
    (hl : f.looks? = some (c, .deadline t, limit, ran)) (ht : t ≤ s.now) :
    Expires f c t limit ran s e.frames := by
  cases hr with
  | rewrite hr =>
    cases hr with
    | full d w l r hf =>
      cases hl
      exact .done (Or.inl hf)
    | ended hf hp =>
      cases hf.looks?.symm.trans hl
      exact .done (Or.inr ((Bool.or_eq_true_iff.1 (pick_ended hp)).imp_right Or.inl))
    | overdue hf hp =>
      cases hf.looks?.symm.trans hl
      exact .done (Or.inr (Or.inr (Or.inr (pick_idle hp).2.1)))
    | destroy hf => cases hf <;> cases hl
    | _ => cases hl
  | take hf j rest hp =>
    cases hf.looks?.symm.trans hl
    obtain ⟨hs,hq⟩ := pick_job hp
    exact .take j rest (Bool.or_eq_false_iff.1 hs) hq
  | runDry hf hp =>
    cases hf.looks?.symm.trans hl
    exact .dry (pick_dry hp).2
  | sleep hf hp hw =>
    cases hf.looks?.symm.trans hl
    exact absurd ht (of_decide_eq_false hw)
  | disturb d w l r =>
    cases hl
    exact .wake rfl
  | enqueue hf => cases hf <;> cases hl
  | _ => cases hl

theorem expires_deed (hd : Deed me s active [f] e)
    (hl : f.looks? = some (c, .deadline t, limit, ran)) (ht : t ≤ s.now) :
    Expires f c t limit ran s e.frames := by
  obtain ⟨frames,hs,rfl⟩ | hr := hd.rule_of_singleton
  · cases hs <;> cases hl
  · exact expires_rule hr hl ht

end

namespace Machine

def late (t : Instant) (m : Machine H) (a : Act H) : List (Job H) :=
  lateBy t m.shared a.effect.frames a.taken

/-- A call with deadline `t` that looks for work at `t` or later takes a job that is ready. It ends
if there is none, and else only at its limit or because the loop is stopped or has no owner. -/
def Lingers (t : Instant) (m : Machine H) : Prop :=
  ∀ y a f c limit ran, m.act? y = some a → a.taken = [f] →
    f.looks? = some (c, .deadline t, limit, ran) → t ≤ m.shared.now →
      Expires f c t limit ran m.shared a.effect.frames

/-- Whatever happens, a call goes on after its deadline as long as it finds jobs. -/
theorem lingers_run (t : Instant) (moves : List (Move H)) : (run moves).Lingers t := by
  intro y a f c limit ran hy hf hl ht
  have hd := (fits_of_act? hy).deed
  rw [hf] at hd
  exact expires_deed hd hl ht

def overslept : List (Move Unit) :=
  [.addLoop {}, .spawn (), .call 0 (.post (.loop 0) (.body () none)), .step 0, .step 0,
    .call 0 (.post (.loop 0) (.body () none)), .step 0, .step 0,
    .call 0 (.run 0 (.deadline 10) none), .step 0, .step 0, .step 0, .clock 40, .finish 0,
    .step 0, .step 0, .step 0, .step 0]

/-- The second job is taken 30 after the deadline. -/
theorem not_punctual_overslept :
    ¬ ∀ (t : Instant) (moves : List (Move Unit)), history (late t) moves = [] := by
  intro h
  have h := congrArg List.length (h 10 overslept)
  exact absurd h (by decide)

/-- A call that ends at time `t` begins at time `t`, with one job in the queue. -/
def overdue (t : Instant) : List (Move Unit) :=
  [.addLoop {}, .spawn (), .clock t, .call 0 (.post (.loop 0) (.body () none)), .step 0, .step 0,
    .call 0 (.run 0 (.deadline t) none), .step 0]

def seize : List (Move Unit) :=
  [.step 0, .step 0, .call 0 (.post (.loop 0) (.body () none))]

def repost : List (Move Unit) := [.step 0, .step 0, .finish 0]

def wrapUp : List (Move Unit) := [.step 0, .step 0, .step 0]

def scene (t : Instant) (posted executed : Nat) (queue : List (Job Unit)) (outstanding : Nat)
    (frames : List (Frame Unit)) (active : List Executor) : Machine Unit :=
  { shared :=
      { loops := ⟨[{ queue, outstanding, counters := { posted, executed } }]⟩
        now := max 0 t }
    threads := ⟨[⟨frames, active⟩]⟩ }

def underlay (t : Instant) (n : Nat) : List (Frame Unit) :=
  [.finish 0, .leave (.loop 0), .drain 0 (.deadline t) none (n + 1), .code .program () 2]

def lingering (t : Instant) (n : Nat) : Machine Unit :=
  scene t (n + 1) n [.task (.body () none)] 1 [.drain 0 (.deadline t) none n, .code .program () 2]
    []

def seized (t : Instant) (n : Nat) : Machine Unit :=
  scene t (n + 1) n [] 1
    (.call (.post (.loop 0) (.body () none)) :: .code (.handler none) () 1 :: underlay t n)
    [.loop 0]

def reposted (t : Instant) (n : Nat) : Machine Unit :=
  scene t (n + 2) n [.task (.body () none)] 2 (underlay t n) [.loop 0]

theorem after_seize (t : Instant) (n : Nat) : (lingering t n).after seize = seized t n := rfl

theorem after_repost (t : Instant) (n : Nat) : (seized t n).after repost = reposted t n := rfl

theorem after_wrapUp (t : Instant) (n : Nat) :
    (reposted t n).after wrapUp = lingering t (n + 1) := rfl

theorem notes_seize (t : Instant) (n : Nat) :
    notes (late t) (lingering t n) seize = [.task (.body () none)] := by
  have h : notes (late t) (lingering t n) seize =
      (if t = t ∧ t ≤ max 0 t then [.task (.body () none)] else []) ++ [] := rfl
  rw [h,if_pos ⟨rfl,Int.le_max_right 0 t⟩]
  rfl

def relapse : List (Move Unit) := seize ++ (repost ++ wrapUp)

theorem after_relapse (t : Instant) (n : Nat) :
    (lingering t n).after relapse = lingering t (n + 1) := by
  rw [relapse,after_append,after_append,after_seize,after_repost,after_wrapUp]

theorem notes_relapse (t : Instant) (n : Nat) :
    notes (late t) (lingering t n) relapse = [.task (.body () none)] := by
  have hr : notes (late t) (seized t n) repost = [] := rfl
  have hw : notes (late t) (reposted t n) wrapUp = [] := rfl
  rw [relapse,notes_append,notes_append,notes_seize,after_seize,hr,after_repost,hw]
  rfl

theorem length_notes_relapses (t : Instant) (n k : Nat) :
    (notes (late t) (lingering t k) (List.replicate n relapse).flatten).length = n := by
  induction n generalizing k with
  | zero => rfl
  | succ n ih =>
    rw [List.replicate_succ,List.flatten_cons,notes_append,notes_relapse,after_relapse,
      List.length_append,ih]
    exact Nat.add_comm 1 n

theorem exists_late (t : Instant) (n : Nat) :
    ∃ moves : List (Move Unit), (history (late t) moves).length = n := by
  refine ⟨overdue t ++ (List.replicate n relapse).flatten,?_⟩
  have hn : notes (late t) {} (overdue t) = [] := rfl
  rw [history,notes_append,hn]
  exact length_notes_relapses t n 0

end Machine
end EventLoop
