import EventLoop.Proofs.Homing
import EventLoop.Proofs.Until
import EventLoop.Proofs.Work

/-! The drop of a loop's owner on its thread's stack. The turns that it destroys lie on the frame
that closes the reactor, and unless a destructor panics, no panic ever skips this frame. -/
namespace EventLoop

variable {H : Type}

open Table (weigh)

def ClosesBelow (x : Nat) (s : Shared H) : List (Frame H) → Prop
  | [] => True
  | f :: fs =>
    (∀ js, f = .dropJobs js → 0 < turnsIn x js →
      x < s.strands.size ∧ .closeReactor (s.strands.get x).home ∈ fs) ∧ ClosesBelow x s fs

namespace ClosesBelow

variable {x : Nat} {s t : Shared H}

theorem mono (hg : s.Grows t) {fs : List (Frame H)} (h : ClosesBelow x s fs) :
    ClosesBelow x t fs := by
  induction fs with
  | nil => trivial
  | cons f fs ih =>
    obtain ⟨hf,hfs⟩ := h
    refine ⟨?_,ih hfs⟩
    intro js hj hn
    obtain ⟨hx,hm⟩ := hf js hj hn
    exact ⟨Nat.lt_of_lt_of_le hx hg.size,(hg.home x hx).symm ▸ hm⟩

theorem closeReactor_mem {js : List (Job H)} {fs : List (Frame H)}
    (h : ClosesBelow x s fs) (hm : .dropJobs js ∈ fs) (hn : 0 < turnsIn x js) :
    .closeReactor (s.strands.get x).home ∈ fs := by
  induction fs with
  | nil => exact absurd hm List.not_mem_nil
  | cons g fs ih =>
    apply List.mem_cons_of_mem
    obtain rfl | hm := List.mem_cons.1 hm
    · exact (h.1 js rfl hn).2
    · exact ih h.2 hm

/-- Frames that give up no turn of the strand may lie on anything. -/
theorem append (gs : List (Frame H)) {fs : List (Frame H)} (hg : weigh (Frame.losses x) gs = 0)
    (h : ClosesBelow x s fs) : ClosesBelow x s (gs ++ fs) := by
  induction gs with
  | nil => exact h
  | cons g gs ih =>
    simp only [weigh] at hg
    refine ⟨?_,ih (by omega)⟩
    rintro js rfl hn
    simp only [Frame.losses] at hg
    omega

end ClosesBelow

section

variable {x me : Nat} {s : Shared H} {active : List Executor} {rest : List (Frame H)}

theorem closesBelow_rewrite {f : Frame H} {frames : List (Frame H)}
    (hr : Rewrite me s active f frames)
    (h : ClosesBelow x s (f :: rest)) : ClosesBelow x s (frames ++ rest) := by
  obtain ⟨hf,hrest⟩ := h
  cases hr with
  | @destroy _ c j hq =>
    refine ⟨?_,hrest⟩
    intro js hj
    cases j <;> cases hj
  | dropJobsCons j js =>
    refine ⟨?_,?_,hrest⟩
    · intro ks hk
      cases j <;> cases hk
    · intro ks hk hn
      cases hk
      have hle : turnsIn x js ≤ turnsIn x (j :: js) := (List.sublist_cons_self j js).countP_le
      exact hf _ rfl (Nat.lt_of_lt_of_le hn hle)
  | _ => exact .append _ rfl hrest

theorem closesBelow_rule {f : Frame H} {e : Effect H} (hr : Rule me s active f e)
    (h : ClosesBelow x s (f :: rest))
    (hq : ∀ d, 0 < turnsIn x (s.loops.get d).queue →
      x < s.strands.size ∧ d = (s.strands.get x).home) : ClosesBelow x s (e.frames ++ rest) := by
  cases hr with
  | rewrite hr => exact closesBelow_rewrite hr h
  | dropOwner d =>
    refine ⟨?_,?_,?_,h.2⟩
    · intro js hj
      cases hj
    · intro js hj hn
      cases hj
      obtain ⟨hx,rfl⟩ := hq d hn
      exact ⟨hx,List.mem_cons_self⟩
    · intro js hj
      cases hj
  | take hf j => cases j <;> exact .append _ rfl h.2
  | _ => exact .append _ rfl h.2

theorem closesBelow_shift {taken frames : List (Frame H)} (hs : Shift taken frames)
    (h : ClosesBelow x s (taken ++ rest)) : ClosesBelow x s (frames ++ rest) := by
  cases hs with
  | cleanUp t f hc =>
    obtain ⟨-,hf,hr⟩ := h
    refine ⟨?_,.append [.panic t] rfl hr⟩
    intro js hj hn
    obtain ⟨hx,hm⟩ := hf js hj hn
    exact ⟨hx,List.mem_cons_of_mem _ hm⟩
  | call role u made k => exact .append [.call k,.code role u (made + 1)] rfl h.2
  | raise role u made t => exact .append [.panic t,.code role u made] rfl h.2
  | skip t | pass role u made t => exact .append [.panic t] rfl h.2.2
  | recover role u made t => exact .append [.code role u made] rfl h.2.2
  | _ => exact h.2

theorem closesBelow_deed {taken : List (Frame H)} {e : Effect H} (hd : Deed me s active taken e)
    (h : ClosesBelow x s (taken ++ rest))
    (hq : ∀ d, 0 < turnsIn x (s.loops.get d).queue →
      x < s.strands.size ∧ d = (s.strands.get x).home) : ClosesBelow x s (e.frames ++ rest) := by
  obtain ⟨frames,hs,rfl⟩ | ⟨f,rfl,hr⟩ := hd.shift_or_rule
  · exact closesBelow_shift hs h
  · exact closesBelow_rule hr h hq

end

namespace Machine

theorem closesBelow_run (x : Nat) (moves : List (Move H)) :
    ∀ i, ClosesBelow x (run moves).shared ((run moves).thread i).frames := by
  induction moves using run_induction with
  | start => exact fun _ => trivial
  | move xs y ih =>
    intro i
    rw [run_concat]
    have hq (d : Nat) (hd : 0 < turnsIn x ((run xs).shared.loops.get d).queue) :
        x < (run xs).shared.strands.size ∧ d = ((run xs).shared.strands.get x).home := by
      have hle := turnsIn_le x d (run xs)
      refine ⟨lt_size_of_held (exact_strandCounts x xs) ?_,(homed_run x xs).queued d hd⟩
      unfold StrandCounts.holders
      omega
    apply ClosesBelow.mono (grows_move (run xs) y)
    obtain ⟨a,-,ha,hmove⟩ | ⟨-,hmove⟩ := move_cases (run xs) y
    · rw [hmove]
      obtain h | ⟨o,-,h⟩ | ⟨-,h⟩ := thread_perform (run xs) a i
      · rw [h]
        exact closesBelow_deed ha.deed (ha.frames ▸ ih a.thread) hq
      · rw [h]
        exact .append [.operation o] rfl trivial
      · rw [h]
        exact ih i
    · rw [hmove]
      obtain ⟨u,h⟩ | h := thread_happen (run xs) y i
      · rw [h]
        exact .append [.code .program u 0] rfl trivial
      · rw [h]
        exact ih i

end Machine

namespace Frame

def inDrop : Frame H → Bool
  | .notifyAll _ | .dropJobs _ | .dropTurn _ | .dropTasks _ => true
  | _ => false

def closesReactor : Frame H → Bool
  | .closeReactor _ => true
  | _ => false

end Frame

def dropOnTop : List (Frame H) → Bool
  | [] => false
  | .closeReactor _ :: _ => true
  | f :: fs => f.inDrop && dropOnTop fs

def DropStacked : List (Frame H) → Prop
  | [] => True
  | f :: fs =>
    (dropOnTop fs = true → f.inDrop = true ∨ ∃ h n, f = .code .destructor h n) ∧ DropStacked fs

/-- The destructor that lets a panic pass. -/
def burstBy : List (Frame H) → List (Frame H) → List H
  | [.panic _, .code .destructor h _], [.panic _] => [h]
  | _, _ => []

section

variable {me : Nat} {s : Shared H} {active : List Executor} {rest : List (Frame H)}

theorem dropOnTop_cons {f : Frame H} {fs : List (Frame H)} (hf : f.closesReactor = false) :
    dropOnTop (f :: fs) = (f.inDrop && dropOnTop fs) := by
  cases f with
  | closeReactor c => exact Bool.noConfusion hf
  | _ => rfl

theorem dropOnTop_append {gs fs : List (Frame H)} (hg : ∀ g ∈ gs, g.closesReactor = false)
    (h : dropOnTop fs = false) : dropOnTop (gs ++ fs) = false := by
  induction gs with
  | nil => exact h
  | cons g gs ih =>
    have ih := ih fun g' hg' => hg g' (List.mem_cons_of_mem g hg')
    rw [List.cons_append,dropOnTop_cons (hg g List.mem_cons_self),ih,Bool.and_false]

/-- Where no drop is on top, any frames may come but those of another drop. -/
theorem DropStacked.append (gs : List (Frame H)) {fs : List (Frame H)}
    (hg : ∀ g ∈ gs, g.closesReactor = false)
    (he : dropOnTop fs = false) (h : DropStacked fs) : DropStacked (gs ++ fs) := by
  induction gs with
  | nil => exact h
  | cons g gs ih =>
    have hg := fun g' hg' => hg g' (List.mem_cons_of_mem g hg')
    refine ⟨?_,ih hg⟩
    intro (hx : dropOnTop (gs ++ fs) = true)
    rw [dropOnTop_append hg he] at hx
    exact Bool.noConfusion hx

theorem DropStacked.not_dropOnTop {f : Frame H} (h : DropStacked (f :: rest))
    (hz : f.inDrop = false)
    (hc : f.isCode = false) : dropOnTop rest = false := by
  by_contra he
  obtain hf | ⟨u,n,rfl⟩ := h.1 (by simpa using he)
  · rw [hz] at hf
    exact Bool.noConfusion hf
  · exact Bool.noConfusion hc

attribute [local simp] Frame.closesReactor Frame.dropJob Frame.execute

theorem closesReactor_rule {f : Frame H} {e : Effect H} (hr : Rule me s active f e)
    (hd : ∀ d, f ≠ .call (.dropOwner d)) : ∀ g ∈ e.frames, g.closesReactor = false := by
  cases hr with
  | rewrite hr =>
    cases hr with
    | destroy hf => cases hf <;> simp
    | dropJobsCons j => cases j <;> simp
    | _ => simp
  | dropOwner d => exact absurd rfl (hd d)
  | take hf j => cases j <;> simp
  | _ => simp

theorem dropStacked_of_inDrop {f : Frame H} {e : Effect H} (hr : Rule me s active f e)
    (hf : f.inDrop = true) (h : DropStacked rest) : DropStacked (e.frames ++ rest) := by
  cases hr with
  | rewrite hr =>
    cases hr with
    | dropTasksNil | dropJobsNil => exact h
    | dropTasksCons t ts => exact ⟨fun _ => Or.inr ⟨t.core,0,rfl⟩,fun _ => Or.inl rfl,h⟩
    | dropJobsCons j js =>
      refine ⟨fun _ => Or.inl ?_,fun _ => Or.inl rfl,h⟩
      cases j <;> rfl
    | destroy hq | ended hq | overdue hq => cases hq <;> cases hf
    | _ => cases hf
  | notifyAll => exact h
  | dropTurn => exact ⟨fun _ => Or.inl rfl,h⟩
  | enqueue hq | take hq | runDry hq | sleep hq => cases hq <;> cases hf
  | _ => cases hf

theorem dropStacked_rule {f : Frame H} {e : Effect H} (hr : Rule me s active f e)
    (h : DropStacked (f :: rest)) : DropStacked (e.frames ++ rest) := by
  obtain ⟨hf,hrest⟩ := h
  by_cases he : dropOnTop rest = true
  · obtain hz | ⟨u,n,rfl⟩ := hf he
    · exact dropStacked_of_inDrop hr hz hrest
    · cases hr with
      | rewrite hr =>
        cases hr with
        | code => exact ⟨fun _ => Or.inr ⟨u,n,rfl⟩,hrest⟩
        | destroy hq | ended hq | overdue hq => cases hq
      | enqueue hq | take hq | runDry hq | sleep hq => cases hq
  · have he : dropOnTop rest = false := by simpa using he
    by_cases hd : ∃ d, f = .call (.dropOwner d)
    · obtain ⟨d,rfl⟩ := hd
      cases hr with
      | dropOwner =>
        refine ⟨fun _ => Or.inl rfl,fun _ => Or.inl rfl,?_,hrest⟩
        intro (hx : dropOnTop rest = true)
        rw [he] at hx
        exact Bool.noConfusion hx
      | rewrite hr =>
        cases hr with
        | destroy hq | ended hq | overdue hq => cases hq
      | enqueue hq | take hq | runDry hq | sleep hq => cases hq
    · exact hrest.append _ (closesReactor_rule hr fun d h => hd ⟨d,h⟩) he

theorem dropStacked_panic {t : String} {f : Frame H} {frames : List (Frame H)}
    (h : DropStacked (.panic t :: f :: rest)) (hs : Shift [.panic t, f] frames)
    (hb : burstBy [.panic t, f] frames = []) : DropStacked (frames ++ rest) := by
  have hx : dropOnTop (f :: rest) = false := h.not_dropOnTop rfl rfl
  obtain ⟨-,hf,hr⟩ := h
  have hn (hc : f.isCode = false) (hz : f.closesReactor = false) : dropOnTop rest = false := by
    by_contra he
    have he : dropOnTop rest = true := by simpa using he
    obtain hz' | ⟨u,n,rfl⟩ := hf he
    · rw [dropOnTop_cons hz,hz',he] at hx
      exact Bool.noConfusion hx
    · exact Bool.noConfusion hc
  cases hs with
  | cleanUp t f hc =>
    have hz : f.closesReactor = false ∧ f.isCode = false := by
      cases f <;> first | exact Bool.noConfusion hc | exact ⟨rfl,rfl⟩
    refine hr.append _ ?_ (hn hz.2 hz.1)
    intro g hg
    obtain rfl | hg := List.mem_cons.1 hg
    · exact hz.1
    · obtain rfl := List.mem_singleton.1 hg
      rfl
  | skip t f hs hc =>
    have hz : f.closesReactor = false := by
      cases f with
      | closeReactor d => exact Bool.noConfusion hx
      | _ => rfl
    have hi : f.isCode = false := by
      cases f with
      | code role h made => exact Bool.noConfusion hs
      | _ => rfl
    exact hr.append [.panic t] (by simp) (hn hi hz)
  | pass role u made t =>
    refine ⟨?_,hr⟩
    intro (he : dropOnTop rest = true)
    obtain hz | ⟨v,n,hv⟩ := hf he
    · exact Bool.noConfusion hz
    · cases hv
      exact absurd hb (by simp [burstBy])
  | recover role u made t => exact ⟨hf,hr⟩

theorem dropStacked_shift {f : Frame H} {frames : List (Frame H)} (h : DropStacked (f :: rest))
    (hs : Shift [f] frames) : DropStacked (frames ++ rest) := by
  obtain ⟨hf,hr⟩ := h
  have hc (u : H) (role : Role) (made : Nat) (hrole : f = .code role u made) (n : Nat) :
      dropOnTop rest = true → (Frame.code role u n).inDrop = true ∨
        ∃ h n', Frame.code role u n = .code .destructor h n' := by
    intro he
    obtain hz | ⟨v,k,hv⟩ := hf he
    · rw [hrole] at hz
      exact Bool.noConfusion hz
    · rw [hrole] at hv
      cases hv
      exact Or.inr ⟨_,n,rfl⟩
  cases hs with
  | call role u made k => exact ⟨fun hx => Bool.noConfusion hx,hc u role made rfl _,hr⟩
  | raise role u made t => exact ⟨fun hx => Bool.noConfusion hx,hc u role made rfl _,hr⟩
  | _ => exact hr

theorem dropStacked_deed {taken : List (Frame H)} {e : Effect H} (hd : Deed me s active taken e)
    (hb : burstBy taken e.frames = []) (h : DropStacked (taken ++ rest)) :
    DropStacked (e.frames ++ rest) := by
  obtain ⟨frames,hs,rfl⟩ | ⟨f,rfl,hr⟩ := hd.shift_or_rule
  · obtain ⟨f,rfl⟩ | ⟨t,f,rfl⟩ := hd.taken_cases
    · exact dropStacked_shift h hs
    · exact dropStacked_panic h hs hb
  · exact dropStacked_rule hr h

end

theorem Ledger.Step.closing {v v' : Ledger} {b d k : Nat} {halted : Bool}
    (h : Ledger.Step v v' b d k halted)
    (hv : v.closed = true → v.reactorClosed = true ∨ 0 < v.closings)
    (hle : v'.reactorClosed = true ∨ v.closings ≤ v'.closings) (hc : v'.closed = true) :
    v'.reactorClosed = true ∨ 0 < v'.closings := by
  cases h with
  | close h =>
    subst h
    exact Or.inr (Nat.succ_pos _)
  | closeReactor n hn h =>
    subst h
    exact Or.inl rfl
  | forsake n hn h =>
    obtain hr | hle := hle
    · exact Or.inl hr
    · subst h
      exact absurd hle (by simp [hn])
  | keep h | enqueue h | take n hq h | endJob n hj h | openGuard h | closeGuard n hg h | begin h
  | complete n hf h | cutShort n hf h | abandon n hr hf h | runDry hq ho h | stop h | restart h =>
    subst h
    exact hv hc

namespace Machine

def burst (_ : Machine H) (a : Act H) : List H := burstBy a.taken a.effect.frames

theorem burst_of_concat {xs : List (Move H)} {y : Move H} (h : history burst (xs ++ [y]) = []) :
    history burst xs = [] ∧ ∀ a, (run xs).act? y = some a → (run xs).burst a = [] := by
  rw [history_concat] at h
  obtain ⟨hx,hy⟩ := List.append_eq_nil_iff.1 h
  refine ⟨hx,?_⟩
  intro a ha
  rwa [noted_of_act? ha] at hy

theorem dropStacked_run {moves : List (Move H)} (h : history burst moves = []) (i : Nat) :
    DropStacked ((run moves).thread i).frames := by
  induction moves using run_induction generalizing i with
  | start => trivial
  | move xs y ih =>
    rw [run_concat]
    obtain ⟨hx,hb⟩ := burst_of_concat h
    obtain ⟨a,hy,ha,hmove⟩ | ⟨-,hmove⟩ := move_cases (run xs) y
    · rw [hmove]
      obtain h | ⟨o,-,h⟩ | ⟨-,h⟩ := thread_perform (run xs) a i
      · rw [h]
        exact dropStacked_deed ha.deed (hb a hy) (ha.frames ▸ ih hx a.thread)
      · rw [h]
        exact ⟨fun hx => Bool.noConfusion hx,trivial⟩
      · rw [h]
        exact ih hx i
    · rw [hmove]
      obtain ⟨u,h⟩ | h := thread_happen (run xs) y i
      · rw [h]
        exact ⟨fun hx => Bool.noConfusion hx,trivial⟩
      · rw [h]
        exact ih hx i

theorem closings_of_act {c : Nat} {moves : List (Move H)} {y : Move H} {a : Act H}
    (hy : (run moves).act? y = some a) (h : history burst moves = []) :
    a.taken = [.closeReactor c] ∨
      (run moves).weight (Frame.closings c) ≤ ((run moves).move y).weight (Frame.closings c) := by
  have ha := fits_of_act? hy
  obtain ⟨k,hk,hk'⟩ := exists_weight_perform ha (Frame.closings c)
  rw [move_of_act? hy]
  have hz : a.taken = [.closeReactor c] ∨ weigh (Frame.closings c) a.taken = 0 := by
    have hr := dropStacked_run h a.thread
    rw [ha.frames] at hr
    obtain ⟨f,ht⟩ | ⟨t,f,ht⟩ := ha.deed.taken_cases
    · rw [ht]
      cases f with
      | closeReactor d =>
        by_cases hd : d = c
        · exact Or.inl (by rw [hd])
        · exact Or.inr (by simp [weigh,Frame.closings,hd])
      | _ => exact Or.inr rfl
    · rw [ht] at hr ⊢
      cases f with
      | closeReactor d => exact absurd (hr.not_dropOnTop rfl rfl) (by simp [dropOnTop])
      | _ => exact Or.inr rfl
  obtain hz | hz := hz
  · exact Or.inl hz
  · exact Or.inr (by omega)

theorem lacksReactor_of_closeReactor {c : Nat} {m : Machine H} {y : Move H} {a : Act H}
    (hy : m.act? y = some a) (ht : a.taken = [.closeReactor c]) :
    ((m.move y).shared.loops.get c).lacksReactor = true := by
  have hd := (fits_of_act? hy).deed
  rw [ht] at hd
  rw [move_of_act? hy,shared_perform,hd.eq_step rfl]
  simp [Frame.step,Shared.onLoop,Loop.closeReactor,Loop.lacksReactor]

theorem lacksReactor_or_closing {c : Nat} {moves : List (Move H)} (h : history burst moves = [])
    (hc : ((run moves).shared.loops.get c).closed = true) :
    ((run moves).shared.loops.get c).lacksReactor = true ∨
      0 < (run moves).weight (Frame.closings c) := by
  induction moves using run_induction with
  | start => exact Bool.noConfusion hc
  | move xs y ih =>
    obtain ⟨hx,-⟩ := burst_of_concat h
    rw [run_concat] at hc ⊢
    refine (ledger_move c (sound_run xs) y).closing (ih hx) ?_ hc
    obtain ⟨a,hy,-,-⟩ | ⟨-,hmove⟩ := move_cases (run xs) y
    · exact (closings_of_act hy hx).imp_left (lacksReactor_of_closeReactor hy)
    · rw [hmove,ledger_happen]
      exact Or.inr (Nat.le_refl _)

end Machine
end EventLoop
