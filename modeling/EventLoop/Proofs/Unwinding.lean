import EventLoop.Proofs.CounterSteps
import EventLoop.Proofs.Order
import EventLoop.Proofs.Winding

/-! What a panic leaves behind. When a panic has come out of a call, the machine is the one that the
call would have left if its handler had returned, whatever else the threads have done meanwhile, and
a panic can always come out. -/
namespace EventLoop

variable {H : Type}

namespace Machine

def Reaches (i : Nat) (fs : List (Frame H)) (m : Machine H) : Prop :=
  ∃ ys : List (Move H), (∀ y ∈ ys, y.mover? = some i) ∧ ((m.after ys).thread i).frames = fs

def Clears (f : Frame H) : Prop :=
  ∀ (i : Nat) (fs : List (Frame H)) (m : Machine H), (m.thread i).frames = f :: fs → m.Reaches i fs

section

variable {m : Machine H} {i : Nat} {f : Frame H} {fs gs : List (Frame H)}

theorem reaches_trans (h : m.Reaches i gs)
    (h' : ∀ n : Machine H, (n.thread i).frames = gs → n.Reaches i fs) : m.Reaches i fs := by
  obtain ⟨ys,hy,hg⟩ := h
  obtain ⟨zs,hz,hf⟩ := h' _ hg
  refine ⟨ys ++ zs,?_,by rw [after_append,hf]⟩
  intro y hm
  obtain hm | hm := List.mem_append.1 hm
  · exact hy y hm
  · exact hz y hm

theorem clears_of_cleansUp (hc : f.cleansUp = true) : Clears f := by
  intro i fs m hf
  obtain ⟨us,hu,hg,-⟩ := reaches_of_winds (I := fun _ => True) (fun _ _ _ _ _ _ _ _ => trivial)
    (Frame.winds_of_cleansUp hc) [] fs hf trivial
  exact ⟨us,hu,hg⟩

theorem reaches_of_panic {t : String} {ds below : List (Frame H)}
    (hd : ds.all Frame.cleansUp = true)
    (hf : (m.thread i).frames = .panic t :: (ds ++ below)) : m.Reaches i (.panic t :: below) := by
  induction ds generalizing m with
  | nil => exact ⟨[],by simp,hf⟩
  | cons f ds ih =>
    obtain ⟨hc,hd⟩ := Bool.and_eq_true_iff.1 hd
    rw [List.cons_append] at hf
    have hr : m.Reaches i (f :: .panic t :: (ds ++ below)) := by
      refine ⟨[.step i],by simp [Move.mover?],?_⟩
      rw [after_cons,after_nil,move_cleanUp hf hc,thread_setFrames]
    refine reaches_trans hr ?_
    intro n hn
    exact reaches_trans (clears_of_cleansUp hc i _ n hn) fun k hk => ih hd hk

theorem arrives_of_reaches (h : m.Reaches i fs) :
    ∃ ys : List (Move H), (∀ y ∈ ys, y.mover? = some i) ∧ m.Arrives i fs ys := by
  obtain ⟨ys,hy,hf⟩ := h
  induction ys generalizing m with
  | nil => exact ⟨[],by simp,hf⟩
  | cons y ys ih =>
    by_cases hm : (m.thread i).frames = fs
    · exact ⟨[],by simp,hm⟩
    · obtain ⟨hi,hy⟩ := List.forall_mem_cons.1 hy
      obtain ⟨zs,hz,ha⟩ := ih hy hf
      exact ⟨y :: zs,List.forall_mem_cons.2 ⟨hi,hz⟩,hm,ha⟩

/-- Thread `i` has a panic above the frames `ds` of a call and those `below` the call in `m`, and in
`n` it has no panic. -/
structure Unwinding (i : Nat) (t : String) (ds below : List (Frame H)) (m n : Machine H) :
    Prop where
  same : ∀ ys, m.Arrives i (.panic t :: below) ys →
    ∃ zs, Spares i zs ys ∧ n.after zs = (m.after ys).setFrames i below
  reached : ∀ ys, m.Arrives i (.panic t :: below) ys → notes (roused i below.length) m ys = ds
  comesOut : ∃ ys : List (Move H), (∀ y ∈ ys, y.mover? = some i) ∧ m.Arrives i (.panic t :: below) ys

theorem unwinding_of_panic {t : String} {ds below : List (Frame H)}
    (hd : ds.all Frame.cleansUp = true) (m : Machine H) :
    Unwinding i t ds below (m.setFrames i (.panic t :: (ds ++ below)))
      (m.setFrames i (ds ++ below)) := by
  have hf : ((m.setFrames i (.panic t :: (ds ++ below))).thread i).frames =
      .panic t :: (ds ++ below) := by rw [thread_setFrames]
  have hs := Shadow.mk [] hf trivial hd
  rw [List.nil_append,setFrames_setFrames] at hs
  refine ⟨?_,?_,arrives_of_reaches (reaches_of_panic hd hf)⟩
  · intro ys ha
    obtain ⟨zs,hz,-,hm⟩ := shadow_after hs ha
    exact ⟨zs,hz,hm⟩
  · intro ys ha
    obtain ⟨-,-,hn,-⟩ := shadow_after hs ha
    exact hn

/-- What holds of the panics of thread `i`, and of what they leave behind. Between code and the frames
`below` the call that runs it lie frames `ds` that clean up. -/
structure Unwinds (i : Nat) (moves : List (Move H)) : Prop where
  /-- Code that panics leaves of its call what it would have left by returning. -/
  direct : ∀ t role h made ds below,
    ((run moves).thread i).frames = .code role h made :: (ds ++ below) →
      ds.all Frame.cleansUp = true →
        Unwinding i t ds below ((run moves).after [.raise i t, .pass i]) ((run moves).move (.finish i))
  /-- So does code to which one of its calls panics, compared with code that catches this panic and
  returns. -/
  passed : ∀ t role h made ds below,
    ((run moves).thread i).frames = .panic t :: .code role h made :: (ds ++ below) →
      ds.all Frame.cleansUp = true →
        Unwinding i t ds below ((run moves).move (.pass i))
          ((run moves).after [.recover i, .finish i])
  /-- Code that catches a panic has what the panic has left. -/
  caught : ∀ t role h made rest,
    ((run moves).thread i).frames = .panic t :: .code role h made :: rest →
      (run moves).move (.recover i) = (run moves).setFrames i (.code role h made :: rest)
  /-- What does not clean up is skipped. -/
  skipped : ∀ t f rest, ((run moves).thread i).frames = .panic t :: f :: rest →
    f.stopsPanic = false → f.cleansUp = false →
      (run moves).move (.step i) = (run moves).setFrames i (.panic t :: rest)
  /-- Every job that was taken is in progress or was counted as executed, once. -/
  counted : ∀ c, (history (handedOut c) moves).length = (run moves).weight (Frame.works c) +
    ((run moves).shared.loops.get c).counters.executed
  /-- A job that is over has given back its unit of work, once. -/
  released : ∀ c, ((run moves).shared.loops.get c).closed = false →
    ((run moves).shared.loops.get c).outstanding = load c moves
  /-- A strand is locked exactly as long as somebody holds it, who frees it or hands it on, and
  handlers that wait keep it locked. -/
  held : ∀ x, ((run moves).strandCounts x).Exact
  /-- No handler of a strand is lost or overtaken. -/
  order : ∀ x,
    ((run moves).shared.loops.get ((run moves).shared.strands.get x).home).closed = false →
      history (begun x) moves ++ ((run moves).shared.strands.get x).waiting =
        history (submitted x) moves
  /-- A loop with an owner stops when it is told to or when no work is left. -/
  stops : ∀ c y, (((run moves).move y).shared.loops.get c).closed = false →
    ((run moves).shared.loops.get c).stopped = false →
      (((run moves).move y).shared.loops.get c).stopped = true →
        (∃ a, (run moves).act? y = some a ∧ a.taken = [.call (.stop c)]) ∨
          load c (moves ++ [y]) = 0

theorem unwinding_of_code {t : String} {role : Role} {h : H} {made : Nat}
    {ds below : List (Frame H)} (hf : (m.thread i).frames = .code role h made :: (ds ++ below))
    (hd : ds.all Frame.cleansUp = true) :
    Unwinding i t ds below (m.after [.raise i t, .pass i]) (m.move (.finish i)) := by
  rw [after_cons,after_cons,after_nil,move_raise t hf,move_pass (by rw [thread_setFrames]),
    move_finish hf,setFrames_setFrames]
  exact unwinding_of_panic hd m

theorem unwinding_of_pass {t : String} {role : Role} {h : H} {made : Nat}
    {ds below : List (Frame H)}
    (hf : (m.thread i).frames = .panic t :: .code role h made :: (ds ++ below))
    (hd : ds.all Frame.cleansUp = true) :
    Unwinding i t ds below (m.move (.pass i)) (m.after [.recover i, .finish i]) := by
  rw [after_cons,after_cons,after_nil,move_pass hf,move_recover hf,
    move_finish (by rw [thread_setFrames]),setFrames_setFrames]
  exact unwinding_of_panic hd m

theorem unwinds_run (i : Nat) (moves : List (Move H)) : Unwinds i moves where
  direct _ _ _ _ _ _ hf hd := unwinding_of_code hf hd
  passed _ _ _ _ _ _ hf hd := unwinding_of_pass hf hd
  caught _ _ _ _ _ hf := move_recover hf
  skipped _ _ _ hf hs hc := move_skip hf hs hc
  counted c := by rw [length_handedOut,executed_run]
  released c hc := (balanced_ledger c moves).outstanding hc
  held x := exact_strandCounts x moves
  order x ho := order_of_open x moves fun _ => ho
  stops _ _ hc hs ht := halted_or_idle hc hs ht

end

def handlerInTurn : List (Move Unit) :=
  [.addLoop {}, .addStrand 0, .spawn (), .call 0 (.post (.strand 0) (.body () none)), .step 0,
    .step 0, .step 0, .call 0 (.run 0 .block none), .step 0, .step 0, .step 0, .step 0]

example : (run (handlerInTurn ++ [.raise 0 "lost", .pass 0] ++ List.replicate 10 (.step 0))).setFrames
    0 [.drain 0 .block none 1, .code .program () 2] =
      run (handlerInTurn ++ [.finish 0] ++ List.replicate 6 (.step 0)) := rfl

end Machine
end EventLoop
