import EventLoop.Proofs.Weight

/-! What becomes of operations. One that has been registered is in one place on its way, has
completed, or was lost by the reactor, and each only once. -/
namespace EventLoop

variable {H : Type}

open Table (weigh)

namespace Frame

/-- The operation that a frame brings on its way, from its registration to its completion. -/
def operation? : Frame H → Option (Operation H)
  | .countStart o | .addWork o | .enlist o | .operation o | .withdraw o _ | .countAbort o _
  | .complete o _ => some o
  | _ => none

def carries (p : Operation H → Bool) (f : Frame H) : Nat := (f.operation?.toList).countP p

end Frame

/-- The operations that are registered when these frames are executed. -/
def enrolledBy : List (Frame H) → List (Operation H)
  | [.enrol o] => [o]
  | _ => []

/-- The operations whose handler is queued when these frames are executed, or destroyed if the
owner of the loop is gone, with what they report. -/
def reportedBy : List (Frame H) → List (Operation H × Outcome)
  | [.complete o r] => [(o, r)]
  | _ => []

/-- The operations that complete when these frames are executed. -/
def completedBy (taken : List (Frame H)) : List (Operation H) := (reportedBy taken).map Prod.fst

/-- The operations whose start ends in a panic, or that a reactor gives up. -/
def lostBy : List (Frame H) → List (Frame H) → List (Operation H)
  | [.enlist o], .panic _ :: _ => [o]
  | [.operation o], [.dropTasks _] => [o]
  | _, _ => []

section

variable {p : Operation H → Bool} {me : Nat} {s : Shared H} {active : List Executor}

theorem weightless_carries : Frame.Weightless (Frame.carries p) := by
  intro f hf
  cases f <;> simp_all [Frame.idles,Frame.carries,Frame.operation?]

abbrev Conserves (p : Operation H → Bool) (taken : List (Frame H)) (e : Effect H) : Prop :=
  weigh (Frame.carries p) taken + (enrolledBy taken).countP p =
    weigh (Frame.carries p) e.put + (completedBy taken).countP p +
      (lostBy taken e.frames).countP p

attribute [local simp] Conserves weigh Frame.carries Frame.operation? enrolledBy reportedBy
  completedBy
  lostBy Effect.put

theorem conserves_rewrite {f : Frame H} {frames : List (Frame H)}
    (hr : Rewrite me s active f frames) :
    Conserves p [f] { shared := s, active, frames } := by
  cases hr with
  | destroy hf => cases hf <;> rfl
  | ended hf | overdue hf => cases hf <;> rfl
  | dropJobsCons j => cases j <;> rfl
  | refuse | startPanic | claimLost | heeded | linger | completeClosed => simp
  | _ => rfl

theorem conserves_rule {f : Frame H} {e : Effect H} (hr : Rule me s active f e) :
    Conserves p [f] e := by
  cases hr with
  | rewrite hr => exact conserves_rewrite hr
  | enqueue hf | runDry hf | sleep hf => cases hf <;> rfl
  | take hf j => cases hf <;> cases j <;> rfl
  | enrol | countStart | addWork | enlist | enlistFirst | abandon | claim | withdrawAborted
  | withdraw | countAbort | complete => simp
  | _ => rfl

theorem conserves_deed {taken : List (Frame H)} {e : Effect H} (hd : Deed me s active taken e)
    (hr : taken.tail.all Frame.rests = true) : Conserves p taken e := by
  obtain ⟨frames,hs,rfl⟩ | ⟨f,rfl,hf⟩ := hd.shift_or_rule
  · have hn : enrolledBy taken = [] ∧ completedBy taken = [] ∧ lostBy taken frames = [] := by
      cases hs <;> exact ⟨rfl,rfl,rfl⟩
    obtain ⟨hb,hc,hl⟩ := hn
    simp only [Conserves,Effect.put,hb,hc,hl]
    rw [weigh_shift weightless_carries hs hr]
    rfl
  · exact conserves_rule hf

end

namespace Machine

def enrolled (_ : Machine H) (a : Act H) : List (Operation H) := enrolledBy a.taken

def reported (_ : Machine H) (a : Act H) : List (Operation H × Outcome) := reportedBy a.taken

theorem taken_of_reported {m : Machine H} {a : Act H} {z : Operation H × Outcome}
    (h : z ∈ m.reported a) : a.taken = [.complete z.1 z.2] := by
  unfold reported reportedBy at h
  split at h
  · rename_i o q ht
    obtain rfl := List.mem_singleton.1 h
    exact ht
  · exact absurd h List.not_mem_nil

theorem mem_of_reported {m : Machine H} {a : Act H} (ha : a.Fits m) {z : Operation H × Outcome}
    (h : z ∈ m.reported a) : .complete z.1 z.2 ∈ (m.thread a.thread).frames := by
  simp [ha.frames,taken_of_reported h]

def completed (_ : Machine H) (a : Act H) : List (Operation H) := completedBy a.taken

def lost (_ : Machine H) (a : Act H) : List (Operation H) := lostBy a.taken a.effect.frames

theorem countP_enrolled (p : Operation H → Bool) (moves : List (Move H)) :
    (history enrolled moves).countP p =
      (run moves).weight (Frame.carries p) + (history completed moves).countP p +
        (history lost moves).countP p := by
  induction moves using run_induction with
  | start => rfl
  | move xs y ih =>
    simp only [run_concat,history_concat,List.countP_append]
    obtain ⟨a,hy,ha,hmove⟩ | ⟨hy,hmove⟩ := move_cases (run xs) y
    · obtain ⟨k,hk,hk'⟩ := exists_weight_perform ha (Frame.carries p)
      have hc := conserves_deed (p := p) ha.deed (ha.rests_tail (sound_run xs))
      simp only [noted_of_act? hy,hmove,hk']
      simp only [enrolled,completed,lost]
      omega
    · simp only [noted_of_act?_none hy,hmove,weight_happen weightless_carries]
      simpa using ih

theorem place_of_enrolled {moves : List (Move H)} {o : Operation H}
    (h : o ∈ history enrolled moves) :
    (∃ i f, f ∈ ((run moves).thread i).frames ∧ f.operation? = some o) ∨
      o ∈ history completed moves ∨ o ∈ history lost moves := by
  classical
  let p : Operation H → Bool := fun q => decide (q = o)
  have hmem {os : List (Operation H)} (hp : 0 < os.countP p) : o ∈ os := by
    obtain ⟨q,hq,he⟩ := List.countP_pos_iff.1 hp
    exact of_decide_eq_true he ▸ hq
  have hc := countP_enrolled p moves
  have he : 0 < (history enrolled moves).countP p := List.countP_pos_iff.2 ⟨o,h,by simp [p]⟩
  by_cases hw : 0 < (run moves).weight (Frame.carries p)
  · obtain ⟨i,hi⟩ := Table.exists_of_total_pos _ hw
    obtain ⟨f,hf,hp⟩ := Table.exists_of_weigh_pos hi
    obtain ⟨q,hq,hqo⟩ := List.countP_pos_iff.1 hp
    refine Or.inl ⟨i,f,hf,?_⟩
    rw [← of_decide_eq_true hqo]
    exact Option.mem_toList.1 hq
  · right
    by_cases hd : 0 < (history completed moves).countP p
    · exact Or.inl (hmem hd)
    · exact Or.inr (hmem (by omega))

theorem completed_eq (moves : List (Move H)) :
    history completed moves = (history reported moves).map Prod.fst :=
  history_hom (List.map Prod.fst) rfl (fun _ _ => List.map_append) reported moves

theorem enrolled_of_pos {moves : List (Move H)} {o : Operation H} {p : Operation H → Bool}
    (hp : ∀ q, p q = true → q = o)
    (h : 0 < (run moves).weight (Frame.carries p) + (history completed moves).countP p) :
    o ∈ history enrolled moves := by
  have hc := countP_enrolled p moves
  have he : 0 < (history enrolled moves).countP p := by omega
  obtain ⟨q,hq,hpq⟩ := List.countP_pos_iff.1 he
  exact hp q hpq ▸ hq

theorem enrolled_of_mem {moves : List (Move H)} {i : Nat} {f : Frame H} {o : Operation H}
    (hf : f ∈ ((run moves).thread i).frames) (ho : f.operation? = some o) :
    o ∈ history enrolled moves := by
  classical
  let p : Operation H → Bool := fun q => decide (q = o)
  have hw : f.carries p ≤ weigh (Frame.carries p) ((run moves).thread i).frames :=
    Table.le_weigh hf
  have hl : weigh (Frame.carries p) ((run moves).thread i).frames ≤
      (run moves).weight (Frame.carries p) :=
    Table.le_total (f := fun t : Thread H => weigh (Frame.carries p) t.frames) rfl _ i
  have h1 : f.carries p = 1 := by simp [Frame.carries,ho,p]
  exact enrolled_of_pos (p := p) (fun q hq => by simpa [p] using hq) (by omega)

theorem enrolled_of_completed {moves : List (Move H)} {o : Operation H}
    (h : o ∈ history completed moves) : o ∈ history enrolled moves := by
  classical
  let p : Operation H → Bool := fun q => decide (q = o)
  have hc : 0 < (history completed moves).countP p :=
    List.countP_pos_iff.2 ⟨o,h,by simp [p]⟩
  exact enrolled_of_pos (p := p) (fun q hq => by simpa [p] using hq) (by omega)

theorem enrolled_of_reported {moves : List (Move H)} {z : Operation H × Outcome}
    (h : z ∈ history reported moves) : z.1 ∈ history enrolled moves := by
  apply enrolled_of_completed
  rw [completed_eq]
  exact List.mem_map_of_mem h

end Machine
end EventLoop
