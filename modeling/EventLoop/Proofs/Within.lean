import EventLoop.Proofs.Calling
import EventLoop.Proofs.Until

/-! Handlers within the jobs of a loop. What the loop or one of its strands hands on to a thread is
called within a job of the loop, and it is over before the job is finished. -/
namespace EventLoop

variable {H : Type}

open Table (weigh)

/-- The handlers that satisfy `p` and are in progress above the end of a job of loop `c`. -/
def runsWithin (c : Nat) (p : Task H → Bool) : List (Frame H) → Nat
  | [] => 0
  | f :: fs => (if weigh (Frame.works c) fs = 0 then 0 else f.runs p) + runsWithin c p fs

/-- The handler that is called within a job of loop `c` when a thread goes on with these frames on
the rest of its stack. -/
def calledWithinBy (c : Nat) (frames rest : List (Frame H)) : List (Task H) :=
  if weigh (Frame.works c) (frames ++ rest) = 0 then [] else calledBy frames

def endedWithinBy (c : Nat) (taken frames rest : List (Frame H)) : List (Task H) :=
  if weigh (Frame.works c) rest = 0 then [] else endedBy taken frames

section

variable {c me : Nat} {p : Task H → Bool} {s : Shared H} {active : List Executor}
variable {fs rest : List (Frame H)}

theorem runsWithin_eq_zero (h : weigh (Frame.works c) fs = 0) : runsWithin c p fs = 0 := by
  induction fs with
  | nil => rfl
  | cons f fs ih =>
    simp only [weigh] at h
    have hf : weigh (Frame.works c) fs = 0 := by omega
    simp only [runsWithin,hf,ih hf,if_true]

theorem runsWithin_append (h : weigh (Frame.works c) rest = 0) :
    runsWithin c p (fs ++ rest) = runsWithin c p fs := by
  induction fs with
  | nil => exact runsWithin_eq_zero h
  | cons f fs ih => simp only [List.cons_append,runsWithin,Table.weigh_append,h,Nat.add_zero,ih]

theorem runsWithin_append_of_pos (h : weigh (Frame.works c) rest ≠ 0) :
    runsWithin c p (fs ++ rest) = weigh (Frame.runs p) fs + runsWithin c p rest := by
  induction fs with
  | nil => simp [weigh]
  | cons f fs ih =>
    have hn : weigh (Frame.works c) fs + weigh (Frame.works c) rest ≠ 0 := by omega
    simp only [List.cons_append,runsWithin,weigh,Table.weigh_append,hn,if_false,ih]
    omega

theorem runsWithin_taken {taken : List (Frame H)} {e : Effect H}
    (hd : Deed me s active taken e) : runsWithin c p taken = 0 := by
  obtain ⟨f,rfl⟩ | ⟨t,f,rfl⟩ := hd.taken_cases
  · rfl
  · simp only [runsWithin,Nat.add_zero]
    split <;> rfl

theorem runsWithin_begin {f : Frame H} (h : weigh (Frame.works c) (f :: .finish c :: fs) ≤ 1) :
    runsWithin c p (f :: .finish c :: fs) = f.runs p := by
  simp only [weigh,Frame.works,if_true] at h
  have hf : weigh (Frame.works c) fs = 0 := by omega
  simp [runsWithin,weigh,Frame.works,hf,runsWithin_eq_zero hf]

theorem handedBy_cases (p : Task H → Bool) (h : handedBy c fs ≠ []) :
    (handedBy c fs).length = 1 ∧
      ∃ f tl, fs = f :: .finish c :: tl ∧ f.runs p = (calledBy fs).countP p := by
  unfold handedBy at h ⊢
  split at h
  · rename_i t d tl
    split at h
    · rename_i hd
      subst hd
      exact ⟨by simp,.call (.invoke t),tl,rfl,rfl⟩
    · exact absurd rfl h
  · rename_i x d tl
    split at h
    · rename_i hd
      subst hd
      exact ⟨by simp,.runTurn x,tl,rfl,rfl⟩
    · exact absurd rfl h
  · exact absurd rfl h

theorem runsWithin_of_handed {f : Frame H} {e : Effect H} (hd : Deed me s active [f] e)
    (hw : weigh (Frame.works c) e.frames ≠ 0) :
    runsWithin c p e.frames = (calledBy e.frames).countP p := by
  have hj := (runs_deed (c := c) (p := p) hd rfl).jobs
  rw [weigh_put fun _ => rfl] at hj
  have hf : weigh (Frame.works c) [f] = 0 ∧ finishedBy c [f] = [] := by
    cases f with
    | finish d =>
      rw [hd.eq_step rfl] at hw
      exact absurd rfl hw
    | _ => exact ⟨rfl,rfl⟩
  rw [hf.1,hf.2,List.length_nil,Nat.add_zero,Nat.zero_add] at hj
  have hn : handedBy c e.frames ≠ [] := by
    intro hn
    rw [hn] at hj
    exact hw hj.symm
  obtain ⟨hl,g,tl,he,hg⟩ := handedBy_cases p hn
  rw [← hg,he]
  apply runsWithin_begin
  exact Nat.le_of_eq (he ▸ hj.symm.trans hl)

theorem runsWithin_frames {taken : List (Frame H)} {e : Effect H} (hd : Deed me s active taken e)
    (hw : weigh (Frame.works c) e.frames ≠ 0) :
    runsWithin c p e.frames = (calledBy e.frames).countP p := by
  obtain ⟨frames,hs,rfl⟩ | ⟨f,rfl,-⟩ := hd.shift_or_rule
  · cases hs with
    | cleanUp t f hc => cases f <;> first | exact Bool.noConfusion hc | rfl
    | _ => exact absurd rfl hw
  · exact runsWithin_of_handed hd hw

theorem runsWithin_deed {taken : List (Frame H)} {e : Effect H} (hd : Deed me s active taken e)
    (hr : taken.tail.all Frame.rests = true) (rest : List (Frame H)) :
    runsWithin c p (taken ++ rest) + (calledWithinBy c e.frames rest).countP p =
      runsWithin c p (e.frames ++ rest) + (endedWithinBy c taken e.frames rest).countP p := by
  by_cases hw : weigh (Frame.works c) rest = 0
  · rw [runsWithin_append hw,runsWithin_append hw,runsWithin_taken hd,calledWithinBy,endedWithinBy,
      if_pos hw,Table.weigh_append,hw,Nat.add_zero]
    split
    · rename_i hn
      rw [runsWithin_eq_zero hn]
    · rename_i hn
      rw [runsWithin_frames hd hn,List.countP_nil,Nat.zero_add,Nat.add_zero]
  · have h := (runs_deed (c := c) (p := p) hd hr).handlers
    rw [weigh_put fun _ => rfl] at h
    have hn : weigh (Frame.works c) (e.frames ++ rest) ≠ 0 := by
      rw [Table.weigh_append]
      omega
    rw [runsWithin_append_of_pos hw,runsWithin_append_of_pos hw,calledWithinBy,endedWithinBy,
      if_neg hw,if_neg hn]
    omega

theorem drawnBy_sublist_within {taken : List (Frame H)} {e : Effect H}
    (hd : Deed me s active taken e) (hb : ∀ x, Backed x s (taken ++ rest)) :
    (drawnBy c s taken e.frames).Sublist (calledWithinBy c e.frames rest) := by
  unfold calledWithinBy
  split
  · rename_i hw
    rw [Table.weigh_append] at hw
    have hh : handedBy c e.frames = [] := by
      by_contra hn
      obtain ⟨-,f,tl,he,-⟩ := handedBy_cases (fun _ => true) hn
      rw [he] at hw
      simp [weigh,Frame.works] at hw
    have hp : pickedBy c s taken = [] := by
      unfold pickedBy
      split
      · rename_i x
        rw [if_neg]
        rintro rfl
        obtain ⟨-,hm⟩ := (hb x).1 (by simp [Frame.serves])
        have hm := Table.le_weigh (f := Frame.works (s.strands.get x).home) hm
        simp [Frame.works] at hm
        omega
      · rfl
    rw [drawnBy,hh,hp]
    exact List.Sublist.refl _
  · exact drawnBy_sublist hd

end

namespace Machine

/-- The handlers that satisfy `p` and are in progress within jobs of loop `c`. -/
def within (c : Nat) (p : Task H → Bool) (m : Machine H) : Nat :=
  m.threads.total fun t => runsWithin c p t.frames

def calledWithin (c : Nat) (_ : Machine H) (a : Act H) : List (Task H) :=
  calledWithinBy c a.effect.frames a.rest

def endedWithin (c : Nat) (_ : Machine H) (a : Act H) : List (Task H) :=
  endedWithinBy c a.taken a.effect.frames a.rest

theorem within_perform {m : Machine H} {a : Act H} (ha : a.Fits m) (c : Nat) (p : Task H → Bool) :
    (m.perform a).within c p + runsWithin c p (a.taken ++ a.rest) =
      m.within c p + runsWithin c p (a.effect.frames ++ a.rest) := by
  have hu := Table.total_update (f := fun t : Thread H => runsWithin c p t.frames) rfl m.threads
    a.thread fun _ => ⟨a.effect.frames ++ a.rest,a.effect.active⟩
  rw [← ha.frames]
  cases hs : a.effect.started with
  | none => simpa [within,perform,thread,hs] using hu
  | some o => simpa [within,perform,thread,hs,runsWithin,weigh] using hu

theorem within_happen (c : Nat) (p : Task H → Bool) (m : Machine H) (y : Move H) :
    (m.happen y).within c p = m.within c p := by
  cases y with
  | spawn h => simp [within,happen,runsWithin,weigh]
  | _ => rfl

theorem countP_calledWithin (c : Nat) (p : Task H → Bool) (moves : List (Move H)) :
    (history (calledWithin c) moves).countP p =
      (run moves).within c p + (history (endedWithin c) moves).countP p := by
  induction moves using run_induction with
  | start => rfl
  | move xs y ih =>
    simp only [run_concat,history_concat,List.countP_append]
    obtain ⟨a,hy,ha,hmove⟩ | ⟨hy,hmove⟩ := move_cases (run xs) y
    · have hp := within_perform ha c p
      have h := runsWithin_deed (c := c) (p := p) ha.deed (ha.rests_tail (sound_run xs)) a.rest
      simp only [noted_of_act? hy,hmove]
      simp only [calledWithin,endedWithin]
      omega
    · simp only [noted_of_act?_none hy,hmove,within_happen]
      simpa using ih

theorem within_eq_zero {c : Nat} {m : Machine H} (h : m.weight (Frame.works c) = 0)
    (p : Task H → Bool) : m.within c p = 0 := by
  by_contra hn
  obtain ⟨i,hi⟩ := Table.exists_of_total_pos _ (Nat.pos_of_ne_zero hn)
  have hle : weigh (Frame.works c) (m.threads.get i).frames ≤ m.weight (Frame.works c) :=
    Table.le_total (f := fun t : Thread H => weigh (Frame.works c) t.frames) rfl m.threads i
  rw [runsWithin_eq_zero (by omega)] at hi
  exact Nat.lt_irrefl 0 hi

theorem drawn_sublist_within (c : Nat) (moves : List (Move H)) :
    (history (drawn c) moves).Sublist (history (calledWithin c) moves) := by
  apply history_sublist
  intro xs y a hy
  have ha := fits_of_act? hy
  exact drawnBy_sublist_within ha.deed fun x => ha.frames ▸ backed_run x xs a.thread

end Machine
end EventLoop
