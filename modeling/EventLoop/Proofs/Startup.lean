import EventLoop.Proofs.RoundTrip
import EventLoop.Proofs.Work

/-! What becomes of an operation whose reactor has to be started first. The check of the settings
lets two kinds of pool pass that cannot be built: one of more threads than a word counts, and one
whose name holds a null character. An operation that asks for such a pool is cut short, and its
unit of work stays. Main statement: `starts_reactor`. -/
namespace EventLoop

variable {H : Type}

theorem zero_mem_utf8EncodeChar (x : Char) : 0 ∈ String.utf8EncodeChar x ↔ x = '\x00' := by
  have hx : x = '\x00' ↔ x.val.toNat = 0 := by
    constructor
    · rintro rfl
      rfl
    · intro h
      exact Char.ext (UInt32.toNat_inj.1 h)
  have hb (n : Nat) (hn : n < 256) : (0 : UInt8) = UInt8.ofNat n ↔ n = 0 := by
    rw [← UInt8.toNat_inj]
    simp [Nat.mod_eq_of_lt hn,eq_comm]
  rw [hx,String.utf8EncodeChar]
  split_ifs with h1 h2 h3
  · rw [List.mem_singleton,hb _ (by omega)]
  all_goals
    simp only [List.mem_cons,List.not_mem_nil,or_false]
    repeat rw [hb _ (by omega)]
    omega

namespace ReactorSettings

/-- The threads of the pool are too many to count, or its name holds a null character. -/
def Unfit (r : ReactorSettings) : Prop :=
  Numeral.wordLimit ≤ r.workers.toNat + r.blocking.toNat ∨ '\x00' ∈ r.threadName.toList

theorem zero_mem_bytes (text : String) :
    0 ∈ text.toList.flatMap String.utf8EncodeChar ↔ '\x00' ∈ text.toList := by
  simp only [List.mem_flatMap,zero_mem_utf8EncodeChar]
  exact ⟨fun ⟨_,hx,h⟩ => h ▸ hx,fun h => ⟨_,h,rfl⟩⟩

theorem ne_zero_of_check {r : ReactorSettings} (h : r.check = .ok ()) :
    r.workers ≠ 0 ∧ r.blocking ≠ 0 := by
  unfold check at h
  split_ifs at h with hw hm hb hn
  exact ⟨hw,hb⟩

theorem startPanic?_eq_none {r : ReactorSettings} (h : r.check = .ok ()) :
    r.startPanic? = none ↔ ¬r.Unfit := by
  obtain ⟨hw,hb⟩ := ne_zero_of_check h
  rw [startPanic?,if_neg hw,if_neg hb,Unfit,← zero_mem_bytes]
  by_cases hs : Numeral.wordLimit ≤ r.workers.toNat + r.blocking.toNat
  · simp [hs]
  · rw [if_neg hs]
    simp only [hs,false_or]
    generalize r.threadName.toList.flatMap String.utf8EncodeChar = bytes
    cases hi : bytes.findIdx? (· = 0) with
    | none =>
      refine iff_of_true rfl fun hm => ?_
      exact absurd (List.findIdx?_eq_none_iff.1 hi 0 hm) (by decide)
    | some i =>
      obtain ⟨hl,hz,-⟩ := List.findIdx?_eq_some_iff_getElem.1 hi
      have hm : 0 ∈ bytes := of_decide_eq_true hz ▸ List.getElem_mem hl
      simp [hm]

theorem startPanic?_default : startPanic? {} = none := by decide

end ReactorSettings

theorem Settings.check_reactor {s : Settings} (h : s.Valid) : s.reactor.check = .ok () := by
  unfold Valid check at h
  split at h
  · cases h
  · next hr => exact hr

theorem Settings.startPanic?_eq_none {s : Settings} (h : s.Valid) :
    s.reactor.startPanic? = none ↔ ¬s.reactor.Unfit :=
  ReactorSettings.startPanic?_eq_none (check_reactor h)

theorem Deed.startPanic?_of_cutShortOn {c me : Nat} {s : Shared H} {active : List Executor}
    {taken : List (Frame H)} {e : Effect H} (hd : Deed me s active taken e) {o : Operation H}
    (ho : o ∈ cutShortOn c taken e.frames) :
    (s.loops.get c).settings.reactor.startPanic? ≠ none := by
  unfold cutShortOn at ho
  split at ho
  · next p t fs hf =>
    split at ho
    · next hc =>
      obtain ⟨frames,hs,rfl⟩ | hr := hd.rule_of_singleton
      · cases hs
      cases hr with
      | rewrite h =>
        cases h with
        | startPanic p t hi hm => simp [← hc,hm]
        | destroy hl | ended hl | overdue hl => cases hl
        | refuse => cases hf
      | enqueue hl | take hl | runDry hl | sleep hl => cases hl
      | enlist | enlistFirst => cases hf
    · exact absurd ho List.not_mem_nil
  · exact absurd ho List.not_mem_nil

namespace Machine

theorem cutShort_eq_nil {c : Nat} {moves : List (Move H)}
    (h : ((run moves).shared.loops.get c).settings.reactor.startPanic? = none) :
    history (cutShortHere c) moves = [] := by
  refine List.eq_nil_iff_forall_not_mem.2 fun o ho => ?_
  obtain ⟨xs,y,ys,a,rfl,ha,hz⟩ := exists_of_mem_history ho
  have hp := (fits_of_act? ha).deed.startPanic?_of_cutShortOn hz
  by_cases hc : c < (run xs).shared.loops.size
  · have hs := (retains_after (run xs) (y :: ys)).settings c hc
    rw [run_append,hs] at h
    exact hp h
  · rw [Table.get_of_size_le _ (Nat.le_of_not_lt hc)] at hp
    exact hp (ReactorSettings.startPanic?_default)

theorem cutShort_step {c i : Nat} {m : Machine H} {o : Operation H} {rest : List (Frame H)}
    (hf : (m.thread i).frames = .enlist o :: rest) (ho : o.home = c)
    (hr : (m.shared.loops.get c).reactor = .idle) :
    m.noted (cutShortHere c) (.step i) =
      if (m.shared.loops.get c).settings.reactor.startPanic? = none then [] else [o] := by
  have ha : m.act? (.step i) =
      some ⟨i,[.enlist o],rest,Frame.take m.shared (m.thread i).active o⟩ := by
    simp [act?,stepAct?,hf,Frame.sleeps,Frame.step]
  rw [noted_of_act? ha,cutShortHere,Frame.take,ho,hr]
  cases (m.shared.loops.get c).settings.reactor.startPanic? with
  | none => simp [cutShortOn]
  | some t => simp [cutShortOn,ho]

/-- What is known of the operations of loop `c` that the start of its reactor cuts short. -/
structure StartsReactor (c : Nat) (moves : List (Move H)) : Prop where
  /-- Whatever a loop is built from has been checked, and its pool can be built if it is fit. -/
  settled : ∀ (o : Settings.Origin) s, o.settle = .ok s →
    s.Valid ∧ (s.reactor.startPanic? = none ↔ ¬s.reactor.Unfit)
  spared : ((run moves).shared.loops.get c).settings.Valid →
    ¬((run moves).shared.loops.get c).settings.reactor.Unfit → history (cutShortHere c) moves = []
  cut : ∀ i o rest, ((run moves).thread i).frames = .enlist o :: rest → o.home = c →
    ((run moves).shared.loops.get c).reactor = .idle →
      ((run moves).shared.loops.get c).settings.Valid →
        ((run moves).noted (cutShortHere c) (.step i) = [o] ↔
          ((run moves).shared.loops.get c).settings.reactor.Unfit)
  /-- Nobody gives back the unit of work of an operation that was cut short. -/
  stranded : ((run moves).shared.loops.get c).closed = false →
    (history (cutShortHere c) moves).length ≤ ((run moves).shared.loops.get c).outstanding
  /-- So the loop never runs dry again, and it stops only if a thread asks for it. -/
  hung : ((run moves).shared.loops.get c).closed = false → history (cutShortHere c) moves ≠ [] →
    ((run moves).shared.loops.get c).pick ≠ .dry ∧
      ∀ y, ((run moves).shared.loops.get c).stopped = false →
        (((run moves).move y).shared.loops.get c).closed = false →
          (((run moves).move y).shared.loops.get c).stopped = true →
            ∃ a, (run moves).act? y = some a ∧ a.taken = [.call (.stop c)]

theorem length_cutShort_le (c : Nat) (moves : List (Move H)) :
    (history (cutShortHere c) moves).length ≤ load c moves := by
  unfold load
  omega

/-- A reactor starts whenever its pool can be built, which the check of the settings does not
ensure; an operation that it cuts short is outstanding for as long as the loop has an owner. -/
theorem starts_reactor (c : Nat) (moves : List (Move H)) : StartsReactor c moves where
  settled o s h :=
    have hs : s.Valid := Settings.valid_of_settle h
    ⟨hs,Settings.startPanic?_eq_none hs⟩
  spared hs hu := cutShort_eq_nil ((Settings.startPanic?_eq_none hs).2 hu)
  cut i o rest hf ho hr hs := by
    rw [cutShort_step hf ho hr,← not_iff_not,← Settings.startPanic?_eq_none hs]
    split <;> simp [*]
  stranded hc := by
    rw [(accounts_run c moves).outstanding hc]
    exact length_cutShort_le c moves
  hung hc hn := by
    have hp := List.length_pos_iff.2 hn
    refine ⟨?_,?_⟩
    · intro hd
      have hz := (accounts_run c moves).dry hc hd
      have hl := length_cutShort_le c moves
      omega
    · intro y hs hc' ht
      refine ((accounts_run c moves).stops y hc' hs ht).resolve_right ?_
      have hl := length_cutShort_le c (moves ++ [y])
      rw [history_concat,List.length_append] at hl
      omega

end Machine

/-- A name with a null character passes the check of the settings, and its pool cannot be built. -/
theorem Settings.not_startable_of_settle :
    ¬∀ (o : Origin) (s : Settings), o.settle = .ok s → s.reactor.startPanic? = none := by
  intro h
  have hr : ofText "\x7b\"reactor\":\x7b\"thread_name\":\"a\\u0000b\"\x7d\x7d" =
      .ok { reactor := { threadName := "a\x00b" } } := by decide +kernel
  have hs := h (.text _) _ ((settle_text hr).trans rfl)
  exact absurd hs (by decide +kernel)

end EventLoop
