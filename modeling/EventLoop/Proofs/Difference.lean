import EventLoop.Clock
import EventLoop.Script.Perform
import Mathlib.Algebra.Group.Basic
import Mathlib.Algebra.Ring.Int.Defs

/-! Signed differences. What is counted in seconds and nanoseconds, with a borrow on the way there
and a negation on the way back, is the exact difference cut off at the longest span on either side,
and no number on the way is too large for its word. So the time left of a timer is negative just if
its expiry has passed. Main statement: `time_left`. -/
namespace EventLoop
namespace Clock

/-- A length of time cut off at the longest span on either side. -/
def cut (d : Int) : Int := max (-longest) (min d longest)

def Holdable (d : Int) : Prop := -longest ≤ d ∧ d ≤ longest

theorem longest_pos : (0 : Int) < longest := by decide

theorem cut_of_holdable {d : Int} (h : Holdable d) : cut d = d := by
  rw [cut,Int.min_eq_left h.2,Int.max_eq_right h.1]

theorem holdable_cut (d : Int) : Holdable (cut d) :=
  ⟨Int.le_max_left _ _,Int.max_le.2 ⟨by decide,Int.min_le_right _ _⟩⟩

theorem cut_neg (d : Int) : cut (-d) = -cut d := by
  have hl := longest_pos
  unfold cut
  omega

theorem cut_mono {d e : Int} (h : d ≤ e) : cut d ≤ cut e := by
  unfold cut
  omega

theorem cut_lt_zero_iff (d : Int) : cut d < 0 ↔ d < 0 := by
  have hl := longest_pos
  unfold cut
  omega

namespace Split

variable {p q d : Split}

@[simp] theorem total_of (t : Int) : (of t).total = t := by
  simp only [total,of]
  exact Int.ediv_mul_add_emod t second

theorem seconds_bounds (p : Split) :
    p.seconds * second ≤ p.total ∧ p.total < (p.seconds + 1) * second := by
  have hn := p.nonneg
  have hs := p.short
  unfold total
  constructor
  · omega
  · rw [Int.add_mul]
    omega

theorem since?_of_le (h : q.total ≤ p.total) :
    ∃ d, p.since? q = some d ∧ d.total = p.total - q.total := by
  have hp := p.short
  have hq := q.nonneg
  have hp' := p.nonneg
  have hq' := q.short
  simp only [total,second] at *
  unfold since?
  rw [if_pos (by omega)]
  split
  · refine ⟨_,rfl,?_⟩
    simp only
    omega
  · refine ⟨_,rfl,?_⟩
    simp only [second]
    omega

theorem since?_of_lt (h : p.total < q.total) : p.since? q = none := by
  have hp := p.short
  have hq := q.nonneg
  have hp' := p.nonneg
  have hq' := q.short
  simp only [total,second] at *
  exact if_neg (by omega)

theorem total_span (p : Split) : (p.span?.getD longest).total = min p.total Clock.longest := by
  have hl : longest.total = Clock.longest := total_of _
  have hp := p.short
  have hp' := p.nonneg
  have hn := longest.short
  have hn' := longest.nonneg
  rw [← hl]
  unfold span?
  simp only [total,second] at *
  split
  · simp only [Option.getD_none]
    omega
  · split
    · simp only [Option.getD_none]
      omega
    · simp only [Option.getD_some]
      omega

theorem total_neg (p : Split) : p.neg.total = -p.total := by
  unfold neg
  split
  · simp only [total,second]
    omega
  · simp only [total,second]
    omega

theorem total_between (p q : Split) : (p.between q).total = cut (p.total - q.total) := by
  unfold between cut
  by_cases h : q.total ≤ p.total
  · obtain ⟨d,hd,ht⟩ := since?_of_le h
    rw [hd]
    simp only [total_span,ht,Clock.longest,millisecond]
    omega
  · obtain ⟨d,hd,ht⟩ := since?_of_le (p := q) (q := p) (by omega)
    rw [since?_of_lt (by omega),hd]
    simp only [Option.getD_some,total_neg,total_span,ht,Clock.longest,millisecond]
    omega

def Word (p : Split) : Prop := -0x8000000000000000 ≤ p.seconds ∧ p.seconds < 0x8000000000000000

def Unsigned (p : Split) : Prop := 0 ≤ p.seconds ∧ p.seconds < 0x10000000000000000

theorem word_of_total (hl : -range ≤ p.total) (hu : p.total < range) : p.Word := by
  have hb := p.seconds_bounds
  simp only [range,second] at *
  unfold Word
  omega

theorem unsigned_of_total (hl : 0 ≤ p.total) (hu : p.total < 2 * range) : p.Unsigned := by
  have hb := p.seconds_bounds
  simp only [range,second] at *
  unfold Unsigned
  omega

end Split

variable {a b : Int}

theorem signedBetween_eq (a b : Int) : signedBetween a b = cut (a - b) := by
  rw [signedBetween,Split.total_between,Split.total_of,Split.total_of]

/-- What is counted on the way from two readings to the span between them. One of them is not
earlier than the other, so there is always something to count. -/
structure Counts (a b : Int) : Prop where
  readings : (Split.of a).Word ∧ (Split.of b).Word
  ordered : ((Split.of a).since? (Split.of b)).isSome ∨ ((Split.of b).since? (Split.of a)).isSome
  ahead : ∀ d, (Split.of a).since? (Split.of b) = some d → d.Unsigned
  behind : ∀ d, (Split.of b).since? (Split.of a) = some d → d.Unsigned
  span : ((Split.of a).between (Split.of b)).Word

theorem unsigned_of_since {d : Split} (ha : Representable a) (hb : Representable b)
    (h : (Split.of a).since? (Split.of b) = some d) : d.Unsigned := by
  by_cases hba : b ≤ a
  · obtain ⟨e,he,ht⟩ := Split.since?_of_le (p := .of a) (q := .of b) (by simpa using hba)
    obtain rfl := Option.some.inj (h.symm.trans he)
    rw [Split.total_of,Split.total_of] at ht
    have hau : a < range := ha.2
    have hbl : -range ≤ b := hb.1
    exact Split.unsigned_of_total (by omega) (by omega)
  · rw [Split.since?_of_lt (by simpa using hba)] at h
    cases h

theorem counts_of_representable (ha : Representable a) (hb : Representable b) : Counts a b where
  readings := ⟨Split.word_of_total (by simpa using ha.1) (by simpa using ha.2),
    Split.word_of_total (by simpa using hb.1) (by simpa using hb.2)⟩
  ordered := by
    by_cases hba : b ≤ a
    · obtain ⟨d,hd,-⟩ := Split.since?_of_le (p := .of a) (q := .of b) (by simpa using hba)
      exact Or.inl (by simp [hd])
    · obtain ⟨d,hd,-⟩ := Split.since?_of_le (p := .of b) (q := .of a) (by simp; omega)
      exact Or.inr (by simp [hd])
  ahead _ := unsigned_of_since ha hb
  behind _ := unsigned_of_since hb ha
  span := by
    have hl : longest < range := by decide
    have hd := holdable_cut (a - b)
    apply Split.word_of_total <;> rw [Split.total_between,Split.total_of,Split.total_of]
    · exact Int.le_trans (Int.neg_le_neg (Int.le_of_lt hl)) hd.1
    · exact Int.lt_of_le_of_lt hd.2 hl

/-- What the signed differences of readings come to, all over the clock. -/
structure Differences : Prop where
  exact : ∀ a b, signedBetween a b = cut (a - b)
  counts : ∀ a b, Representable a → Representable b → Counts a b
  opposite : ∀ a b, signedBetween a b = -signedBetween b a
  monotone : ∀ a b c, a ≤ b → signedBetween a c ≤ signedBetween b c
  antitone : ∀ a b c, a ≤ b → signedBetween c b ≤ signedBetween c a
  negative : ∀ a b, isNeg (signedBetween a b) = true ↔ a < b
  additive : ∀ a b c, Holdable (a - b) → Holdable (b - c) → Holdable (a - c) →
    signedBetween a b + signedBetween b c = signedBetween a c

theorem differences : Differences where
  exact := signedBetween_eq
  counts _ _ := counts_of_representable
  opposite a b := by rw [signedBetween_eq,signedBetween_eq,← cut_neg,Int.neg_sub]
  monotone a b c h := by
    rw [signedBetween_eq,signedBetween_eq]
    exact cut_mono (Int.sub_le_sub_right h c)
  antitone a b c h := by
    rw [signedBetween_eq,signedBetween_eq]
    exact cut_mono (Int.sub_le_sub_left h c)
  negative a b := by
    rw [isNeg,decide_eq_true_iff,signedBetween_eq,cut_lt_zero_iff]
    exact ⟨Int.lt_of_sub_neg,Int.sub_neg_of_lt⟩
  additive a b c hab hbc hac := by
    simp only [signedBetween_eq,cut_of_holdable,hab,hbc,hac]
    exact sub_add_sub_cancel a b c

end Clock

namespace Session

/-- What becomes of the time left of a timer. -/
structure TimeLeft : Prop extends Clock.Differences where
  left : ∀ (s : Session) name t, s.timers.get? name = some t → ∃ d,
    (s.course (.left name)).2 = .result (Clock.report d) ∧
      d = Clock.signedBetween (s.shared.timers.get t).expiry s.now ∧
      (Clock.isNeg d = true ↔ (s.shared.timers.get t).expiry < s.now)

theorem time_left : TimeLeft where
  toDifferences := Clock.differences
  left s name t ht := ⟨_,by simp [course,ht],rfl,Clock.differences.negative _ _⟩

end Session
end EventLoop
