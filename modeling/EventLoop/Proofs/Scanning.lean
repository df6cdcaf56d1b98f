import EventLoop.Proofs.Grammar
import EventLoop.Proofs.Spelling

/-! Numbers and strings against the grammar: a reader takes exactly what the grammar admits, and
leaves the rest. Main statements: `string_eq_ok`, `skipString_eq_ok` and, for numbers,
`number_natural` and `skipNumber_append` with their converses. -/
namespace EventLoop
namespace Json

variable {α β : Type}

theorem bind_eq_ok {x : Except Fault α} {f : α → Except Fault β} {b : β} :
    (x >>= f) = .ok b ↔ ∃ a, x = .ok a ∧ f a = .ok b := by
  cases x <;> simp [bind,Except.bind]

theorem map_eq_ok {x : Except Fault α} {f : α → β} {b : β} :
    x.map f = .ok b ↔ ∃ a, x = .ok a ∧ f a = b := by
  cases x <;> simp [Except.map]

theorem word_eq_ok {w cs rest : List Char} : word w cs = .ok rest ↔ cs = w ++ rest := by
  induction w generalizing cs with
  | nil => simp [word]
  | cons x xs ih =>
    cases cs with
    | nil => simp [word]
    | cons c cs =>
      by_cases h : c = x
      · simp [word,h,ih]
      · simp [word,h]

/-! Numbers -/

theorem digits_append {ds rest : List Char} (h : ∀ c ∈ ds, Numeral.isDigit 10 c = true)
    (hr : startsWithDigit rest = false) :
    Numeral.digits 10 (ds ++ rest) = ds ∧ Numeral.afterDigits 10 (ds ++ rest) = rest := by
  have hd : rest.takeWhile (Numeral.isDigit 10) = [] ∧
      rest.dropWhile (Numeral.isDigit 10) = rest := by
    cases rest with
    | nil => exact ⟨rfl,rfl⟩
    | cons c cs =>
      have hc : ¬ Numeral.isDigit 10 c = true := by simpa [startsWithDigit] using hr
      exact ⟨List.takeWhile_cons_of_neg hc,List.dropWhile_cons_of_neg hc⟩
  constructor
  · rw [Numeral.digits,List.takeWhile_append_of_pos h,hd.1,List.append_nil]
  · rw [Numeral.afterDigits,List.dropWhile_append_of_pos h,hd.2]

theorem startsWithDigit_afterDigits (cs : List Char) :
    startsWithDigit (Numeral.afterDigits 10 cs) = false := by
  cases h : Numeral.afterDigits 10 cs with
  | nil => rfl
  | cons c rest =>
    have hne : cs.dropWhile (Numeral.isDigit 10) ≠ [] := by
      rw [← Numeral.afterDigits,h]
      exact List.cons_ne_nil _ _
    have hn := List.head_dropWhile_not (Numeral.isDigit 10) hne
    have hc : (cs.dropWhile (Numeral.isDigit 10)).head hne = c := by
      rw [List.head_eq_iff_head?_eq_some,← Numeral.afterDigits,h]
      rfl
    rwa [hc] at hn

theorem someDigits_eq_ok {atEnd : Fault} {cs ds rest : List Char} :
    someDigits atEnd cs = .ok (ds, rest) ↔
      cs = ds ++ rest ∧ Digits ds ∧ startsWithDigit rest = false := by
  constructor
  · intro h
    unfold someDigits at h
    split at h
    · next hs =>
      obtain ⟨rfl,rfl⟩ := Prod.mk.inj (Except.ok.inj h)
      refine ⟨(Numeral.digits_append_afterDigits 10 cs).symm,⟨?_,?_⟩,
        startsWithDigit_afterDigits cs⟩
      · cases cs with
        | nil => cases hs
        | cons c cs =>
          have hc : Numeral.isDigit 10 c = true := hs
          simp [Numeral.digits,hc]
      · exact fun c hc => List.all_eq_true.1 List.all_takeWhile c hc
    · split at h <;> cases h
  · rintro ⟨rfl,⟨hn,hd⟩,hr⟩
    obtain ⟨h1,h2⟩ := digits_append hd hr
    obtain ⟨c,ds,rfl⟩ := List.exists_cons_of_ne_nil hn
    have hs : startsWithDigit (c :: ds ++ rest) = true := hd c List.mem_cons_self
    rw [someDigits,if_pos hs,h1,h2]

theorem wholeDigits_eq_ok {atEnd : Fault} {cs ds rest : List Char} :
    wholeDigits atEnd cs = .ok (ds, rest) ↔
      cs = ds ++ rest ∧ Whole ds ∧ startsWithDigit rest = false := by
  constructor
  · intro h
    unfold wholeDigits at h
    split at h
    · split at h
      · cases h
      · next hr =>
        obtain ⟨rfl,rfl⟩ := Prod.mk.inj (Except.ok.inj h)
        exact ⟨rfl,.zero,by simpa using hr⟩
    · next hz =>
      obtain ⟨rfl,hd,hr⟩ := someDigits_eq_ok.1 h
      obtain ⟨c,ds,rfl⟩ := List.exists_cons_of_ne_nil hd.1
      refine ⟨rfl,.digits ?_ hd,hr⟩
      rintro rfl
      exact hz _ rfl
  · rintro ⟨rfl,hw,hr⟩
    cases hw with
    | zero => simp [wholeDigits,hr]
    | digits hc hd =>
      unfold wholeDigits
      split
      · next heq => exact absurd (List.cons.inj heq).1 hc
      · exact someDigits_eq_ok.2 ⟨rfl,hd,hr⟩

theorem fraction_of_ok {atEnd : Fault} {cs rest : List Char} {frac : Option (List Char)}
    (h : fraction atEnd cs = .ok (frac, rest)) :
    ∃ x, Fraction x ∧ cs = x ++ rest ∧ (frac = none → x = [] ∧ rest.head? ≠ some '.') := by
  unfold fraction at h
  split at h
  · obtain ⟨⟨ds,r⟩,hs,he⟩ := map_eq_ok.1 h
    obtain ⟨rfl,rfl⟩ := Prod.mk.inj he
    obtain ⟨rfl,hd,-⟩ := someDigits_eq_ok.1 hs
    exact ⟨_,.some hd,rfl,nofun⟩
  · next hp =>
    obtain ⟨rfl,rfl⟩ := Prod.mk.inj (Except.ok.inj h)
    refine ⟨[],.none,rfl,fun _ => ⟨rfl,fun hc => ?_⟩⟩
    obtain ⟨ds,hd⟩ := List.head?_eq_some_iff.1 hc
    exact hp ds hd

theorem fraction_append (atEnd : Fault) {x rest : List Char} (h : Fraction x)
    (hd : startsWithDigit rest = false) (hp : ∀ cs, rest ≠ '.' :: cs) :
    ∃ frac, fraction atEnd (x ++ rest) = .ok (frac, rest) := by
  cases h with
  | none =>
    refine ⟨none,?_⟩
    rw [List.nil_append]
    unfold fraction
    split
    · exact absurd rfl (hp _)
    · rfl
  | @some ds hds =>
    refine ⟨some ds,?_⟩
    rw [List.cons_append,fraction,someDigits_eq_ok.2 ⟨rfl,hds,hd⟩]
    rfl

def Signed (sign ds : List Char) : Prop :=
  sign = [] ∧ ds.head? ≠ some '+' ∧ ds.head? ≠ some '-' ∨ sign = ['+'] ∨ sign = ['-']

theorem exists_signed (cs : List Char) : ∃ sign ds, cs = sign ++ ds ∧ Signed sign ds := by
  by_cases hp : cs.head? = some '+'
  · obtain ⟨ds,rfl⟩ := List.head?_eq_some_iff.1 hp
    exact ⟨['+'],ds,rfl,Or.inr (Or.inl rfl)⟩
  by_cases hm : cs.head? = some '-'
  · obtain ⟨ds,rfl⟩ := List.head?_eq_some_iff.1 hm
    exact ⟨['-'],ds,rfl,Or.inr (Or.inr rfl)⟩
  · exact ⟨[],cs,rfl,Or.inl ⟨rfl,hp,hm⟩⟩

theorem exponent_cons {atEnd : Fault} {e : Char} {sign ds : List Char} (he : e = 'e' ∨ e = 'E')
    (hs : Signed sign ds) : ∃ i : Int, exponent atEnd (e :: (sign ++ ds)) =
      (someDigits atEnd ds).map fun (ds, rest) => (some (i * Numeral.value 10 ds), rest) := by
  obtain ⟨rfl,hp,hm⟩ | rfl | rfl := hs
  · refine ⟨1,?_⟩
    obtain rfl | rfl := he <;> simp only [exponent,List.nil_append] <;> split <;> simp_all
  · exact ⟨1,by obtain rfl | rfl := he <;> rfl⟩
  · exact ⟨-1,by obtain rfl | rfl := he <;> rfl⟩

theorem exponent_of_ok {atEnd : Fault} {cs rest : List Char} {exp : Option Int}
    (h : exponent atEnd cs = .ok (exp, rest)) : ∃ x, Exponent x ∧ cs = x ++ rest ∧
      (exp = none → x = [] ∧ ∀ e ∈ rest.head?, ¬ (e = 'e' ∨ e = 'E')) := by
  by_cases hc : ∃ e r, (e = 'e' ∨ e = 'E') ∧ cs = e :: r
  · obtain ⟨e,r,he,rfl⟩ := hc
    obtain ⟨sign,ds,rfl,hs⟩ := exists_signed r
    obtain ⟨i,hx⟩ := exponent_cons he hs
    rw [hx] at h
    obtain ⟨⟨xs,ys⟩,hd,hr⟩ := map_eq_ok.1 h
    obtain ⟨rfl,rfl⟩ := Prod.mk.inj hr
    obtain ⟨rfl,hd,-⟩ := someDigits_eq_ok.1 hd
    exact ⟨_,.some he (hs.imp_left And.left) hd,by simp,nofun⟩
  · have hn : exponent atEnd cs = .ok (none, cs) := by
      unfold exponent
      split
      · exact absurd ⟨_,_,Or.inl rfl,rfl⟩ hc
      · exact absurd ⟨_,_,Or.inr rfl,rfl⟩ hc
      · rfl
    rw [hn] at h
    obtain ⟨rfl,rfl⟩ := Prod.mk.inj (Except.ok.inj h)
    refine ⟨[],.none,rfl,fun _ => ⟨rfl,fun e he hl => ?_⟩⟩
    obtain ⟨r,rfl⟩ := List.head?_eq_some_iff.1 he
    exact hc ⟨e,r,hl,rfl⟩

theorem exponent_append (atEnd : Fault) {x rest : List Char} (h : Exponent x) (hr : Cut rest) :
    ∃ exp, exponent atEnd (x ++ rest) = .ok (exp, rest) := by
  cases h with
  | none => exact ⟨none,exponent_of_cut hr⟩
  | @some e sign ds he hs hd =>
    have hd' : someDigits atEnd (ds ++ rest) = .ok (ds, rest) :=
      someDigits_eq_ok.2 ⟨rfl,hd,startsWithDigit_of_cut hr⟩
    have hg : Signed sign (ds ++ rest) := by
      obtain rfl | hs := hs
      · obtain ⟨c,ds,rfl⟩ := List.exists_cons_of_ne_nil hd.1
        have hc := hd.2 c List.mem_cons_self
        refine Or.inl ⟨rfl,?_,?_⟩
        all_goals
          rintro ⟨⟩
          exact absurd hc (by decide)
      · exact Or.inr hs
    obtain ⟨i,hx⟩ := exponent_cons he hg
    exact ⟨_,by rw [List.cons_append,List.append_assoc,hx,hd']; rfl⟩

/-! A number behind its sign -/

theorem number_parts {frac exp rest : List Char} (hf : Fraction frac) (he : Exponent exp)
    (hr : Cut rest) : startsWithDigit (frac ++ (exp ++ rest)) = false ∧
      startsWithDigit (exp ++ rest) = false ∧ ∀ cs, exp ++ rest ≠ '.' :: cs := by
  have hx : startsWithDigit (exp ++ rest) = false ∧ ∀ cs, exp ++ rest ≠ '.' :: cs := by
    cases he with
    | none =>
      refine ⟨startsWithDigit_of_cut hr,?_⟩
      rintro cs rfl
      exact (hr '.' rfl).2.1 rfl
    | some he =>
      obtain rfl | rfl := he <;> exact ⟨rfl,nofun⟩
  refine ⟨?_,hx⟩
  cases hf with
  | none => exact hx.1
  | some => rfl

theorem skipNumber_append {whole frac exp rest : List Char} (hw : Whole whole) (hf : Fraction frac)
    (he : Exponent exp) (hr : Cut rest) :
    skipNumber (whole ++ (frac ++ (exp ++ rest))) = .ok rest := by
  obtain ⟨hd,hd',hp⟩ := number_parts hf he hr
  obtain ⟨f,hfrac⟩ := fraction_append .grammar hf hd' hp
  obtain ⟨e,hexp⟩ := exponent_append .grammar he hr
  rw [skipNumber,wholeDigits_eq_ok.2 ⟨rfl,hw,hd⟩]
  simp only [bind,Except.bind,hfrac,hexp]
  rfl

theorem number_of_skipNumber {cs rest : List Char} (h : skipNumber cs = .ok rest) :
    ∃ whole frac exp, Whole whole ∧ Fraction frac ∧ Exponent exp ∧
      cs = whole ++ (frac ++ (exp ++ rest)) := by
  obtain ⟨⟨whole,r⟩,hw,h⟩ := bind_eq_ok.1 h
  obtain ⟨⟨f,r'⟩,hf,h⟩ := bind_eq_ok.1 h
  obtain ⟨⟨e,s⟩,he,h⟩ := bind_eq_ok.1 h
  obtain rfl := Except.ok.inj h
  obtain ⟨rfl,hwhole,-⟩ := wholeDigits_eq_ok.1 hw
  obtain ⟨frac,hfrac,rfl,-⟩ := fraction_of_ok hf
  obtain ⟨exp,hexp,rfl,-⟩ := exponent_of_ok he
  exact ⟨whole,frac,exp,hwhole,hfrac,hexp,rfl⟩

/-- A natural number is written with digits alone. -/
theorem number_natural {ds rest : List Char} {n : Nat} (hw : Whole ds)
    (hv : Numeral.value 10 ds = n) (hn : n < Numeral.wordLimit) (hr : Cut rest) :
    number false (ds ++ rest) = .ok (.natural n, rest) := by
  rw [number,wholeDigits_eq_ok.2 ⟨rfl,hw,startsWithDigit_of_cut hr⟩]
  simp [bind,Except.bind,fraction_of_cut hr,exponent_of_cut hr,hv,hn]

theorem natural_of_number {cs rest : List Char} {n : Nat}
    (h : number false cs = .ok (.natural n, rest)) :
    ∃ ds, Whole ds ∧ Numeral.value 10 ds = n ∧ n < Numeral.wordLimit ∧ cs = ds ++ rest ∧
      Cut rest := by
  obtain ⟨⟨whole,r⟩,hw,h1⟩ := bind_eq_ok.1 h
  obtain ⟨⟨f,r'⟩,hf,h2⟩ := bind_eq_ok.1 h1
  obtain ⟨⟨e,s⟩,he,h3⟩ := bind_eq_ok.1 h2
  obtain ⟨rfl,hwhole,hd⟩ := wholeDigits_eq_ok.1 hw
  obtain ⟨frac,-,rfl,hfrac⟩ := fraction_of_ok hf
  obtain ⟨exp,-,rfl,hexp⟩ := exponent_of_ok he
  dsimp only at h3
  split at h3
  · next hc =>
    obtain ⟨hn,rfl⟩ := Prod.mk.inj (Except.ok.inj h3)
    obtain ⟨-,rfl,rfl,hl⟩ := hc
    have hn := Number.natural.inj hn
    obtain ⟨rfl,hp⟩ := hfrac rfl
    obtain ⟨rfl,hx⟩ := hexp rfl
    refine ⟨whole,hwhole,hn,hn ▸ hl,rfl,fun c hc => ?_⟩
    obtain ⟨r,rfl⟩ := List.head?_eq_some_iff.1 hc
    obtain ⟨he,hE⟩ := not_or.1 (hx c rfl)
    exact ⟨hd,fun h => hp (congrArg some h),he,hE⟩
  · split at h3
    · cases h3
    · cases (Prod.mk.inj (Except.ok.inj h3)).1

/-! Strings -/

theorem length_le_utf8Length (cs : List Char) : cs.length ≤ utf8Length cs := by
  induction cs with
  | nil => exact Nat.le_refl 0
  | cons c cs ih =>
    have hc := Char.utf8Size_pos c
    rw [List.length_cons,utf8Length,List.foldr_cons,← utf8Length]
    omega

theorem hexEscape_eq_ok {cs rest : List Char} {n : Nat} :
    hexEscape cs = .ok (n, rest) ↔ ∃ ds, cs = ds ++ rest ∧ Hex ds n := by
  unfold hexEscape
  constructor
  · intro h
    split at h
    · cases h
    split at h
    · next hd =>
      obtain ⟨rfl,rfl⟩ := Prod.mk.inj (Except.ok.inj h)
      exact ⟨cs.take 4,(List.take_append_drop 4 cs).symm,hd.1,hd.2,rfl⟩
    · cases h
  · rintro ⟨ds,rfl,hl,hd,rfl⟩
    have ht : (ds ++ rest).take 4 = ds := List.take_left' hl
    have hr : (ds ++ rest).drop 4 = rest := List.drop_left' hl
    have hu : ¬ utf8Length ds < 4 := Nat.not_lt.2 (hl ▸ length_le_utf8Length ds)
    rw [ht,hr,if_neg hu,if_pos ⟨hl,hd⟩]

theorem require_eq_ok {c : Char} {cs rest : List Char} :
    require c cs = .ok rest ↔ cs = c :: rest := by
  cases cs with
  | nil => simp [require]
  | cons x xs =>
    by_cases h : x = c <;> simp [require,h]

theorem lowHalf_eq_ok {high : Nat} {cs rest : List Char} {x : Char} :
    lowHalf high cs = .ok (x, rest) ↔ ∃ es low, cs = '\\' :: 'u' :: (es ++ rest) ∧ Hex es low ∧
      (0xdc00 ≤ low ∧ low ≤ 0xdfff) ∧
      x = Char.ofNat ((high - 0xd800) * 0x400 + (low - 0xdc00) + 0x10000) := by
  unfold lowHalf
  simp only [bind_eq_ok,require_eq_ok,Prod.exists,hexEscape_eq_ok]
  constructor
  · rintro ⟨_,rfl,_,rfl,low,r,⟨es,rfl,he⟩,h⟩
    split at h
    · cases h
    · next hl =>
      have hlow : 0xdc00 ≤ low ∧ low ≤ 0xdfff := by omega
      obtain ⟨hx,rfl⟩ := Prod.mk.inj (Except.ok.inj h)
      exact ⟨es,low,rfl,he,hlow,hx.symm⟩
  · rintro ⟨es,low,rfl,he,hl,hx⟩
    have hn : ¬ (low < 0xdc00 ∨ 0xdfff < low) := by omega
    exact ⟨_,rfl,_,rfl,low,rest,⟨es,rfl,he⟩,by rw [if_neg hn,hx]⟩

theorem escaped_eq_ok {cs rest : List Char} {x : Char} :
    escaped cs = .ok (x, rest) ↔ ∃ e, cs = e ++ rest ∧ Escape e x := by
  constructor
  · intro h
    cases cs with
    | nil => cases h
    | cons c cs =>
      rw [escaped] at h
      split at h
      · next hc =>
        subst hc
        obtain ⟨⟨n,r⟩,hx,hy⟩ := bind_eq_ok.1 h
        obtain ⟨ds,rfl,hd⟩ := hexEscape_eq_ok.1 hx
        dsimp only at hy
        split at hy
        · cases hy
        · next hl =>
          split at hy
          · next hh =>
            obtain ⟨es,low,rfl,he,hlow,hx⟩ := lowHalf_eq_ok.1 hy
            rw [hx]
            exact ⟨_,by simp,.pair hd hh he hlow⟩
          · next hh =>
            have hn : ¬ (0xd800 ≤ n ∧ n ≤ 0xdfff) := by omega
            obtain ⟨hx,rfl⟩ := Prod.mk.inj (Except.ok.inj hy)
            rw [← hx]
            exact ⟨_,rfl,.hex hd hn⟩
      · split at h
        · next y hs =>
          obtain ⟨rfl,rfl⟩ := Prod.mk.inj (Except.ok.inj h)
          exact ⟨[c],rfl,.short hs⟩
        · cases h
  · rintro ⟨e,rfl,he⟩
    cases he with
    | @short c x hs =>
      have hc : c ≠ 'u' := by
        rintro rfl
        cases hs
      simp [escaped,hc,hs]
    | @hex ds n hd hn =>
      rw [List.cons_append,escaped,if_pos rfl,hexEscape_eq_ok.2 ⟨ds,rfl,hd⟩]
      simp only [bind,Except.bind]
      rw [if_neg (by omega),if_neg (by omega)]
    | @pair ds es high low hd hh he hl =>
      rw [List.cons_append,List.append_assoc,escaped,if_pos rfl,hexEscape_eq_ok.2 ⟨ds,rfl,hd⟩]
      simp only [bind,Except.bind]
      rw [if_neg (by omega),if_pos hh]
      exact lowHalf_eq_ok.2 ⟨es,low,rfl,he,hl,rfl⟩

theorem spelt_of_stringRest {n : Nat} {cs xs rest : List Char}
    (h : stringRest n cs = .ok (xs, rest)) : ∃ raw, Spelt raw xs ∧ cs = raw ++ '"' :: rest := by
  induction n generalizing cs xs with
  | zero => cases h
  | succ n ih =>
    cases cs with
    | nil => cases h
    | cons c cs =>
      rw [stringRest] at h
      split at h
      · next hq =>
        subst hq
        obtain ⟨rfl,rfl⟩ := Prod.mk.inj (Except.ok.inj h)
        exact ⟨[],.nil,rfl⟩
      next hq =>
      split at h
      · next hb =>
        subst hb
        obtain ⟨⟨x,r⟩,he,h'⟩ := bind_eq_ok.1 h
        obtain ⟨⟨ys,r'⟩,hr,hx⟩ := bind_eq_ok.1 h'
        obtain ⟨rfl,rfl⟩ := Prod.mk.inj (Except.ok.inj hx)
        obtain ⟨e,rfl,hesc⟩ := escaped_eq_ok.1 he
        obtain ⟨raw,hs,rfl⟩ := ih hr
        exact ⟨_,.escape hesc hs,by simp⟩
      next hb =>
      split at h
      · cases h
      · next hl =>
        obtain ⟨⟨ys,r⟩,hr,hx⟩ := bind_eq_ok.1 h
        obtain ⟨rfl,rfl⟩ := Prod.mk.inj (Except.ok.inj hx)
        obtain ⟨raw,hs,rfl⟩ := ih hr
        exact ⟨_,.plain ⟨hq,hb,Nat.not_lt.1 hl⟩ hs,rfl⟩

theorem stringRest_append {raw xs : List Char} (h : Spelt raw xs) (rest : List Char) {n : Nat}
    (hn : raw.length < n) : stringRest n (raw ++ '"' :: rest) = .ok (xs, rest) := by
  induction h generalizing n with
  | nil =>
    obtain ⟨n,rfl⟩ := Nat.exists_eq_succ_of_ne_zero (Nat.ne_of_gt hn)
    rfl
  | @plain c raw xs hc h ih =>
    obtain ⟨n,rfl⟩ := Nat.exists_eq_succ_of_ne_zero (Nat.ne_of_gt (Nat.zero_lt_of_lt hn))
    obtain ⟨hq,hb,hl⟩ := hc
    have hr := ih (Nat.lt_of_succ_lt_succ hn)
    simp [stringRest,hq,hb,Nat.not_lt.2 hl,hr,bind,Except.bind,pure,Except.pure]
  | @escape e raw xs x he h ih =>
    obtain ⟨n,rfl⟩ := Nat.exists_eq_succ_of_ne_zero (Nat.ne_of_gt (Nat.zero_lt_of_lt hn))
    have hl : raw.length < n := by
      rw [List.length_cons,List.length_append] at hn
      omega
    have hx : escaped (e ++ (raw ++ '"' :: rest)) = .ok (x, raw ++ '"' :: rest) :=
      escaped_eq_ok.2 ⟨e,rfl,he⟩
    have hs := stringRest_escaped hx n
    rw [List.cons_append,List.append_assoc,hs,ih hl]
    rfl

theorem string_eq_ok {cs xs rest : List Char} :
    string cs = .ok (xs, rest) ↔ ∃ raw, Spelt raw xs ∧ cs = raw ++ '"' :: rest := by
  constructor
  · exact spelt_of_stringRest
  · rintro ⟨raw,h,rfl⟩
    apply stringRest_append h
    rw [List.length_append]
    omega

theorem skipEscaped_hex {ds : List Char} {n : Nat} (h : Hex ds n) (cs : List Char) :
    skipEscaped ('u' :: (ds ++ cs)) = .ok cs := by
  rw [skipEscaped,if_pos rfl,hexEscape_eq_ok.2 ⟨ds,rfl,h⟩]
  rfl

theorem skipEscaped_short {c x : Char} (h : shortEscape? c = some x) (cs : List Char) :
    skipEscaped (c :: cs) = .ok cs := by
  have hc : c ≠ 'u' := by
    rintro rfl
    cases h
  simp [skipEscaped,hc,h]

theorem sealed_of_skipStringRest {n : Nat} {cs rest : List Char}
    (h : skipStringRest n cs = .ok rest) : ∃ raw, Sealed raw ∧ cs = raw ++ '"' :: rest := by
  induction n generalizing cs with
  | zero => cases h
  | succ n ih =>
    cases cs with
    | nil => cases h
    | cons c cs =>
      rw [skipStringRest] at h
      split at h
      · next hq =>
        subst hq
        obtain rfl := Except.ok.inj h
        exact ⟨[],.nil,rfl⟩
      next hq =>
      split at h
      · next hb =>
        subst hb
        obtain ⟨r,he,hr⟩ := bind_eq_ok.1 h
        obtain ⟨raw,hs,rfl⟩ := ih hr
        cases cs with
        | nil => cases he
        | cons c cs =>
          rw [skipEscaped] at he
          split at he
          · next hu =>
            subst hu
            obtain ⟨⟨k,r⟩,hk,hx⟩ := map_eq_ok.1 he
            obtain ⟨ds,rfl,hd⟩ := hexEscape_eq_ok.1 hk
            obtain rfl : r = raw ++ '"' :: rest := hx
            exact ⟨_,.hex hd hs,by simp⟩
          split at he
          · next hx =>
            obtain ⟨x,hx⟩ := Option.isSome_iff_exists.1 hx
            obtain rfl := Except.ok.inj he
            exact ⟨_,.short hx hs,rfl⟩
          · cases he
      next hb =>
      split at h
      · cases h
      · next hl =>
        obtain ⟨raw,hs,rfl⟩ := ih h
        exact ⟨_,.plain ⟨hq,hb,Nat.not_lt.1 hl⟩ hs,rfl⟩

theorem skipStringRest_append {raw : List Char} (h : Sealed raw) (rest : List Char) {n : Nat}
    (hn : raw.length < n) : skipStringRest n (raw ++ '"' :: rest) = .ok rest := by
  induction h generalizing n with
  | nil =>
    obtain ⟨n,rfl⟩ := Nat.exists_eq_succ_of_ne_zero (Nat.ne_of_gt hn)
    rfl
  | plain hc h ih =>
    obtain ⟨n,rfl⟩ := Nat.exists_eq_succ_of_ne_zero (Nat.ne_of_gt (Nat.zero_lt_of_lt hn))
    obtain ⟨hq,hb,hl⟩ := hc
    simp [skipStringRest,hq,hb,Nat.not_lt.2 hl,ih (Nat.lt_of_succ_lt_succ hn)]
  | @short c x raw hc h ih =>
    obtain ⟨n,rfl⟩ := Nat.exists_eq_succ_of_ne_zero (Nat.ne_of_gt (Nat.zero_lt_of_lt hn))
    have hl : raw.length < n := by
      simp only [List.length_cons] at hn
      omega
    simp [skipStringRest,skipEscaped_short hc,Except.bind,ih hl]
  | @hex ds raw k hd h ih =>
    obtain ⟨n,rfl⟩ := Nat.exists_eq_succ_of_ne_zero (Nat.ne_of_gt (Nat.zero_lt_of_lt hn))
    have hl : raw.length < n := by
      simp only [List.length_cons,List.length_append] at hn
      omega
    simp [skipStringRest,skipEscaped_hex hd,Except.bind,ih hl]

theorem skipString_eq_ok {cs rest : List Char} :
    skipString cs = .ok rest ↔ ∃ raw, Sealed raw ∧ cs = raw ++ '"' :: rest := by
  constructor
  · exact sealed_of_skipStringRest
  · rintro ⟨raw,h,rfl⟩
    apply skipStringRest_append h
    rw [List.length_append]
    omega

end Json
end EventLoop
