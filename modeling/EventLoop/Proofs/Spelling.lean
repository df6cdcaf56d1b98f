import EventLoop.Json.Reader
import EventLoop.Json.Value

/-! What is written as JSON is read back. Behind a member of an object stands a comma or a closing
bracket, and neither can be part of a value, so that a reader finds the end of what it reads. -/
namespace EventLoop
namespace Json

variable {α : Type}

def Ends (rest : List Char) : Prop := ∀ c ∈ rest.head?, c = ',' ∨ c = '}'

theorem ends_nil : Ends [] := by simp [Ends]

theorem ends_comma (cs : List Char) : Ends (',' :: cs) := by simp [Ends]

theorem ends_brace (cs : List Char) : Ends ('}' :: cs) := by simp [Ends]

def Reads (r : Reader α) (cs : List Char) (a : α) : Prop :=
  ∀ rest, Ends rest → r (cs ++ rest) = .ok (a, rest)

theorem skipBlank_cons {c : Char} (h : isBlank c = false) (cs : List Char) :
    skipBlank (c :: cs) = c :: cs := by simp [skipBlank,h]

/-! Strings -/

theorem hexEscape_symbol {n : Nat} (hn : n < 32) (cs : List Char) :
    hexEscape ('0' :: '0' :: Numeral.symbol (n / 16) :: Numeral.symbol (n % 16) :: cs) =
      .ok (n, cs) := by
  have h : ∀ i : Fin 32, utf8Length ['0', '0', Numeral.symbol (i / 16), Numeral.symbol (i % 16)] = 4 ∧
      ['0', '0', Numeral.symbol (i / 16), Numeral.symbol (i % 16)].all (Numeral.isDigit 16) = true ∧
      Numeral.value 16 ['0', '0', Numeral.symbol (i / 16), Numeral.symbol (i % 16)] = i := by
    decide
  obtain ⟨hl,hd,hv⟩ := h ⟨n,hn⟩
  simp only [hexEscape,List.take_succ_cons,List.take_zero,hl,hd,hv,List.length_cons,List.length_nil,
    List.drop_succ_cons,List.drop_zero]
  rfl

theorem escaped_hex {c : Char} (h : c.toNat < 32) (cs : List Char) :
    escaped ('u' :: '0' :: '0' :: Numeral.symbol (c.toNat / 16) ::
      Numeral.symbol (c.toNat % 16) :: cs) = .ok (c, cs) := by
  have hlow : ¬ (0xdc00 ≤ c.toNat ∧ c.toNat ≤ 0xdfff) := by omega
  have hhigh : ¬ (0xd800 ≤ c.toNat ∧ c.toNat ≤ 0xdbff) := by omega
  simp only [escaped,if_true,hexEscape_symbol h]
  simp only [bind,Except.bind,if_neg hlow,if_neg hhigh,Char.ofNat_toNat]

theorem stringRest_escaped {x : Char} {ds cs : List Char} (h : escaped ds = .ok (x, cs)) (n : Nat) :
    stringRest (n + 1) ('\\' :: ds) =
      (stringRest n cs).map fun (xs, rest) => (x :: xs, rest) := by
  have hq : ('\\' : Char) ≠ '"' := by decide
  simp only [stringRest,hq,h,if_true,if_false]
  cases hs : stringRest n cs <;> simp [bind,Except.bind,Except.map,pure,Except.pure,hs]

theorem stringRest_escape (c : Char) (n : Nat) (cs : List Char) :
    stringRest (n + 1) (escape c ++ cs) =
      (stringRest n cs).map fun (xs, rest) => (c :: xs, rest) := by
  unfold escape
  iterate 7
    split
    · subst c
      exact stringRest_escaped rfl n
  split
  · next hc => exact stringRest_escaped (escaped_hex hc cs) n
  · next hq hb _ _ _ _ _ hc =>
    simp only [List.singleton_append,stringRest,hq,hb,hc,if_false]
    cases stringRest n cs <;> rfl

theorem stringRest_flatMap (xs : List Char) (rest : List Char) {n : Nat} (hn : xs.length < n) :
    stringRest n (xs.flatMap escape ++ '"' :: rest) = .ok (xs, rest) := by
  induction xs generalizing n with
  | nil =>
    obtain ⟨n,rfl⟩ := Nat.exists_eq_succ_of_ne_zero (Nat.ne_of_gt hn)
    simp [stringRest]
  | cons x xs ih =>
    obtain ⟨n,rfl⟩ := Nat.exists_eq_succ_of_ne_zero (Nat.ne_of_gt (Nat.zero_lt_of_lt hn))
    rw [List.flatMap_cons,List.append_assoc,stringRest_escape,ih (by simpa using hn)]
    rfl

theorem length_escape (c : Char) : 0 < (escape c).length := by
  unfold escape
  repeat' split
  all_goals simp

theorem length_flatMap_escape (xs : List Char) : xs.length ≤ (xs.flatMap escape).length := by
  induction xs with
  | nil => simp
  | cons x xs ih =>
    have hx := length_escape x
    simp only [List.flatMap_cons,List.length_append,List.length_cons]
    omega

theorem string_flatMap (xs rest : List Char) :
    string (xs.flatMap escape ++ '"' :: rest) = .ok (xs, rest) := by
  have hl := length_flatMap_escape xs
  apply stringRest_flatMap
  simp only [List.length_append,List.length_cons]
  omega

theorem reads_text (s : String) : Reads text (quote s) s := by
  intro rest _
  rw [quote,List.cons_append,text,skipBlank_cons rfl]
  simp [string_flatMap,Except.map]

theorem reads_name {ofName? : String → Option α} {s : String} {a : α} (h : ofName? s = some a) :
    Reads (name ofName?) (quote s) a := by
  intro rest hr
  simp [name,reads_text s rest hr,Except.bind,h]

theorem reads_choice {ofName? : String → Option α} {s : String} {a : α} (h : ofName? s = some a) :
    Reads (choice ofName?) (quote s) a := by
  intro rest hr
  have hn := reads_name h rest hr
  rw [quote,List.cons_append] at hn ⊢
  rw [choice,skipBlank_cons rfl]
  exact hn

/-! Numbers and words -/

def Cut (rest : List Char) : Prop :=
  ∀ c ∈ rest.head?, Numeral.isDigit 10 c = false ∧ c ≠ '.' ∧ c ≠ 'e' ∧ c ≠ 'E'

theorem Ends.cut {rest : List Char} (h : Ends rest) : Cut rest := by
  intro c hc
  obtain rfl | rfl := h c hc <;> decide

theorem startsWithDigit_of_cut {rest : List Char} (h : Cut rest) :
    startsWithDigit rest = false := by
  cases rest with
  | nil => rfl
  | cons c rest => exact (h c rfl).1

theorem fraction_of_cut {atEnd : Fault} {rest : List Char} (h : Cut rest) :
    fraction atEnd rest = .ok (none, rest) := by
  unfold fraction
  split
  · exact absurd rfl (h '.' rfl).2.1
  · rfl

theorem exponent_of_cut {atEnd : Fault} {rest : List Char} (h : Cut rest) :
    exponent atEnd rest = .ok (none, rest) := by
  unfold exponent
  split
  · exact absurd rfl (h 'e' rfl).2.2.1
  · exact absurd rfl (h 'E' rfl).2.2.2
  · rfl

theorem digits_write (n : Nat) {rest : List Char} (h : Ends rest) :
    Numeral.digits 10 (Numeral.write 10 n ++ rest) = Numeral.write 10 n ∧
      Numeral.afterDigits 10 (Numeral.write 10 n ++ rest) = rest := by
  refine Numeral.digits_write (by decide) (by decide) n ?_
  intro c hc
  obtain rfl | rfl := h c hc <;> rfl

theorem wholeDigits_write (n : Nat) {rest : List Char} (h : Ends rest) :
    wholeDigits .ended (Numeral.write 10 n ++ rest) = .ok (Numeral.write 10 n, rest) := by
  by_cases hn : n = 0
  · subst n
    have hw : Numeral.write 10 0 = ['0'] := by rw [Numeral.write]; rfl
    rw [hw]
    simp [wholeDigits,startsWithDigit_of_cut h.cut]
  · obtain ⟨hds,har⟩ := digits_write n h
    have hh := Numeral.head_write (show 2 ≤ 10 by decide) hn
    have hd := Numeral.isDigit_of_mem_write (show 2 ≤ 10 by decide) (by decide) n
    cases hw : Numeral.write 10 n with
    | nil => exact absurd hw (Numeral.write_ne_nil 10 n)
    | cons c cs =>
      rw [hw] at hds har hh hd
      have hc : c ≠ '0' := by simpa using hh
      have hs : startsWithDigit (c :: cs ++ rest) = true := hd c List.mem_cons_self
      unfold wholeDigits
      split
      · next heq => exact absurd (List.cons.inj heq).1 hc
      · rw [someDigits,if_pos hs,hds,har]

theorem number_write {n : Nat} (hn : n < Numeral.wordLimit) {rest : List Char} (h : Ends rest) :
    number false (Numeral.write 10 n ++ rest) = .ok (.natural n, rest) := by
  have hv := Numeral.value_write (show 2 ≤ 10 by decide) (by decide) n
  simp only [number,wholeDigits_write n h,bind,Except.bind,fraction_of_cut h.cut,
    exponent_of_cut h.cut]
  simp [hv,hn]

theorem write_count (n : Nat) : (count n).write = Numeral.write 10 n := by
  have h : ¬ ((n : Int) < 0) := by omega
  simp [count,Value.write,integer,h]

theorem write_count_cons (n : Nat) : ∃ c cs, (count n).write = c :: cs ∧
    Numeral.isDigit 10 c = true ∧ isBlank c = false ∧ c ≠ '-' ∧ c ≠ 'n' := by
  rw [write_count]
  obtain ⟨c,cs,hw⟩ := List.exists_cons_of_ne_nil (Numeral.write_ne_nil 10 n)
  have hd := Numeral.isDigit_of_mem_write (show 2 ≤ 10 by decide) (by decide) n c (by simp [hw])
  have hne {d : Char} (h : Numeral.isDigit 10 d = false) : c ≠ d := Numeral.ne_of_isDigit hd h
  refine ⟨c,cs,hw,hd,?_,hne (by decide),hne (by decide)⟩
  simp [isBlank,hne (d := ' ') (by decide),hne (d := '\n') (by decide),hne (d := '\t') (by decide),
    hne (d := '\r') (by decide)]

theorem reads_natural (n : UInt64) : Reads natural (count n.toNat).write n := by
  intro rest h
  have hnum := number_write (n.toNat_lt) h
  obtain ⟨c,cs,hw,hd,hb,hs,-⟩ := write_count_cons n.toNat
  rw [← write_count,hw,List.cons_append] at hnum
  rw [hw,List.cons_append,natural,skipBlank_cons hb]
  simp [hs,hd,hnum,Except.bind]

theorem reads_boolean (b : Bool) : Reads boolean (Value.bool b).write b := by
  intro rest _
  cases b <;> rfl

theorem reads_none (r : Reader α) : Reads (optional r) Value.null.write none := by
  intro rest _
  rfl

theorem reads_some {r : Reader α} {c : Char} {cs : List Char} {a : α} (hb : isBlank c = false)
    (hn : c ≠ 'n') (h : Reads r (c :: cs) a) : Reads (optional r) (c :: cs) (some a) := by
  intro rest hr
  have h := h rest hr
  rw [List.cons_append] at h ⊢
  rw [optional,skipBlank_cons hb]
  split
  · next heq => exact absurd (List.cons.inj heq).1 hn
  · simp [h,Except.map]

end Json
end EventLoop
