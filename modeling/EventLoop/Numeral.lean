/-! Unsigned numbers as digits in a base of at most sixteen. `write` has no leading zeros;
`value` reads a list of digits back whatever zeros stand in front of it. -/
namespace EventLoop
namespace Numeral

/-- The numbers below it are those of 64 bits. -/
def wordLimit : Nat := 0x10000000000000000

def digit? (base : Nat) (c : Char) : Option Nat :=
  let n :=
    if '0' ≤ c ∧ c ≤ '9' then c.toNat - 48
    else if 'a' ≤ c ∧ c ≤ 'f' then c.toNat - 87
    else if 'A' ≤ c ∧ c ≤ 'F' then c.toNat - 55
    else base
  if n < base then some n else none

def isDigit (base : Nat) (c : Char) : Bool := (digit? base c).isSome

def symbol : Nat → Char
  | 0 => '0' | 1 => '1' | 2 => '2' | 3 => '3' | 4 => '4' | 5 => '5' | 6 => '6' | 7 => '7'
  | 8 => '8' | 9 => '9' | 10 => 'a' | 11 => 'b' | 12 => 'c' | 13 => 'd' | 14 => 'e' | _ => 'f'

def write (base n : Nat) : List Char :=
  if _h : n < base ∨ base < 2 then [symbol n]
  else write base (n / base) ++ [symbol (n % base)]
termination_by n
decreasing_by exact Nat.div_lt_self (by omega) (by omega)

def value (base : Nat) (cs : List Char) : Nat :=
  cs.foldl (fun n c => n * base + (digit? base c).getD 0) 0

def digits (base : Nat) (cs : List Char) : List Char := cs.takeWhile (isDigit base)

def afterDigits (base : Nat) (cs : List Char) : List Char := cs.dropWhile (isDigit base)

theorem digits_append_afterDigits (base : Nat) (cs : List Char) :
    digits base cs ++ afterDigits base cs = cs := List.takeWhile_append_dropWhile

@[simp] theorem digit?_symbol {d : Nat} (h : d < 16) {base : Nat} (hb : d < base) :
    digit? base (symbol d) = some d := by
  rcases d with _|_|_|_|_|_|_|_|_|_|_|_|_|_|_|_|d <;> first | omega | simp [symbol, digit?, hb]

theorem value_append_singleton (base : Nat) (cs : List Char) (c : Char) :
    value base (cs ++ [c]) = value base cs * base + (digit? base c).getD 0 := by
  simp [value, List.foldl_append]

theorem value_write {base : Nat} (hb : 2 ≤ base) (h16 : base ≤ 16) (n : Nat) :
    value base (write base n) = n := by
  induction n using Nat.strongRecOn with
  | ind n ih =>
    rw [write]
    split
    · next h =>
      have hn : n < base := by omega
      simp [value, digit?_symbol (show n < 16 by omega) hn]
    · next h =>
      have hm : n % base < base := Nat.mod_lt n (by omega)
      rw [value_append_singleton, ih _ (Nat.div_lt_self (by omega) (by omega)),
        digit?_symbol (by omega) hm]
      simpa [Nat.mul_comm] using Nat.div_add_mod n base

theorem ne_of_isDigit {base : Nat} {c d : Char} (hc : isDigit base c = true)
    (hd : isDigit base d = false) : c ≠ d := by
  rintro rfl
  simp [hc] at hd

theorem write_ne_nil (base n : Nat) : write base n ≠ [] := by
  rw [write]; split <;> simp

theorem isDigit_of_mem_write {base : Nat} (hb : 2 ≤ base) (h16 : base ≤ 16) (n : Nat) :
    ∀ c ∈ write base n, isDigit base c = true := by
  induction n using Nat.strongRecOn with
  | ind n ih =>
    rw [write]
    split
    · next h =>
      simp [isDigit, digit?_symbol (show n < 16 by omega) (show n < base by omega)]
    · next h =>
      have hm : n % base < base := Nat.mod_lt n (by omega)
      intro c hc
      rcases List.mem_append.1 hc with hc | hc
      · exact ih _ (Nat.div_lt_self (by omega) (by omega)) c hc
      · rw [List.mem_singleton.1 hc]
        simp [isDigit, digit?_symbol (show n % base < 16 by omega) hm]

theorem symbol_ne_zero {d : Nat} (h : d ≠ 0) : symbol d ≠ '0' := by
  unfold symbol
  split <;> first | exact absurd rfl h | decide

/-- No zero stands in front of other digits. -/
theorem head_write {base n : Nat} (hb : 2 ≤ base) (hn : n ≠ 0) :
    (write base n).head? ≠ some '0' := by
  induction n using Nat.strongRecOn with
  | ind n ih =>
    rw [write]
    split
    · simpa using symbol_ne_zero hn
    · next h =>
      have hd : 0 < n / base := Nat.div_pos (by omega) (by omega)
      have ih := ih (n / base) (Nat.div_lt_self (by omega) (by omega)) (by omega)
      obtain ⟨c,cs,hw⟩ := List.exists_cons_of_ne_nil (write_ne_nil base (n / base))
      rw [hw] at ih ⊢
      exact ih

theorem length_write {base k n : Nat} (hk : k ≠ 0) (h : n < Nat.pow base k) :
    (write base n).length ≤ k := by
  induction k generalizing n with
  | zero => exact absurd rfl hk
  | succ k ih =>
    rw [write]
    split
    · simp
    · next hn =>
      have hk : k ≠ 0 := by
        rintro rfl
        simp [Nat.pow] at h
        omega
      have h : n < base * Nat.pow base k := Nat.mul_comm _ base ▸ h
      simpa using ih hk (Nat.div_lt_of_lt_mul h)

/-- The digits of a number end with it where no further digit follows. -/
theorem digits_write {base : Nat} (hb : 2 ≤ base) (h16 : base ≤ 16) (n : Nat) {rest : List Char}
    (h : ∀ c ∈ rest.head?, isDigit base c = false) :
    digits base (write base n ++ rest) = write base n ∧
      afterDigits base (write base n ++ rest) = rest := by
  have hd := isDigit_of_mem_write hb h16 n
  have hr : digits base rest = [] ∧ afterDigits base rest = rest := by
    cases rest with
    | nil => exact ⟨rfl,rfl⟩
    | cons c rest => simp [digits,afterDigits,h c rfl]
  unfold digits afterDigits at hr ⊢
  rw [List.takeWhile_append_of_pos hd,List.dropWhile_append_of_pos hd,hr.1,hr.2,List.append_nil]
  exact ⟨rfl,rfl⟩

end Numeral
end EventLoop
