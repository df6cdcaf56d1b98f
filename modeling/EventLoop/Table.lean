/-! Tables of rows numbered from zero. A row that was never written holds the default
value, so reading and changing a row need no bound. -/
namespace EventLoop

structure Table (α : Type) where
  rows : List α := []

namespace Table

variable {α : Type} [Inhabited α]

instance : Inhabited (Table α) := ⟨{}⟩

def size (t : Table α) : Nat := t.rows.length

def get (t : Table α) (i : Nat) : α := t.rows.getD i default

/-- Change one row of a list, filling the gap below it with default values. -/
def amend (f : α → α) : List α → Nat → List α
  | [], 0 => [f default]
  | [], i+1 => default :: amend f [] i
  | a :: as, 0 => f a :: as
  | a :: as, i+1 => a :: amend f as i

def update (t : Table α) (i : Nat) (f : α → α) : Table α := ⟨amend f t.rows i⟩

def push (t : Table α) (a : α) : Table α := ⟨t.rows ++ [a]⟩

def weigh (f : α → Nat) : List α → Nat
  | [] => 0
  | a :: as => f a + weigh f as

def total (f : α → Nat) (t : Table α) : Nat := weigh f t.rows

theorem getD_amend (f : α → α) (as : List α) (i j : Nat) :
    (amend f as i).getD j default =
      if i = j then f (as.getD j default) else as.getD j default := by
  induction as generalizing i j with
  | nil =>
    induction i generalizing j with
    | zero => cases j <;> simp [amend]
    | succ i ih =>
      cases j with
      | zero => simp [amend]
      | succ j => simpa [amend] using ih j
  | cons a as ih =>
    cases i with
    | zero => cases j <;> simp [amend]
    | succ i =>
      cases j with
      | zero => simp [amend]
      | succ j => simpa [amend] using ih i j

theorem get_update (t : Table α) (i j : Nat) (f : α → α) :
    (t.update i f).get j = if i = j then f (t.get j) else t.get j :=
  getD_amend f t.rows i j

@[simp] theorem get_update_self (t : Table α) (i : Nat) (f : α → α) :
    (t.update i f).get i = f (t.get i) := by simp [get_update]

theorem get_update_ne (t : Table α) {i j : Nat} (f : α → α) (h : i ≠ j) :
    (t.update i f).get j = t.get j := by simp [get_update, h]

/-- A change of one row does not show in what it leaves alone. -/
theorem read_update {β : Type} (g : α → β) {f : α → α} (hf : ∀ a, g (f a) = g a) (t : Table α)
    (i j : Nat) : g ((t.update i f).get j) = g (t.get j) := by
  rw [get_update]
  split
  · exact hf _
  · rfl

theorem get_push (t : Table α) (a : α) (j : Nat) :
    (t.push a).get j = if j = t.size then a else t.get j := by
  simp only [push, get, size, List.getD_eq_getElem?_getD]
  rcases Nat.lt_trichotomy j t.rows.length with h | h | h
  · rw [List.getElem?_append_left h, if_neg (Nat.ne_of_lt h)]
  · subst h; simp
  · rw [if_neg (Nat.ne_of_gt h), List.getElem?_eq_none (by simp; omega),
      List.getElem?_eq_none (by omega)]

omit [Inhabited α] in
@[simp] theorem size_push (t : Table α) (a : α) : (t.push a).size = t.size + 1 := by
  simp [push, size]

theorem length_amend (f : α → α) (as : List α) (i : Nat) :
    (amend f as i).length = max as.length (i + 1) := by
  induction as generalizing i with
  | nil =>
    induction i with
    | zero => rfl
    | succ i ih => simp [amend, ih]
  | cons a as ih =>
    cases i with
    | zero => simp [amend]
    | succ i => simp [amend, ih]

/-- A change of a row fills the table up to it. -/
theorem size_update (t : Table α) (i : Nat) (f : α → α) :
    (t.update i f).size = max t.size (i + 1) := length_amend f t.rows i

theorem get_of_size_le (t : Table α) {i : Nat} (h : t.size ≤ i) : t.get i = default := by
  simp only [get, List.getD_eq_getElem?_getD]
  rw [List.getElem?_eq_none h]
  rfl

theorem ext_get {t u : Table α} (hs : t.size = u.size) (hg : ∀ i, t.get i = u.get i) : t = u := by
  obtain ⟨as⟩ := t
  obtain ⟨bs⟩ := u
  have hrows : as = bs := by
    apply List.ext_getElem hs
    intro i ha hb
    simpa [get,ha,hb] using hg i
  rw [hrows]

theorem update_congr {t : Table α} {i : Nat} {f g : α → α} (h : f (t.get i) = g (t.get i)) :
    t.update i f = t.update i g := by
  apply ext_get
  · rw [size_update,size_update]
  · intro j
    rw [get_update,get_update]
    split
    · subst j
      exact h
    · rfl

theorem update_update (t : Table α) (i : Nat) (f g : α → α) :
    (t.update i f).update i g = t.update i fun a => g (f a) := by
  apply ext_get
  · simp only [size_update]
    omega
  · intro j
    simp only [get_update]
    split <;> rfl

theorem update_comm (t : Table α) {i j : Nat} (h : i ≠ j) (f g : α → α) :
    (t.update i f).update j g = (t.update j g).update i f := by
  apply ext_get
  · simp only [size_update]
    omega
  · intro k
    simp only [get_update]
    split <;> split <;> first | rfl | omega

theorem push_update (t : Table α) {i : Nat} (hi : i < t.size) (f : α → α) (a : α) :
    (t.update i f).push a = (t.push a).update i f := by
  have hs : (t.update i f).size = t.size := by
    rw [size_update]
    omega
  apply ext_get
  · simp only [size_push,size_update]
    omega
  · intro k
    rw [get_push,get_update,get_update,get_push,hs]
    split
    · rw [if_neg (by omega)]
    · rfl

omit [Inhabited α] in
@[simp] theorem weigh_append (f : α → Nat) (as bs : List α) :
    weigh f (as ++ bs) = weigh f as + weigh f bs := by
  induction as with
  | nil => simp [weigh]
  | cons a as ih => simp [weigh, ih, Nat.add_assoc]

omit [Inhabited α] in
theorem le_weigh {f : α → Nat} {a : α} {as : List α} (h : a ∈ as) : f a ≤ weigh f as := by
  induction h with
  | head as => simp [weigh]
  | tail b _ ih =>
    simp only [weigh]
    omega

omit [Inhabited α] in
theorem weigh_eq_zero {f : α → Nat} {as : List α} (h : ∀ a ∈ as, f a = 0) : weigh f as = 0 := by
  induction as with
  | nil => rfl
  | cons a as ih =>
    simp only [weigh, h a List.mem_cons_self, Nat.zero_add]
    exact ih fun b hb => h b (List.mem_cons_of_mem a hb)

omit [Inhabited α] in
theorem exists_of_weigh_pos {f : α → Nat} {as : List α} (h : 0 < weigh f as) :
    ∃ a ∈ as, 0 < f a := by
  induction as with
  | nil => exact absurd h (Nat.lt_irrefl 0)
  | cons a as ih =>
    by_cases ha : 0 < f a
    · exact ⟨a, List.mem_cons_self, ha⟩
    · simp only [weigh] at h
      obtain ⟨b, hb, hf⟩ := ih (by omega)
      exact ⟨b, List.mem_cons_of_mem a hb, hf⟩

omit [Inhabited α] in
@[simp] theorem total_push (f : α → Nat) (t : Table α) (a : α) :
    total f (t.push a) = total f t + f a := by
  simp [total, push, weigh]

theorem weigh_amend {f : α → Nat} (h : f default = 0) (g : α → α) (as : List α) (i : Nat) :
    weigh f (amend g as i) + f (as.getD i default) =
      weigh f as + f (g (as.getD i default)) := by
  induction as generalizing i with
  | nil =>
    induction i with
    | zero => simp [amend, weigh, h]
    | succ i ih => simpa [amend, weigh, h] using ih
  | cons a as ih =>
    cases i with
    | zero => simp [amend, weigh]; omega
    | succ i =>
      have := ih i
      simp [amend, weigh] at this ⊢
      omega

/-- Changing one row moves the sum of a measure by what it moves on that row. -/
theorem total_update {f : α → Nat} (h : f default = 0) (t : Table α) (i : Nat) (g : α → α) :
    total f (t.update i g) + f (t.get i) = total f t + f (g (t.get i)) :=
  weigh_amend h g t.rows i

/-- One row weighs at most as much as all rows. -/
theorem le_total {f : α → Nat} (h : f default = 0) (t : Table α) (i : Nat) :
    f (t.get i) ≤ total f t := by
  have hu := total_update h t i fun _ => default
  rw [h] at hu
  omega

/-- If all rows together weigh something, so does one. -/
theorem exists_of_total_pos {f : α → Nat} (t : Table α) (h : 0 < total f t) :
    ∃ i, 0 < f (t.get i) := by
  obtain ⟨a, ha, hf⟩ := exists_of_weigh_pos h
  obtain ⟨i, hi, rfl⟩ := List.getElem_of_mem ha
  exact ⟨i, by simpa [get, hi] using hf⟩

theorem add_le_total {f : α → Nat} (h : f default = 0) (t : Table α) {i j : Nat} (hij : i ≠ j) :
    f (t.get i) + f (t.get j) ≤ total f t := by
  have hu := total_update h t i fun _ => default
  have hj := le_total h (t.update i fun _ => default) j
  rw [get_update_ne t _ hij] at hj
  rw [h] at hu
  omega

theorem length_le_total {f : α → Nat} (h : f default = 0) {is : List Nat} (hd : is.Nodup)
    (t : Table α) (hp : ∀ i ∈ is, 0 < f (t.get i)) : is.length ≤ total f t := by
  induction is generalizing t with
  | nil => exact Nat.zero_le _
  | cons i is ih =>
    obtain ⟨hi,hd⟩ := List.nodup_cons.1 hd
    have hu := total_update h t i fun _ => default
    have hr : is.length ≤ total f (t.update i fun _ => default) := by
      apply ih hd
      intro j hj
      have hij : i ≠ j := by
        rintro rfl
        exact hi hj
      rw [get_update_ne t _ hij]
      exact hp j (List.mem_cons_of_mem i hj)
    have hw := hp i List.mem_cons_self
    simp only [List.length_cons]
    omega

theorem total_le_length {f : α → Nat} (h : f default = 0) (is : List Nat) (t : Table α)
    (hle : ∀ i, f (t.get i) ≤ 1) (hp : ∀ i, 0 < f (t.get i) → i ∈ is) : total f t ≤ is.length := by
  induction is generalizing t with
  | nil =>
    apply Nat.le_of_not_lt
    intro hn
    obtain ⟨i,hi⟩ := exists_of_total_pos t hn
    exact absurd (hp i hi) List.not_mem_nil
  | cons i is ih =>
    have hu := total_update h t i fun _ => default
    have hg (j : Nat) : f ((t.update i fun _ => default).get j) =
        if i = j then 0 else f (t.get j) := by
      rw [get_update]
      split
      · exact h
      · rfl
    have hr : total f (t.update i fun _ => default) ≤ is.length := by
      refine ih (t.update i fun _ => default) ?_ ?_
      · intro j
        rw [hg]
        split
        · exact Nat.zero_le 1
        · exact hle j
      · intro j hj
        rw [hg] at hj
        split at hj
        · exact absurd hj (Nat.lt_irrefl 0)
        · rename_i hij
          exact (List.mem_cons.1 (hp j hj)).resolve_left (Ne.symm hij)
    have hi := hle i
    simp only [List.length_cons]
    omega

end Table
end EventLoop
