import EventLoop.Address
import Mathlib.Data.List.TakeWhile

/-! The text of an address is read back as that address. A run of zero groups is left out of the
text, and as no other part of it is empty a reader finds the place and counts what is missing.
Main statement: `parse?_write`. -/
namespace EventLoop

def Ceases (rest : List Char) : Prop := ∀ c ∈ rest.head?, c = ':'

theorem ceases_nil : Ceases [] := by simp [Ceases]

theorem ceases_colon (cs : List Char) : Ceases (':' :: cs) := by simp [Ceases]

namespace V4

@[simp] theorem expect_cons (c : Char) (cs : List Char) : expect c (c :: cs) = some cs := by
  simp [expect]

theorem readByte_write (b : UInt8) {rest : List Char}
    (h : ∀ c ∈ rest.head?, Numeral.isDigit 10 c = false) :
    readByte (Numeral.write 10 b.toNat ++ rest) = some (b, rest) := by
  obtain ⟨hd,ha⟩ := Numeral.digits_write (by decide) (by decide) b.toNat h
  have hv := Numeral.value_write (show 2 ≤ 10 by decide) (by decide) b.toNat
  have hb : b.toNat < 256 := b.toNat_lt
  have hl : (Numeral.write 10 b.toNat).length ≤ 3 :=
    Numeral.length_write (by decide) (Nat.lt_trans hb (by decide))
  have hn : (Numeral.write 10 b.toNat).length ≠ 0 := by
    simpa using Numeral.write_ne_nil 10 b.toNat
  have hz : ¬ ((Numeral.write 10 b.toNat).head? = some '0' ∧
      1 < (Numeral.write 10 b.toNat).length) := by
    rintro ⟨h0,h1⟩
    by_cases h : b.toNat = 0
    · have hw : Numeral.write 10 0 = ['0'] := by rw [Numeral.write]; rfl
      simp [h,hw] at h1
    · exact Numeral.head_write (by decide) h h0
  unfold readByte
  simp only [hd,ha,hv,if_neg hz]
  rw [if_neg (by omega),if_pos hb,UInt8.ofNat_toNat]

theorem read_write (ip : V4) {rest : List Char}
    (h : ∀ c ∈ rest.head?, Numeral.isDigit 10 c = false) :
    read (ip.write ++ rest) = some (ip, rest) := by
  have hdot (cs : List Char) : ∀ c ∈ ('.' :: cs).head?, Numeral.isDigit 10 c = false := by
    rintro c ⟨⟩
    rfl
  simp only [read,write,List.append_assoc,List.cons_append]
  simp [readByte_write _ (hdot _),readByte_write _ h]

theorem read_write_self (ip : V4) : read ip.write = some (ip, []) := by
  have h := read_write ip (fun c (hc : c ∈ [].head?) => by cases hc)
  rwa [List.append_nil] at h

theorem rest_of_readByte {cs rest : List Char} {b : UInt8} (h : readByte cs = some (b, rest)) :
    rest = Numeral.afterDigits 10 cs := by
  simp only [readByte] at h
  repeat' split at h
  all_goals simp_all

theorem read_eq_none {cs : List Char} (h : (Numeral.afterDigits 10 cs).head? ≠ some '.') :
    read cs = none := by
  cases hb : readByte cs with
  | none => simp [read,hb]
  | some r =>
    obtain ⟨b,rest⟩ := r
    obtain rfl := rest_of_readByte hb
    cases ha : Numeral.afterDigits 10 cs with
    | nil => simp [read,hb,ha,expect]
    | cons x xs =>
      have hx : x ≠ '.' := by simpa [ha] using h
      simp [read,hb,ha,expect,hx]

theorem read_group {ds rest : List Char} (hd : ∀ c ∈ ds, Numeral.isDigit 16 c = true)
    (h : Ceases rest) : read (ds ++ rest) = none := by
  apply read_eq_none
  unfold Numeral.afterDigits
  rw [List.dropWhile_append]
  split
  · cases rest with
    | nil => simp
    | cons c rest =>
      obtain rfl := h c rfl
      simp [Numeral.isDigit,Numeral.digit?]
  · cases hx : ds.dropWhile (Numeral.isDigit 10) with
    | nil => simp_all
    | cons x xs =>
      have hm : x ∈ ds := (List.dropWhile_suffix _).subset (hx ▸ List.mem_cons_self)
      simpa using Numeral.ne_of_isDigit (hd x hm) (by rfl)

def pairs (ip : V4) : List UInt16 :=
  [ip.a.toUInt16 <<< 8 ||| ip.b.toUInt16, ip.c.toUInt16 <<< 8 ||| ip.d.toUInt16]

end V4

namespace V6

@[simp] theorem length_groups (ip : V6) : ip.groups.length = 8 := rfl

abbrev digits (g : UInt16) : List Char := Numeral.write 16 g.toNat

theorem isDigit_of_mem_digits {g : UInt16} : ∀ c ∈ digits g, Numeral.isDigit 16 c = true :=
  Numeral.isDigit_of_mem_write (by decide) (by decide) g.toNat

theorem readGroup_digits (g : UInt16) {rest : List Char} (h : Ceases rest) :
    readGroup (digits g ++ rest) = some (g, rest) := by
  have hr : ∀ c ∈ rest.head?, Numeral.isDigit 16 c = false := by
    intro c hc
    obtain rfl := h c hc
    rfl
  obtain ⟨hd,ha⟩ := Numeral.digits_write (by decide) (by decide) g.toNat hr
  have hv := Numeral.value_write (show 2 ≤ 16 by decide) (by decide) g.toNat
  have hl : (Numeral.write 16 g.toNat).length ≤ 4 := Numeral.length_write (by decide) g.toNat_lt
  have hn : (Numeral.write 16 g.toNat).length ≠ 0 := by
    simpa using Numeral.write_ne_nil 16 g.toNat
  unfold readGroup
  simp only [hd,ha,hv]
  rw [if_neg (by omega),UInt16.ofNat_toNat]

def spell (first : Bool) (gs : List UInt16) : List Char :=
  if first then joinGroups gs else gs.flatMap fun g => ':' :: digits g

theorem joinGroups_cons (g : UInt16) (gs : List UInt16) :
    joinGroups (g :: gs) = digits g ++ spell false gs := by
  induction gs generalizing g with
  | nil => simp [joinGroups,spell]
  | cons g' gs ih => simp [joinGroups,ih,spell]

theorem behindColon_spell {α : Type} (first : Bool) (read : List Char → Option α) (g : UInt16)
    (gs : List UInt16) (rest : List Char) : behindColon first read (spell first (g :: gs) ++ rest) =
      read (digits g ++ (spell false gs ++ rest)) := by
  cases first <;> simp [behindColon,spell,joinGroups_cons]

theorem ceases_spell {gs : List UInt16} {rest : List Char} (h : Ceases rest) :
    Ceases (spell false gs ++ rest) := by
  cases gs with
  | nil => exact h
  | cons g gs => exact ceases_colon _

/-- Nothing follows, or the place of the groups that are left out. -/
inductive Gap : List Char → Prop
  | nil : Gap []
  | colons (cs : List Char) : Gap (':' :: ':' :: cs)

theorem Gap.ceases {rest : List Char} (h : Gap rest) : Ceases rest := by
  cases h with
  | nil => exact ceases_nil
  | colons cs => exact ceases_colon _

theorem readGroups_spell {n : Nat} (first : Bool) {gs : List UInt16} (hn : gs.length ≤ n)
    {rest : List Char} (h : Gap rest) :
    readGroups n first (spell first gs ++ rest) = (gs, false, rest) := by
  induction gs generalizing n first with
  | nil =>
    have hs : spell first [] = [] := by cases first <;> rfl
    rw [hs,List.nil_append]
    cases n with
    | zero => rfl
    | succ n => cases h <;> cases first <;> cases n <;> rfl
  | cons g gs ih =>
    obtain ⟨n,rfl⟩ := Nat.exists_eq_succ_of_ne_zero (n := n) (by simp at hn; omega)
    have hc : Ceases (spell false gs ++ rest) := ceases_spell h.ceases
    have h4 : V4.read (digits g ++ (spell false gs ++ rest)) = none :=
      V4.read_group isDigit_of_mem_digits hc
    simp only [readGroups,behindColon_spell,h4,ite_self,readGroup_digits g hc,
      ih false (by simpa using hn)]

/-- Behind the first `i` groups of a list stand `n` zeros. -/
def ZerosAt (gs : List UInt16) (i n : Nat) : Prop :=
  ∃ front back, gs = front ++ (List.replicate n 0 ++ back) ∧ front.length = i

theorem ZerosAt.le_zeroRun {gs : List UInt16} {n : Nat} (h : ZerosAt gs 0 n) : n ≤ zeroRun gs := by
  obtain ⟨front,back,rfl,hf⟩ := h
  obtain rfl := List.length_eq_zero_iff.1 hf
  have hz : ∀ x ∈ List.replicate n (0 : UInt16), decide (x = 0) = true := by simp
  rw [List.nil_append,zeroRun,List.takeWhile_append_of_pos hz]
  simp

theorem zerosAt_zeroRun (gs : List UInt16) : ZerosAt gs 0 (zeroRun gs) := by
  refine ⟨[],gs.dropWhile (· = 0),?_,rfl⟩
  have hz : gs.takeWhile (· = 0) = List.replicate (zeroRun gs) 0 :=
    List.eq_replicate_of_mem fun x hx => by simpa using List.mem_takeWhile_imp hx
  rw [← hz,List.nil_append,List.takeWhile_append_dropWhile]

theorem zerosAt_cons {g : UInt16} {gs : List UInt16} {i n : Nat} :
    ZerosAt (g :: gs) (i + 1) n ↔ ZerosAt gs i n := by
  constructor
  · rintro ⟨front,back,he,hf⟩
    cases front with
    | nil => cases hf
    | cons x front => exact ⟨front,back,(List.cons.inj he).2,Nat.succ.inj hf⟩
  · rintro ⟨front,back,rfl,rfl⟩
    exact ⟨g :: front,back,rfl,rfl⟩

theorem zerosAt_longestRun {i : Nat} {gs : List UInt16} (h : 0 < (longestRun i gs).2) :
    ∃ j, ZerosAt gs j (longestRun i gs).2 ∧ (longestRun i gs).1 = i + j := by
  induction gs generalizing i with
  | nil => simp [longestRun] at h
  | cons g gs ih =>
    rw [longestRun] at h ⊢
    split
    · exact ⟨0,zerosAt_zeroRun _,rfl⟩
    · next hn =>
      rw [if_neg hn] at h
      obtain ⟨j,hz,hj⟩ := ih h
      exact ⟨j + 1,zerosAt_cons.2 hz,by omega⟩

theorem longestRun_first {i j n : Nat} {gs : List UInt16} (h : ZerosAt gs j n) (hn : 0 < n) :
    n < (longestRun i gs).2 ∨ n = (longestRun i gs).2 ∧ (longestRun i gs).1 ≤ i + j := by
  induction gs generalizing i j with
  | nil =>
    obtain ⟨front,back,he,-⟩ := h
    have hl := congrArg List.length he
    simp at hl
    omega
  | cons g gs ih =>
    rw [longestRun]
    cases j with
    | zero =>
      have hz := h.le_zeroRun
      split <;> omega
    | succ j =>
      have ih := ih (i := i + 1) (zerosAt_cons.1 h)
      split <;> omega

/-- The text of an address: its last four bytes in decimal where it stands for an address of four
bytes, else its groups with two colons for the first longest run of two or more zeros. -/
inductive Written (ip : V6) : List Char → Prop
  | mapped (v4 : V4) (h : ip.groups = List.replicate 5 0 ++ 0xffff :: v4.pairs) :
      Written ip (':' :: ':' :: 'f' :: 'f' :: 'f' :: 'f' :: ':' :: v4.write)
  | short (front back : List UInt16) (n : Nat)
      (hm : ∀ v4 : V4, ip.groups ≠ List.replicate 5 0 ++ 0xffff :: v4.pairs)
      (h : ip.groups = front ++ (List.replicate n 0 ++ back)) (hn : 1 < n)
      (first : ∀ j m, ZerosAt ip.groups j m → m < n ∨ m = n ∧ front.length ≤ j) :
      Written ip (joinGroups front ++ ':' :: ':' :: joinGroups back)
  | long (hm : ∀ v4 : V4, ip.groups ≠ List.replicate 5 0 ++ 0xffff :: v4.pairs)
      (h : ∀ j, ¬ ZerosAt ip.groups j 2) : Written ip (joinGroups ip.groups)

theorem join_bytes (g : UInt16) :
    (g >>> 8).toUInt8.toUInt16 <<< 8 ||| g.toUInt8.toUInt16 = g := by
  have hg := g.toNat_lt
  have ho := Nat.shiftLeft_add_eq_or_of_lt (show g.toNat % 256 < 2 ^ 8 by omega) (g.toNat / 256)
  have hh : g.toNat / 256 % 256 * 256 % 65536 = g.toNat / 256 * 2 ^ 8 := by omega
  rw [Nat.shiftLeft_eq] at ho
  apply UInt16.toNat_inj.1
  calc ((g >>> 8).toUInt8.toUInt16 <<< 8 ||| g.toUInt8.toUInt16).toNat
      = g.toNat / 256 % 256 * 256 % 65536 ||| g.toNat % 256 := by
        simp [Nat.shiftRight_eq_div_pow,Nat.shiftLeft_eq]
    _ = g.toNat / 256 * 2 ^ 8 + g.toNat % 256 := by rw [hh,ho]
    _ = g.toNat := Nat.div_add_mod' g.toNat 256

theorem groups_of_mapped {ip : V6} {v4 : V4} (h : ip.mapped? = some v4) :
    ip.groups = List.replicate 5 0 ++ 0xffff :: v4.pairs := by
  unfold mapped? at h
  split at h
  · next hz =>
    obtain ⟨ha,hb,hc,hd,he,hf⟩ := hz
    obtain rfl := Option.some.inj h
    rw [V4.pairs,join_bytes,join_bytes,groups,ha,hb,hc,hd,he,hf]
    rfl
  · cases h

theorem groups_ne_of_mapped {ip : V6} (h : ip.mapped? = none) (v4 : V4) :
    ip.groups ≠ List.replicate 5 0 ++ 0xffff :: v4.pairs := by
  intro hg
  simp [groups,V4.pairs,List.replicate] at hg
  simp [mapped?,hg] at h

theorem written_write (ip : V6) : Written ip ip.write := by
  unfold write
  split
  · next v4 hm => exact .mapped v4 (groups_of_mapped hm)
  · next hm =>
    have hm := groups_ne_of_mapped hm
    have hfirst {j n : Nat} := @longestRun_first 0 j n ip.groups
    dsimp only
    split
    · next hl =>
      obtain ⟨j,⟨front,back,hg,rfl⟩,hj⟩ := zerosAt_longestRun (Nat.lt_of_succ_lt hl)
      generalize longestRun 0 ip.groups = run at *
      have ht : ip.groups.take run.1 = front := by simp [hg,hj]
      have hd : ip.groups.drop (run.1 + run.2) = back := by simp [hg,hj]
      rw [ht,hd]
      refine .short front back run.2 hm hg hl ?_
      intro j m hz
      by_cases h0 : m = 0
      · omega
      · have hf := hfirst hz (Nat.pos_of_ne_zero h0)
        omega
    · next hl =>
      refine .long hm ?_
      intro j hz
      have hf := hfirst hz Nat.two_pos
      omega

example : String.ofList (write ⟨0x2001, 0xdb8, 0, 0, 1, 0, 0, 1⟩) = "2001:db8::1:0:0:1" := by cbv

theorem exists_joinGroups (gs : List UInt16) (rest : List Char) :
    ∃ ds cs, joinGroups gs ++ ':' :: rest = ds ++ ':' :: cs ∧
      ∀ c ∈ ds, Numeral.isDigit 16 c = true := by
  cases gs with
  | nil => exact ⟨[],rest,rfl,by simp⟩
  | cons g gs =>
    rw [joinGroups_cons,List.append_assoc]
    cases gs with
    | nil => exact ⟨digits g,rest,rfl,isDigit_of_mem_digits⟩
    | cons g' gs =>
      exact ⟨digits g,digits g' ++ (spell false gs ++ ':' :: rest),by simp [spell],
        isDigit_of_mem_digits⟩

theorem Written.starts {ip : V6} {cs : List Char} (h : Written ip cs) : ∃ ds rest,
    cs = ds ++ ':' :: rest ∧ ∀ c ∈ ds, Numeral.isDigit 16 c = true := by
  cases h with
  | mapped v4 _ => exact ⟨[],':' :: 'f' :: 'f' :: 'f' :: 'f' :: ':' :: v4.write,rfl,by simp⟩
  | short front back n hm hg hn first => exact exists_joinGroups _ _
  | long hm hz =>
    exact ⟨digits ip.a,joinGroups [ip.b,ip.c,ip.d,ip.e,ip.f,ip.g,ip.h],rfl,isDigit_of_mem_digits⟩

theorem digits_ffff : digits 0xffff = ['f', 'f', 'f', 'f'] := by
  simp [Numeral.write,Numeral.symbol]

theorem read_around {front back : List UInt16} {dotted : Bool} {cs : List Char} {ip : V6}
    (hf : front.length < 8) (hb : readGroups (7 - front.length) true cs = (back, dotted, []))
    (h : ip.groups = front ++ (List.replicate (8 - front.length - back.length) 0 ++ back)) :
    read (joinGroups front ++ ':' :: ':' :: cs) = some (ip, []) := by
  have hr := readGroups_spell true (show front.length ≤ 8 by omega) (Gap.colons cs)
  have hn : front.length ≠ 8 := by omega
  simp only [spell,if_true] at hr
  simp [read,hr,hb,hn,← h]

theorem read_mapped {ip : V6} {v4 : V4}
    (h : ip.groups = List.replicate 5 0 ++ 0xffff :: v4.pairs) :
    read (':' :: ':' :: 'f' :: 'f' :: 'f' :: 'f' :: ':' :: v4.write) = some (ip, []) := by
  have hb : readGroups 7 true (digits 0xffff ++ ':' :: v4.write) =
      (0xffff :: v4.pairs, true, []) := by
    have hc := ceases_colon v4.write
    have hn : V4.read (digits 0xffff ++ ':' :: v4.write) = none :=
      V4.read_group isDigit_of_mem_digits hc
    simp [readGroups,behindColon,hn,readGroup_digits _ hc,V4.read_write_self,V4.pairs]
  rw [digits_ffff] at hb
  have hf : ([] : List UInt16).length < 8 := by simp
  exact read_around hf hb h

theorem read_short {front back : List UInt16} {n : Nat} {ip : V6} (hn : 0 < n)
    (h : ip.groups = front ++ (List.replicate n 0 ++ back)) :
    read (joinGroups front ++ ':' :: ':' :: joinGroups back) = some (ip, []) := by
  have hl := ip.length_groups
  simp only [h,List.length_append,List.length_replicate] at hl
  have hb := readGroups_spell true (show back.length ≤ 7 - front.length by omega) Gap.nil
  rw [List.append_nil] at hb
  have hg : 8 - front.length - back.length = n := by omega
  exact read_around (by omega) hb (hg ▸ h)

theorem read_long (ip : V6) : read (joinGroups ip.groups) = some (ip, []) := by
  have hr := readGroups_spell true (show ip.groups.length ≤ 8 by simp) Gap.nil
  rw [List.append_nil] at hr
  simp only [spell,if_true] at hr
  simp [read,hr]

/-- The text of an address is read as that address. -/
theorem Written.read {ip : V6} {cs : List Char} (h : Written ip cs) :
    V6.read cs = some (ip, []) := by
  cases h with
  | mapped v4 hg => exact read_mapped hg
  | short front back n hm hg hn first => exact read_short (Nat.lt_of_succ_lt hn) hg
  | long hm hz => exact read_long ip

end V6

namespace Address

theorem parse?_write (ip : Address) : parse? ip.write = some ip := by
  cases ip with
  | v4 ip => simp [parse?,read,write,V4.read_write_self]
  | v6 ip =>
    have hw := V6.written_write ip
    obtain ⟨ds,cs,hc,hd⟩ := hw.starts
    have h : V4.read ip.write = none := hc ▸ V4.read_group hd (ceases_colon cs)
    simp [parse?,read,write,h,hw.read]

end Address
end EventLoop
