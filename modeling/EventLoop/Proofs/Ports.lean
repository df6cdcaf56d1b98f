import EventLoop.Proofs.Consultation
import Mathlib.Data.List.Forall2
import Mathlib.Data.List.Induction
import Mathlib.Data.Nat.Digits.Defs

/-! The texts that stand for a port: nothing, a decimal number, or a well-known name in letters of
either case. A lookup of any other text fails with this text. Main statement: `ports_denoted`. -/
namespace EventLoop

theorem Numeral.isDigit_ten {c : Char} : isDigit 10 c = true ↔ '0' ≤ c ∧ c ≤ '9' := by
  simp only [isDigit,digit?,Char.le_def,UInt32.le_iff_toNat_le,Char.toNat]
  split_ifs <;> simp_all <;> omega

namespace Service

/-- The number that decimal digits stand for, each ten times as much as the one behind it. -/
def decimal (ds : List Char) : Nat := Nat.ofDigits 10 (ds.reverse.map fun c => c.toNat - 48)

def SameLetter (x y : Char) : Prop :=
  x = y ∨ (('A' ≤ x ∧ x ≤ 'Z') ∧ y.toNat = x.toNat + 32) ∨
    (('A' ≤ y ∧ y ≤ 'Z') ∧ x.toNat = y.toNat + 32)

/-- The texts that stand for a port. -/
inductive Denotes (numericOnly : Bool) (service : String) (port : UInt16) : Prop
  | nothing (hs : service = "") (hp : port = 0)
  | number {sign ds : List Char} (hs : service.toList = sign ++ ds) (hg : sign = [] ∨ sign = ['+'])
      (hn : ds ≠ []) (hd : ∀ c ∈ ds, '0' ≤ c ∧ c ≤ '9') (hp : decimal ds = port.toNat)
  | name {known : String} (ha : numericOnly = false) (hk : (known, port) ∈ wellKnown)
      (hs : List.Forall₂ SameLetter known.toList service.toList)

/-! Numbers -/

theorem digit?_getD {c : Char} (hc : '0' ≤ c ∧ c ≤ '9') :
    (Numeral.digit? 10 c).getD 0 = c.toNat - 48 := by
  have h9 : c.toNat ≤ 57 := hc.2
  have hl : c.toNat - 48 < 10 := by omega
  simp [Numeral.digit?,hc,hl]

theorem value_eq_decimal {ds : List Char} (hd : ∀ c ∈ ds, '0' ≤ c ∧ c ≤ '9') :
    Numeral.value 10 ds = decimal ds := by
  induction ds using List.reverseRecOn with
  | nil => rfl
  | append_singleton ds c ih =>
    have hds (x : Char) (hx : x ∈ ds) := hd x (List.mem_append_left _ hx)
    have hv := digit?_getD (hd c (by simp))
    rw [Numeral.value_append_singleton,ih hds,hv,decimal,decimal,List.reverse_append,
      List.reverse_singleton,List.singleton_append,List.map_cons,Nat.ofDigits_cons]
    omega

/-- A text without the plus sign that it may start with. -/
def unsigned (cs : List Char) : List Char :=
  match cs with
  | '+' :: rest => rest
  | _ => cs

theorem exists_sign (cs : List Char) :
    ∃ sign, cs = sign ++ unsigned cs ∧ (sign = [] ∨ sign = ['+']) := by
  unfold unsigned
  split
  · exact ⟨['+'],rfl,Or.inr rfl⟩
  · exact ⟨[],rfl,Or.inl rfl⟩

theorem unsigned_append {sign ds : List Char} (hg : sign = [] ∨ sign = ['+'])
    (hd : ∀ c ∈ ds, '0' ≤ c ∧ c ≤ '9') : unsigned (sign ++ ds) = ds := by
  obtain rfl | rfl := hg
  · rw [List.nil_append]
    unfold unsigned
    split
    · exact absurd (hd '+' List.mem_cons_self) (by decide)
    · rfl
  · rfl

theorem number?_eq (cs : List Char) : number? cs =
    if unsigned cs = [] ∨ (unsigned cs).all (Numeral.isDigit 10) = false then none
    else if Numeral.value 10 (unsigned cs) < 65536 then
      some (UInt16.ofNat (Numeral.value 10 (unsigned cs)))
    else none := rfl

theorem number?_eq_some {cs : List Char} {port : UInt16} : number? cs = some port ↔
    unsigned cs ≠ [] ∧ (∀ c ∈ unsigned cs, '0' ≤ c ∧ c ≤ '9') ∧
      decimal (unsigned cs) = port.toNat := by
  rw [number?_eq]
  have hall : (unsigned cs).all (Numeral.isDigit 10) = true ↔
      ∀ c ∈ unsigned cs, '0' ≤ c ∧ c ≤ '9' := by
    simp only [List.all_eq_true,Numeral.isDigit_ten]
  by_cases hn : unsigned cs = []
  · simp [hn]
  by_cases hd : ∀ c ∈ unsigned cs, '0' ≤ c ∧ c ≤ '9'
  · rw [if_neg (by simp [hn,hall.2 hd]),value_eq_decimal hd]
    split
    · next hl =>
      have ho : (UInt16.ofNat (decimal (unsigned cs))).toNat = decimal (unsigned cs) :=
        UInt16.toNat_ofNat_of_lt hl
      simp only [Option.some.injEq,← UInt16.toNat_inj,ho]
      exact ⟨fun h => ⟨hn,hd,h⟩,fun h => h.2.2⟩
    · next hl =>
      have hp := port.toNat_lt
      refine iff_of_false (by simp) fun h => hl ?_
      omega
  · rw [if_pos (Or.inr (by simpa using mt hall.1 hd))]
    exact iff_of_false (by simp) fun h => hd h.2.1

/-! Names -/

theorem toNat_toLower (c : Char) :
    c.toLower.toNat = if 'A' ≤ c ∧ c ≤ 'Z' then c.toNat + 32 else c.toNat := by
  unfold Char.toLower
  split
  · next h =>
    have hz : c.toNat ≤ 90 := h.2
    have ha : (c.val + 32).toNat = c.val.toNat + 32 := by
      rw [UInt32.toNat_add]
      exact Nat.mod_eq_of_lt (by simp; omega)
    rw [if_pos (show 'A' ≤ c ∧ c ≤ 'Z' from h)]
    exact ha
  · next h => rw [if_neg (show ¬ ('A' ≤ c ∧ c ≤ 'Z') from h)]

theorem toLower_eq_iff {x y : Char} : x.toLower = y.toLower ↔ SameLetter x y := by
  have hle (c : Char) : ('A' ≤ c ∧ c ≤ 'Z') ↔ 65 ≤ c.toNat ∧ c.toNat ≤ 90 := Iff.rfl
  rw [← Char.toNat_inj,toNat_toLower,toNat_toLower,SameLetter,← Char.toNat_inj]
  simp only [hle]
  split <;> split <;> omega

theorem sameName_iff {xs ys : List Char} :
    sameName xs ys = true ↔ List.Forall₂ SameLetter xs ys := by
  have h : (fun x y : Char => x.toLower = y.toLower) = SameLetter := by
    funext x y
    exact propext toLower_eq_iff
  rw [sameName,decide_eq_true_eq,← List.forall₂_eq_eq_eq,List.forall₂_map_left_iff,
    List.forall₂_map_right_iff,h]

theorem names_nodup : (wellKnown.map fun e => e.1.toList.map Char.toLower).Nodup := by
  decide +kernel

theorem eq_of_sameName {e f : String × UInt16} {cs : List Char} (he : e ∈ wellKnown)
    (hf : f ∈ wellKnown) (hes : sameName e.1.toList cs = true)
    (hfs : sameName f.1.toList cs = true) : e = f :=
  List.inj_on_of_nodup_map names_nodup he hf
    ((of_decide_eq_true hes).trans (of_decide_eq_true hfs).symm)

theorem named?_eq_some {cs : List Char} {port : UInt16} : named? cs = some port ↔
    ∃ known, (known, port) ∈ wellKnown ∧ sameName known.toList cs = true := by
  unfold named?
  rw [Option.map_eq_some_iff]
  constructor
  · rintro ⟨e,he,rfl⟩
    have hs := List.find?_some he
    exact ⟨e.1,List.mem_of_find?_eq_some he,hs⟩
  · rintro ⟨known,hk,hs⟩
    cases hf : wellKnown.find? fun e => sameName e.1.toList cs with
    | none => exact absurd hs (List.find?_eq_none.1 hf _ hk)
    | some e =>
      have he := List.find?_some hf
      exact ⟨e,rfl,congrArg Prod.snd
        (eq_of_sameName (List.mem_of_find?_eq_some hf) hk he hs)⟩

theorem head_of_known : ∀ e ∈ wellKnown, ∃ c cs, e.1.toList = c :: cs ∧ 'a' ≤ c := by
  have h : ∀ e ∈ wellKnown, e.1.toList.head?.any ('a' ≤ ·) = true := by decide +kernel
  intro e he
  obtain ⟨c,hc,ha⟩ := (Option.any_eq_true _ _).1 (h e he)
  obtain ⟨cs,hcs⟩ := List.head?_eq_some_iff.1 hc
  exact ⟨c,cs,hcs,of_decide_eq_true ha⟩

theorem number?_of_named {cs : List Char} {known : String} {port : UInt16}
    (hk : (known, port) ∈ wellKnown) (hs : List.Forall₂ SameLetter known.toList cs) :
    number? cs = none := by
  obtain ⟨c,ks,hc,ha⟩ := head_of_known _ hk
  rw [hc] at hs
  obtain ⟨d,ds,hd,-,rfl⟩ := List.forall₂_cons_left_iff.1 hs
  have hl : 65 ≤ d.toNat := by
    have ha : 97 ≤ c.toNat := ha
    obtain rfl | ⟨⟨-,hz⟩,-⟩ | ⟨⟨hz,-⟩,-⟩ := hd
    · omega
    · have hz : c.toNat ≤ 90 := hz
      omega
    · exact hz
  have hu : unsigned (d :: ds) = d :: ds := by
    unfold unsigned
    split
    · next h =>
      obtain ⟨rfl,-⟩ := List.cons.inj h
      exact absurd hl (by decide)
    · rfl
  rw [Option.eq_none_iff_forall_ne_some]
  intro p hp
  obtain ⟨-,h,-⟩ := number?_eq_some.1 hp
  rw [hu] at h
  have h9 : d.toNat ≤ 57 := (h d List.mem_cons_self).2
  omega

/-! Ports -/

theorem denotes_of_number {numericOnly : Bool} {service : String} {port : UInt16}
    (h : number? service.toList = some port) : Denotes numericOnly service port := by
  obtain ⟨hn,hd,hp⟩ := number?_eq_some.1 h
  obtain ⟨sign,hs,hg⟩ := exists_sign service.toList
  exact .number hs hg hn hd hp

theorem port?_eq_some {service : String} {numericOnly : Bool} {port : UInt16} :
    port? service numericOnly = some port ↔ Denotes numericOnly service port := by
  constructor
  · intro h
    unfold port? at h
    split at h
    · next hs => exact .nothing hs (Option.some.inj h).symm
    split at h
    · next p hp =>
      obtain rfl := Option.some.inj h
      exact denotes_of_number hp
    split at h
    · cases h
    · next ha =>
      obtain ⟨known,hk,hs⟩ := named?_eq_some.1 h
      exact .name (by simpa using ha) hk (sameName_iff.1 hs)
  · intro h
    cases h with
    | nothing hs hp => rw [port?,if_pos hs,hp]
    | @number sign ds hs hg hn hd hp =>
      have hu : unsigned service.toList = ds := by rw [hs,unsigned_append hg hd]
      have hne : service ≠ "" := by
        rintro rfl
        exact hn (List.append_eq_nil_iff.1 hs.symm).2
      have hv : number? service.toList = some port :=
        number?_eq_some.2 ⟨by rwa [hu],by rwa [hu],by rwa [hu]⟩
      rw [port?,if_neg hne,hv]
    | @name known ha hk hs =>
      have hne : service ≠ "" := by
        rintro rfl
        obtain ⟨c,cs,hc,-⟩ := head_of_known _ hk
        rw [hc] at hs
        cases hs
      rw [port?,if_neg hne,number?_of_named hk hs,ha]
      exact named?_eq_some.2 ⟨known,hk,sameName_iff.2 hs⟩

theorem port?_eq_none {service : String} {numericOnly : Bool}
    (h : ∀ port, ¬ Denotes numericOnly service port) : port? service numericOnly = none :=
  Option.eq_none_iff_forall_ne_some.2 fun port hp => h port (port?_eq_some.1 hp)

theorem decimal_write (n : Nat) : decimal (Numeral.write 10 n) = n := by
  have hd (c : Char) (hc : c ∈ Numeral.write 10 n) :=
    Numeral.isDigit_ten.1 (Numeral.isDigit_of_mem_write (by decide) (by decide) n c hc)
  rw [← value_eq_decimal hd,Numeral.value_write (by decide) (by decide)]

theorem denotes_write (numericOnly : Bool) (port : UInt16) :
    Denotes numericOnly (String.ofList (Numeral.write 10 port.toNat)) port := by
  have hs : (String.ofList (Numeral.write 10 port.toNat)).toList =
      [] ++ Numeral.write 10 port.toNat := by rw [String.toList_ofList,List.nil_append]
  refine .number hs (Or.inl rfl)
    (Numeral.write_ne_nil 10 port.toNat) (fun c hc => ?_) (decimal_write port.toNat)
  exact Numeral.isDigit_ten.1 (Numeral.isDigit_of_mem_write (by decide) (by decide) _ c hc)

theorem Denotes.of_numericOnly {numericOnly : Bool} {service : String} {port : UInt16}
    (h : Denotes true service port) : Denotes numericOnly service port := by
  cases h with
  | nothing hs hp => exact .nothing hs hp
  | number hs hg hn hd hp => exact .number hs hg hn hd hp
  | name ha => cases ha

/-- Which texts are taken for which ports. -/
structure Ports (service : String) : Prop where
  denoted : ∀ numericOnly port,
    port? service numericOnly = some port ↔ Denotes numericOnly service port
  /-- A lookup of any other text has no outcome but the failure with this text. -/
  refused : ∀ settings directory q, q.service = service →
    (∀ port, ¬ Denotes q.hints.numericService service port) →
    Query.run settings directory q = ⟨[], some (0, .error (.serviceNotFound service))⟩
  /-- No two ports go by the same name. -/
  named : ∀ known p other r, (known, p) ∈ wellKnown → (other, r) ∈ wellKnown →
    List.Forall₂ SameLetter known.toList service.toList →
    List.Forall₂ SameLetter other.toList service.toList → p = r
  /-- A decimal number stands for itself. -/
  written : ∀ (port : UInt16) numericOnly,
    service = String.ofList (Numeral.write 10 port.toNat) → port? service numericOnly = some port
  /-- Without names there are fewer ports and no others. -/
  fewer : ∀ port, port? service true = some port → port? service false = some port

theorem ports_denoted (service : String) : Ports service where
  denoted numericOnly port := port?_eq_some
  refused settings directory q hs h := by
    subst hs
    exact Query.run_of_noService (port?_eq_none h)
  named known p other r hk ho hks hos :=
    congrArg Prod.snd (eq_of_sameName hk ho (sameName_iff.2 hks) (sameName_iff.2 hos))
  written port numericOnly h := by
    subst h
    exact port?_eq_some.2 (denotes_write numericOnly port)
  fewer port h := port?_eq_some.2 (port?_eq_some.1 h).of_numericOnly

end Service
end EventLoop
