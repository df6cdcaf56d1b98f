import EventLoop.Proofs.Fieldwise
import Mathlib.Data.List.Pairwise

/-! One record, spelled in many ways. The members of an object may stand in any order, others may
stand between them, what has its value anyway may be left out, and an array of values may stand for
the object. A field that is named twice is a fault.
Main statements: `Change.comes`, `Within.comes`, `Doubled.comes`. -/
namespace EventLoop
namespace Json

variable {σ : Type} {fields : List (RecordField σ)} {a : σ}

/-- The first tree is written anew as the second one, which stands for the same record. -/
inductive Change (fields : List (RecordField σ)) (a : σ) : Tree → Tree → Prop
  | permute {ms ns : List (List Char × Tree)} (h : ms.Perm ns) :
      Change fields a (.object ms) (.object ns)
  | insert {xs ys : List (List Char × Tree)} {k name : List Char} {t : Tree} (hk : Spelt k name)
      (hn : ∀ f ∈ fields, f.name.toList ≠ name) (ht : t.Grammatical) :
      Change fields a (.object (xs ++ ys)) (.object (xs ++ (k, t) :: ys))
  | drop {xs ys : List (List Char × Tree)} {m : List Char × Tree} {f : RecordField σ}
      (hf : f ∈ fields) (hn : Names m f) (hd : Default a f m.2) :
      Change fields a (.object (xs ++ m :: ys)) (.object (xs ++ ys))
  | list {u : Tree} {ts : List Tree} (hl : ts.length ≤ fields.length)
      (hs : ∀ (i : Nat) (f : RecordField σ) (t : Tree), fields[i]? = some f → ts[i]? = some t →
        Gives fields u f t ∨ Default a f t ∧ ∀ v, ¬ Gives fields u f v)
      (hd : ∀ (i : Nat) (f : RecordField σ) (t : Tree), fields[i]? = some f → ts[i]? = none →
        Gives fields u f t → Default a f t) : Change fields a u (.array ts)

/-- A member with a field stands in the object a second time, wherever it stands. -/
inductive Doubled (fields : List (RecordField σ)) : Tree → Tree → Prop
  | mk {xs ys : List (List Char × Tree)} {k k' : List Char} {t : Tree} {f : RecordField σ}
      (hf : f ∈ fields) (hm : (k, t) ∈ xs ++ ys) (hk : Spelt k f.name.toList)
      (hk' : Spelt k' f.name.toList) :
      Doubled fields (.object (xs ++ ys)) (.object (xs ++ (k', t) :: ys))

/-- The value of one field is written anew, and all else is as it was. -/
inductive Within (fields : List (RecordField σ)) (f : RecordField σ) (R : Tree → Tree → Prop) :
    Tree → Tree → Prop
  | member {xs ys : List (List Char × Tree)} {k : List Char} {t u : Tree}
      (hk : Spelt k f.name.toList) (h : R t u) :
      Within fields f R (.object (xs ++ (k, t) :: ys)) (.object (xs ++ (k, u) :: ys))
  | item {ts us : List Tree} {t u : Tree} (hi : fields[ts.length]? = some f) (h : R t u) :
      Within fields f R (.array (ts ++ t :: us)) (.array (ts ++ u :: us))

/-! A record that is changed -/

theorem Gives.mem {u t : Tree} {f : RecordField σ} (h : Gives fields u f t) : f ∈ fields := by
  cases h with
  | member hf => exact hf
  | item hf => exact List.mem_of_getElem? hf

theorem Gives.readable (hl : Lawful fields) {u t : Tree} {f : RecordField σ}
    (hu : Readable fields u) (h : Gives fields u f t) :
    t.Grammatical ∧ ∃ set, Takes f.read t set := by
  cases hu with
  | object hf ha =>
    obtain ⟨hff,m,hm,hn,rfl⟩ := gives_object.1 h
    refine ⟨(hf m hm).1,?_⟩
    obtain ⟨g,hg,hng,hset⟩ | ⟨_,-,-,hno⟩ := (hf m hm).cases
    · obtain rfl := hl.eq_of_names hff hg hn hng
      exact hset
    · exact absurd hn (hno f hff)
  | array _ ht =>
    obtain ⟨i,hf,hi⟩ := gives_array.1 h
    exact ht i f t hf hi

theorem Apart.symm {m n : List Char × Tree} (h : Apart fields m n) : Apart fields n m :=
  fun f hf hn hm => h f hf hm hn

instance : Std.Symm (Apart fields) := ⟨fun _ _ => Apart.symm⟩

theorem Gives.unique (hl : Lawful fields) {u t t' : Tree} {f : RecordField σ}
    (hu : Readable fields u) (h : Gives fields u f t) (h' : Gives fields u f t') : t = t' := by
  cases hu with
  | object hf ha =>
    obtain ⟨hff,m,hm,hn,rfl⟩ := gives_object.1 h
    obtain ⟨-,m',hm',hn',rfl⟩ := gives_object.1 h'
    by_contra hne
    have hap := ha.forall hm hm' (fun he => hne (congrArg Prod.snd he))
    exact hap f hff hn hn'
  | array _ ht =>
    obtain ⟨i,hf,hi⟩ := gives_array.1 h
    obtain ⟨j,hf',hj⟩ := gives_array.1 h'
    have hlt := (List.getElem?_eq_some_iff.1 hf).1
    obtain rfl := (List.getElem?_inj hlt (hl.names.of_map _)).1 (hf.trans hf'.symm)
    exact Option.some.inj (hi.symm.trans hj)

theorem same_of_gives {u v : Tree}
    (h : ∀ f t, ¬ Default a f t → (Gives fields u f t ↔ Gives fields v f t)) :
    Same fields a u v := by
  intro f set hne
  have hd {t : Tree} (ht : Takes f.read t set) : ¬ Default a f t := by
    rintro ⟨-,s,hs,he⟩
    exact hne (hs.unique ht ▸ he)
  constructor
  · rintro ⟨t,hg,ht⟩
    exact ⟨t,(h f t (hd ht)).1 hg,ht⟩
  · rintro ⟨t,hg,ht⟩
    exact ⟨t,(h f t (hd ht)).2 hg,ht⟩

theorem same_of_mem {ms ns : List (List Char × Tree)}
    (h : ∀ m f, f ∈ fields → Names m f → ¬ Default a f m.2 → (m ∈ ms ↔ m ∈ ns)) :
    Same fields a (.object ms) (.object ns) := by
  refine same_of_gives fun f t hd => ?_
  simp only [gives_object]
  constructor
  · rintro ⟨hf,m,hm,hn,rfl⟩
    exact ⟨hf,m,(h m f hf hn hd).1 hm,hn,rfl⟩
  · rintro ⟨hf,m,hm,hn,rfl⟩
    exact ⟨hf,m,(h m f hf hn hd).2 hm,hn,rfl⟩

variable {xs ys : List (List Char × Tree)} {m : List Char × Tree}

theorem readable_middle : Readable fields (.object (xs ++ m :: ys)) ↔
    Fine fields m ∧ (∀ n ∈ xs ++ ys, Apart fields m n) ∧ Readable fields (.object (xs ++ ys)) := by
  have hp : (xs ++ m :: ys).Perm (m :: (xs ++ ys)) := List.perm_middle
  constructor
  · rintro (⟨hf,ha⟩ | _)
    have ha := List.pairwise_cons.1 (hp.pairwise ha fun h => h.symm)
    exact ⟨hf m (hp.mem_iff.2 List.mem_cons_self),ha.1,
      .object (fun n hn => hf n (hp.mem_iff.2 (List.mem_cons_of_mem m hn))) ha.2⟩
  · rintro ⟨hm,ham,⟨hf,ha⟩ | _⟩
    exact .object (fun n hn => List.forall_mem_cons.2 ⟨hm,hf⟩ n (hp.mem_iff.1 hn))
      (hp.symm.pairwise (List.pairwise_cons.2 ⟨ham,ha⟩) fun h => h.symm)

theorem grammatical_middle : (Tree.object (xs ++ m :: ys)).Grammatical ↔
    Sealed m.1 ∧ m.2.Grammatical ∧ (Tree.object (xs ++ ys)).Grammatical := by
  have hp : (xs ++ m :: ys).Perm (m :: (xs ++ ys)) := List.perm_middle
  constructor
  · rintro (_ | _ | _ | _ | ⟨hn,hv⟩)
    exact ⟨hn m (hp.mem_iff.2 List.mem_cons_self),hv m (hp.mem_iff.2 List.mem_cons_self),
      .object (fun n h => hn n (hp.mem_iff.2 (List.mem_cons_of_mem m h)))
        fun n h => hv n (hp.mem_iff.2 (List.mem_cons_of_mem m h))⟩
  · rintro ⟨hm,hmv,_ | _ | _ | _ | ⟨hn,hv⟩⟩
    have hsealed : ∀ n ∈ m :: (xs ++ ys), Sealed n.1 := List.forall_mem_cons.2 ⟨hm,hn⟩
    have hall : ∀ n ∈ m :: (xs ++ ys), n.2.Grammatical := List.forall_mem_cons.2 ⟨hmv,hv⟩
    exact .object (fun n h => hsealed n (hp.mem_iff.1 h)) fun n h => hall n (hp.mem_iff.1 h)

theorem mem_middle {n : List Char × Tree} : n ∈ xs ++ m :: ys ↔ n = m ∨ n ∈ xs ++ ys := by
  rw [List.perm_middle.mem_iff,List.mem_cons]

/-- The second tree can be read as the first one can, and says the same. -/
structure Keeps (fields : List (RecordField σ)) (a : σ) (u v : Tree) : Prop where
  grammatical : v.Grammatical
  readable : Readable fields v
  same : Same fields a u v

theorem keeps_permute {ms ns : List (List Char × Tree)} (h : ms.Perm ns)
    (hg : (Tree.object ms).Grammatical) (hu : Readable fields (.object ms)) :
    Keeps fields a (.object ms) (.object ns) := by
  cases hg with | object hn hv =>
  cases hu with | object hf ha =>
  exact ⟨.object (fun m hm => hn m (h.mem_iff.2 hm)) fun m hm => hv m (h.mem_iff.2 hm),
    .object (fun m hm => hf m (h.mem_iff.2 hm)) (h.pairwise ha fun h => h.symm),
    same_of_mem fun m f _ _ _ => h.mem_iff⟩

theorem keeps_insert {k name : List Char} {t : Tree} (hk : Spelt k name)
    (hn : ∀ f ∈ fields, f.name.toList ≠ name) (ht : t.Grammatical)
    (hg : (Tree.object (xs ++ ys)).Grammatical) (hu : Readable fields (.object (xs ++ ys))) :
    Keeps fields a (.object (xs ++ ys)) (.object (xs ++ (k, t) :: ys)) := by
  have hno {f : RecordField σ} (hf : f ∈ fields) (h : Names (k, t) f) : False :=
    hn f hf (Spelt.unique h hk)
  have hfine : Fine fields (k, t) := by
    refine ⟨ht,String.ofList name,by rwa [String.toList_ofList],fun f hf h => ?_⟩
    exact (hn f hf (by rw [h,String.toList_ofList])).elim
  refine ⟨grammatical_middle.2 ⟨hk.sealed,ht,hg⟩,
    readable_middle.2 ⟨hfine,fun m _ f hf h => (hno hf h).elim,hu⟩,
    same_of_mem fun m f hf hnm _ => ?_⟩
  rw [mem_middle]
  refine ⟨Or.inr,fun h => h.resolve_left ?_⟩
  rintro rfl
  exact hno hf hnm

theorem keeps_drop (hl : Lawful fields) {f : RecordField σ} (hf : f ∈ fields) (hn : Names m f)
    (hd : Default a f m.2) (hg : (Tree.object (xs ++ m :: ys)).Grammatical)
    (hu : Readable fields (.object (xs ++ m :: ys))) :
    Keeps fields a (.object (xs ++ m :: ys)) (.object (xs ++ ys)) := by
  refine ⟨(grammatical_middle.1 hg).2.2,(readable_middle.1 hu).2.2,
    same_of_mem fun n g hgf hng hdn => ?_⟩
  rw [mem_middle]
  refine ⟨fun h => h.resolve_left ?_,Or.inr⟩
  rintro rfl
  obtain rfl := hl.eq_of_names hf hgf hn hng
  exact hdn hd

theorem keeps_list (hl : Lawful fields) {u : Tree} {ts : List Tree}
    (hlen : ts.length ≤ fields.length)
    (hs : ∀ (i : Nat) (f : RecordField σ) (t : Tree), fields[i]? = some f → ts[i]? = some t →
      Gives fields u f t ∨ Default a f t ∧ ∀ v, ¬ Gives fields u f v)
    (hd : ∀ (i : Nat) (f : RecordField σ) (t : Tree), fields[i]? = some f → ts[i]? = none →
      Gives fields u f t → Default a f t) (hu : Readable fields u) :
    Keeps fields a u (.array ts) := by
  have hread {i : Nat} {f : RecordField σ} {t : Tree} (hf : fields[i]? = some f)
      (ht : ts[i]? = some t) : t.Grammatical ∧ ∃ set, Takes f.read t set := by
    obtain h | ⟨⟨hg,set,h,-⟩,-⟩ := hs i f t hf ht
    · exact h.readable hl hu
    · exact ⟨hg,set,h⟩
  refine ⟨.array fun t ht => ?_,.array hlen fun i f t hf ht => hread hf ht,
    same_of_gives fun f t hdt => ?_⟩
  · obtain ⟨i,hi⟩ := List.getElem?_of_mem ht
    have hlt := (List.getElem?_eq_some_iff.1 hi).1
    exact (hread (List.getElem?_eq_getElem (hlt.trans_le hlen)) hi).1
  · rw [gives_array]
    constructor
    · intro h
      obtain ⟨i,hi⟩ := List.getElem?_of_mem h.mem
      cases ht : ts[i]? with
      | none => exact absurd (hd i f t hi ht h) hdt
      | some t' =>
        obtain h' | ⟨-,hno⟩ := hs i f t' hi ht
        · rw [h.unique hl hu h']
          exact ⟨i,hi,ht⟩
        · exact absurd h (hno t)
    · rintro ⟨i,hi,ht⟩
      obtain h | ⟨h,-⟩ := hs i f t hi ht
      · exact h
      · exact absurd h hdt

theorem Change.keeps (hl : Lawful fields) {u v : Tree} (h : Change fields a u v)
    (hg : u.Grammatical) (hu : Readable fields u) : Keeps fields a u v := by
  cases h with
  | permute h => exact keeps_permute h hg hu
  | insert hk hn ht => exact keeps_insert hk hn ht hg hu
  | drop hf hn hd => exact keeps_drop hl hf hn hd hg hu
  | list hlen hs hd => exact keeps_list hl hlen hs hd hu

theorem Change.comes (hl : Lawful fields) {u v : Tree} {b : σ} (h : Change fields a u v)
    (hg : u.Grammatical) (hu : Comes fields a u (.ok b)) :
    v.Grammatical ∧ Comes fields a v (.ok b) := by
  obtain ⟨hgv,hv,hs⟩ := h.keeps hl hg (readable_of_comes hl hg hu)
  exact ⟨hgv,comes_of_same hl hg hu hs hv⟩

/-! A value that is changed -/

theorem getElem?_middle {ts us : List Tree} {t u : Tree} {i : Nat} (h : i ≠ ts.length) :
    (ts ++ t :: us)[i]? = (ts ++ u :: us)[i]? := by
  rw [List.getElem?_append,List.getElem?_append]
  split
  · rfl
  · obtain ⟨j,hj⟩ := Nat.exists_eq_succ_of_ne_zero (show i - ts.length ≠ 0 by omega)
    rw [hj]
    rfl

theorem getElem?_length (ts us : List Tree) (t : Tree) : (ts ++ t :: us)[ts.length]? = some t := by
  simp

theorem grammatical_replace {ts us : List Tree} {t u : Tree}
    (h : (Tree.array (ts ++ t :: us)).Grammatical) (hu : u.Grammatical) :
    (Tree.array (ts ++ u :: us)).Grammatical := by
  cases h with
  | array h =>
    refine .array fun s hs => ?_
    obtain hs | hs := List.mem_append.1 hs
    · exact h s (List.mem_append_left _ hs)
    · obtain rfl | hs := List.mem_cons.1 hs
      · exact hu
      · exact h s (List.mem_append_right _ (List.mem_cons_of_mem t hs))

theorem Within.flip {f : RecordField σ} {R : Tree → Tree → Prop} {u v : Tree}
    (h : Within fields f R u v) : Within fields f (fun t s => R s t) v u := by
  cases h with
  | member hk h => exact .member hk h
  | item hi h => exact .item hi h

theorem Within.values {f : RecordField σ} (hff : f ∈ fields) {R : Tree → Tree → Prop} {u v : Tree}
    (h : Within fields f R u v) : ∃ t s, R t s ∧ Gives fields u f t ∧ Gives fields v f s := by
  cases h with
  | @member xs ys k t s hk h =>
    exact ⟨t,s,h,.member (m := (k, t)) hff (by simp) hk,.member (m := (k, s)) hff (by simp) hk⟩
  | @item ts us t s hi h =>
    exact ⟨t,s,h,.item hi (getElem?_length ts us t),.item hi (getElem?_length ts us s)⟩

theorem Within.others (hl : Lawful fields) {f g : RecordField σ} (hff : f ∈ fields) (hne : g ≠ f)
    {R : Tree → Tree → Prop} {u v s : Tree} (h : Within fields f R u v)
    (hs : Gives fields u g s) : Gives fields v g s := by
  cases h with
  | @member xs ys k t t' hk h =>
    obtain ⟨hg,m,hm,hn,rfl⟩ := gives_object.1 hs
    obtain rfl | hm := mem_middle.1 hm
    · exact absurd (hl.eq_of_names (m := (k, t)) hg hff hn hk) hne
    · exact .member hg (mem_middle.2 (Or.inr hm)) hn
  | @item ts us t t' hi h =>
    obtain ⟨i,hg,hi'⟩ := gives_array.1 hs
    by_cases he : i = ts.length
    · subst he
      exact absurd (Option.some.inj (hg.symm.trans hi)) hne
    · exact .item hg ((getElem?_middle he).symm.trans hi')

theorem Within.readable (hl : Lawful fields) {f : RecordField σ} (hff : f ∈ fields)
    {R : Tree → Tree → Prop} (hR : ∀ t s set, R t s → t.Grammatical → Takes f.read t set →
      s.Grammatical ∧ Takes f.read s set) {u v : Tree} (h : Within fields f R u v)
    (hg : u.Grammatical) (hu : Readable fields u) : v.Grammatical ∧ Readable fields v := by
  cases h with
  | @member xs ys k t s hk h =>
    obtain ⟨hsk,hgt,hgo⟩ := grammatical_middle.1 hg
    obtain ⟨-,hap,hro⟩ := readable_middle.1 hu
    obtain ⟨-,set,ht⟩ := Gives.readable hl hu (.member (m := (k, t)) hff (by simp) hk)
    obtain ⟨hgs,hs⟩ := hR t s set h hgt ht
    have hfine : Fine fields (k, s) := by
      refine ⟨hgs,f.name,hk,fun g hgf he => ?_⟩
      obtain rfl := hl.eq_of_name hgf hff he
      exact ⟨set,hs⟩
    exact ⟨grammatical_middle.2 ⟨hsk,hgs,hgo⟩,readable_middle.2 ⟨hfine,hap,hro⟩⟩
  | @item ts us t s hi h =>
    obtain ⟨hgt,set,ht⟩ := Gives.readable hl hu (.item hi (getElem?_length ts us t))
    obtain ⟨hgs,hs⟩ := hR t s set h hgt ht
    cases hu with | array hlen hread =>
    refine ⟨grammatical_replace hg hgs,.array (by simpa using hlen) fun i g r hgf hr => ?_⟩
    by_cases he : i = ts.length
    · subst he
      obtain rfl := Option.some.inj (hi.symm.trans hgf)
      obtain rfl := Option.some.inj ((getElem?_length ts us s).symm.trans hr)
      exact ⟨hgs,set,hs⟩
    · exact hread i g r hgf ((getElem?_middle he).trans hr)

/-- If the field takes the new value for what it took the old one for, the record is the same. -/
theorem Within.comes (hl : Lawful fields) {f : RecordField σ} (hff : f ∈ fields)
    {R : Tree → Tree → Prop} (hR : ∀ t s set, R t s → t.Grammatical → Takes f.read t set →
      s.Grammatical ∧ Takes f.read s set) {u v : Tree} {b : σ} (h : Within fields f R u v)
    (hg : u.Grammatical) (hu : Comes fields a u (.ok b)) :
    v.Grammatical ∧ Comes fields a v (.ok b) := by
  have hru := readable_of_comes hl hg hu
  obtain ⟨hgv,hrv⟩ := h.readable hl hff hR hg hru
  obtain ⟨t,s,hts,ht,hs⟩ := h.values hff
  obtain ⟨hgt,x,htx⟩ := ht.readable hl hru
  obtain ⟨-,hsx⟩ := hR t s x hts hgt htx
  refine ⟨hgv,comes_of_same hl hg hu (fun g set _ => ?_) hrv⟩
  by_cases he : g = f
  · subst he
    constructor
    · rintro ⟨r,hr,hset⟩
      obtain rfl := hr.unique hl hru ht
      exact ⟨s,hs,htx.unique hset ▸ hsx⟩
    · rintro ⟨r,hr,hset⟩
      obtain rfl := hr.unique hl hrv hs
      exact ⟨t,ht,hsx.unique hset ▸ htx⟩
  · constructor
    · rintro ⟨r,hr,hset⟩
      exact ⟨r,h.others hl hff he hr,hset⟩
    · rintro ⟨r,hr,hset⟩
      exact ⟨r,h.flip.others hl hff he hr,hset⟩

/-! Records that cannot be read any more -/

theorem Doubled.comes (hl : Lawful fields) {u v : Tree} {b : σ} (h : Doubled fields u v)
    (hg : u.Grammatical) (hu : Comes fields a u (.ok b)) :
    v.Grammatical ∧ Comes fields a v (.error .content) := by
  cases h with
  | @mk xs ys k k' t f hf hm hk hk' =>
    obtain ⟨hfine,-⟩ := readable_of_comes hl hg hu
    have hgt := (hfine (k, t) hm).1
    obtain ⟨-,set,hset⟩ := Gives.readable hl (readable_of_comes hl hg hu) (.member hf hm hk)
    have hfine' : Fine fields (k', t) := by
      refine ⟨hgt,f.name,hk',fun g hgf he => ?_⟩
      obtain rfl := hl.eq_of_name hgf hf he
      exact ⟨set,hset⟩
    refine ⟨grammatical_middle.2 ⟨hk'.sealed,hgt,hg⟩,.object (runs_of_twice hl ?_ fun ha => ?_)⟩
    · intro m hmem
      obtain rfl | hmem := mem_middle.1 hmem
      · exact hfine'
      · exact hfine m hmem
    · have hp : (xs ++ (k', t) :: ys).Perm ((k', t) :: (xs ++ ys)) := List.perm_middle
      have hap := List.pairwise_cons.1 (hp.pairwise ha fun h => h.symm)
      exact hap.1 (k, t) hm f hf hk' hk

theorem Within.rejects (hl : Lawful fields) {f : RecordField σ} (hff : f ∈ fields)
    {R : Tree → Tree → Prop} (hR : ∀ t u set, R t u → t.Grammatical → Takes f.read t set →
      u.Grammatical ∧ Rejects f.read u) {u v : Tree} (h : Within fields f R u v)
    (hg : u.Grammatical) (hu : Readable fields u) :
    v.Grammatical ∧ Comes fields a v (.error .content) := by
  cases h with
  | @member xs ys k t u hk h =>
    obtain ⟨hsk,hgt,hgo⟩ := grammatical_middle.1 hg
    have hgive : Gives fields (.object (xs ++ (k, t) :: ys)) f t :=
      .member (m := (k, t)) hff (by simp) hk
    obtain ⟨-,set,hset⟩ := hgive.readable hl hu
    obtain ⟨hgu,hrej⟩ := hR t u set h hgt hset
    obtain ⟨hfine,hap⟩ := hu
    refine ⟨grammatical_middle.2 ⟨hsk,hgu,hgo⟩,.object (runs_of_rejected hl ?_ ?_ ?_ hff hk hrej)⟩
    · exact fun m hm => hfine m (List.mem_append_left _ hm)
    · obtain ⟨hxs,-,hcross⟩ := List.pairwise_append.1 hap
      refine List.pairwise_append.2 ⟨hxs,List.pairwise_singleton _ _,fun m hm n hn => ?_⟩
      obtain rfl := List.mem_singleton.1 hn
      exact hcross m hm (k, t) List.mem_cons_self
    · exact fun _ _ _ _ _ => List.not_mem_nil
  | @item ts us t u hi h =>
    have hgive : Gives fields (.array (ts ++ t :: us)) f t := .item hi (getElem?_length ts us t)
    obtain ⟨hgt,set,hset⟩ := hgive.readable hl hu
    obtain ⟨hgu,hrej⟩ := hR t u set h hgt hset
    cases hu with | array hlen hread =>
    refine ⟨grammatical_replace hg hgu,
      .array (fills_of_rejected (fun i g s hgf hs => hread i g s hgf ?_) hi hgu hrej)⟩
    rw [List.getElem?_append_left (List.getElem?_eq_some_iff.1 hs).1,hs]

/-! A record as the value of a field -/

variable {τ : Type} {name : String} {set : σ → τ → τ}

theorem Change.takes (hl : Lawful fields) {t u : Tree} {g : τ → τ} (h : Change fields a t u)
    (hg : t.Grammatical) (ht : Takes (fieldOf name (record fields a) set).read t g) :
    u.Grammatical ∧ Takes (fieldOf name (record fields a) set).read u g := by
  obtain ⟨b,hb,rfl⟩ := of_takes_fieldOf (proper_record hl.proper) hg ht
  obtain ⟨hu,hc⟩ := h.comes hl hg (comes_of_takes hl.proper hg hb)
  exact ⟨hu,takes_fieldOf (takes_record hc)⟩

theorem Doubled.rejects (hl : Lawful fields) {t u : Tree} {g : τ → τ} (h : Doubled fields t u)
    (hg : t.Grammatical) (ht : Takes (fieldOf name (record fields a) set).read t g) :
    u.Grammatical ∧ Rejects (fieldOf name (record fields a) set).read u := by
  obtain ⟨b,hb,rfl⟩ := of_takes_fieldOf (proper_record hl.proper) hg ht
  obtain ⟨hu,hc⟩ := h.comes hl hg (comes_of_takes hl.proper hg hb)
  exact ⟨hu,rejects_fieldOf (rejects_record hc)⟩

/-! Whole texts -/

theorem of_whole {b : σ} {text : String} (hp : ∀ f ∈ fields, Proper f.read)
    (h : whole (record fields a) text.toList = .ok b) :
    ∃ t : Tree, t.Grammatical ∧ t.Spells text ∧ Comes fields a t (.ok b) := by
  obtain ⟨⟨c,rest⟩,hr,hw⟩ := bind_eq_ok.1 h
  obtain ⟨t,hg,hc,hs⟩ := comes_of_record hp hr
  dsimp only at hw
  split at hw
  · next hb =>
    obtain rfl : c = b := Except.ok.inj hw
    exact ⟨t,hg,⟨rest,blank_of_skipBlank hb,hs⟩,hc⟩
  · cases hw

theorem whole_of_comes {r : Except Fault σ} {t : Tree} {text : String} (h : Comes fields a t r)
    (ht : t.Spells text) : whole (record fields a) text.toList = r := by
  obtain ⟨g,hb,hs⟩ := ht
  have hg : skipBlank g = [] := by simpa [skipBlank] using skipBlank_append hb []
  rw [whole,record_of_comes h hs]
  cases r with
  | ok b => simp [Except.map,bind,Except.bind,hg,pure,Except.pure]
  | error e => rfl

/-- No text has two trees. -/
theorem Tree.Spells.unique {t u : Tree} {text : String} (ht : t.Grammatical) (hu : u.Grammatical)
    (h : t.Spells text) (h' : u.Spells text) : t = u := by
  obtain ⟨g,hb,hs⟩ := h
  obtain ⟨g',hb',hs'⟩ := h'
  have he := (skip_of_spaced ht hs (t.stops_of_cut (cut_blank hb))).symm.trans
    (skip_of_spaced hu hs' (u.stops_of_cut (cut_blank hb')))
  obtain rfl := Except.ok.inj he
  exact ht.unique u _ _ hu hs hs'

end Json
end EventLoop
