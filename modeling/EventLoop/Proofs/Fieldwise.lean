import EventLoop.Proofs.Members
import Mathlib.Data.List.Nodup
import Mathlib.Data.List.Perm.Basic

/-! Records field by field. Which record a tree is taken for depends only on the fields that the
tree gives a value other than the one they have anyway, in whatever order and form it gives them.
Main statements: `comes_of_same`, `runs_of_twice`. -/
namespace EventLoop
namespace Json

variable {σ : Type} {fields : List (RecordField σ)} {a : σ}

/-- The fields have names of their own, read trees, and do not touch each other. -/
structure Lawful (fields : List (RecordField σ)) : Prop where
  names : (fields.map (·.name)).Nodup
  proper : ∀ f ∈ fields, Proper f.read
  commute : ∀ f ∈ fields, ∀ g ∈ fields, f.name ≠ g.name → ∀ t u x y,
    Takes f.read t x → Takes g.read u y → ∀ a, x (y a) = y (x a)

def Names (m : List Char × Tree) (f : RecordField σ) : Prop := Spelt m.1 f.name.toList

/-- The tree gives the field this value. -/
inductive Gives (fields : List (RecordField σ)) : Tree → RecordField σ → Tree → Prop
  | member {ms : List (List Char × Tree)} {m : List Char × Tree} {f : RecordField σ}
      (hf : f ∈ fields) (hm : m ∈ ms) (hn : Names m f) : Gives fields (.object ms) f m.2
  | item {ts : List Tree} {t : Tree} {f : RecordField σ} {i : Nat} (hf : fields[i]? = some f)
      (ht : ts[i]? = some t) : Gives fields (.array ts) f t

def Default (a : σ) (f : RecordField σ) (t : Tree) : Prop :=
  t.Grammatical ∧ ∃ set, Takes f.read t set ∧ set a = a

def Fine (fields : List (RecordField σ)) (m : List Char × Tree) : Prop :=
  m.2.Grammatical ∧ ∃ name : String, Spelt m.1 name.toList ∧
    ∀ f : RecordField σ, f ∈ fields → f.name = name → ∃ set, Takes f.read m.2 set

def Apart (fields : List (RecordField σ)) (m n : List Char × Tree) : Prop :=
  ∀ f ∈ fields, Names m f → ¬ Names n f

/-- The tree can be read as a record. -/
inductive Readable (fields : List (RecordField σ)) : Tree → Prop
  | object {ms : List (List Char × Tree)} (hf : ∀ m ∈ ms, Fine fields m)
      (ha : ms.Pairwise (Apart fields)) : Readable fields (.object ms)
  | array {ts : List Tree} (hl : ts.length ≤ fields.length)
      (ht : ∀ (i : Nat) (f : RecordField σ) (t : Tree), fields[i]? = some f → ts[i]? = some t →
        t.Grammatical ∧ ∃ set, Takes f.read t set) : Readable fields (.array ts)

theorem gives_object {ms : List (List Char × Tree)} {f : RecordField σ} {t : Tree} :
    Gives fields (.object ms) f t ↔ f ∈ fields ∧ ∃ m ∈ ms, Names m f ∧ m.2 = t := by
  constructor
  · rintro ⟨hf,hm,hn⟩
    exact ⟨hf,_,hm,hn,rfl⟩
  · rintro ⟨hf,m,hm,hn,rfl⟩
    exact .member hf hm hn

theorem gives_array {ts : List Tree} {f : RecordField σ} {t : Tree} :
    Gives fields (.array ts) f t ↔ ∃ i : Nat, fields[i]? = some f ∧ ts[i]? = some t := by
  constructor
  · intro h
    cases h with
    | item hf ht => exact ⟨_,hf,ht⟩
  · rintro ⟨i,hf,ht⟩
    exact .item hf ht

/-! Fields -/

theorem Spelt.unique {raw xs ys : List Char} (h : Spelt raw xs) (h' : Spelt raw ys) : xs = ys := by
  have hx : string (raw ++ ['"']) = .ok (xs, []) := string_eq_ok.2 ⟨raw,h,rfl⟩
  have hy : string (raw ++ ['"']) = .ok (ys, []) := string_eq_ok.2 ⟨raw,h',rfl⟩
  exact (Prod.mk.inj (Except.ok.inj (hx.symm.trans hy))).1

theorem Lawful.eq_of_name (hl : Lawful fields) {f g : RecordField σ} (hf : f ∈ fields)
    (hg : g ∈ fields) (h : f.name = g.name) : f = g :=
  List.inj_on_of_nodup_map hl.names hf hg h

theorem Lawful.find? (hl : Lawful fields) {f : RecordField σ} (hf : f ∈ fields) :
    fields.find? (·.name = f.name) = some f := by
  cases h : fields.find? (·.name = f.name) with
  | none => simpa using List.find?_eq_none.1 h f hf
  | some g =>
    have hn : g.name = f.name := by simpa using List.find?_some h
    rw [hl.eq_of_name (List.mem_of_find?_eq_some h) hf hn]

theorem Lawful.eq_of_names (hl : Lawful fields) {m : List Char × Tree} {f g : RecordField σ}
    (hf : f ∈ fields) (hg : g ∈ fields) (h : Names m f) (h' : Names m g) : f = g :=
  hl.eq_of_name hf hg (String.toList_injective (Spelt.unique h h'))

/-- A member either has a value for its field, or its name is no field. -/
theorem Fine.cases {m : List Char × Tree} (h : Fine fields m) :
    (∃ f ∈ fields, Names m f ∧ ∃ set, Takes f.read m.2 set) ∨
      ∃ name : String, Spelt m.1 name.toList ∧ fields.find? (·.name = name) = none ∧
        ∀ f ∈ fields, ¬ Names m f := by
  obtain ⟨-,name,hk,hs⟩ := h
  by_cases hf : ∃ f ∈ fields, f.name = name
  · obtain ⟨f,hf,hn⟩ := hf
    subst hn
    exact Or.inl ⟨f,hf,hk,hs f hf rfl⟩
  · refine Or.inr ⟨name,hk,?_,fun f hfs hn => ?_⟩
    · rw [List.find?_eq_none]
      intro f hfs hn
      exact hf ⟨f,hfs,by simpa using hn⟩
    · exact hf ⟨f,hfs,String.toList_injective (Spelt.unique hn hk)⟩

/-! Assignments -/

def assign (as : List (RecordField σ × (σ → σ))) (a : σ) : σ := as.foldl (fun a x => x.2 a) a

/-- The assignments are those of the values that the tree gives, one for each field. -/
structure Meaning (fields : List (RecordField σ)) (u : Tree)
    (as : List (RecordField σ × (σ → σ))) : Prop where
  once : (as.map Prod.fst).Nodup
  sound : ∀ x ∈ as, x.1 ∈ fields ∧ ∃ t, Gives fields u x.1 t ∧ Takes x.1.read t x.2
  complete : ∀ f t, Gives fields u f t → ∃ set, Takes f.read t set ∧ (f, set) ∈ as

def Unseen (fields : List (RecordField σ)) (seen : List String) (ms : List (List Char × Tree)) :
    Prop := ∀ m ∈ ms, ∀ f ∈ fields, Names m f → f.name ∉ seen

theorem Gives.of_tail {m : List Char × Tree} {ms : List (List Char × Tree)} {f : RecordField σ}
    {t : Tree} (h : Gives fields (.object ms) f t) : Gives fields (.object (m :: ms)) f t := by
  cases h with
  | member hf hm hn => exact .member hf (List.mem_cons_of_mem m hm) hn

variable {ms : List (List Char × Tree)} {seen : List String}
  {as bs : List (RecordField σ × (σ → σ))}

/-- A member whose name is no field assigns nothing. -/
theorem Meaning.other {m : List Char × Tree} (h : Meaning fields (.object ms) as)
    (hno : ∀ f ∈ fields, ¬ Names m f) : Meaning fields (.object (m :: ms)) as := by
  refine ⟨h.once,fun x hx => ?_,?_⟩
  · obtain ⟨hxf,t,hgive,htake⟩ := h.sound x hx
    exact ⟨hxf,t,hgive.of_tail,htake⟩
  · rintro g t ⟨hg,hm,hn⟩
    obtain rfl | hm := List.mem_cons.1 hm
    · exact absurd hn (hno g hg)
    · exact h.complete g _ (.member hg hm hn)

theorem Meaning.field (hl : Lawful fields) {m : List Char × Tree} {f : RecordField σ} {set : σ → σ}
    (h : Meaning fields (.object ms) as) (hf : f ∈ fields) (hn : Names m f)
    (ha : ∀ n ∈ ms, Apart fields m n) (ht : Takes f.read m.2 set) :
    Meaning fields (.object (m :: ms)) ((f, set) :: as) := by
  refine ⟨List.nodup_cons.2 ⟨fun hm => ?_,h.once⟩,List.forall_mem_cons.2 ⟨?_,fun x hx => ?_⟩,?_⟩
  · obtain ⟨x,hx,rfl⟩ := List.mem_map.1 hm
    obtain ⟨-,t,hgive,-⟩ := h.sound x hx
    cases hgive with
    | member hf' hm' hn' => exact ha _ hm' x.1 hf hn hn'
  · exact ⟨hf,m.2,.member hf List.mem_cons_self hn,ht⟩
  · obtain ⟨hxf,t,hgive,htake⟩ := h.sound x hx
    exact ⟨hxf,t,hgive.of_tail,htake⟩
  · rintro g t ⟨hg,hm,hng⟩
    obtain rfl | hm := List.mem_cons.1 hm
    · obtain rfl := hl.eq_of_names hf hg hn hng
      exact ⟨set,ht,List.mem_cons_self⟩
    · obtain ⟨s,hs,hmem⟩ := h.complete g _ (.member hg hm hng)
      exact ⟨s,hs,List.mem_cons_of_mem _ hmem⟩

theorem Meaning.item {f : RecordField σ} {fs : List (RecordField σ)} {t : Tree} {ts : List Tree}
    {set : σ → σ} (h : Meaning fs (.array ts) as) (hn : f.name ∉ fs.map (·.name))
    (ht : Takes f.read t set) : Meaning (f :: fs) (.array (t :: ts)) ((f, set) :: as) := by
  refine ⟨List.nodup_cons.2 ⟨fun hm => ?_,h.once⟩,List.forall_mem_cons.2 ⟨?_,fun x hx => ?_⟩,?_⟩
  · obtain ⟨x,hx,rfl⟩ := List.mem_map.1 hm
    exact hn (List.mem_map_of_mem (h.sound x hx).1)
  · exact ⟨List.mem_cons_self,t,.item (i := 0) rfl rfl,ht⟩
  · obtain ⟨hxf,u,hgive,hu⟩ := h.sound x hx
    obtain ⟨i,hf,hi⟩ := gives_array.1 hgive
    exact ⟨List.mem_cons_of_mem f hxf,u,.item (i := i + 1) hf hi,hu⟩
  · intro g u hg
    obtain ⟨i,hgf,hu⟩ := gives_array.1 hg
    cases i with
    | zero =>
      obtain rfl : f = g := Option.some.inj hgf
      obtain rfl : t = u := Option.some.inj hu
      exact ⟨set,ht,List.mem_cons_self⟩
    | succ i =>
      obtain ⟨s,hs,hmem⟩ := h.complete g u (.item (i := i) hgf hu)
      exact ⟨s,hs,List.mem_cons_of_mem _ hmem⟩

theorem Unseen.cons (hl : Lawful fields) {m : List Char × Tree} {f : RecordField σ}
    (h : Unseen fields seen ms) (hf : f ∈ fields) (hn : Names m f)
    (ha : ∀ n ∈ ms, Apart fields m n) : Unseen fields (f.name :: seen) ms := by
  intro n hnm g hg hng
  rw [List.mem_cons,not_or]
  refine ⟨fun he => ?_,h n hnm g hg hng⟩
  obtain rfl := hl.eq_of_name hg hf he
  exact ha n hnm g hg hn hng

theorem runs_of_fine (hl : Lawful fields) (hf : ∀ m ∈ ms, Fine fields m)
    (ha : ms.Pairwise (Apart fields)) (hs : Unseen fields seen ms) (a : σ) :
    ∃ as, Runs fields seen ms a (.ok (assign as a)) ∧ Meaning fields (.object ms) as := by
  induction ms generalizing seen a with
  | nil =>
    refine ⟨[],.nil seen a,⟨List.nodup_nil,nofun,?_⟩⟩
    rintro f t ⟨-,hm,-⟩
    cases hm
  | cons m ms ih =>
    obtain ⟨hm,hf⟩ := List.forall_mem_cons.1 hf
    obtain ⟨ham,ha⟩ := List.pairwise_cons.1 ha
    obtain ⟨hsm,hs⟩ := List.forall_mem_cons.1 hs
    obtain ⟨f,hff,hn,set,ht⟩ | ⟨name,hk,hnone,hno⟩ := hm.cases
    · obtain ⟨as,hr,hmean⟩ := ih hf ha (Unseen.cons hl hs hff hn ham) (set a)
      exact ⟨(f, set) :: as,.field hn (hl.find? hff) (hsm f hff hn) ht hr,
        hmean.field hl hff hn ham ht⟩
    · obtain ⟨as,hr,hmean⟩ := ih hf ha hs a
      exact ⟨as,.other hk hnone hm.1 hr,hmean.other hno⟩

theorem fills_of_fine {fs : List (RecordField σ)} {ts : List Tree}
    (hn : (fs.map (·.name)).Nodup) (hl : ts.length ≤ fs.length)
    (ht : ∀ (i : Nat) (f : RecordField σ) (t : Tree), fs[i]? = some f → ts[i]? = some t →
      t.Grammatical ∧ ∃ set, Takes f.read t set) (a : σ) :
    ∃ as, Supplies fs ts a (.ok (assign as a)) ∧ Meaning fs (.array ts) as := by
  induction ts generalizing fs a with
  | nil =>
    refine ⟨[],.nil fs a,⟨List.nodup_nil,nofun,fun f t h => ?_⟩⟩
    obtain ⟨i,-,hu⟩ := gives_array.1 h
    simp at hu
  | cons t ts ih =>
    cases fs with
    | nil => simp at hl
    | cons f fs =>
      rw [List.map_cons,List.nodup_cons] at hn
      obtain ⟨hg,set,htake⟩ := ht 0 f t rfl rfl
      obtain ⟨as,hr,hmean⟩ := ih hn.2 (Nat.le_of_succ_le_succ hl)
        (fun i g u hg hu => ht (i + 1) g u hg hu) (set a)
      exact ⟨(f, set) :: as,.cons htake hg hr,hmean.item hn.1 htake⟩

theorem comes_of_readable (hl : Lawful fields) {u : Tree} (h : Readable fields u) (a : σ) :
    ∃ as, Comes fields a u (.ok (assign as a)) ∧ Meaning fields u as := by
  cases h with
  | object hf ha =>
    obtain ⟨as,hr,hm⟩ := runs_of_fine hl hf ha (fun _ _ _ _ _ => List.not_mem_nil) a
    exact ⟨as,.object hr,hm⟩
  | array hlen ht =>
    obtain ⟨as,hr,hm⟩ := fills_of_fine hl.names hlen ht a
    exact ⟨as,.array hr,hm⟩

/-! What was read can be read -/

theorem fine_of_runs (hl : Lawful fields) {r : Except Fault σ} (h : Runs fields seen ms a r)
    (hg : (Tree.object ms).Grammatical) {b : σ} (hr : r = .ok b) :
    (∀ m ∈ ms, Fine fields m) ∧ ms.Pairwise (Apart fields) ∧ Unseen fields seen ms := by
  induction h with
  | nil => exact ⟨nofun,.nil,nofun⟩
  | again => cases hr
  | fails => cases hr
  | @other seen k t ms a r name hk hf ht h ih =>
    cases hg with
    | object hn hv =>
      obtain ⟨-,hn⟩ := List.forall_mem_cons.1 hn
      obtain ⟨-,hv⟩ := List.forall_mem_cons.1 hv
      obtain ⟨hfine,hapart,hseen⟩ := ih (.object hn hv) hr
      have hno {g : RecordField σ} (hg : g ∈ fields) (hng : Names (k, t) g) : False := by
        have hname : name = g.name := String.toList_injective (Spelt.unique hk hng)
        simpa [hname] using List.find?_eq_none.1 hf g hg
      refine ⟨List.forall_mem_cons.2 ⟨⟨ht,name,hk,fun g hg h => ?_⟩,hfine⟩,
        List.pairwise_cons.2 ⟨fun n _ g hg hng => (hno hg hng).elim,hapart⟩,
        List.forall_mem_cons.2 ⟨fun g hg hng => (hno hg hng).elim,hseen⟩⟩
      subst h
      exact (hno hg hk).elim
  | @field seen k t ms a r f set hk hf hs ht h ih =>
    cases hg with
    | object hn hv =>
      obtain ⟨-,hn⟩ := List.forall_mem_cons.1 hn
      obtain ⟨hgt,hv⟩ := List.forall_mem_cons.1 hv
      obtain ⟨hfine,hapart,hseen⟩ := ih (.object hn hv) hr
      have hff : f ∈ fields := List.mem_of_find?_eq_some hf
      have heq {g : RecordField σ} (hg : g ∈ fields) (hng : Names (k, t) g) : f = g :=
        hl.eq_of_names (m := (k, t)) hff hg hk hng
      refine ⟨List.forall_mem_cons.2 ⟨⟨hgt,f.name,hk,fun g hg h => ?_⟩,hfine⟩,
        List.pairwise_cons.2 ⟨fun n hn g hg hng hng' => ?_,hapart⟩,
        List.forall_mem_cons.2 ⟨fun g hg hng => ?_,fun n hn g hg hng h => ?_⟩⟩
      · obtain rfl := hl.eq_of_name hg hff h
        exact ⟨set,ht⟩
      · obtain rfl := heq hg hng
        exact hseen n hn f hff hng' List.mem_cons_self
      · obtain rfl := heq hg hng
        exact hs
      · exact hseen n hn g hg hng (List.mem_cons_of_mem _ h)

theorem fine_of_fills {fs : List (RecordField σ)} {ts : List Tree} {r : Except Fault σ}
    (h : Supplies fs ts a r) {b : σ} (hr : r = .ok b) : ts.length ≤ fs.length ∧
      ∀ (i : Nat) (f : RecordField σ) (t : Tree), fs[i]? = some f → ts[i]? = some t →
        t.Grammatical ∧ ∃ set, Takes f.read t set := by
  induction h with
  | nil => exact ⟨Nat.zero_le _,nofun⟩
  | fails => cases hr
  | @cons f fs t ts a r set ht hg h ih =>
    obtain ⟨hl,hi⟩ := ih hr
    refine ⟨Nat.succ_le_succ hl,fun i g u hgf hu => ?_⟩
    cases i with
    | zero =>
      obtain rfl : f = g := Option.some.inj hgf
      obtain rfl : t = u := Option.some.inj hu
      exact ⟨hg,set,ht⟩
    | succ i => exact hi i g u hgf hu

theorem readable_of_comes (hl : Lawful fields) {u : Tree} {b : σ} (hg : u.Grammatical)
    (h : Comes fields a u (.ok b)) : Readable fields u := by
  cases h with
  | object h =>
    obtain ⟨hf,ha,-⟩ := fine_of_runs hl h hg rfl
    exact .object hf ha
  | array h =>
    obtain ⟨hlen,ht⟩ := fine_of_fills h rfl
    exact .array hlen ht

/-! The same record -/

theorem Comes.unique {u : Tree} {r r' : Except Fault σ} (h : Comes fields a u r)
    (h' : Comes fields a u r') : r = r' := by
  have hs := spaced_flatten u.tokens
  have he := (record_of_comes h hs).symm.trans (record_of_comes h' hs)
  cases r <;> cases r' <;> simp_all [Except.map]

theorem Meaning.commute (hl : Lawful fields) {u : Tree} (h : Meaning fields u as) :
    ∀ x ∈ as, ∀ y ∈ as, ∀ a, x.2 (y.2 a) = y.2 (x.2 a) := by
  intro x hx y hy a
  obtain ⟨hxf,t,-,ht⟩ := h.sound x hx
  obtain ⟨hyf,t',-,ht'⟩ := h.sound y hy
  by_cases hn : x.1.name = y.1.name
  · have he := List.inj_on_of_nodup_map h.once hx hy (hl.eq_of_name hxf hyf hn)
    rw [he]
  · exact hl.commute x.1 hxf y.1 hyf hn t t' x.2 y.2 ht ht' a

open Classical in
noncomputable def effective (a : σ) (as : List (RecordField σ × (σ → σ))) :
    List (RecordField σ × (σ → σ)) := as.filter fun x => decide (x.2 a ≠ a)

theorem assign_effective (hc : ∀ x ∈ as, ∀ y ∈ as, ∀ a, x.2 (y.2 a) = y.2 (x.2 a)) {c : σ}
    (h : ∀ x ∈ as, x.2 a = a → x.2 c = c) : assign (effective a as) c = assign as c := by
  induction as generalizing c with
  | nil => rfl
  | cons x as ih =>
    have hc' := fun y hy z hz => hc y (List.mem_cons_of_mem x hy) z (List.mem_cons_of_mem x hz)
    by_cases hx : x.2 a = a
    · have he : effective a (x :: as) = effective a as := by simp [effective,hx]
      rw [he,ih hc' fun y hy => h y (List.mem_cons_of_mem x hy)]
      change _ = assign as (x.2 c)
      rw [h x List.mem_cons_self hx]
    · have he : effective a (x :: as) = x :: effective a as := by simp [effective,hx]
      rw [he]
      refine ih hc' fun y hy hya => ?_
      rw [hc y (List.mem_cons_of_mem x hy) x List.mem_cons_self,
        h y (List.mem_cons_of_mem x hy) hya]

def Same (fields : List (RecordField σ)) (a : σ) (u v : Tree) : Prop :=
  ∀ (f : RecordField σ) (set : σ → σ), set a ≠ a →
    ((∃ t, Gives fields u f t ∧ Takes f.read t set) ↔ ∃ t, Gives fields v f t ∧ Takes f.read t set)

theorem mem_effective {u v : Tree} (hs : Same fields a u v) (hu : Meaning fields u as)
    (hv : Meaning fields v bs) {x : RecordField σ × (σ → σ)} (hx : x ∈ effective a as) :
    x ∈ effective a bs := by
  simp only [effective,List.mem_filter,decide_eq_true_eq] at hx ⊢
  obtain ⟨hx,hne⟩ := hx
  obtain ⟨t,hg,ht⟩ := (hs x.1 x.2 hne).1 (hu.sound x hx).2
  obtain ⟨set,hset,hm⟩ := hv.complete x.1 t hg
  obtain rfl := hset.unique ht
  exact ⟨hm,hne⟩

theorem assign_eq_of_same (hl : Lawful fields) {u v : Tree} (hs : Same fields a u v)
    (hu : Meaning fields u as) (hv : Meaning fields v bs) : assign as a = assign bs a := by
  have hp : (effective a as).Perm (effective a bs) := by
    have hna : (effective a as).Nodup := hu.once.of_map.filter _
    have hnb : (effective a bs).Nodup := hv.once.of_map.filter _
    rw [List.perm_ext_iff_of_nodup hna hnb]
    intro x
    exact ⟨mem_effective hs hu hv,mem_effective (fun f set h => (hs f set h).symm) hv hu⟩
  rw [← assign_effective (hu.commute hl) fun _ _ h => h,
    ← assign_effective (hv.commute hl) fun _ _ h => h]
  refine hp.foldl_eq' (fun x hx y hy c => ?_) a
  exact hu.commute hl y (List.mem_of_mem_filter hy) x (List.mem_of_mem_filter hx) c

/-- A tree that can be read, and gives the same values, is taken for the same record. -/
theorem comes_of_same (hl : Lawful fields) {u v : Tree} {b : σ} (hg : u.Grammatical)
    (h : Comes fields a u (.ok b)) (hs : Same fields a u v) (hv : Readable fields v) :
    Comes fields a v (.ok b) := by
  obtain ⟨as,ha,hma⟩ := comes_of_readable hl (readable_of_comes hl hg h) a
  obtain ⟨bs,hb,hmb⟩ := comes_of_readable hl hv a
  rw [h.unique ha,assign_eq_of_same hl hs hma hmb]
  exact hb

/-! Records that cannot be read -/

theorem runs_of_seen (hl : Lawful fields) (hf : ∀ m ∈ ms, Fine fields m)
    (h : ¬ Unseen fields seen ms) : Runs fields seen ms a (.error .content) := by
  induction ms generalizing seen a with
  | nil => exact absurd nofun h
  | cons m ms ih =>
    obtain ⟨hm,hf⟩ := List.forall_mem_cons.1 hf
    obtain ⟨f,hff,hn,set,ht⟩ | ⟨name,hk,hnone,hno⟩ := hm.cases
    · by_cases hs : f.name ∈ seen
      · exact .again hn (hl.find? hff) hs
      · refine .field hn (hl.find? hff) hs ht (ih hf fun hu => h ?_)
        refine List.forall_mem_cons.2 ⟨fun g hg hng => ?_,fun n hn g hg hng hgs => ?_⟩
        · obtain rfl := hl.eq_of_names hff hg hn hng
          exact hs
        · exact hu n hn g hg hng (List.mem_cons_of_mem _ hgs)
    · refine .other hk hnone hm.1 (ih hf fun hu => h ?_)
      exact List.forall_mem_cons.2 ⟨fun g hg hng => absurd hng (hno g hg),hu⟩

/-- A field that is named twice is a fault, wherever its members stand. -/
theorem runs_of_twice (hl : Lawful fields) (hf : ∀ m ∈ ms, Fine fields m)
    (h : ¬ ms.Pairwise (Apart fields)) : Runs fields seen ms a (.error .content) := by
  induction ms generalizing seen a with
  | nil => exact absurd .nil h
  | cons m ms ih =>
    obtain ⟨hm,hf⟩ := List.forall_mem_cons.1 hf
    obtain ⟨f,hff,hn,set,ht⟩ | ⟨name,hk,hnone,hno⟩ := hm.cases
    · by_cases hs : f.name ∈ seen
      · exact .again hn (hl.find? hff) hs
      · by_cases ha : ms.Pairwise (Apart fields)
        · refine .field hn (hl.find? hff) hs ht (runs_of_seen hl hf fun hu => h ?_)
          refine List.pairwise_cons.2 ⟨fun n hnm g hg hng hng' => ?_,ha⟩
          obtain rfl := hl.eq_of_names hff hg hn hng
          exact hu n hnm f hff hng' List.mem_cons_self
        · exact .field hn (hl.find? hff) hs ht (ih hf ha)
    · refine .other hk hnone hm.1 (ih hf fun ha => h ?_)
      exact List.pairwise_cons.2 ⟨fun n _ g hg hng => absurd hng (hno g hg),ha⟩

theorem runs_of_rejected (hl : Lawful fields) {k : List Char} {t : Tree} {f : RecordField σ}
    {xs ys : List (List Char × Tree)} (hf : ∀ m ∈ xs, Fine fields m)
    (ha : (xs ++ [(k, t)]).Pairwise (Apart fields)) (hs : Unseen fields seen (xs ++ [(k, t)]))
    (hff : f ∈ fields) (hk : Spelt k f.name.toList) (ht : Rejects f.read t) :
    Runs fields seen (xs ++ (k, t) :: ys) a (.error .content) := by
  induction xs generalizing seen a with
  | nil => exact .fails hk (hl.find? hff) (hs (k, t) List.mem_cons_self f hff hk) ht
  | cons m xs ih =>
    obtain ⟨hm,hf⟩ := List.forall_mem_cons.1 hf
    obtain ⟨ham,ha⟩ := List.pairwise_cons.1 ha
    obtain ⟨hsm,hs⟩ := List.forall_mem_cons.1 hs
    obtain ⟨g,hg,hn,set,hset⟩ | ⟨name,hname,hnone,-⟩ := hm.cases
    · refine .field hn (hl.find? hg) (hsm g hg hn) hset (ih hf ha fun n hnm e he hne => ?_)
      rw [List.mem_cons,not_or]
      refine ⟨fun h => ?_,hs n hnm e he hne⟩
      obtain rfl := hl.eq_of_name he hg h
      exact ham n hnm e hg hn hne
    · exact .other hname hnone hm.1 (ih hf ha hs)

theorem fills_of_rejected {fs : List (RecordField σ)} {ts us : List Tree} {t : Tree}
    {f : RecordField σ} (hts : ∀ (i : Nat) (g : RecordField σ) (u : Tree), fs[i]? = some g →
      ts[i]? = some u → u.Grammatical ∧ ∃ set, Takes g.read u set)
    (hf : fs[ts.length]? = some f) (hg : t.Grammatical) (ht : Rejects f.read t) :
    Supplies fs (ts ++ t :: us) a (.error .content) := by
  induction ts generalizing fs a with
  | nil =>
    cases fs with
    | nil => cases hf
    | cons g fs =>
      obtain rfl : g = f := Option.some.inj hf
      exact .fails ht hg
  | cons u ts ih =>
    cases fs with
    | nil => cases hf
    | cons g fs =>
      obtain ⟨hgu,set,hu⟩ := hts 0 g u rfl rfl
      exact .cons hu hgu (ih (fun i e v he hv => hts (i + 1) e v he hv) hf)

end Json
end EventLoop
