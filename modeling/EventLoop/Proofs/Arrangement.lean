import EventLoop.Lookup
import Mathlib.Data.List.Nodup
import Mathlib.Data.List.Sort

/-! The order of the addresses that a lookup comes to. Sorting by family puts one block behind the
other and changes nothing inside of a block, and of equal addresses the first one stays. -/
namespace EventLoop

open Query (arrange distinct)

def Snapshot.addresses (s : Snapshot) : List Address := s.entries.map (·.endpoint.address)

def Snapshot.exchange (v6 : Bool) (s : Snapshot) : Snapshot :=
  ⟨s.entries.filter (·.endpoint.address.isV6 ≠ v6) ++
    s.entries.filter (·.endpoint.address.isV6 = v6)⟩

def Query.Report.exchange (v6 : Bool) (r : Query.Report) : Query.Report :=
  { r with outcome := r.outcome.map fun (d, found) => (d, found.map (Snapshot.exchange v6)) }

namespace Query

section

variable {α : Type} {le : α → α → Bool} {p : α → Bool}

theorem filter_mergeSort (trans : ∀ a b c, le a b = true → le b c = true → le a c = true)
    (total : ∀ a b, (le a b || le b a) = true) (hp : ∀ a b, p a = true → p b = true → le a b = true)
    (l : List α) : (l.mergeSort le).filter p = l.filter p := by
  have hs : (l.filter p).Sublist (l.mergeSort le) := by
    refine List.sublist_mergeSort trans total ?_ List.filter_sublist
    exact List.pairwise_of_forall_mem_list fun a ha b hb =>
      hp a b (List.mem_filter.1 ha).2 (List.mem_filter.1 hb).2
  have hf : (l.filter p).Sublist ((l.mergeSort le).filter p) := by
    simpa using hs.filter p
  exact (hf.eq_of_length ((List.mergeSort_perm l le).filter p).length_eq.symm).symm

theorem eq_blocks {l : List α} (h : l.Pairwise fun a b => p b = true → p a = true) :
    l = l.filter p ++ l.filter (!p ·) := by
  induction l with
  | nil => rfl
  | cons a l ih =>
    obtain ⟨ha,hl⟩ := List.pairwise_cons.1 h
    by_cases hp : p a = true
    · simpa [hp] using ih hl
    · have hn : l.filter p = [] := by
        rw [List.filter_eq_nil_iff]
        exact fun b hb hpb => hp (ha b hb hpb)
      have hl := ih hl
      rw [hn,List.nil_append] at hl
      simpa [hp,hn] using hl

end

@[simp] theorem mem_distinct {ip : Address} {ips : List Address} :
    ip ∈ distinct ips ↔ ip ∈ ips := by
  induction ips with
  | nil => rfl
  | cons x ips ih =>
    by_cases h : ip = x <;> simp [distinct,ih,h]

theorem nodup_distinct (ips : List Address) : (distinct ips).Nodup := by
  induction ips with
  | nil => exact List.nodup_nil
  | cons x ips ih => exact List.nodup_cons.2 ⟨by simp,ih.filter _⟩

theorem pairwise_distinct (ips : List Address) :
    (distinct ips).Pairwise fun x y => ips.idxOf x < ips.idxOf y := by
  induction ips with
  | nil => exact List.Pairwise.nil
  | cons ip ips ih =>
    refine List.pairwise_cons.2 ⟨?_,?_⟩
    · intro y hy
      have hn : y ≠ ip := by simpa using (List.mem_filter.1 hy).2
      simp [List.idxOf_cons_ne ips hn.symm]
    · rw [List.pairwise_filter]
      refine ih.imp ?_
      intro x y h hx hy
      have hx : ip ≠ x := fun e => by simp [e] at hx
      have hy : ip ≠ y := fun e => by simp [e] at hy
      rw [List.idxOf_cons_ne ips hx,List.idxOf_cons_ne ips hy]
      omega

theorem distinct_filter (p : Address → Bool) (ips : List Address) :
    distinct (ips.filter p) = (distinct ips).filter p := by
  induction ips with
  | nil => rfl
  | cons ip ips ih =>
    by_cases hp : p ip = true
    · simp only [List.filter_cons_of_pos hp,distinct,ih,List.filter_filter,Bool.and_comm]
    · have hs : ((distinct ips).filter (· ≠ ip)).filter p = (distinct ips).filter p := by
        rw [List.filter_filter]
        apply List.filter_congr
        intro x _
        by_cases hx : x = ip <;> simp [hx,hp]
      rw [List.filter_cons_of_neg hp,ih,distinct,List.filter_cons_of_neg hp,hs]

theorem distinct_append {ips js : List Address} (h : ∀ x ∈ ips, x ∉ js) :
    distinct (ips ++ js) = distinct ips ++ distinct js := by
  induction ips with
  | nil => rfl
  | cons ip ips ih =>
    have hj : (distinct js).filter (· ≠ ip) = distinct js := by
      rw [List.filter_eq_self]
      intro x hx
      have hn := h ip List.mem_cons_self
      have hx := mem_distinct.1 hx
      simpa using fun e : x = ip => hn (e ▸ hx)
    simp only [List.cons_append,distinct,ih fun x hx => h x (List.mem_cons_of_mem ip hx),
      List.filter_append,hj]

theorem arrange_eq (v6 : Bool) (ips : List Address) : arrange v6 ips =
    (distinct ips).filter (·.isV6 = v6) ++ (distinct ips).filter (·.isV6 ≠ v6) := by
  let le : Address → Address → Bool := fun x y => x.isV6 = v6 || y.isV6 != v6
  have trans (a b c : Address) : le a b = true → le b c = true → le a c = true := by
    simp only [le]
    cases a.isV6 <;> cases b.isV6 <;> cases c.isV6 <;> cases v6 <;> decide
  have total (a b : Address) : (le a b || le b a) = true := by
    simp only [le]
    cases a.isV6 <;> cases b.isV6 <;> cases v6 <;> decide
  have hb : (ips.mergeSort le).Pairwise fun x y =>
      decide (y.isV6 = v6) = true → decide (x.isV6 = v6) = true := by
    refine (List.pairwise_mergeSort trans total ips).imp ?_
    intro x y
    simp only [le]
    cases x.isV6 <;> cases y.isV6 <;> cases v6 <;> decide
  have hf : (ips.mergeSort le).filter (·.isV6 = v6) = ips.filter (·.isV6 = v6) :=
    filter_mergeSort trans total (fun a b ha _ => by simpa [le] using Or.inl ha) ips
  have hn : (ips.mergeSort le).filter (fun x => !decide (x.isV6 = v6)) = ips.filter (·.isV6 ≠ v6) := by
    have h := filter_mergeSort (p := fun x => !decide (x.isV6 = v6)) trans total
      (fun a b _ hb => by simpa [le] using Or.inr hb) ips
    simpa using h
  have hd : ∀ x ∈ ips.filter (·.isV6 = v6), x ∉ ips.filter (·.isV6 ≠ v6) := by
    intro x hx hx'
    simp_all
  calc arrange v6 ips = distinct (ips.mergeSort le) := rfl
    _ = distinct (ips.filter (·.isV6 = v6) ++ ips.filter (·.isV6 ≠ v6)) := by
      rw [eq_blocks hb,hf,hn]
    _ = _ := by rw [distinct_append hd,distinct_filter,distinct_filter]

example : arrange true [.v4 ⟨1,1,1,1⟩, .v6 V6.loopback, .v4 ⟨1,1,1,1⟩, .v4 ⟨2,2,2,2⟩] =
    [.v6 V6.loopback, .v4 ⟨1,1,1,1⟩, .v4 ⟨2,2,2,2⟩] := by
  rw [arrange_eq]
  decide

theorem mem_arrange {v6 : Bool} {ips : List Address} {ip : Address} :
    ip ∈ arrange v6 ips ↔ ip ∈ ips := by
  rw [arrange_eq]
  by_cases h : ip.isV6 = v6 <;> simp [h]

theorem nodup_arrange (v6 : Bool) (ips : List Address) : (arrange v6 ips).Nodup := by
  have hd := nodup_distinct ips
  rw [arrange_eq,List.nodup_append]
  refine ⟨hd.filter _,hd.filter _,?_⟩
  rintro x hx y hy rfl
  simp_all

theorem family_arrange (v6 : Bool) (ips : List Address) :
    (arrange v6 ips).Pairwise fun x y => y.isV6 = v6 → x.isV6 = v6 := by
  rw [arrange_eq,List.pairwise_append]
  refine ⟨?_,?_,?_⟩
  · exact List.pairwise_of_forall_mem_list fun x hx _ _ _ => of_decide_eq_true (List.mem_filter.1 hx).2
  · exact List.pairwise_of_forall_mem_list fun _ _ y hy h =>
      absurd h (of_decide_eq_true (List.mem_filter.1 hy).2)
  · exact fun x hx _ _ _ => of_decide_eq_true (List.mem_filter.1 hx).2

theorem order_arrange (v6 : Bool) (ips : List Address) : (arrange v6 ips).Pairwise
    fun x y => x.isV6 = y.isV6 → ips.idxOf x < ips.idxOf y := by
  have hd := (pairwise_distinct ips).imp (S := fun x y => x.isV6 = y.isV6 →
    ips.idxOf x < ips.idxOf y) fun h _ => h
  rw [arrange_eq,List.pairwise_append]
  refine ⟨hd.filter _,hd.filter _,?_⟩
  intro x hx y hy h
  have hx : x.isV6 = v6 := by simpa using (List.mem_filter.1 hx).2
  have hy : y.isV6 ≠ v6 := by simpa using (List.mem_filter.1 hy).2
  exact absurd (h ▸ hx) hy

/-- How the entries of a snapshot come from the addresses that were found. -/
structure Arranged (q : Query) (port : UInt16) (v6 : Bool) (ips : List Address)
    (found : Snapshot) : Prop where
  nonempty : found.entries ≠ []
  mem : ∀ ip, ip ∈ found.addresses ↔ ip ∈ ips
  nodup : found.addresses.Nodup
  family : found.addresses.Pairwise fun x y => y.isV6 = v6 → x.isV6 = v6
  order : found.addresses.Pairwise fun x y => x.isV6 = y.isV6 → ips.idxOf x < ips.idxOf y
  named : ∀ e ∈ found.entries, e.endpoint.port = port ∧ e.host = q.host ∧ e.service = q.service

/-- The addresses of a host, and the time it takes to get them. -/
inductive Obtains (settings : LookupSettings) (directory : Directory) (q : Query) :
    Span → List Address → Prop
  | everywhere (hh : q.host = "") (hp : q.hints.passive = true) :
      Obtains settings directory q 0 [.v4 V4.unspecified, .v6 V6.unspecified]
  | here (hh : q.host = "") (hp : q.hints.passive = false) :
      Obtains settings directory q 0 [.v4 V4.loopback, .v6 V6.loopback]
  | literal (ip : Address) (hh : q.host ≠ "") (hl : literal? q.host = some ip) :
      Obtains settings directory q 0 [ip]
  | directory (d : Span) (ips : List Address) (hh : q.host ≠ "") (hl : literal? q.host = none)
      (hn : q.hints.numericHost = false) (ha : directory q.host = .after d (.ok ips))
      (ht : ∀ l, limit settings = some l → d ≤ l) : Obtains settings directory q d ips

variable {settings : LookupSettings} {directory : Directory} {q : Query} {port : UInt16} {d : Span}
  {ips : List Address}

theorem outcome_of_obtains (hp : Service.port? q.service q.hints.numericService = some port)
    (h : q.Obtains settings directory d ips) : (q.run settings directory).outcome =
      some (d, q.entries settings.preferV6 port ips) := by
  cases h with
  | everywhere hh hh' | here hh hh' => simp [run,hp,ownAddresses?,hh,hh',Except.bind]
  | literal ip hh hl => simp [run,hp,ownAddresses?,hh,hl,Except.bind]
  | directory d ips hh hl hn ha ht =>
    have hw : await q.host (limit settings) (directory q.host) = some (d, .ok ips) := by
      rw [ha]
      unfold await
      cases hm : limit settings with
      | none => rfl
      | some l => exact if_pos (ht l hm)
    simp [run,hp,ownAddresses?,hh,hl,hn,hw,Except.bind]

theorem obtains_of_await (hh : q.host ≠ "") (hl : literal? q.host = none)
    (hn : q.hints.numericHost = false)
    (h : await q.host (limit settings) (directory q.host) = some (d, .ok ips)) :
    q.Obtains settings directory d ips := by
  cases ha : directory q.host with
  | never =>
    rw [ha] at h
    cases hm : limit settings <;> simp [await,hm] at h
  | after e result =>
    rw [ha] at h
    cases hm : limit settings with
    | none =>
      obtain ⟨rfl,rfl⟩ : e = d ∧ result = .ok ips := by simpa [await,hm] using h
      exact .directory e ips hh hl hn ha (by simp [hm])
    | some l =>
      by_cases hd : e ≤ l
      · obtain ⟨rfl,rfl⟩ : e = d ∧ result = .ok ips := by simpa [await,hm,hd] using h
        exact .directory e ips hh hl hn ha (by simpa [hm] using hd)
      · simp [await,hm,hd] at h

/-- A lookup that finds something had addresses for the host and a port. -/
theorem obtains_of_outcome {found : Snapshot}
    (h : (q.run settings directory).outcome = some (d, .ok found)) :
    ∃ port ips, Service.port? q.service q.hints.numericService = some port ∧
      q.Obtains settings directory d ips ∧ q.entries settings.preferV6 port ips = .ok found := by
  cases hp : Service.port? q.service q.hints.numericService with
  | none => simp [run,hp] at h
  | some port =>
    refine ⟨port,?_⟩
    by_cases hh : q.host = ""
    · by_cases hpas : q.hints.passive = true
      · have ho := @Obtains.everywhere settings directory q hh hpas
        rw [outcome_of_obtains hp ho] at h
        obtain ⟨rfl,he⟩ := Prod.mk.inj (Option.some.inj h)
        exact ⟨_,rfl,ho,he⟩
      · have ho := @Obtains.here settings directory q hh (by simpa using hpas)
        rw [outcome_of_obtains hp ho] at h
        obtain ⟨rfl,he⟩ := Prod.mk.inj (Option.some.inj h)
        exact ⟨_,rfl,ho,he⟩
    · cases hl : literal? q.host with
      | some ip =>
        have ho := @Obtains.literal settings directory q ip hh hl
        rw [outcome_of_obtains hp ho] at h
        obtain ⟨rfl,he⟩ := Prod.mk.inj (Option.some.inj h)
        exact ⟨_,rfl,ho,he⟩
      | none =>
        cases hn : q.hints.numericHost with
        | true => simp [run,hp,ownAddresses?,hh,hl,hn,Except.bind] at h
        | false =>
          simp only [run,hp,ownAddresses?,hh,hl,hn,if_false,Bool.false_eq_true,
            Option.map_eq_some_iff] at h
          obtain ⟨⟨e,result⟩,hw,h⟩ := h
          obtain ⟨rfl,he⟩ := Prod.mk.inj h
          cases result with
          | error why => cases he
          | ok ips => exact ⟨ips,rfl,obtains_of_await hh hl hn hw,he⟩

@[simp] theorem addresses_entered (port : UInt16) (host service : String) (ips : List Address) :
    Snapshot.addresses ⟨ips.map fun ip => ⟨⟨ip, port⟩, host, service⟩⟩ = ips := by
  simp [Snapshot.addresses,Function.comp_def]

theorem arranged (q : Query) (port : UInt16) (v6 : Bool) {ips : List Address} (h : ips ≠ []) :
    Arranged q port v6 ips ⟨(arrange v6 ips).map fun ip => ⟨⟨ip, port⟩, q.host, q.service⟩⟩ where
  nonempty he := by
    obtain ⟨ip,hip⟩ := List.exists_mem_of_ne_nil ips h
    have ha : arrange v6 ips = [] := List.map_eq_nil_iff.1 he
    have hip := (@mem_arrange v6 ips ip).2 hip
    rw [ha] at hip
    exact List.not_mem_nil hip
  mem ip := by rw [addresses_entered,mem_arrange]
  nodup := by simpa using nodup_arrange v6 ips
  family := by simpa using family_arrange v6 ips
  order := by simpa using order_arrange v6 ips
  named e he := by
    obtain ⟨ip,_,rfl⟩ := List.mem_map.1 he
    exact ⟨rfl,rfl,rfl⟩

theorem arrange_not (v6 : Bool) (ips : List Address) : arrange (!v6) ips =
    (arrange v6 ips).filter (·.isV6 ≠ v6) ++ (arrange v6 ips).filter (·.isV6 = v6) := by
  rw [arrange_eq,arrange_eq]
  simp only [List.filter_append,List.filter_filter]
  cases v6 <;> simp

theorem entries_not (q : Query) (v6 : Bool) (port : UInt16) (ips : List Address) :
    q.entries (!v6) port ips = (q.entries v6 port ips).map (Snapshot.exchange v6) := by
  unfold entries
  split
  · rfl
  · simp [Except.map,Snapshot.exchange,arrange_not,List.filter_map,Function.comp_def]

/-- What a lookup comes to by the addresses that are obtained for its host. -/
structure Arranges (settings : LookupSettings) (directory : Directory) (q : Query) : Prop where
  empty : ∀ port d, Service.port? q.service q.hints.numericService = some port →
    q.Obtains settings directory d [] →
    (q.run settings directory).outcome = some (d, .error (.hostNotFound q.host))
  found : ∀ port d ips, Service.port? q.service q.hints.numericService = some port →
    q.Obtains settings directory d ips → ips ≠ [] →
    ∃ s, (q.run settings directory).outcome = some (d, .ok s) ∧
      Arranged q port settings.preferV6 ips s
  /-- Nothing else makes a lookup succeed. -/
  obtained : ∀ d s, (q.run settings directory).outcome = some (d, .ok s) →
    ∃ port ips, Service.port? q.service q.hints.numericService = some port ∧
      q.Obtains settings directory d ips ∧ Arranged q port settings.preferV6 ips s
  flipped : q.run { settings with preferV6 := !settings.preferV6 } directory =
    (q.run settings directory).exchange settings.preferV6

theorem run_not (settings : LookupSettings) (directory : Directory) (q : Query) :
    q.run { settings with preferV6 := !settings.preferV6 } directory =
      (q.run settings directory).exchange settings.preferV6 := by
  have hf (found : Except Failure (List Address)) (port : UInt16) :
      found.bind (q.entries (!settings.preferV6) port) =
        (found.bind (q.entries settings.preferV6 port)).map
          (Snapshot.exchange settings.preferV6) := by
    cases found with
    | error why => rfl
    | ok ips => exact entries_not q settings.preferV6 port ips
  have hl : limit { settings with preferV6 := !settings.preferV6 } = limit settings := rfl
  unfold run Report.exchange
  cases Service.port? q.service q.hints.numericService with
  | none => rfl
  | some port =>
    cases q.ownAddresses? with
    | some own => simp [hf]
    | none => simp [hf,hl,Function.comp_def]

theorem arranges_run (settings : LookupSettings) (directory : Directory) (q : Query) :
    Arranges settings directory q where
  empty port d hp h := by
    rw [outcome_of_obtains hp h]
    rfl
  found port d ips hp h hne := by
    refine ⟨_,?_,arranged q port settings.preferV6 hne⟩
    rw [outcome_of_obtains hp h,entries,if_neg hne]
  obtained d s h := by
    obtain ⟨port,ips,hp,ho,he⟩ := obtains_of_outcome h
    refine ⟨port,ips,hp,ho,?_⟩
    by_cases hne : ips = []
    · simp [entries,hne] at he
    · rw [entries,if_neg hne] at he
      exact Except.ok.inj he ▸ arranged q port settings.preferV6 hne
  flipped := run_not settings directory q

end Query
end EventLoop
