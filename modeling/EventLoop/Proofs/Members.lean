import EventLoop.Proofs.Taking

/-! Records, whose fields are read one after the other. What a record is taken for depends on
nothing but the fields that its tree gives and what those are taken for.
Main statements: `takes_record`, `proper_record`. -/
namespace EventLoop
namespace Json

variable {σ : Type} {fields : List (RecordField σ)} {cs mid rest : List Char}

/-! Members -/

/-- What comes of reading the members of an object behind its opening bracket, with the fields
that were seen before. -/
inductive Runs (fields : List (RecordField σ)) :
    List String → List (List Char × Tree) → σ → Except Fault σ → Prop
  | nil (seen : List String) (a : σ) : Runs fields seen [] a (.ok a)
  | other {seen : List String} {k : List Char} {t : Tree} {ms : List (List Char × Tree)} {a : σ}
      {r : Except Fault σ} {name : String} (hk : Spelt k name.toList)
      (hf : fields.find? (·.name = name) = none) (ht : t.Grammatical) (h : Runs fields seen ms a r) :
      Runs fields seen ((k, t) :: ms) a r
  | field {seen : List String} {k : List Char} {t : Tree} {ms : List (List Char × Tree)} {a : σ}
      {r : Except Fault σ} {f : RecordField σ} {set : σ → σ} (hk : Spelt k f.name.toList)
      (hf : fields.find? (·.name = f.name) = some f) (hs : f.name ∉ seen) (ht : Takes f.read t set)
      (h : Runs fields (f.name :: seen) ms (set a) r) : Runs fields seen ((k, t) :: ms) a r
  | again {seen : List String} {k : List Char} {t : Tree} {ms : List (List Char × Tree)} {a : σ}
      {f : RecordField σ} (hk : Spelt k f.name.toList)
      (hf : fields.find? (·.name = f.name) = some f) (hs : f.name ∈ seen) :
      Runs fields seen ((k, t) :: ms) a (.error .content)
  | fails {seen : List String} {k : List Char} {t : Tree} {ms : List (List Char × Tree)} {a : σ}
      {f : RecordField σ} (hk : Spelt k f.name.toList)
      (hf : fields.find? (·.name = f.name) = some f) (hs : f.name ∉ seen) (ht : Rejects f.read t) :
      Runs fields seen ((k, t) :: ms) a (.error .content)

theorem memberName_row {first : Bool} {k : List Char} {name : String} {xs : List (List Char)}
    (hk : Spelt k name.toList)
    (h : Spaced ((if first then [] else [[',']]) ++ (quoted k :: xs)) cs rest) :
    ∃ mid, memberName first cs = .ok (some name, mid) ∧ Spaced xs mid rest := by
  cases first with
  | true =>
    obtain ⟨mid,hm,hx⟩ := (spaced_cons (solid_quoted k)).1 h
    rw [quoted_append] at hm
    have hq : string (k ++ '"' :: mid) = .ok (name.toList, mid) := string_eq_ok.2 ⟨k,hk,rfl⟩
    exact ⟨mid,by simp [memberName,hm,hq,Except.map],hx⟩
  | false =>
    obtain ⟨ds,hd,h⟩ := (spaced_mark rfl).1 h
    obtain ⟨mid,hm,hx⟩ := (spaced_cons (solid_quoted k)).1 h
    rw [quoted_append] at hm
    have hq : string (k ++ '"' :: mid) = .ok (name.toList, mid) := string_eq_ok.2 ⟨k,hk,rfl⟩
    exact ⟨mid,by simp [memberName,hd,hm,hq,Except.map],hx⟩

theorem of_string {ds : List Char} {o : Option String}
    (h : (string ds).map (fun (xs, cs) => (some (String.ofList xs), cs)) = .ok (o, mid)) :
    ∃ k xs, Spelt k xs ∧ o = some (String.ofList xs) ∧ '"' :: ds = quoted k ++ mid := by
  obtain ⟨⟨xs,es⟩,hs,he⟩ := map_eq_ok.1 h
  obtain ⟨hn,rfl⟩ := Prod.mk.inj he
  obtain ⟨k,hk,rfl⟩ := string_eq_ok.1 hs
  exact ⟨k,xs,hk,hn.symm,by rw [quoted_append]⟩

theorem of_memberName {first : Bool} {name : String}
    (h : memberName first cs = .ok (some name, mid)) : ∃ k, Spelt k name.toList ∧
      Spaced ((if first then [] else [[',']]) ++ [quoted k]) cs mid := by
  unfold memberName at h
  split at h
  · cases h
  next c ds hs =>
  split at h
  · cases h
  split at h
  · next hc =>
    obtain ⟨rfl,rfl⟩ := hc
    split at h
    · cases h
    · next es he =>
      obtain ⟨k,xs,hk,hn,hq⟩ := of_string h
      obtain rfl := Option.some.inj hn
      rw [← String.toList_ofList (l := xs)] at hk
      exact ⟨k,hk,(spaced_mark rfl).2 ⟨ds,hs,(spaced_cons (solid_quoted k)).2 ⟨mid,he.trans hq,rfl⟩⟩⟩
    · cases h
  split at h
  · next hc =>
    obtain ⟨rfl,rfl⟩ := hc
    obtain ⟨k,xs,hk,hn,hq⟩ := of_string h
    obtain rfl := Option.some.inj hn
    rw [← String.toList_ofList (l := xs)] at hk
    exact ⟨k,hk,(spaced_cons (solid_quoted k)).2 ⟨mid,hs.trans hq,rfl⟩⟩
  · cases h

theorem memberName_eq_none {first : Bool} :
    memberName first cs = .ok (none, rest) ↔ Spaced [['}']] cs rest := by
  rw [spaced_mark rfl]
  constructor
  · intro h
    unfold memberName at h
    split at h
    · cases h
    next c ds hs =>
    split at h
    · next hc =>
      obtain ⟨-,rfl⟩ := Prod.mk.inj (Except.ok.inj h)
      exact ⟨_,hc ▸ hs,rfl⟩
    split at h
    · split at h
      · cases h
      · obtain ⟨_,_,-,hn,-⟩ := of_string h
        cases hn
      · cases h
    split at h
    · obtain ⟨_,_,-,hn,-⟩ := of_string h
      cases hn
    · cases h
  · rintro ⟨mid,hm,rfl⟩
    simp [memberName,hm]

theorem row_cons (first : Bool) (x : List (List Char)) (xs : List (List (List Char))) :
    row first (x :: xs) = (if first then [] else [[',']]) ++ (x ++ more xs) := by
  cases first <;> rfl

variable {k : List Char} {t : Tree} {ms : List (List Char × Tree)} {name : String}

theorem member_row {first : Bool} (hk : Spelt k name.toList)
    (h : Spaced (row first (((k, t) :: ms).map member) ++ [['}']]) cs rest) :
    ∃ c1 c2 c3, memberName first cs = .ok (some name, c1) ∧ colon c1 = .ok c2 ∧
      Spaced t.tokens c2 c3 ∧ Cut c3 ∧ Spaced (row false (ms.map member) ++ [['}']]) c3 rest := by
  simp only [List.map_cons,row_cons,member,List.append_assoc,List.cons_append] at h
  obtain ⟨c1,h1,h⟩ := memberName_row hk h
  obtain ⟨c2,h2,h⟩ := spaced_append.1 (show Spaced ([[':']] ++ _) c1 rest from h)
  obtain ⟨c3,h3,h⟩ := spaced_append.1 h
  exact ⟨c1,c2,c3,h1,colon_eq_ok.2 h2,h3,cut_more (b := .object) h,h⟩

theorem length_le_of_row (first : Bool) {ys : List (List Char)}
    (h : Spaced (row first (ms.map member) ++ ys) cs rest) : ms.length ≤ cs.length := by
  induction ms generalizing first cs with
  | nil => exact Nat.zero_le _
  | cons m ms ih =>
    rw [List.map_cons,row_cons,List.append_assoc,List.append_assoc] at h
    obtain ⟨c1,h1,h2⟩ := spaced_append.1 h
    obtain ⟨c2,⟨g,mid,-,rfl,h3⟩,h4⟩ := spaced_append.1 h2
    have hl := length_le_of_spaced h1
    have hl3 := length_le_of_spaced h3
    have hms := ih false h4
    simp only [quoted,List.length_append,List.length_cons] at hl ⊢
    omega

theorem members_of_runs {seen : List String} {a : σ} {r : Except Fault σ}
    (h : Runs fields seen ms a r) (first : Bool)
    (hs : Spaced (row first (ms.map member) ++ [['}']]) cs rest) {n : Nat} (hn : ms.length < n) :
    members fields n first seen a cs = r.map fun b => (b, rest) := by
  induction h generalizing first cs n with
  | nil seen a =>
    obtain ⟨n,rfl⟩ := Nat.exists_eq_succ_of_ne_zero (Nat.ne_of_gt hn)
    have hm : memberName first cs = .ok (none, rest) :=
      memberName_eq_none.2 (by cases first <;> exact hs)
    simp [members,hm,bind,Except.bind,pure,Except.pure,Except.map]
  | other hk hf ht h ih =>
    obtain ⟨n,rfl⟩ := Nat.exists_eq_succ_of_ne_zero (Nat.ne_of_gt (Nat.zero_lt_of_lt hn))
    obtain ⟨c1,c2,c3,h1,h2,h3,hc,hs⟩ := member_row hk hs
    have hskip := skip_of_spaced ht h3 (Tree.stops_of_cut _ hc)
    rw [← ih false hs (Nat.lt_of_succ_lt_succ hn),members]
    simp [h1,h2,hf,hskip,bind,Except.bind]
  | field hk hf hn' ht h ih =>
    obtain ⟨n,rfl⟩ := Nat.exists_eq_succ_of_ne_zero (Nat.ne_of_gt (Nat.zero_lt_of_lt hn))
    obtain ⟨c1,c2,c3,h1,h2,h3,hc,hs⟩ := member_row hk hs
    rw [← ih false hs (Nat.lt_of_succ_lt_succ hn),members]
    simp [h1,h2,hf,hn',ht _ _ h3 hc,bind,Except.bind]
  | again hk hf hn' =>
    obtain ⟨n,rfl⟩ := Nat.exists_eq_succ_of_ne_zero (Nat.ne_of_gt (Nat.zero_lt_of_lt hn))
    obtain ⟨c1,c2,c3,h1,-,-,-,-⟩ := member_row hk hs
    simp [members,h1,hf,hn',bind,Except.bind,Except.map]
  | fails hk hf hn' ht =>
    obtain ⟨n,rfl⟩ := Nat.exists_eq_succ_of_ne_zero (Nat.ne_of_gt (Nat.zero_lt_of_lt hn))
    obtain ⟨c1,c2,c3,h1,h2,h3,hc,-⟩ := member_row hk hs
    simp [members,h1,h2,hf,hn',ht _ _ h3 hc,bind,Except.bind,Except.map]

theorem row_member {first : Bool} {c1 c2 c3 : List Char}
    (h1 : Spaced ((if first then [] else [[',']]) ++ [quoted k]) cs c1) (h2 : Spaced [[':']] c1 c2)
    (h3 : Spaced t.tokens c2 c3) (h : Spaced (row false (ms.map member) ++ [['}']]) c3 rest) :
    Spaced (row first (((k, t) :: ms).map member) ++ [['}']]) cs rest := by
  have hr : row first (((k, t) :: ms).map member) ++ [['}']] =
      ((if first then [] else [[',']]) ++ [quoted k]) ++
        ([[':']] ++ (t.tokens ++ (row false (ms.map member) ++ [['}']]))) := by
    rw [List.map_cons,row_cons]
    simp [member,row]
  rw [hr]
  exact spaced_append.2 ⟨c1,h1,spaced_append.2 ⟨c2,h2,spaced_append.2 ⟨c3,h3,h⟩⟩⟩

theorem runs_of_members (hp : ∀ f ∈ fields, Proper f.read) {n : Nat} {first : Bool}
    {seen : List String} {a b : σ} (h : members fields n first seen a cs = .ok (b, rest)) :
    ∃ ms, Runs fields seen ms a (.ok b) ∧ (Tree.object ms).Grammatical ∧
      Spaced (row first (ms.map member) ++ [['}']]) cs rest := by
  induction n generalizing first seen a cs with
  | zero => cases h
  | succ n ih =>
    rw [members] at h
    obtain ⟨⟨_ | key,c1⟩,h1,h⟩ := bind_eq_ok.1 h
    · obtain ⟨rfl,rfl⟩ := Prod.mk.inj (Except.ok.inj h)
      exact ⟨[],.nil seen a,.object nofun nofun,by cases first <;> exact memberName_eq_none.1 h1⟩
    obtain ⟨k,hk,hk1⟩ := of_memberName h1
    have hg {t : Tree} {ms : List (List Char × Tree)} (ht : t.Grammatical)
        (h : (Tree.object ms).Grammatical) : (Tree.object ((k, t) :: ms)).Grammatical := by
      cases h with
      | object hn hv =>
        exact .object (List.forall_mem_cons.2 ⟨hk.sealed,hn⟩) (List.forall_mem_cons.2 ⟨ht,hv⟩)
    dsimp only at h
    split at h
    · next hf =>
      obtain ⟨c2,h2,h⟩ := bind_eq_ok.1 h
      obtain ⟨c3,h3,h⟩ := bind_eq_ok.1 h
      obtain ⟨t,ht,hs⟩ := tree_of_skip h3
      obtain ⟨ms,hr,hms,hsp⟩ := ih h
      exact ⟨(k, t) :: ms,.other hk hf ht hr,hg ht hms,row_member hk1 (colon_eq_ok.1 h2) hs hsp⟩
    · next f hf =>
      obtain rfl : f.name = key := by simpa using List.find?_some hf
      split at h
      · cases h
      · next hseen =>
        obtain ⟨c2,h2,h⟩ := bind_eq_ok.1 h
        obtain ⟨⟨set,c3⟩,h3,h⟩ := bind_eq_ok.1 h
        obtain ⟨t,ht,htake,hs,-⟩ := hp f (List.mem_of_find?_eq_some hf) _ _ _ h3
        obtain ⟨ms,hr,hms,hsp⟩ := ih h
        exact ⟨(k, t) :: ms,.field hk hf hseen htake hr,hg ht hms,
          row_member hk1 (colon_eq_ok.1 h2) hs hsp⟩

/-! Items -/

/-- What comes of reading the items of an array for the fields in order. -/
inductive Supplies : List (RecordField σ) → List Tree → σ → Except Fault σ → Prop
  | nil (fs : List (RecordField σ)) (a : σ) : Supplies fs [] a (.ok a)
  | cons {f : RecordField σ} {fs : List (RecordField σ)} {t : Tree} {ts : List Tree} {a : σ}
      {r : Except Fault σ} {set : σ → σ} (ht : Takes f.read t set) (hg : t.Grammatical)
      (h : Supplies fs ts (set a) r) : Supplies (f :: fs) (t :: ts) a r
  | fails {f : RecordField σ} {fs : List (RecordField σ)} {t : Tree} {ts : List Tree} {a : σ}
      (ht : Rejects f.read t) (hg : t.Grammatical) : Supplies (f :: fs) (t :: ts) a (.error .content)

variable {fs : List (RecordField σ)} {ts : List Tree}

theorem closeArray_eq_ok : closeArray cs = .ok rest ↔ Spaced [[']']] cs rest := by
  rw [spaced_mark rfl]
  unfold closeArray
  split
  · next h => simp [h]
  · next ds h => simp [h,Spaced]
  · next h =>
    refine iff_of_false (by simp) ?_
    rintro ⟨mid,hm,-⟩
    exact h mid hm

def closed (fs : List (RecordField σ)) (first : Bool) (a : σ) : Reader σ := fun cs => do
  let (a, cs) ← items fs first a cs
  return (a, ← closeArray cs)

theorem closed_nil {first : Bool} {a : σ} (h : Spaced [[']']] cs rest) :
    closed fs first a cs = .ok (a, rest) := by
  have hc := closeArray_eq_ok.2 h
  obtain ⟨_,hm,rfl⟩ := (spaced_mark rfl).1 h
  cases fs with
  | nil => simp [closed,items,hc,bind,Except.bind,pure,Except.pure]
  | cons f fs =>
    have hc' := closeArray_eq_ok.2 ((spaced_skipBlank (solid_cons rfl [])).2 h)
    rw [hm] at hc'
    simp [closed,items,nextItem,hm,hc',bind,Except.bind,pure,Except.pure]

theorem closed_cons {first : Bool} {f : RecordField σ} {a : σ} {c1 : List Char}
    (h : nextItem first cs = .ok (true, c1)) : closed (f :: fs) first a cs =
      (f.read c1).bind fun (set, c2) => closed fs false (set a) c2 := by
  simp only [closed,items,h,bind,Except.bind]
  cases f.read c1 <;> rfl

theorem item_row {first : Bool} (hg : t.Grammatical)
    (h : Spaced (row first ((t :: ts).map Tree.tokens) ++ [[']']]) cs rest) :
    ∃ c1 c2, nextItem first cs = .ok (true, c1) ∧ Spaced t.tokens c1 c2 ∧ Cut c2 ∧
      Spaced (row false (ts.map Tree.tokens) ++ [[']']]) c2 rest := by
  have hcut {c2 : List Char} (h : Spaced (row false (ts.map Tree.tokens) ++ [[']']]) c2 rest) :
      Cut c2 := by
    have hr : ts.map Tree.tokens = (ts.map ([], ·)).map Bracket.array.item := by
      rw [← itemTokens_eq,itemTokens_eq_items]
    rw [hr] at h
    exact cut_more (b := .array) h
  rw [List.map_cons,row_cons] at h
  cases first with
  | true =>
    rw [if_pos rfl,List.nil_append,List.append_assoc] at h
    obtain ⟨c2,ht,h⟩ := spaced_append.1 h
    obtain ⟨c,ds,hc,hst⟩ := hg.starts ht
    have hne : c ≠ ']' := hst.ne (by decide) (by decide)
    refine ⟨skipBlank cs,c2,?_,hg.spaced_skipBlank.2 ht,hcut h,h⟩
    simp [nextItem,hc,hne]
  | false =>
    simp only [Bool.false_eq_true,if_false,List.append_assoc,List.cons_append,
      List.nil_append] at h
    obtain ⟨c1,hc1,h⟩ := (spaced_mark rfl).1 h
    obtain ⟨c2,ht,h⟩ := spaced_append.1 h
    obtain ⟨c,ds,hc,hst⟩ := hg.starts ht
    have hne : c ≠ ']' := hst.ne (by decide) (by decide)
    refine ⟨skipBlank c1,c2,?_,hg.spaced_skipBlank.2 ht,hcut h,h⟩
    unfold nextItem
    rw [hc1]
    simp [hc,hne]

theorem closed_of_supplies {a : σ} {r : Except Fault σ} (h : Supplies fs ts a r) (first : Bool)
    (hs : Spaced (row first (ts.map Tree.tokens) ++ [[']']]) cs rest) :
    closed fs first a cs = r.map fun b => (b, rest) := by
  induction h generalizing first cs with
  | nil fs a => exact closed_nil (by cases first <;> exact hs)
  | cons ht hg h ih =>
    obtain ⟨c1,c2,h1,h2,hc,hs⟩ := item_row hg hs
    rw [closed_cons h1,ht _ _ h2 hc,← ih false hs]
    rfl
  | fails ht hg =>
    obtain ⟨c1,c2,h1,h2,hc,-⟩ := item_row hg hs
    rw [closed_cons h1,ht _ _ h2 hc]
    rfl

theorem of_nextItem_true {first : Bool} {c1 : List Char} (h : nextItem first cs = .ok (true, c1)) :
    first = true ∧ c1 = skipBlank cs ∨
      first = false ∧ ∃ ds, skipBlank cs = ',' :: ds ∧ c1 = skipBlank ds := by
  unfold nextItem at h
  split at h
  · cases h
  next c ds hs =>
  split at h
  · cases (Prod.mk.inj (Except.ok.inj h)).1
  split at h
  · next hc =>
    obtain ⟨rfl,rfl⟩ := hc
    split at h
    · cases h
    · cases h
    · exact Or.inr ⟨rfl,ds,hs,(Prod.mk.inj (Except.ok.inj h)).2.symm⟩
  split at h
  · next hf => exact Or.inl ⟨hf,by rw [hs,(Prod.mk.inj (Except.ok.inj h)).2]⟩
  · cases h

theorem of_nextItem_false {first : Bool} {c1 : List Char}
    (h : nextItem first cs = .ok (false, c1)) : c1 = skipBlank cs := by
  unfold nextItem at h
  split at h
  · cases h
  next c ds hs =>
  split at h
  · rw [hs,(Prod.mk.inj (Except.ok.inj h)).2]
  split at h
  · split at h
    · cases h
    · cases h
    · cases (Prod.mk.inj (Except.ok.inj h)).1
  split at h
  · cases (Prod.mk.inj (Except.ok.inj h)).1
  · cases h

theorem row_item {first : Bool} {c1 c2 : List Char} (hg : t.Grammatical)
    (h1 : nextItem first cs = .ok (true, c1)) (h2 : Spaced t.tokens c1 c2)
    (h : Spaced (row false (ts.map Tree.tokens) ++ [[']']]) c2 rest) :
    Spaced (row first ((t :: ts).map Tree.tokens) ++ [[']']]) cs rest := by
  have hv {ds : List Char} (h2 : Spaced t.tokens (skipBlank ds) c2) :
      Spaced (t.tokens ++ (more (ts.map Tree.tokens) ++ [[']']])) ds rest :=
    spaced_append.2 ⟨c2,hg.spaced_skipBlank.1 h2,h⟩
  rw [List.map_cons,row_cons]
  obtain ⟨rfl,rfl⟩ | ⟨rfl,ds,hd,rfl⟩ := of_nextItem_true h1
  · rw [if_pos rfl,List.nil_append,List.append_assoc]
    exact hv h2
  · simp only [Bool.false_eq_true,if_false,List.append_assoc,List.cons_append,List.nil_append]
    exact (spaced_mark rfl).2 ⟨ds,hd,hv h2⟩

def FilledBy (fs : List (RecordField σ)) (first : Bool) (a b : σ) (cs rest : List Char) : Prop :=
  ∃ ts, Supplies fs ts a (.ok b) ∧ (∀ t ∈ ts, t.Grammatical) ∧
    Spaced (row first (ts.map Tree.tokens) ++ [[']']]) cs rest

theorem filledBy_nil {first : Bool} {a b : σ}
    (h : ((closeArray cs).map fun ds => (a, ds)) = .ok (b, rest)) :
    FilledBy fs first a b cs rest := by
  obtain ⟨ds,hc,he⟩ := map_eq_ok.1 h
  obtain ⟨rfl,rfl⟩ := Prod.mk.inj he
  exact ⟨[],.nil fs a,nofun,by cases first <;> exact closeArray_eq_ok.1 hc⟩

theorem filledBy_skipBlank {first : Bool} {a b : σ}
    (h : ((closeArray (skipBlank cs)).map fun ds => (a, ds)) = .ok (b, rest)) :
    FilledBy fs first a b cs rest := by
  apply filledBy_nil
  rwa [closeArray,skipBlank_skipBlank,← closeArray] at h

theorem fills_of_closed (hp : ∀ f ∈ fs, Proper f.read) (first : Bool) {a b : σ}
    (h : closed fs first a cs = .ok (b, rest)) : FilledBy fs first a b cs rest := by
  induction fs generalizing first a cs with
  | nil => exact filledBy_nil h
  | cons f fs ih =>
    cases hn : nextItem first cs with
    | error e => simp [closed,items,hn,bind,Except.bind] at h
    | ok p =>
      obtain ⟨_ | _,c1⟩ := p
      · simp only [closed,items,hn,of_nextItem_false hn] at h
        exact filledBy_skipBlank h
      · rw [closed_cons hn] at h
        obtain ⟨⟨set,c2⟩,hr,h⟩ := bind_eq_ok.1 h
        obtain ⟨t,hg,ht,hs,-⟩ := hp f List.mem_cons_self _ _ _ hr
        obtain ⟨ts,hf,hgs,hsp⟩ := ih (fun g hg => hp g (List.mem_cons_of_mem f hg)) false h
        exact ⟨t :: ts,.cons ht hg hf,List.forall_mem_cons.2 ⟨hg,hgs⟩,row_item hg hn hs hsp⟩

/-! Records -/

/-- What comes of reading a record, with the fields that the tree leaves out as in `a`. -/
inductive Comes (fields : List (RecordField σ)) (a : σ) : Tree → Except Fault σ → Prop
  | object {ms : List (List Char × Tree)} {r : Except Fault σ} (h : Runs fields [] ms a r) :
      Comes fields a (.object ms) r
  | array {ts : List Tree} {r : Except Fault σ} (h : Supplies fields ts a r) :
      Comes fields a (.array ts) r

variable {a : σ}

theorem record_of_comes {r : Except Fault σ} (h : Comes fields a t r)
    (hs : Spaced t.tokens cs rest) : record fields a cs = r.map fun b => (b, rest) := by
  cases h with
  | @object ms r h =>
    rw [Tree.tokens,memberTokens_eq] at hs
    obtain ⟨mid,hm,hs⟩ := (spaced_mark rfl).1 hs
    have hl := Nat.lt_succ_of_le (length_le_of_row true hs)
    rw [← members_of_runs h true hs hl]
    simp [record,hm]
  | @array ts r h =>
    rw [Tree.tokens,itemTokens_eq] at hs
    obtain ⟨mid,hm,hs⟩ := (spaced_mark rfl).1 hs
    rw [← closed_of_supplies h true hs]
    simp [record,hm,closed]

theorem comes_of_record (hp : ∀ f ∈ fields, Proper f.read) {b : σ}
    (h : record fields a cs = .ok (b, rest)) :
    ∃ t : Tree, t.Grammatical ∧ Comes fields a t (.ok b) ∧ Spaced t.tokens cs rest := by
  unfold record at h
  split at h
  · cases h
  next c ds hs =>
  split at h
  · next hc =>
    obtain ⟨ms,hr,hg,hsp⟩ := runs_of_members hp h
    refine ⟨.object ms,hg,.object hr,?_⟩
    rw [Tree.tokens,memberTokens_eq]
    exact (spaced_mark rfl).2 ⟨ds,hc ▸ hs,hsp⟩
  split at h
  · next hc =>
    obtain ⟨ts,hf,hg,hsp⟩ := fills_of_closed hp true h
    refine ⟨.array ts,.array hg,.array hf,?_⟩
    rw [Tree.tokens,itemTokens_eq]
    exact (spaced_mark rfl).2 ⟨ds,hc ▸ hs,hsp⟩
  · cases h

theorem takes_record {b : σ} (h : Comes fields a t (.ok b)) : Takes (record fields a) t b :=
  fun _ _ hs _ => record_of_comes h hs

theorem rejects_record (h : Comes fields a t (.error .content)) : Rejects (record fields a) t :=
  fun _ _ hs _ => record_of_comes h hs

theorem proper_record (hp : ∀ f ∈ fields, Proper f.read) : Proper (record fields a) := by
  intro cs b rest h
  obtain ⟨t,hg,ht,hs⟩ := comes_of_record hp h
  refine ⟨t,hg,takes_record ht,hs,?_⟩
  cases ht <;> exact nofun

theorem comes_of_takes (hp : ∀ f ∈ fields, Proper f.read) (hg : t.Grammatical) {b : σ}
    (h : Takes (record fields a) t b) : Comes fields a t (.ok b) := by
  have hs := spaced_flatten t.tokens
  obtain ⟨u,hu,hc,hs'⟩ := comes_of_record hp (h _ _ hs cut_nil)
  rwa [hg.unique u _ _ hu hs hs']

end Json
end EventLoop
