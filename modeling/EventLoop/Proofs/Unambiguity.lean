import EventLoop.Proofs.Skipping

/-! A text is spelled by one tree at most: the first character decides what kind of tree it is, and
skipping ends at one place. Main statement: `Tree.Grammatical.unique`. -/
namespace EventLoop
namespace Json

variable {t : Tree} {b : Bracket} {ms : List (List Char × Tree)} {cs mid rest : List Char}

def Tree.kind : Tree → Nat
  | .word _ => 0
  | .number _ => 1
  | .string _ => 2
  | .array _ => 3
  | .object _ => 4

def kindOf (c : Char) : Nat :=
  if c = '"' then 2
  else if c = '[' then 3
  else if c = '{' then 4
  else if c = '-' ∨ Numeral.isDigit 10 c = true then 1
  else 0

theorem Tree.Starts.kind {c : Char} (h : t.Starts c) : kindOf c = t.kind := by
  cases t with
  | word => obtain rfl | rfl | rfl := h <;> rfl
  | number =>
    obtain rfl | hd := h
    · rfl
    · rw [kindOf,if_neg (Numeral.ne_of_isDigit hd (by decide)),
        if_neg (Numeral.ne_of_isDigit hd (by decide)),
        if_neg (Numeral.ne_of_isDigit hd (by decide)),if_pos (Or.inr hd)]
      rfl
  | string => obtain rfl := h; rfl
  | array => obtain rfl := h; rfl
  | object => obtain rfl := h; rfl

theorem skipName_unique {k k' : List Char} {mid' : List Char} (hk : Sealed k) (hk' : Sealed k')
    (h : Spaced [quoted k, [':']] cs mid) (h' : Spaced [quoted k', [':']] cs mid') :
    k = k' ∧ mid = mid' := by
  have hm := (skipName_eq_ok.2 ⟨k,hk,h⟩).symm.trans (skipName_eq_ok.2 ⟨k',hk',h'⟩)
  refine ⟨?_,Except.ok.inj hm⟩
  obtain ⟨c,hc,-⟩ := (spaced_cons (solid_quoted k)).1 h
  obtain ⟨d,hd,-⟩ := (spaced_cons (solid_quoted k')).1 h'
  have he := hc.symm.trans hd
  rw [quoted_append,quoted_append] at he
  have he := (List.cons.inj he).2
  have hs := (skipString_eq_ok.2 ⟨k,hk,rfl⟩).symm.trans (skipString_eq_ok.2 ⟨k',hk',he⟩)
  rw [Except.ok.inj hs] at he
  exact List.append_cancel_right he

def Tree.Unique (t : Tree) : Prop := ∀ u cs rest, u.Grammatical → Spaced t.tokens cs rest →
  Spaced u.tokens cs rest → t = u

theorem item_unique {m n : List Char × Tree} {mid' : List Char} (hm : b.Names m.1)
    (hn : b.Names n.1) (hg : m.2.Grammatical) (hg' : n.2.Grammatical) (hu : m.2.Unique)
    (h : Spaced (b.item m) cs mid) (h' : Spaced (b.item n) cs mid') (hc : Cut mid)
    (hc' : Cut mid') : m = n ∧ mid = mid' := by
  obtain ⟨k,t⟩ := m
  obtain ⟨k',t'⟩ := n
  have hval {ds : List Char} (h : Spaced t.tokens ds mid) (h' : Spaced t'.tokens ds mid') :
      t = t' ∧ mid = mid' := by
    have hs := (skip_of_spaced hg h (t.stops_of_cut hc)).symm.trans
      (skip_of_spaced hg' h' (t'.stops_of_cut hc'))
    obtain rfl := Except.ok.inj hs
    exact ⟨hu t' ds mid hg' h h',rfl⟩
  cases b with
  | array =>
    obtain rfl : k = [] := hm
    obtain rfl : k' = [] := hn
    obtain ⟨rfl,rfl⟩ := hval h h'
    exact ⟨rfl,rfl⟩
  | object =>
    obtain ⟨c,hk,ht⟩ := spaced_named.1 h
    obtain ⟨d,hk',ht'⟩ := spaced_named.1 h'
    obtain ⟨rfl,rfl⟩ := skipName_unique hm hn hk hk'
    obtain ⟨rfl,rfl⟩ := hval ht ht'
    exact ⟨rfl,rfl⟩

variable {ns : List (List Char × Tree)}

theorem more_unique (hm : ∀ m ∈ ms, b.Names m.1) (hn : ∀ n ∈ ns, b.Names n.1)
    (hg : ∀ m ∈ ms, m.2.Grammatical) (hg' : ∀ n ∈ ns, n.2.Grammatical)
    (hu : ∀ m ∈ ms, m.2.Unique) (h : Spaced (more (ms.map b.item) ++ [[b.close]]) cs rest)
    (h' : Spaced (more (ns.map b.item) ++ [[b.close]]) cs rest) : ms = ns := by
  have hb : isBlank b.close = false := by cases b <;> rfl
  have hne : b.close ≠ ',' := by cases b <;> decide
  induction ms generalizing ns cs with
  | nil =>
    obtain ⟨c,hc,-⟩ := (spaced_mark hb).1 h
    cases ns with
    | nil => rfl
    | cons n ns =>
      obtain ⟨d,hd,-⟩ := (spaced_mark rfl).1 h'
      exact absurd (List.cons.inj (hc.symm.trans hd)).1 hne
  | cons m ms ih =>
    rw [List.map_cons,more_cons,List.cons_append,List.append_assoc] at h
    obtain ⟨c,hc,h⟩ := (spaced_mark rfl).1 h
    cases ns with
    | nil =>
      obtain ⟨d,hd,-⟩ := (spaced_mark hb).1 h'
      exact absurd (List.cons.inj (hd.symm.trans hc)).1 hne
    | cons n ns =>
      rw [List.map_cons,more_cons,List.cons_append,List.append_assoc] at h'
      obtain ⟨d,hd,h'⟩ := (spaced_mark rfl).1 h'
      obtain ⟨-,rfl⟩ := List.cons.inj (hc.symm.trans hd)
      obtain ⟨mid,hi,h⟩ := spaced_append.1 h
      obtain ⟨mid',hi',h'⟩ := spaced_append.1 h'
      simp only [List.forall_mem_cons] at hm hn hg hg' hu
      obtain ⟨rfl,rfl⟩ := item_unique hm.1 hn.1 hg.1 hg'.1 hu.1 hi hi' (cut_more h) (cut_more h')
      rw [ih hm.2 hn.2 hg.2 hg'.2 hu.2 h h']

theorem items_unique (hm : ∀ m ∈ ms, b.Names m.1) (hn : ∀ n ∈ ns, b.Names n.1)
    (hg : ∀ m ∈ ms, m.2.Grammatical) (hg' : ∀ n ∈ ns, n.2.Grammatical)
    (hu : ∀ m ∈ ms, m.2.Unique) (h : Spaced (separate (ms.map b.item) ++ [[b.close]]) cs rest)
    (h' : Spaced (separate (ns.map b.item) ++ [[b.close]]) cs rest) : ms = ns := by
  have hb : isBlank b.close = false := by cases b <;> rfl
  have hne {m : List Char × Tree} {xs : List (List Char)} (hg : m.2.Grammatical)
      (h : Spaced (b.item m ++ xs) cs rest) (h' : Spaced [[b.close]] cs rest) : False := by
    obtain ⟨c,x,ys,hx,hc,-,hne⟩ := item_head (b := b) hg
    rw [hx] at h
    obtain ⟨d,hd,-⟩ := (spaced_token hc).1 h
    obtain ⟨e,he,-⟩ := (spaced_mark hb).1 h'
    exact hne (List.cons.inj (hd.symm.trans he)).1
  cases ms with
  | nil =>
    cases ns with
    | nil => rfl
    | cons n ns =>
      rw [List.map_cons,separate,List.append_assoc] at h'
      exact (hne (hg' n List.mem_cons_self) h' h).elim
  | cons m ms =>
    rw [List.map_cons,separate,List.append_assoc] at h
    cases ns with
    | nil => exact (hne (hg m List.mem_cons_self) h h').elim
    | cons n ns =>
      rw [List.map_cons,separate,List.append_assoc] at h'
      obtain ⟨mid,hi,h⟩ := spaced_append.1 h
      obtain ⟨mid',hi',h'⟩ := spaced_append.1 h'
      simp only [List.forall_mem_cons] at hm hn hg hg' hu
      obtain ⟨rfl,rfl⟩ := item_unique hm.1 hn.1 hg.1 hg'.1 hu.1 hi hi' (cut_more h) (cut_more h')
      rw [more_unique hm.2 hn.2 hg.2 hg'.2 hu.2 h h']

theorem Tree.kind_eq {u : Tree} (h : t.Grammatical) (hu : u.Grammatical)
    (hs : Spaced t.tokens cs rest) (hs' : Spaced u.tokens cs rest) : t.kind = u.kind := by
  obtain ⟨c,ds,hc,hst⟩ := h.starts hs
  obtain ⟨d,es,hd,hst'⟩ := hu.starts hs'
  obtain ⟨rfl,-⟩ := List.cons.inj (hc.symm.trans hd)
  exact hst.kind.symm.trans hst'.kind

theorem token_unique {x y : List Char} (hx : Solid x) (hy : Solid y) (h : Spaced [x] cs rest)
    (h' : Spaced [y] cs rest) : x = y := by
  obtain ⟨_,hc,rfl⟩ := (spaced_cons hx).1 h
  obtain ⟨_,hd,rfl⟩ := (spaced_cons hy).1 h'
  exact List.append_cancel_right (hc.symm.trans hd)

theorem solid_word {w : List Char} (hw : w ∈ words) : Solid w := by
  simp only [words,List.mem_cons,List.not_mem_nil,or_false] at hw
  obtain rfl | rfl | rfl := hw <;> exact solid_cons rfl _

theorem Tree.Grammatical.unique (h : t.Grammatical) : t.Unique := by
  induction h with
  | @word w hw =>
    intro u cs rest hu hs hs'
    have hk := kind_eq (.word hw) hu hs hs'
    cases hu with
    | word hw' => rw [token_unique (solid_word hw) (solid_word hw') hs hs']
    | _ => cases hk
  | @number n hn =>
    intro u cs rest hu hs hs'
    have hk := kind_eq (.number hn) hu hs hs'
    cases hu with
    | number hn' => rw [token_unique hn.solid hn'.solid hs hs']
    | _ => cases hk
  | @string raw hraw =>
    intro u cs rest hu hs hs'
    have hk := kind_eq (.string hraw) hu hs hs'
    cases hu with
    | string hraw' =>
      have hq := token_unique (solid_quoted _) (solid_quoted _) hs hs'
      rw [List.append_cancel_right (List.cons.inj hq).2]
    | _ => cases hk
  | @array ts h ih =>
    intro u cs rest hu hs hs'
    have hk := kind_eq (.array h) hu hs hs'
    cases hu with
    | @array us h' =>
      rw [tokens,itemTokens_eq_items] at hs hs'
      obtain ⟨c,hc,hs⟩ := (spaced_mark rfl).1 hs
      obtain ⟨d,hd,hs'⟩ := (spaced_mark rfl).1 hs'
      obtain ⟨-,rfl⟩ := List.cons.inj (hc.symm.trans hd)
      have he := items_unique (b := .array) (by simp [Bracket.Names]) (by simp [Bracket.Names])
        (List.forall_mem_map.2 h) (List.forall_mem_map.2 h') (List.forall_mem_map.2 ih) hs hs'
      rw [List.map_injective_iff.2 (fun _ _ h => (Prod.mk.inj h).2) he]
    | _ => cases hk
  | @object ms hn h ih =>
    intro u cs rest hu hs hs'
    have hk := kind_eq (.object hn h) hu hs hs'
    cases hu with
    | @object ns hn' h' =>
      rw [tokens,memberTokens_eq_items] at hs hs'
      obtain ⟨c,hc,hs⟩ := (spaced_mark rfl).1 hs
      obtain ⟨d,hd,hs'⟩ := (spaced_mark rfl).1 hs'
      obtain ⟨-,rfl⟩ := List.cons.inj (hc.symm.trans hd)
      rw [items_unique (b := .object) hn hn' h h' ih hs hs']
    | _ => cases hk

end Json
end EventLoop
