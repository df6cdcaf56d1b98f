import EventLoop.Proofs.Unambiguity

/-! Values of a given type. What a reader reads is a tree, and it takes that tree for the same
value wherever the tree stands and however it is spaced. Main statement: `takes_of_reads`. -/
namespace EventLoop
namespace Json

variable {α : Type} {t : Tree} {cs mid rest : List Char}

/-- The reader takes the tree for the value. -/
def Takes (r : Reader α) (t : Tree) (a : α) : Prop :=
  ∀ cs rest, Spaced t.tokens cs rest → Cut rest → r cs = .ok (a, rest)

/-- Where a tree of this kind stands the reader finds that the value is not what was asked for. -/
def Rejects (r : Reader α) (t : Tree) : Prop :=
  ∀ cs rest, Spaced t.tokens cs rest → Cut rest → r cs = .error .content

def ReadsAs (r : Reader α) (cs : List Char) (a : α) (rest : List Char) : Prop :=
  ∃ t : Tree, t.Grammatical ∧ Takes r t a ∧ Spaced t.tokens cs rest ∧ t.Stops rest

/-- All that the reader reads are trees. -/
def Proper (r : Reader α) : Prop := ∀ cs a rest, r cs = .ok (a, rest) → ReadsAs r cs a rest

/-- One reading of a tree decides what the tree is taken for. -/
theorem takes_of_reads {r : Reader α} {a : α} {rest' : List Char} (hp : Proper r)
    (hg : t.Grammatical) (hs : Spaced t.tokens cs rest) (hc : Cut rest)
    (h : r cs = .ok (a, rest')) : Takes r t a ∧ rest' = rest := by
  obtain ⟨u,hu,ht,hs',hst⟩ := hp cs a rest' h
  have he := (skip_of_spaced hu hs' hst).symm.trans (skip_of_spaced hg hs (t.stops_of_cut hc))
  obtain rfl := Except.ok.inj he
  rw [hg.unique u cs rest' hu hs hs']
  exact ⟨ht,rfl⟩

theorem spaced_flatten (xs : List (List Char)) : Spaced xs xs.flatten [] := by
  induction xs with
  | nil => rfl
  | cons x xs ih => exact ⟨[],xs.flatten,nofun,rfl,ih⟩

theorem cut_nil : Cut [] := nofun

theorem Takes.unique {r : Reader α} {a b : α} (ha : Takes r t a) (hb : Takes r t b) : a = b := by
  have hs := spaced_flatten t.tokens
  exact (Prod.mk.inj (Except.ok.inj ((ha _ _ hs cut_nil).symm.trans (hb _ _ hs cut_nil)))).1

/-! Numbers, words and strings -/

theorem Whole.numeric {ds : List Char} (h : Whole ds) : Numeric ds := by
  have hn := Numeric.mk (Or.inl rfl) h .none .none
  simpa using hn

theorem takes_natural {ds : List Char} {n : Nat} (hw : Whole ds) (hv : Numeral.value 10 ds = n)
    (hn : n < Numeral.wordLimit) : Takes natural (.number ds) (UInt64.ofNat n) := by
  intro cs rest hs hr
  obtain ⟨mid,hm,rfl⟩ := (spaced_cons hw.numeric.solid).1 hs
  have hnum := number_natural hw hv hn hr
  obtain ⟨d,es,rfl,hd⟩ := hw.head
  rw [List.cons_append] at hm hnum
  simp [natural,hm,Numeral.ne_of_isDigit hd (show Numeral.isDigit 10 '-' = false by decide),hd,hnum,
    Except.bind]

theorem proper_natural : Proper natural := by
  intro cs n rest h
  unfold natural at h
  split at h
  · cases h
  next c ds hs =>
  split at h
  · obtain ⟨_,-,h⟩ := bind_eq_ok.1 h
    cases h
  split at h
  · obtain ⟨⟨m,mid⟩,hm,h⟩ := bind_eq_ok.1 h
    dsimp only at h
    split at h
    · next k =>
      obtain ⟨rfl,rfl⟩ := Prod.mk.inj (Except.ok.inj h)
      obtain ⟨ds,hw,hv,hl,hx,hc⟩ := natural_of_number hm
      exact ⟨.number ds,.number hw.numeric,takes_natural hw hv hl,
        (spaced_cons hw.numeric.solid).2 ⟨_,by rw [hs,hx],rfl⟩,fun _ _ => hc⟩
    · cases h
  · cases h

theorem takes_true : Takes boolean (.word ['t', 'r', 'u', 'e']) true := by
  intro cs rest hs _
  obtain ⟨_,hm,rfl⟩ := (spaced_token rfl).1 hs
  simp [boolean,hm,word,Except.map]

theorem takes_false : Takes boolean (.word ['f', 'a', 'l', 's', 'e']) false := by
  intro cs rest hs _
  obtain ⟨_,hm,rfl⟩ := (spaced_token rfl).1 hs
  simp [boolean,hm,word,Except.map]

theorem proper_boolean : Proper boolean := by
  intro cs b rest h
  unfold boolean at h
  split at h
  · cases h
  next c ds hs =>
  split at h
  · next hc =>
    obtain ⟨mid,hm,h⟩ := map_eq_ok.1 h
    obtain ⟨rfl,rfl⟩ := Prod.mk.inj h
    rw [word_eq_ok.1 hm,hc] at hs
    exact ⟨_,.word (by decide),takes_true,(spaced_token rfl).2 ⟨_,hs,rfl⟩,nofun⟩
  split at h
  · next hc =>
    obtain ⟨mid,hm,h⟩ := map_eq_ok.1 h
    obtain ⟨rfl,rfl⟩ := Prod.mk.inj h
    rw [word_eq_ok.1 hm,hc] at hs
    exact ⟨_,.word (by decide),takes_false,(spaced_token rfl).2 ⟨_,hs,rfl⟩,nofun⟩
  · cases h

theorem text_eq_ok {s : String} : text cs = .ok (s, rest) ↔
    ∃ raw, Spelt raw s.toList ∧ Spaced [quoted raw] cs rest := by
  constructor
  · intro h
    unfold text at h
    split at h
    · cases h
    next c ds hs =>
    split at h
    · next hc =>
      obtain ⟨⟨xs,mid⟩,hm,h⟩ := map_eq_ok.1 h
      obtain ⟨rfl,rfl⟩ := Prod.mk.inj h
      obtain ⟨raw,hr,rfl⟩ := string_eq_ok.1 hm
      exact ⟨raw,by rwa [String.toList_ofList],
        (spaced_cons (solid_quoted raw)).2 ⟨_,by rw [hs,hc,quoted_append],rfl⟩⟩
    · cases h
  · rintro ⟨raw,hr,hs⟩
    obtain ⟨mid,hm,rfl⟩ := (spaced_cons (solid_quoted raw)).1 hs
    rw [quoted_append] at hm
    have hq : string (raw ++ '"' :: mid) = .ok (s.toList, mid) := string_eq_ok.2 ⟨raw,hr,rfl⟩
    simp [text,hm,hq,Except.map]

theorem takes_text {raw : List Char} {s : String} (h : Spelt raw s.toList) :
    Takes text (.string raw) s := fun _ _ hs _ => text_eq_ok.2 ⟨raw,h,hs⟩

theorem proper_text : Proper text := by
  intro cs s rest h
  obtain ⟨raw,hr,hs⟩ := text_eq_ok.1 h
  exact ⟨.string raw,.string hr.sealed,takes_text hr,hs,nofun⟩

/-! Values that may be missing -/

theorem Tree.Grammatical.spaced_skipBlank (h : t.Grammatical) :
    Spaced t.tokens (skipBlank cs) rest ↔ Spaced t.tokens cs rest := by
  obtain ⟨c,x,xs,ht,hc⟩ := h.head
  rw [ht,Json.spaced_skipBlank (solid_cons hc.isBlank x)]

theorem Tree.Grammatical.head?_eq {cs' rest' : List Char} (h : t.Grammatical)
    (hs : Spaced t.tokens cs rest) (hs' : Spaced t.tokens cs' rest') :
    (skipBlank cs).head? = (skipBlank cs').head? := by
  obtain ⟨c,x,xs,ht,hc⟩ := h.head
  rw [ht] at hs hs'
  obtain ⟨_,hm,-⟩ := (spaced_token hc.isBlank).1 hs
  obtain ⟨_,hm',-⟩ := (spaced_token hc.isBlank).1 hs'
  rw [hm,hm']
  rfl

def nothing : List Char := ['n', 'u', 'l', 'l']

theorem takes_none (r : Reader α) : Takes (optional r) (.word nothing) none := by
  intro cs rest hs _
  obtain ⟨_,hm,rfl⟩ := (spaced_token rfl).1 hs
  simp [optional,hm,word,Except.map]

theorem optional_of_head {r : Reader α} (h : (skipBlank cs).head? ≠ some 'n') :
    optional r cs = (r (skipBlank cs)).map fun (a, cs) => (some a, cs) := by
  unfold optional
  split
  · next heq =>
    rw [heq] at h
    exact absurd rfl h
  · rfl

theorem proper_optional {r : Reader α} (hp : Proper r) : Proper (optional r) := by
  intro cs o rest h
  by_cases hn : (skipBlank cs).head? = some 'n'
  · obtain ⟨ds,hd⟩ := List.head?_eq_some_iff.1 hn
    simp only [optional,hd] at h
    obtain ⟨mid,hm,he⟩ := map_eq_ok.1 h
    obtain ⟨rfl,rfl⟩ := Prod.mk.inj he
    rw [word_eq_ok.1 hm] at hd
    exact ⟨_,.word (by decide),takes_none r,(spaced_token rfl).2 ⟨_,hd,rfl⟩,
      fun _ ht => by cases ht⟩
  · rw [optional_of_head hn] at h
    obtain ⟨⟨a,mid⟩,hm,he⟩ := map_eq_ok.1 h
    obtain ⟨rfl,rfl⟩ := Prod.mk.inj he
    obtain ⟨t,hg,ht,hs,hst⟩ := hp _ _ _ hm
    rw [hg.spaced_skipBlank] at hs
    refine ⟨t,hg,fun cs' rest' hs' hc' => ?_,hs,hst⟩
    rw [hg.head?_eq hs hs'] at hn
    rw [optional_of_head hn,ht _ _ (hg.spaced_skipBlank.2 hs') hc']
    rfl

/-! Names -/

variable {ofName? : String → Option α} {a : α}

theorem name_eq_ok : name ofName? cs = .ok (a, rest) ↔
    ∃ raw s, Spelt raw s.toList ∧ ofName? s = some a ∧ Spaced [quoted raw] cs rest := by
  constructor
  · intro h
    obtain ⟨⟨s,mid⟩,hm,h⟩ := bind_eq_ok.1 h
    obtain ⟨raw,hr,hs⟩ := text_eq_ok.1 hm
    dsimp only at h
    split at h
    · next ho =>
      obtain ⟨rfl,rfl⟩ := Prod.mk.inj (Except.ok.inj h)
      exact ⟨raw,s,hr,ho,hs⟩
    · cases h
  · rintro ⟨raw,s,hr,ho,hs⟩
    simp [name,text_eq_ok.2 ⟨raw,hr,hs⟩,Except.bind,ho]

theorem colon_eq_ok : colon cs = .ok rest ↔ Spaced [[':']] cs rest := by
  rw [spaced_mark rfl]
  unfold colon
  split
  · next h => simp [h]
  · next ds h => simp [h,Spaced]
  · next h =>
    refine iff_of_false (by simp) ?_
    rintro ⟨mid,hm,-⟩
    exact h mid hm

theorem null_eq_ok : null cs = .ok rest ↔ Spaced [nothing] cs rest := by
  rw [nothing,spaced_token rfl]
  unfold null
  split
  · next h => simp [h]
  · next ds h => simp [h,Spaced,word_eq_ok]
  · next h =>
    refine iff_of_false (by simp) ?_
    rintro ⟨mid,hm,-⟩
    exact h _ hm

def enclosed (raw : List Char) : Tree := .object [(raw, .word nothing)]

theorem spaced_enclosed {raw : List Char} : Spaced (enclosed raw).tokens cs rest ↔
    ∃ ds es fs, skipBlank cs = '{' :: ds ∧ Spaced [quoted raw] ds es ∧ Spaced [[':']] es fs ∧
      ∃ gs, Spaced [nothing] fs gs ∧ skipBlank gs = '}' :: rest := by
  have ht : (enclosed raw).tokens = ['{'] :: ([quoted raw] ++ ([[':']] ++ ([nothing] ++ [['}']]))) :=
    rfl
  rw [ht,spaced_mark rfl]
  simp only [spaced_append,spaced_mark (show isBlank '}' = false by rfl)]
  constructor
  · rintro ⟨ds,hd,es,he,fs,hf,gs,hg,_,hm,rfl⟩
    exact ⟨ds,es,fs,hd,he,hf,gs,hg,hm⟩
  · rintro ⟨ds,es,fs,hd,he,hf,gs,hg,hm⟩
    exact ⟨ds,hd,es,he,fs,hf,gs,hg,rest,hm,rfl⟩

theorem takes_choice {raw : List Char} {s : String} (hr : Spelt raw s.toList)
    (ho : ofName? s = some a) : Takes (choice ofName?) (.string raw) a := by
  intro cs rest hs _
  rw [Tree.tokens,← spaced_skipBlank (solid_quoted raw)] at hs
  have hn := name_eq_ok.2 ⟨raw,s,hr,ho,hs⟩
  obtain ⟨_,hm,-⟩ := (spaced_cons (solid_quoted raw)).1 hs
  rw [skipBlank_skipBlank,quoted_append] at hm
  rw [hm] at hn
  simp only [choice,hm,hn]

theorem takes_enclosed {raw : List Char} {s : String} (hr : Spelt raw s.toList)
    (ho : ofName? s = some a) : Takes (choice ofName?) (enclosed raw) a := by
  intro cs rest hs _
  obtain ⟨ds,es,fs,hd,he,hf,gs,hg,hm⟩ := spaced_enclosed.1 hs
  have hn : name ofName? ds = .ok (a, es) := name_eq_ok.2 ⟨raw,s,hr,ho,he⟩
  simp [choice,hd,hn,colon_eq_ok.2 hf,null_eq_ok.2 hg,hm,bind,Except.bind,pure,Except.pure]

theorem proper_choice : Proper (choice ofName?) := by
  intro cs a rest h
  unfold choice at h
  split at h
  · cases h
  · next ds hd =>
    rw [← hd] at h
    obtain ⟨raw,s,hr,ho,hs⟩ := name_eq_ok.1 h
    exact ⟨.string raw,.string hr.sealed,takes_choice hr ho,
      (spaced_skipBlank (solid_quoted raw)).1 hs,nofun⟩
  · next ds hd =>
    obtain ⟨⟨b,es⟩,hn,h⟩ := bind_eq_ok.1 h
    obtain ⟨fs,hc,h⟩ := bind_eq_ok.1 h
    obtain ⟨gs,hg,h⟩ := bind_eq_ok.1 h
    split at h
    · cases h
    · next es hm =>
      obtain ⟨rfl,rfl⟩ := Prod.mk.inj (Except.ok.inj h)
      obtain ⟨raw,s,hr,ho,hs⟩ := name_eq_ok.1 hn
      have hw : (Tree.word nothing).Grammatical := .word (by decide)
      exact ⟨enclosed raw,.object (by simpa using hr.sealed) (by simpa using hw),
        takes_enclosed hr ho,
        spaced_enclosed.2 ⟨ds,_,fs,hd,hs,colon_eq_ok.1 hc,gs,null_eq_ok.1 hg,hm⟩,nofun⟩
    · cases h
  · cases h

/-! Fields -/

variable {σ : Type} {name : String} {r : Reader α} {set : α → σ → σ}

theorem takes_fieldOf {a : α} (h : Takes r t a) : Takes (fieldOf name r set).read t (set a) := by
  intro cs rest hs hc
  simp [fieldOf,h cs rest hs hc,Except.map]

theorem of_takes_fieldOf {g : σ → σ} (hp : Proper r) (hg : t.Grammatical)
    (h : Takes (fieldOf name r set).read t g) : ∃ a, Takes r t a ∧ set a = g := by
  have hs := spaced_flatten t.tokens
  obtain ⟨⟨a,mid⟩,hm,he⟩ := map_eq_ok.1 (h _ _ hs cut_nil)
  exact ⟨a,(takes_of_reads hp hg hs cut_nil hm).1,(Prod.mk.inj he).1⟩

theorem rejects_fieldOf (h : Rejects r t) : Rejects (fieldOf name r set).read t := by
  intro cs rest hs hc
  simp [fieldOf,h cs rest hs hc,Except.map]

theorem proper_fieldOf (hp : Proper r) : Proper (fieldOf name r set).read := by
  intro cs g rest h
  obtain ⟨⟨a,mid⟩,hm,he⟩ := map_eq_ok.1 h
  obtain ⟨rfl,rfl⟩ := Prod.mk.inj he
  obtain ⟨t,hg,ht,hs,hst⟩ := hp _ _ _ hm
  exact ⟨t,hg,takes_fieldOf ht,hs,hst⟩

theorem exists_of_takes_fieldOf {g : σ → σ} (h : Takes (fieldOf name r set).read t g) :
    ∃ a, set a = g := by
  obtain ⟨⟨a,mid⟩,-,he⟩ := map_eq_ok.1 (h _ _ (spaced_flatten t.tokens) cut_nil)
  exact ⟨a,(Prod.mk.inj he).1⟩

theorem commute_fieldOf {β : Type} {name' : String} {r' : Reader β} {set' : β → σ → σ} {u : Tree}
    {x y : σ → σ} (hx : Takes (fieldOf name r set).read t x)
    (hy : Takes (fieldOf name' r' set').read u y)
    (hc : ∀ a b s, set a (set' b s) = set' b (set a s)) (s : σ) : x (y s) = y (x s) := by
  obtain ⟨a,rfl⟩ := exists_of_takes_fieldOf hx
  obtain ⟨b,rfl⟩ := exists_of_takes_fieldOf hy
  exact hc a b s

end Json
end EventLoop
