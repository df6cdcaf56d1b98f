import EventLoop.Proofs.Scanning
import Mathlib.Data.List.DropRight

/-! Values that nobody asked for. What is skipped is a tree, of whatever depth, and every tree is
skipped. Main statements: `skip_of_spaced`, `tree_of_skip`. -/
namespace EventLoop
namespace Json

variable {t : Tree} {cs mid rest : List Char}

/-! How a tree starts -/

/-- The characters that the text of a tree may start with. -/
def Tree.Starts : Tree → Char → Prop
  | .word _, c => c = 'n' ∨ c = 't' ∨ c = 'f'
  | .number _, c => c = '-' ∨ Numeral.isDigit 10 c = true
  | .string _, c => c = '"'
  | .array _, c => c = '['
  | .object _, c => c = '{'

theorem Tree.Starts.ne {c d : Char} (h : t.Starts c) (hd : Numeral.isDigit 10 d = false)
    (hm : d ∉ ['n', 't', 'f', '-', '"', '[', '{']) : c ≠ d := by
  rintro rfl
  cases t <;> simp_all [Starts]

theorem Tree.Starts.isBlank {c : Char} (h : t.Starts c) : isBlank c = false := by
  have hs := h.ne (show Numeral.isDigit 10 ' ' = false by decide) (by decide)
  have hn := h.ne (show Numeral.isDigit 10 '\n' = false by decide) (by decide)
  have ht := h.ne (show Numeral.isDigit 10 '\t' = false by decide) (by decide)
  have hr := h.ne (show Numeral.isDigit 10 '\r' = false by decide) (by decide)
  simp [Json.isBlank,hs,hn,ht,hr]

theorem Whole.head {ds : List Char} (h : Whole ds) :
    ∃ c cs, ds = c :: cs ∧ Numeral.isDigit 10 c = true := by
  cases h with
  | zero => exact ⟨'0',[],rfl,by decide⟩
  | digits _ hd => exact ⟨_,_,rfl,hd.2 _ List.mem_cons_self⟩

theorem solid_cons {c : Char} (hc : isBlank c = false) (x : List Char) : Solid (c :: x) :=
  fun rest => skipBlank_cons hc (x ++ rest)

theorem spaced_token {c : Char} {x : List Char} {xs : List (List Char)} (hc : isBlank c = false) :
    Spaced ((c :: x) :: xs) cs rest ↔
      ∃ mid, skipBlank cs = c :: (x ++ mid) ∧ Spaced xs mid rest :=
  spaced_cons (solid_cons hc x)

theorem spaced_mark {c : Char} {xs : List (List Char)} (hc : isBlank c = false) :
    Spaced ([c] :: xs) cs rest ↔ ∃ mid, skipBlank cs = c :: mid ∧ Spaced xs mid rest :=
  spaced_token hc

theorem more_cons (x : List (List Char)) (xs : List (List (List Char))) :
    more (x :: xs) = [','] :: (x ++ more xs) := rfl

theorem Tree.Grammatical.head (h : t.Grammatical) :
    ∃ c x xs, t.tokens = (c :: x) :: xs ∧ t.Starts c := by
  cases h with
  | word hw =>
    simp only [words,List.mem_cons,List.not_mem_nil,or_false] at hw
    obtain rfl | rfl | rfl := hw <;> exact ⟨_,_,_,rfl,by simp [Starts]⟩
  | number hn =>
    obtain ⟨hs,hw,-,-⟩ := hn
    obtain rfl | rfl := hs
    · obtain ⟨c,ds,rfl,hd⟩ := hw.head
      exact ⟨c,_,_,rfl,Or.inr hd⟩
    · exact ⟨'-',_,_,rfl,Or.inl rfl⟩
  | string => exact ⟨_,_,_,rfl,rfl⟩
  | array => exact ⟨_,_,_,rfl,rfl⟩
  | object => exact ⟨_,_,_,rfl,rfl⟩

theorem Tree.Grammatical.starts (h : t.Grammatical) (hs : Spaced t.tokens cs rest) :
    ∃ c ds, skipBlank cs = c :: ds ∧ t.Starts c := by
  obtain ⟨c,x,xs,ht,hc⟩ := h.head
  rw [ht] at hs
  obtain ⟨mid,hm,-⟩ := (spaced_token hc.isBlank).1 hs
  exact ⟨c,x ++ mid,hm,hc⟩

/-! What stands behind -/

theorem cut_blank {g : List Char} (hg : Blank g) : Cut g := by
  intro c hc
  have hb := hg c (List.mem_of_mem_head? hc)
  simp only [isBlank,Bool.or_eq_true,decide_eq_true_eq] at hb
  obtain ((rfl | rfl) | rfl) | rfl := hb <;> decide

theorem cut_of_spaced {c : Char} {x : List Char} {xs : List (List Char)}
    (hc : Cut [c]) (h : Spaced ((c :: x) :: xs) cs rest) : Cut cs := by
  obtain ⟨g,mid,hg,rfl,-⟩ := h
  cases g with
  | nil =>
    intro d hd
    exact hc d hd
  | cons b g =>
    intro d hd
    exact cut_blank hg d hd

theorem cut_comma : Cut [','] := by
  intro c hc
  obtain rfl : ',' = c := Option.some.inj hc
  decide

theorem cut_bracket : Cut [']'] := by
  intro c hc
  obtain rfl : ']' = c := Option.some.inj hc
  decide

theorem cut_brace : Cut ['}'] := by
  intro c hc
  obtain rfl : '}' = c := Option.some.inj hc
  decide

def Tree.Stops (t : Tree) (rest : List Char) : Prop := ∀ n, t = .number n → Cut rest

theorem Tree.stops_of_cut (t : Tree) (h : Cut rest) : t.Stops rest := fun _ _ => h

/-! Names -/

theorem solid_quoted (raw : List Char) : Solid (quoted raw) := solid_cons rfl _

theorem quoted_append (raw cs : List Char) : quoted raw ++ cs = '"' :: (raw ++ '"' :: cs) := by
  simp [quoted]

theorem skipName_eq_ok : skipName cs = .ok rest ↔
    ∃ raw, Sealed raw ∧ Spaced [quoted raw, [':']] cs rest := by
  simp only [spaced_cons (solid_quoted _),spaced_mark (show isBlank ':' = false by rfl)]
  constructor
  · intro h
    unfold skipName at h
    split at h
    · cases h
    · next ds hd =>
      obtain ⟨mid,hm,h'⟩ := bind_eq_ok.1 h
      obtain ⟨raw,hr,rfl⟩ := skipString_eq_ok.1 hm
      split at h'
      · cases h'
      · next es he =>
        obtain rfl := Except.ok.inj h'
        exact ⟨raw,hr,mid,by rw [hd,quoted_append],es,he,rfl⟩
      · cases h'
    · cases h
  · rintro ⟨raw,hr,mid,hm,_,hc,rfl⟩
    rw [quoted_append] at hm
    have hs : skipString (raw ++ '"' :: mid) = .ok mid := skipString_eq_ok.2 ⟨raw,hr,rfl⟩
    simp [skipName,hm,hs,hc,bind,Except.bind,pure,Except.pure]

/-! Skipping a tree -/

def Bracket.close : Bracket → Char
  | .array => ']'
  | .object => '}'

def Bracket.item : Bracket → List Char × Tree → List (List Char)
  | .array, m => m.2.tokens
  | .object, m => member m

def Bracket.Names : Bracket → List Char → Prop
  | .array, k => k = []
  | .object, k => Sealed k

def Passes (k : Nat) (o : List Bracket) (cs rest : List Char) : Prop :=
  k + 2 * rest.length ≤ 2 * cs.length ∧
    ∀ n, skipFrom (n + k) .value o cs = skipFrom n (.behind false) o rest

theorem skipFrom_value {c : Char} {ds : List Char} (hs : skipBlank cs = c :: ds) (n : Nat)
    (o : List Bracket) : skipFrom (n + 1) .value o cs =
      if c = 'n' then (word ['u', 'l', 'l'] ds).bind (skipFrom n (.behind false) o)
      else if c = 't' then (word ['r', 'u', 'e'] ds).bind (skipFrom n (.behind false) o)
      else if c = 'f' then (word ['a', 'l', 's', 'e'] ds).bind (skipFrom n (.behind false) o)
      else if c = '-' then (skipNumber ds).bind (skipFrom n (.behind false) o)
      else if Numeral.isDigit 10 c then (skipNumber (c :: ds)).bind (skipFrom n (.behind false) o)
      else if c = '"' then (skipString ds).bind (skipFrom n (.behind false) o)
      else if c = '[' then skipFrom n (.behind true) (.array :: o) ds
      else if c = '{' then skipFrom n (.behind true) (.object :: o) ds
      else .error .grammar := by
  simp only [skipFrom,hs]

def Tree.Passed (t : Tree) : Prop := ∀ o cs rest, Spaced t.tokens cs rest → t.Stops rest →
  ∃ k, Passes k o cs rest

theorem length_of_skipBlank {c : Char} {ds : List Char} (hs : skipBlank cs = c :: ds) :
    ds.length < cs.length := by
  obtain ⟨g,-,hg⟩ := exists_skipBlank cs
  rw [hg,hs,List.length_append,List.length_cons]
  omega

theorem passes_atom {c : Char} {ds : List Char} {o : List Bracket}
    (hs : skipBlank cs = c :: ds) (hd : rest.length ≤ ds.length)
    (h : ∀ n, skipFrom (n + 1) .value o cs = skipFrom n (.behind false) o rest) :
    ∃ k, Passes k o cs rest := by
  have hl := length_of_skipBlank hs
  exact ⟨1,by omega,h⟩

variable {b : Bracket} {o : List Bracket} {m : List Char × Tree} {ms : List (List Char × Tree)}

theorem skipFrom_close (fresh : Bool) (hs : skipBlank cs = b.close :: rest) (n : Nat) :
    skipFrom (n + 1) (.behind fresh) (b :: o) cs = skipFrom n (.behind false) o rest := by
  cases b <;> simp_all [skipFrom,Bracket.close]

theorem beforeItem_item (hn : b.Names m.1) (hs : Spaced (b.item m) cs rest) :
    ∃ mid, mid.length ≤ cs.length ∧ beforeItem b cs = .ok mid ∧ Spaced m.2.tokens mid rest := by
  cases b with
  | array => exact ⟨cs,Nat.le_refl _,rfl,hs⟩
  | object =>
    obtain ⟨mid,hm,ht⟩ := spaced_named.1 hs
    exact ⟨mid,length_le_of_spaced hm,skipName_eq_ok.2 ⟨m.1,hn,hm⟩,ht⟩

theorem cut_close (b : Bracket) : Cut [b.close] := by
  cases b
  · exact cut_bracket
  · exact cut_brace

theorem cut_more (hs : Spaced (more (ms.map b.item) ++ [[b.close]]) cs rest) : Cut cs := by
  cases ms with
  | nil => exact cut_of_spaced (cut_close b) hs
  | cons m ms => exact cut_of_spaced cut_comma hs

theorem passes_more (hn : ∀ m ∈ ms, b.Names m.1)
    (hp : ∀ m ∈ ms, m.2.Passed)
    (hs : Spaced (more (ms.map b.item) ++ [[b.close]]) cs rest) :
    ∃ k, k + 2 * rest.length ≤ 2 * cs.length ∧
      ∀ n, skipFrom (n + k) (.behind false) (b :: o) cs = skipFrom n (.behind false) o rest := by
  induction ms generalizing cs with
  | nil =>
    obtain ⟨_,hm,rfl⟩ := (spaced_mark (by cases b <;> rfl)).1 hs
    have hl := length_of_skipBlank hm
    exact ⟨1,by omega,skipFrom_close false hm⟩
  | cons m ms ih =>
    rw [List.map_cons,more_cons,List.cons_append,List.append_assoc] at hs
    obtain ⟨c1,hc,hs⟩ := (spaced_mark rfl).1 hs
    obtain ⟨mid,hi,hs⟩ := spaced_append.1 hs
    obtain ⟨c2,hl2,hb,ht⟩ := beforeItem_item (hn m List.mem_cons_self) hi
    have hst := m.2.stops_of_cut (cut_more hs)
    obtain ⟨k1,hl1,h1⟩ := hp m List.mem_cons_self (b :: o) c2 mid ht hst
    obtain ⟨k2,hl,h2⟩ := ih (fun x hx => hn x (List.mem_cons_of_mem m hx))
      (fun x hx => hp x (List.mem_cons_of_mem m hx)) hs
    have hlc := length_of_skipBlank hc
    refine ⟨k2 + k1 + 1,by omega,fun n => ?_⟩
    calc skipFrom (n + (k2 + k1) + 1) (.behind false) (b :: o) cs
        = skipFrom (n + k2 + k1) .value (b :: o) c2 := by
          simp [skipFrom,hc,hb,Except.bind,Nat.add_assoc]
      _ = skipFrom (n + k2) (.behind false) (b :: o) mid := h1 (n + k2)
      _ = skipFrom n (.behind false) o rest := h2 n

theorem skipBlank_skipBlank (cs : List Char) : skipBlank (skipBlank cs) = skipBlank cs :=
  List.dropWhile_idempotent isBlank cs

theorem spaced_skipBlank {x : List Char} {xs : List (List Char)} (hx : Solid x) :
    Spaced (x :: xs) (skipBlank cs) rest ↔ Spaced (x :: xs) cs rest := by
  rw [spaced_cons hx,spaced_cons hx,skipBlank_skipBlank]

theorem item_head (ht : m.2.Grammatical) : ∃ c x xs, b.item m = (c :: x) :: xs ∧
    isBlank c = false ∧ c ≠ ',' ∧ c ≠ b.close := by
  cases b with
  | array =>
    obtain ⟨c,x,xs,h,hc⟩ := ht.head
    exact ⟨c,x,xs,h,hc.isBlank,hc.ne (by decide) (by decide),hc.ne (by decide) (by decide)⟩
  | object => exact ⟨_,_,_,rfl,rfl,by decide,by decide⟩

theorem passes_items (hn : ∀ m ∈ ms, b.Names m.1) (hg : ∀ m ∈ ms, m.2.Grammatical)
    (hp : ∀ m ∈ ms, m.2.Passed)
    (hs : Spaced (separate (ms.map b.item) ++ [[b.close]]) cs rest) :
    ∃ k, k + 2 * rest.length ≤ 2 * cs.length + 1 ∧
      ∀ n, skipFrom (n + k) (.behind true) (b :: o) cs = skipFrom n (.behind false) o rest := by
  cases ms with
  | nil =>
    obtain ⟨_,hm,rfl⟩ := (spaced_mark (by cases b <;> rfl)).1 hs
    have hl := length_of_skipBlank hm
    exact ⟨1,by omega,skipFrom_close true hm⟩
  | cons m ms =>
    rw [List.map_cons,separate,List.append_assoc] at hs
    obtain ⟨mid,hi,hs⟩ := spaced_append.1 hs
    obtain ⟨c,x,xs,hx,hb,hcomma,hclose⟩ := item_head (b := b) (hg m List.mem_cons_self)
    rw [hx] at hi
    obtain ⟨ds,hd,-⟩ := (spaced_token hb).1 hi
    rw [← spaced_skipBlank (solid_cons hb x),← hx] at hi
    obtain ⟨c2,hl2,hb,ht⟩ := beforeItem_item (hn m List.mem_cons_self) hi
    have hst := m.2.stops_of_cut (cut_more hs)
    obtain ⟨k1,hl1,h1⟩ := hp m List.mem_cons_self (b :: o) c2 mid ht hst
    obtain ⟨k2,hl,h2⟩ := passes_more (o := o) (fun x hx => hn x (List.mem_cons_of_mem m hx))
      (fun x hx => hp x (List.mem_cons_of_mem m hx)) hs
    have hls : (skipBlank cs).length ≤ cs.length := (List.dropWhile_suffix _).length_le
    refine ⟨k2 + k1 + 1,by omega,fun n => ?_⟩
    calc skipFrom (n + (k2 + k1) + 1) (.behind true) (b :: o) cs
        = skipFrom (n + k2 + k1) .value (b :: o) c2 := by
          rw [hd] at hb
          cases b <;> simp_all [skipFrom,Except.bind,Nat.add_assoc,Bracket.close]
      _ = skipFrom (n + k2) (.behind false) (b :: o) mid := h1 (n + k2)
      _ = skipFrom n (.behind false) o rest := h2 n

theorem itemTokens_eq_items (ts : List Tree) :
    itemTokens ts = (ts.map ([], ·)).map Bracket.array.item := by
  rw [itemTokens_eq,List.map_map]
  rfl

theorem memberTokens_eq_items (ms : List (List Char × Tree)) :
    memberTokens ms = ms.map Bracket.object.item := memberTokens_eq ms

theorem passed_word {w : List Char} (hw : w ∈ words) : (Tree.word w).Passed := by
  intro o cs rest hs _
  simp only [words,List.mem_cons,List.not_mem_nil,or_false] at hw
  have hword {c : Char} {w : List Char} (hb : Json.isBlank c = false)
      (h : ∀ ds n, skipBlank cs = c :: ds → skipFrom (n + 1) .value o cs =
        (Json.word w ds).bind (skipFrom n (.behind false) o))
      (hs : Spaced [c :: w] cs rest) : ∃ k, Passes k o cs rest := by
    obtain ⟨_,hm,rfl⟩ := (spaced_token hb).1 hs
    refine passes_atom hm (List.suffix_append w _).length_le fun n => ?_
    rw [h _ n hm,word_eq_ok.2 rfl]
    rfl
  obtain rfl | rfl | rfl := hw
  · exact hword rfl (fun ds n hm => by rw [skipFrom_value hm,if_pos rfl]) hs
  · exact hword rfl (fun ds n hm => by rw [skipFrom_value hm]; rfl) hs
  · exact hword rfl (fun ds n hm => by rw [skipFrom_value hm]; rfl) hs

theorem passed_number {ds : List Char} (hn : Numeric ds) : (Tree.number ds).Passed := by
  intro o cs rest hs hr
  obtain ⟨hg,hw,hf,he⟩ := hn
  have hskip := skipNumber_append hw hf he (hr _ rfl)
  obtain ⟨d,ds,rfl,hd⟩ := hw.head
  obtain rfl | rfl := hg
  · have hb : Json.isBlank d = false := Tree.Starts.isBlank (t := .number []) (Or.inr hd)
    obtain ⟨_,hm,rfl⟩ := (spaced_token (x := ds ++ (_ ++ _)) hb).1 hs
    simp only [List.cons_append,List.append_assoc] at hm hskip
    refine passes_atom hm (by simp; omega) fun n => ?_
    have hne {c : Char} (hc : Numeral.isDigit 10 c = false) : d ≠ c :=
      Numeral.ne_of_isDigit hd hc
    rw [skipFrom_value hm,if_neg (hne (by decide)),if_neg (hne (by decide)),
      if_neg (hne (by decide)),if_neg (hne (by decide)),if_pos hd,hskip]
    rfl
  · obtain ⟨_,hm,rfl⟩ := (spaced_token (x := d :: ds ++ (_ ++ _)) rfl).1 hs
    simp only [List.cons_append,List.append_assoc] at hm hskip
    refine passes_atom hm (by simp; omega) fun n => ?_
    rw [skipFrom_value hm]
    simp [hskip,Except.bind]

theorem passed_string {raw : List Char} (hraw : Sealed raw) : (Tree.string raw).Passed := by
  intro o cs rest hs _
  obtain ⟨mid,hm,rfl⟩ := (spaced_cons (solid_quoted raw)).1 hs
  rw [quoted_append] at hm
  have hq : skipString (raw ++ '"' :: mid) = .ok mid := skipString_eq_ok.2 ⟨raw,hraw,rfl⟩
  refine passes_atom hm (by simp; omega) fun n => ?_
  rw [skipFrom_value hm]
  change (skipString (raw ++ '"' :: mid)).bind _ = _
  rw [hq]
  rfl

theorem Tree.Grammatical.passed (h : t.Grammatical) : t.Passed := by
  induction h with
  | word hw => exact passed_word hw
  | number hn => exact passed_number hn
  | string hraw => exact passed_string hraw
  | @array ts h ih =>
    intro o cs rest hs _
    rw [tokens,itemTokens_eq_items] at hs
    obtain ⟨mid,hm,hs⟩ := (spaced_mark rfl).1 hs
    obtain ⟨k,hl,hk⟩ := passes_items (b := .array) (o := o) (by simp [Bracket.Names]) (by simpa using h)
      (by simpa using ih) hs
    have hc := length_of_skipBlank hm
    refine ⟨k + 1,by omega,fun n => ?_⟩
    rw [← Nat.add_assoc,skipFrom_value hm]
    exact hk n
  | @object ms hn h ih =>
    intro o cs rest hs _
    rw [tokens,memberTokens_eq_items] at hs
    obtain ⟨mid,hm,hs⟩ := (spaced_mark rfl).1 hs
    obtain ⟨k,hl,hk⟩ := passes_items (b := .object) (o := o) hn h ih hs
    have hc := length_of_skipBlank hm
    refine ⟨k + 1,by omega,fun n => ?_⟩
    rw [← Nat.add_assoc,skipFrom_value hm]
    exact hk n

theorem skip_of_spaced (h : t.Grammatical) (hs : Spaced t.tokens cs rest) (hr : t.Stops rest) :
    skip cs = .ok rest := by
  obtain ⟨k,hl,hk⟩ := h.passed [] cs rest hs hr
  obtain ⟨n,hn⟩ := Nat.exists_eq_add_of_lt (show k < 2 * cs.length + 2 by omega)
  rw [skip,show 2 * cs.length + 2 = n + 1 + k by omega,hk]
  rfl

/-! What is skipped is a tree -/

def ReadsTree (n : Nat) (o : List Bracket) (cs rest : List Char) : Prop :=
  ∃ (t : Tree) (mid : List Char) (m : Nat), m < n ∧ t.Grammatical ∧ Spaced t.tokens cs mid ∧
    skipFrom m (.behind false) o mid = .ok rest

def ReadsItems (n : Nat) (fresh : Bool) (b : Bracket) (o : List Bracket) (cs rest : List Char) :
    Prop :=
  ∃ (ms : List (List Char × Tree)) (mid : List Char) (m : Nat), m < n ∧
    (∀ x ∈ ms, b.Names x.1) ∧ (∀ x ∈ ms, x.2.Grammatical) ∧
    Spaced (row fresh (ms.map b.item) ++ [[b.close]]) cs mid ∧
    skipFrom m (.behind false) o mid = .ok rest

theorem Numeric.solid {x : List Char} (h : Numeric x) : Solid x := by
  obtain ⟨c,y,ys,ht,hc⟩ := (Tree.Grammatical.number h).head
  obtain ⟨rfl,-⟩ := List.cons.inj (show [x] = _ from ht)
  exact solid_cons hc.isBlank y

theorem readsTree_word {n : Nat} {c : Char} {w ds : List Char} (hw : c :: w ∈ words)
    (hs : skipBlank cs = c :: ds)
    (h : (word w ds).bind (skipFrom n (.behind false) o) = .ok rest) :
    ReadsTree (n + 1) o cs rest := by
  obtain ⟨mid,hm,hk⟩ := bind_eq_ok.1 h
  rw [word_eq_ok.1 hm] at hs
  have hb : isBlank c = false := by
    simp only [words,List.mem_cons,List.cons.injEq,List.not_mem_nil,or_false] at hw
    obtain ⟨rfl,-⟩ | ⟨rfl,-⟩ | ⟨rfl,-⟩ := hw <;> rfl
  exact ⟨_,mid,n,n.lt_succ_self,.word hw,(spaced_token hb).2 ⟨mid,hs,rfl⟩,hk⟩

theorem readsTree_number {n : Nat} {sign ds : List Char} (hg : sign = [] ∨ sign = ['-'])
    (hs : skipBlank cs = sign ++ ds)
    (h : (skipNumber ds).bind (skipFrom n (.behind false) o) = .ok rest) :
    ReadsTree (n + 1) o cs rest := by
  obtain ⟨mid,hm,hk⟩ := bind_eq_ok.1 h
  obtain ⟨whole,frac,exp,hw,hf,he,hx⟩ := number_of_skipNumber hm
  have hn := Numeric.mk hg hw hf he
  exact ⟨_,mid,n,n.lt_succ_self,.number hn,
    (spaced_cons hn.solid).2 ⟨mid,by rw [hs,hx]; simp,rfl⟩,hk⟩

theorem readsTree_string {n : Nat} {ds : List Char} (hs : skipBlank cs = '"' :: ds)
    (h : (skipString ds).bind (skipFrom n (.behind false) o) = .ok rest) :
    ReadsTree (n + 1) o cs rest := by
  obtain ⟨mid,hm,hk⟩ := bind_eq_ok.1 h
  obtain ⟨raw,hr,hd⟩ := skipString_eq_ok.1 hm
  exact ⟨_,mid,n,n.lt_succ_self,.string hr,
    (spaced_cons (solid_quoted raw)).2 ⟨mid,by rw [hs,hd,quoted_append],rfl⟩,hk⟩

theorem readsTree_succ {n : Nat} (h : skipFrom (n + 1) .value o cs = .ok rest)
    (hi : ∀ b ds, skipFrom n (.behind true) (b :: o) ds = .ok rest →
      ReadsItems n true b o ds rest) : ReadsTree (n + 1) o cs rest := by
  cases hs : skipBlank cs with
  | nil => simp [skipFrom,hs] at h
  | cons c ds =>
    rw [skipFrom_value hs] at h
    split at h
    · next hc => exact readsTree_word (by simp [words,hc]) hs h
    split at h
    · next hc => exact readsTree_word (by simp [words,hc]) hs h
    split at h
    · next hc => exact readsTree_word (by simp [words,hc]) hs h
    split at h
    · next hc => exact readsTree_number (Or.inr rfl) (hc ▸ hs) h
    split at h
    · exact readsTree_number (Or.inl rfl) hs h
    split at h
    · next hc => exact readsTree_string (hc ▸ hs) h
    split at h
    · next hc =>
      obtain ⟨ms,mid,m,hm,-,hg,ht,hk⟩ := hi _ _ h
      refine ⟨.array (ms.map Prod.snd),mid,m,by omega,.array ?_,?_,hk⟩
      · exact List.forall_mem_map.2 hg
      rw [Tree.tokens,itemTokens_eq,List.map_map]
      exact (spaced_mark rfl).2 ⟨ds,hc ▸ hs,ht⟩
    split at h
    · next hc =>
      obtain ⟨ms,mid,m,hm,hn,hg,ht,hk⟩ := hi _ _ h
      refine ⟨.object ms,mid,m,by omega,.object hn hg,?_,hk⟩
      rw [Tree.tokens,memberTokens_eq_items]
      exact (spaced_mark rfl).2 ⟨ds,hc ▸ hs,ht⟩
    · cases h

theorem readsItems_cons {n : Nat} {ds : List Char}
    (h : (beforeItem b ds).bind (skipFrom n .value (b :: o)) = .ok rest)
    (hv : ∀ es, skipFrom n .value (b :: o) es = .ok rest → ReadsTree n (b :: o) es rest)
    (hi : ∀ m, m < n → ∀ es, skipFrom m (.behind false) (b :: o) es = .ok rest →
      ReadsItems m false b o es rest) :
    ∃ x ms mid m, m < n ∧ (∀ y ∈ x :: ms, b.Names y.1) ∧
      (∀ y ∈ x :: ms, y.2.Grammatical) ∧
      Spaced (b.item x ++ (more (ms.map b.item) ++ [[b.close]])) ds mid ∧
      skipFrom m (.behind false) o mid = .ok rest := by
  obtain ⟨es,he,hr⟩ := bind_eq_ok.1 h
  obtain ⟨t,e1,m1,hm1,hg,ht,h1⟩ := hv es hr
  obtain ⟨ms,e2,m2,hm2,hn,hgs,hts,h2⟩ := hi m1 hm1 e1 h1
  obtain ⟨k,hk,hsp⟩ : ∃ k, b.Names k ∧ Spaced (b.item (k, t)) ds e1 := by
    cases b with
    | array =>
      obtain rfl := Except.ok.inj he
      exact ⟨[],rfl,ht⟩
    | object =>
      obtain ⟨k,hk,hsp⟩ := skipName_eq_ok.1 he
      exact ⟨k,hk,spaced_named.2 ⟨es,hsp,ht⟩⟩
  exact ⟨(k, t),ms,e2,m2,by omega,List.forall_mem_cons.2 ⟨hk,hn⟩,List.forall_mem_cons.2 ⟨hg,hgs⟩,
    spaced_append.2 ⟨e1,hsp,hts⟩,h2⟩

theorem readsItems_succ {n : Nat} {fresh : Bool}
    (h : skipFrom (n + 1) (.behind fresh) (b :: o) cs = .ok rest)
    (hv : ∀ es, skipFrom n .value (b :: o) es = .ok rest → ReadsTree n (b :: o) es rest)
    (hi : ∀ m, m < n → ∀ es, skipFrom m (.behind false) (b :: o) es = .ok rest →
      ReadsItems m false b o es rest) : ReadsItems (n + 1) fresh b o cs rest := by
  cases hs : skipBlank cs with
  | nil => simp [skipFrom,hs] at h
  | cons c ds =>
    simp only [skipFrom,hs] at h
    split at h
    · next hc =>
      obtain ⟨rfl,rfl⟩ := hc
      obtain ⟨x,ms,mid,m,hm,hn,hg,ht,hk⟩ := readsItems_cons h hv hi
      refine ⟨x :: ms,mid,m,by omega,hn,hg,?_,hk⟩
      simp only [row,List.map_cons,more_cons,Bool.false_eq_true,if_false,List.cons_append,
        List.append_assoc]
      exact (spaced_mark rfl).2 ⟨ds,hs,ht⟩
    split at h
    · next hc =>
      have hc : c = b.close := by
        obtain ⟨rfl,rfl⟩ | ⟨rfl,rfl⟩ := hc <;> rfl
      refine ⟨[],ds,n,n.lt_succ_self,nofun,nofun,?_,h⟩
      have hb : isBlank b.close = false := by cases b <;> rfl
      cases fresh <;> exact (spaced_mark hb).2 ⟨ds,hc ▸ hs,rfl⟩
    split at h
    · next hf =>
      obtain ⟨x,ms,mid,m,hm,hn,hg,ht,hk⟩ := readsItems_cons h hv hi
      refine ⟨x :: ms,mid,m,by omega,hn,hg,?_,hk⟩
      rw [row,if_pos hf,List.map_cons,separate,List.append_assoc]
      obtain ⟨d,y,ys,hy,hd,-⟩ := item_head (b := b) (hg x List.mem_cons_self)
      rw [hy,List.cons_append] at ht ⊢
      rw [← hs] at ht
      exact (spaced_skipBlank (solid_cons hd y)).1 ht
    · cases h

theorem reads_of_skipFrom (n : Nat) :
    (∀ o cs rest, skipFrom n .value o cs = .ok rest → ReadsTree n o cs rest) ∧
    ∀ fresh b o cs rest, skipFrom n (.behind fresh) (b :: o) cs = .ok rest →
      ReadsItems n fresh b o cs rest := by
  induction n using Nat.strongRecOn with
  | _ n ih =>
    cases n with
    | zero => exact ⟨nofun,nofun⟩
    | succ n =>
      constructor
      · intro o cs rest h
        exact readsTree_succ h fun b ds => (ih n n.lt_succ_self).2 true b o ds rest
      · intro fresh b o cs rest h
        exact readsItems_succ h (fun es => (ih n n.lt_succ_self).1 (b :: o) es rest)
          fun m hm es => (ih m (Nat.lt_succ_of_lt hm)).2 false b o es rest

theorem tree_of_skip (h : skip cs = .ok rest) : ∃ t : Tree, t.Grammatical ∧
    Spaced t.tokens cs rest := by
  obtain ⟨t,mid,m,-,hg,ht,hm⟩ := (reads_of_skipFrom _).1 [] cs rest h
  cases m with
  | zero => cases hm
  | succ m =>
    obtain rfl : mid = rest := Except.ok.inj hm
    exact ⟨t,hg,ht⟩

end Json
end EventLoop
