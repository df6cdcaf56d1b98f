import EventLoop.Json.Reader

/-! Syntax of JSON. A text is a row of tokens with blanks before each of them, and the tokens are
those of a tree. Numbers, and the characters between the quotes of a string, are kept as they are
written. -/
namespace EventLoop
namespace Json

/-! Numbers -/

def Digits (ds : List Char) : Prop := ds ≠ [] ∧ ∀ c ∈ ds, Numeral.isDigit 10 c = true

/-- The digits before a point: a zero stands alone. -/
inductive Whole : List Char → Prop
  | zero : Whole ['0']
  | digits {c : Char} {cs : List Char} (hc : c ≠ '0') (h : Digits (c :: cs)) : Whole (c :: cs)

inductive Fraction : List Char → Prop
  | none : Fraction []
  | some {ds : List Char} (h : Digits ds) : Fraction ('.' :: ds)

inductive Exponent : List Char → Prop
  | none : Exponent []
  | some {e : Char} {sign ds : List Char} (he : e = 'e' ∨ e = 'E')
      (hs : sign = [] ∨ sign = ['+'] ∨ sign = ['-']) (h : Digits ds) : Exponent (e :: (sign ++ ds))

inductive Numeric : List Char → Prop
  | mk {sign whole frac exp : List Char} (hs : sign = [] ∨ sign = ['-']) (hw : Whole whole)
      (hf : Fraction frac) (he : Exponent exp) : Numeric (sign ++ (whole ++ (frac ++ exp)))

/-! Strings -/

def Hex (ds : List Char) (n : Nat) : Prop :=
  ds.length = 4 ∧ ds.all (Numeral.isDigit 16) = true ∧ Numeral.value 16 ds = n

/-- What an escape denotes. A character beyond sixteen bits takes a pair of halves, and neither
half denotes anything by itself. -/
inductive Escape : List Char → Char → Prop
  | short {c x : Char} (h : shortEscape? c = some x) : Escape [c] x
  | hex {ds : List Char} {n : Nat} (h : Hex ds n) (hn : ¬ (0xd800 ≤ n ∧ n ≤ 0xdfff)) :
      Escape ('u' :: ds) (Char.ofNat n)
  | pair {ds es : List Char} {high low : Nat} (hd : Hex ds high)
      (hh : 0xd800 ≤ high ∧ high ≤ 0xdbff) (he : Hex es low) (hl : 0xdc00 ≤ low ∧ low ≤ 0xdfff) :
      Escape ('u' :: (ds ++ '\\' :: 'u' :: es))
        (Char.ofNat ((high - 0xd800) * 0x400 + (low - 0xdc00) + 0x10000))

def Plain (c : Char) : Prop := c ≠ '"' ∧ c ≠ '\\' ∧ 32 ≤ c.toNat

/-- What the characters between two quotes denote. -/
inductive Spelt : List Char → List Char → Prop
  | nil : Spelt [] []
  | plain {c : Char} {raw xs : List Char} (hc : Plain c) (h : Spelt raw xs) :
      Spelt (c :: raw) (c :: xs)
  | escape {e raw xs : List Char} {x : Char} (he : Escape e x) (h : Spelt raw xs) :
      Spelt ('\\' :: (e ++ raw)) (x :: xs)

/-- The characters that may stand between two quotes, whether or not they denote anything. -/
inductive Sealed : List Char → Prop
  | nil : Sealed []
  | plain {c : Char} {raw : List Char} (hc : Plain c) (h : Sealed raw) : Sealed (c :: raw)
  | short {c x : Char} {raw : List Char} (hc : shortEscape? c = some x) (h : Sealed raw) :
      Sealed ('\\' :: c :: raw)
  | hex {ds raw : List Char} {n : Nat} (hd : Hex ds n) (h : Sealed raw) :
      Sealed ('\\' :: 'u' :: (ds ++ raw))

theorem Spelt.sealed {raw xs : List Char} (h : Spelt raw xs) : Sealed raw := by
  induction h with
  | nil => exact .nil
  | plain hc _ ih => exact .plain hc ih
  | escape he _ ih =>
    cases he with
    | short hs => exact .short hs ih
    | hex hd _ => exact .hex hd ih
    | pair hd _ he _ =>
      rw [List.cons_append,List.append_assoc]
      exact .hex hd (.hex he ih)

def quoted (raw : List Char) : List Char := '"' :: (raw ++ ['"'])

/-! Trees -/

inductive Tree
  | word (w : List Char)
  | number (n : List Char)
  | string (raw : List Char)
  | array (items : List Tree)
  | object (members : List (List Char × Tree))

def words : List (List Char) := [['n','u','l','l'], ['t','r','u','e'], ['f','a','l','s','e']]

inductive Tree.Grammatical : Tree → Prop
  | word {w : List Char} (h : w ∈ words) : Grammatical (.word w)
  | number {n : List Char} (h : Numeric n) : Grammatical (.number n)
  | string {raw : List Char} (h : Sealed raw) : Grammatical (.string raw)
  | array {ts : List Tree} (h : ∀ t ∈ ts, Grammatical t) : Grammatical (.array ts)
  | object {ms : List (List Char × Tree)} (hn : ∀ m ∈ ms, Sealed m.1)
      (h : ∀ m ∈ ms, Grammatical m.2) : Grammatical (.object ms)

def more (xs : List (List (List Char))) : List (List Char) := xs.flatMap ([','] :: ·)

def separate : List (List (List Char)) → List (List Char)
  | [] => []
  | x :: xs => x ++ more xs

/-- Items up to the closing bracket, the first of which has a comma before it unless it stands
behind the opening bracket. -/
def row (first : Bool) (xs : List (List (List Char))) : List (List Char) :=
  if first then separate xs else more xs

mutual

def Tree.tokens : Tree → List (List Char)
  | .word w => [w]
  | .number n => [n]
  | .string raw => [quoted raw]
  | .array ts => ['['] :: (separate (itemTokens ts) ++ [[']']])
  | .object ms => ['{'] :: (separate (memberTokens ms) ++ [['}']])

def itemTokens : List Tree → List (List (List Char))
  | [] => []
  | t :: ts => t.tokens :: itemTokens ts

def memberTokens : List (List Char × Tree) → List (List (List Char))
  | [] => []
  | (k, t) :: ms => (quoted k :: [':'] :: t.tokens) :: memberTokens ms

end

/-! Blanks -/

def Blank (g : List Char) : Prop := ∀ c ∈ g, isBlank c = true

/-- The text goes on with the tokens, with blanks before each of them, and then with the rest. -/
def Spaced : List (List Char) → List Char → List Char → Prop
  | [], cs, rest => cs = rest
  | x :: xs, cs, rest => ∃ g mid, Blank g ∧ cs = g ++ (x ++ mid) ∧ Spaced xs mid rest

/-- The text consists of the tokens of the tree, with blanks between them and around them. -/
def Tree.Spells (t : Tree) (text : String) : Prop :=
  ∃ g, Blank g ∧ Spaced t.tokens text.toList g

/-- A token starts with no blank. -/
def Solid (x : List Char) : Prop := ∀ rest, skipBlank (x ++ rest) = x ++ rest

theorem skipBlank_append {g : List Char} (hg : Blank g) (cs : List Char) :
    skipBlank (g ++ cs) = skipBlank cs := List.dropWhile_append_of_pos hg

theorem exists_skipBlank (cs : List Char) : ∃ g, Blank g ∧ cs = g ++ skipBlank cs :=
  ⟨cs.takeWhile isBlank,fun _ hc => List.all_eq_true.1 List.all_takeWhile _ hc,
    List.takeWhile_append_dropWhile.symm⟩

theorem blank_of_skipBlank {g : List Char} (h : skipBlank g = []) : Blank g := by
  obtain ⟨b,hb,hg⟩ := exists_skipBlank g
  rw [hg,h,List.append_nil]
  exact hb

theorem spaced_cons {x cs rest : List Char} {xs : List (List Char)} (hx : Solid x) :
    Spaced (x :: xs) cs rest ↔ ∃ mid, skipBlank cs = x ++ mid ∧ Spaced xs mid rest := by
  constructor
  · rintro ⟨g,mid,hg,rfl,h⟩
    exact ⟨mid,by rw [skipBlank_append hg,hx],h⟩
  · rintro ⟨mid,hs,h⟩
    obtain ⟨g,hg,hcs⟩ := exists_skipBlank cs
    exact ⟨g,mid,hg,by rw [hcs,hs],h⟩

theorem spaced_append {xs ys : List (List Char)} {cs rest : List Char} :
    Spaced (xs ++ ys) cs rest ↔ ∃ mid, Spaced xs cs mid ∧ Spaced ys mid rest := by
  induction xs generalizing cs with
  | nil => simp [Spaced]
  | cons x xs ih =>
    simp only [List.cons_append,Spaced,ih]
    constructor
    · rintro ⟨g,c,hg,hc,d,hx,hy⟩
      exact ⟨d,⟨g,c,hg,hc,hx⟩,hy⟩
    · rintro ⟨d,⟨g,c,hg,hc,hx⟩,hy⟩
      exact ⟨g,c,hg,hc,d,hx,hy⟩

theorem spaced_named {k cs rest : List Char} {ys : List (List Char)} :
    Spaced (quoted k :: [':'] :: ys) cs rest ↔
      ∃ mid, Spaced [quoted k,[':']] cs mid ∧ Spaced ys mid rest := by
  rw [← spaced_append]
  rfl

theorem length_le_of_spaced {xs : List (List Char)} {cs rest : List Char}
    (h : Spaced xs cs rest) : rest.length ≤ cs.length := by
  induction xs generalizing cs with
  | nil => exact Nat.le_of_eq (congrArg List.length h).symm
  | cons x xs ih =>
    obtain ⟨g,mid,-,rfl,h⟩ := h
    have := ih h
    simp only [List.length_append]
    omega

theorem itemTokens_eq (ts : List Tree) : itemTokens ts = ts.map Tree.tokens := by
  induction ts with
  | nil => rfl
  | cons t ts ih => rw [itemTokens,ih,List.map_cons]

def member (m : List Char × Tree) : List (List Char) := quoted m.1 :: [':'] :: m.2.tokens

theorem memberTokens_eq (ms : List (List Char × Tree)) : memberTokens ms = ms.map member := by
  induction ms with
  | nil => rfl
  | cons m ms ih => rw [memberTokens,ih,List.map_cons,member]

end Json
end EventLoop
