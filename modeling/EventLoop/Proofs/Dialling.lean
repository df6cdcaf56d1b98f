import EventLoop.Dial
import EventLoop.Proofs.Browsing

/-! Connecting to what a lookup has found. The endpoints behind the first `k` are tried in their
order, each once, until one answers; when none does, the fault of the last is handed on. So it is for
every cursor that was moved `k` times, however it was moved. Main statement: `connects`. -/
namespace EventLoop
namespace Dial

variable {α : Type} {attempt : Nat → Endpoint → Except SystemFault α} {n : Nat} {last : Failure}
  {x : Endpoint} {xs : List Endpoint} {a : α} {fault : SystemFault}

/-- The first `j` endpoints refuse, with so many attempts before them. -/
def Refuses (attempt : Nat → Endpoint → Except SystemFault α) (n : Nat) (xs : List Endpoint)
    (j : Nat) : Prop :=
  ∀ i < j, ∃ x fault, xs[i]? = some x ∧ attempt (n + i) x = .error fault

theorem refuses_cons (hx : attempt n x = .error fault) (j : Nat) :
    Refuses attempt n (x :: xs) (j + 1) ↔ Refuses attempt (n + 1) xs j := by
  constructor
  · intro h i hi
    obtain ⟨y,g,hy,hg⟩ := h (i + 1) (Nat.succ_lt_succ hi)
    exact ⟨y,g,by simpa using hy,by rwa [Nat.add_right_comm n 1 i]⟩
  · intro h i hi
    cases i with
    | zero => exact ⟨x,fault,rfl,hx⟩
    | succ i =>
      obtain ⟨y,g,hy,hg⟩ := h i (Nat.lt_of_succ_lt_succ hi)
      exact ⟨y,g,by simpa using hy,by rwa [Nat.add_right_comm n 1 i] at hg⟩

theorem not_refuses_cons (hx : attempt n x = .ok a) (j : Nat) :
    ¬ Refuses attempt n (x :: xs) (j + 1) := by
  intro h
  obtain ⟨y,g,hy,hg⟩ := h 0 (Nat.zero_lt_succ j)
  obtain rfl : x = y := by simpa using hy
  exact absurd (hx.symm.trans hg) (by simp)

theorem through_of_ok (hx : attempt n x = .ok a) :
    through attempt n last (x :: xs) = ⟨[x],.ok (a,x)⟩ := by simp [through,hx]

theorem tried_of_error (hx : attempt n x = .error fault) :
    (through attempt n last (x :: xs)).tried =
      x :: (through attempt (n + 1) (.system fault) xs).tried := by simp [through,hx]

theorem result_of_error (hx : attempt n x = .error fault) :
    (through attempt n last (x :: xs)).result =
      (through attempt (n + 1) (.system fault) xs).result := by simp [through,hx]

theorem tried_through (n : Nat) (last : Failure) (xs : List Endpoint) (j : Nat) (e : Endpoint) :
    (through attempt n last xs).tried[j]? = some e ↔ xs[j]? = some e ∧ Refuses attempt n xs j := by
  induction xs generalizing n last j with
  | nil => simp [through]
  | cons x xs ih =>
    cases hx : attempt n x with
    | ok a =>
      rw [through_of_ok hx]
      cases j with
      | zero => simp [Refuses]
      | succ j => simp [not_refuses_cons hx j]
    | error fault =>
      rw [tried_of_error hx]
      cases j with
      | zero => simp [Refuses]
      | succ j => simpa [refuses_cons hx j] using ih (n + 1) (.system fault) j

theorem result_eq_ok (n : Nat) (last : Failure) (xs : List Endpoint) (a : α) (e : Endpoint) :
    (through attempt n last xs).result = .ok (a,e) ↔
      ∃ j, (through attempt n last xs).tried[j]? = some e ∧ attempt (n + j) e = .ok a := by
  induction xs generalizing n last with
  | nil => simp [through]
  | cons x xs ih =>
    cases hx : attempt n x with
    | ok b =>
      rw [through_of_ok hx]
      constructor
      · intro h
        obtain ⟨rfl,rfl⟩ : b = a ∧ x = e := by simpa using h
        exact ⟨0,rfl,hx⟩
      · rintro ⟨j,hj,he⟩
        obtain ⟨rfl,rfl⟩ : j = 0 ∧ x = e := by
          cases j with
          | zero => exact ⟨rfl,by simpa using hj⟩
          | succ j => simp at hj
        have hb : b = a := by simpa using hx.symm.trans he
        rw [hb]
    | error fault =>
      rw [result_of_error hx,tried_of_error hx,ih]
      constructor
      · rintro ⟨j,hj,he⟩
        exact ⟨j + 1,by simpa using hj,by rwa [Nat.add_right_comm n 1 j] at he⟩
      · rintro ⟨j,hj,he⟩
        cases j with
        | zero =>
          obtain rfl : x = e := by simpa using hj
          exact absurd (hx.symm.trans he) (by simp)
        | succ j => exact ⟨j,by simpa using hj,by rwa [Nat.add_right_comm n 1 j]⟩

theorem result_eq_error (n : Nat) (last : Failure) (xs : List Endpoint) (why : Failure) :
    (through attempt n last xs).result = .error why ↔ (xs = [] ∧ why = last) ∨
      ∃ j x fault, xs.length = j + 1 ∧ Refuses attempt n xs j ∧ xs[j]? = some x ∧
        attempt (n + j) x = .error fault ∧ why = .system fault := by
  induction xs generalizing n last with
  | nil => simp [through,eq_comm]
  | cons x xs ih =>
    cases hx : attempt n x with
    | ok a =>
      rw [through_of_ok hx]
      constructor
      · intro h
        exact absurd h (by simp)
      · rintro (⟨h,-⟩ | ⟨j,y,g,-,hr,hy,hg,-⟩)
        · exact absurd h (by simp)
        · cases j with
          | zero =>
            obtain rfl : x = y := by simpa using hy
            exact absurd (hx.symm.trans hg) (by simp)
          | succ j => exact absurd hr (not_refuses_cons hx j)
    | error fault =>
      rw [result_of_error hx,ih]
      constructor
      · rintro (⟨rfl,rfl⟩ | ⟨j,y,g,hl,hr,hy,hg,hw⟩)
        · exact Or.inr ⟨0,x,fault,rfl,by simp [Refuses],rfl,hx,rfl⟩
        · refine Or.inr ⟨j + 1,y,g,by simp [hl],(refuses_cons hx j).2 hr,by simpa using hy,?_,hw⟩
          rwa [Nat.add_right_comm n 1 j] at hg
      · rintro (⟨h,-⟩ | ⟨j,y,g,hl,hr,hy,hg,hw⟩)
        · exact absurd h (by simp)
        · cases j with
          | zero =>
            obtain rfl : x = y := by simpa using hy
            obtain rfl : fault = g := by simpa using hx.symm.trans hg
            exact Or.inl ⟨by simpa using hl,hw⟩
          | succ j =>
            refine Or.inr ⟨j,y,g,by simpa using hl,(refuses_cons hx j).1 hr,by simpa using hy,?_,hw⟩
            rwa [Nat.add_right_comm n 1 j]

theorem getLast?_tried {e : Endpoint} (h : (through attempt n last xs).result = .ok (a,e)) :
    (through attempt n last xs).tried.getLast? = some e := by
  obtain ⟨j,hj,ha⟩ := (result_eq_ok n last xs a e).1 h
  have hn : (through attempt n last xs).tried[j + 1]? = none := by
    by_contra hn
    obtain ⟨e',he'⟩ := Option.ne_none_iff_exists'.1 hn
    obtain ⟨y,fault,hy,hf⟩ := ((tried_through n last xs (j + 1) e').1 he').2 j (Nat.lt_succ_self j)
    obtain rfl : e = y := Option.some.inj (((tried_through n last xs j e).1 hj).1.symm.trans hy)
    exact absurd (ha.symm.trans hf) (by simp)
  have hl : (through attempt n last xs).tried.length = j + 1 :=
    Nat.le_antisymm (List.getElem?_eq_none_iff.1 hn) (List.getElem?_eq_some_iff.1 hj).1
  rwa [List.getLast?_eq_getElem?,hl]

def Refused (attempt : Nat → Endpoint → Except SystemFault α) (es : List Entry) (k j : Nat) :
    Prop :=
  ∀ i < j, ∃ x fault, es[k + i]? = some x ∧ attempt i x.endpoint = .error fault

/-- What comes of connecting to the first of the entries `es` behind the first `k`. -/
structure Dials (attempt : Nat → Endpoint → Except SystemFault α) (es : List Entry) (k : Nat)
    (d : Dial α) : Prop where
  tried : ∀ j e, d.tried[j]? = some e ↔
    (∃ x, es[k + j]? = some x ∧ x.endpoint = e) ∧ Refused attempt es k j
  connected : ∀ a e, d.result = .ok (a, e) ↔ ∃ j, d.tried[j]? = some e ∧ attempt j e = .ok a
  stops : ∀ a e, d.result = .ok (a, e) → d.tried.getLast? = some e
  failed : ∀ why, d.result = .error why ↔ (es.length ≤ k ∧ why = Failure.nothingToConnect) ∨
    ∃ j x fault, es.length = k + j + 1 ∧ Refused attempt es k j ∧ es[k + j]? = some x ∧
      attempt j x.endpoint = .error fault ∧ why = .system fault

variable {es : List Entry} {k j : Nat} {e : Endpoint}

theorem getElem?_endpoints (es : List Entry) (k j : Nat) (e : Endpoint) :
    ((es.drop k).map (·.endpoint))[j]? = some e ↔ ∃ x, es[k + j]? = some x ∧ x.endpoint = e := by
  rw [List.getElem?_map,List.getElem?_drop,Option.map_eq_some_iff]

theorem refuses_endpoints (attempt : Nat → Endpoint → Except SystemFault α) (es : List Entry)
    (k j : Nat) :
    Refuses attempt 0 ((es.drop k).map (·.endpoint)) j ↔ Refused attempt es k j := by
  refine forall₂_congr fun i _ => ?_
  simp only [getElem?_endpoints,Nat.zero_add]
  constructor
  · rintro ⟨-,fault,⟨x,hx,rfl⟩,hf⟩
    exact ⟨x,fault,hx,hf⟩
  · rintro ⟨x,fault,hx,hf⟩
    exact ⟨_,fault,⟨x,hx,rfl⟩,hf⟩

theorem dials_through (attempt : Nat → Endpoint → Except SystemFault α) (es : List Entry)
    (k : Nat) : Dials attempt es k
      (through attempt 0 Failure.nothingToConnect ((es.drop k).map (·.endpoint))) where
  tried j e := by rw [tried_through,getElem?_endpoints,refuses_endpoints]
  connected a e := by simpa using result_eq_ok 0 Failure.nothingToConnect _ a e
  stops _ _ := getLast?_tried
  failed why := by
    rw [result_eq_error]
    refine or_congr (by simp) (exists_congr fun j => ?_)
    have hl : ((es.drop k).map (·.endpoint)).length = j + 1 ↔ es.length = k + j + 1 := by
      rw [List.length_map,List.length_drop]
      omega
    simp only [hl,refuses_endpoints,getElem?_endpoints,Nat.zero_add]
    constructor
    · rintro ⟨-,fault,hk,hr,⟨x,hx,rfl⟩,hf,hw⟩
      exact ⟨x,fault,hk,hr,hx,hf,hw⟩
    · rintro ⟨x,fault,hk,hr,hx,hf,hw⟩
      exact ⟨_,fault,hk,hr,⟨x,hx,rfl⟩,hf,hw⟩

theorem tried_eq_nil (attempt : Nat → Endpoint → Except SystemFault α) (xs : List Endpoint) :
    ((through attempt 0 Failure.nothingToConnect xs).tried = [] ∧ ∃ text,
      (through attempt 0 Failure.nothingToConnect xs).result =
        .error (.system ⟨.invalidInput, text⟩)) ↔ xs = [] := by
  cases xs with
  | nil => simp [through,Failure.nothingToConnect]
  | cons x xs =>
    have hx : (through attempt 0 Failure.nothingToConnect (x :: xs)).tried[0]? = some x :=
      (tried_through 0 Failure.nothingToConnect (x :: xs) 0 x).2 ⟨rfl,by simp [Refuses]⟩
    simp only [reduceCtorEq,iff_false,not_and]
    intro ht
    simp [ht] at hx

/-- The cursor goes over the entries `es` and was moved `k` times, and the client connects to the
first of those that it has still to come. -/
structure Connects (attempt : Attempt α) (es : List Entry) (k : Nat) (c : Cursor) : Prop where
  any : Dials (attempt none) es k (any attempt c)
  within : ∀ limit, Dials (attempt limit) es k (anyWithin attempt limit c)
  /-- A cursor at its end leaves nothing to try. -/
  invalid : ∀ limit, c.atEnd = true ↔ (anyWithin attempt limit c).tried = [] ∧
    ∃ text, (anyWithin attempt limit c).result = .error (.system ⟨.invalidInput, text⟩)

theorem connects_of_shows (attempt : Attempt α) {c : Cursor} (hs : c.Shows es k) :
    Connects attempt es k c := by
  have hr : c.rest = es.drop k := by
    rw [Cursor.rest,hs.take,hs.remaining]
    exact List.take_of_length_le (by simp)
  have ha (limit : Option Span) : anyWithin attempt limit c =
      through (attempt limit) 0 Failure.nothingToConnect ((es.drop k).map (·.endpoint)) := by
    rw [anyWithin,hr]
    rfl
  have hd (limit : Option Span) : Dials (attempt limit) es k (anyWithin attempt limit c) := by
    rw [ha]
    exact dials_through (attempt limit) es k
  refine ⟨hd none,hd,fun limit => ?_⟩
  rw [ha,tried_eq_nil,hs.atEnd]
  simp

/-- A client connects to the first endpoint that answers of those which a cursor has still to come:
every cursor that was advanced `k` times, and every one that a script leads to. -/
theorem connects (attempt : Attempt α) :
    (∀ (h : Held) k, Connects attempt h.snapshot.entries k
      (k.repeat Cursor.advance (Cursor.start h))) ∧
    ∀ (steps : List Browse) name, Connects attempt ((Browse.lineage steps).entries name)
      ((Browse.lineage steps).moves name) ((Browse.shelf steps).cursor name) := by
  constructor
  · intro h k
    have ho := (Cursor.over_start h).moved k
    rw [Nat.zero_add] at ho
    exact connects_of_shows attempt ho.shows
  · intro steps name
    exact connects_of_shows attempt (Browse.shows_shelf steps name)

end Dial
end EventLoop
