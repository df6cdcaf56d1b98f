import EventLoop.Proofs.Arrangement
import EventLoop.Proofs.Standing
import EventLoop.Traversal

/-! What the older interface shows of a lookup. A lookup that succeeds has found something, so that
its cursor stands in front of an entry; one that fails comes with a cursor at its end. -/
namespace EventLoop

/-- A cursor made of what was found, which nobody has moved yet. -/
structure Cursor.Fresh (id : Nat) (found : Snapshot) (c : Cursor) : Prop where
  made : c = Cursor.start ⟨id, found⟩
  before : c.atEnd = false
  first : ∃ e, c.current? = some e ∧ found.entries.head? = some e
  differs : c.same {} = false
  drains : ∀ es, c.Drains es ↔ es = found.entries
  rest : c.rest = found.entries

theorem Cursor.fresh_start (id : Nat) {found : Snapshot} (h : found.entries ≠ []) :
    (Cursor.start ⟨id, found⟩).Fresh id found := by
  have ho := over_start ⟨id, found⟩
  obtain ⟨e,es,he⟩ := List.exists_cons_of_ne_nil h
  have hb : (Cursor.start ⟨id, found⟩).atEnd = false := by simp [Cursor.start,he]
  exact {
    made := rfl
    before := hb
    first := ⟨e,by rw [ho.current?]; simp [he],by simp [he]⟩
    differs := by simp [Cursor.same,hb]
    drains := ho.drains_iff
    rest := ho.rest }

namespace Query

variable {settings : LookupSettings} {directory : Directory} {q : Query} {d : Span}

theorem entries_ne_nil {found : Snapshot}
    (h : (q.run settings directory).outcome = some (d, .ok found)) : found.entries ≠ [] := by
  obtain ⟨port,ips,-,-,he⟩ := obtains_of_outcome h
  by_cases hn : ips = []
  · simp [entries,hn] at he
  · rw [entries,if_neg hn] at he
    exact Except.ok.inj he ▸ (arranged q port settings.preferV6 hn).nonempty

end Query

/-- What a caller of the older interface gets who waits for a lookup: the failure unchanged, or a
fresh cursor. -/
structure Cursor.Answers (id : Nat) (result : Except Failure Snapshot)
    (answer : Except Failure Cursor) : Prop where
  failed : ∀ why, answer = .error why ↔ result = .error why
  found : ∀ c, answer = .ok c ↔ ∃ found, result = .ok found ∧ c.Fresh id found

theorem Query.answers_ofLookup {settings : LookupSettings} {directory : Directory} {q : Query}
    {d : Span} {result : Except Failure Snapshot}
    (h : (q.run settings directory).outcome = some (d, result)) (id : Nat) :
    Cursor.Answers id result (Cursor.ofLookup id result) := by
  cases result with
  | error why => exact ⟨by simp [Cursor.ofLookup,Except.map],by simp [Cursor.ofLookup,Except.map]⟩
  | ok found =>
    refine ⟨by simp [Cursor.ofLookup,Except.map],fun c => ?_⟩
    constructor
    · intro hc
      obtain rfl := Except.ok.inj hc
      exact ⟨found,rfl,Cursor.fresh_start id (entries_ne_nil h)⟩
    · rintro ⟨found',hf,hc⟩
      obtain rfl := Except.ok.inj hf
      rw [hc.made]
      rfl

/-- What a handler of the older interface gets for a lookup: that it went well, with the entries
behind a fresh cursor, or the failure beside a cursor at its end. -/
structure Outcome.Shows (result : Except Failure Snapshot) (v : Outcome) : Prop where
  same : v = Outcome.ofResult result
  found : ∀ id found, result = .ok found → (v.cursor id).Fresh id found
  failed : ∀ id why, result = .error why → v = .failed why ∧ v.cursor id = {}

theorem Query.shows_ofResult {settings : LookupSettings} {directory : Directory} {q : Query}
    {d : Span} {result : Except Failure Snapshot}
    (h : (q.run settings directory).outcome = some (d, result)) :
    (Outcome.ofResult result).Shows result where
  same := rfl
  found id found hf := by
    subst hf
    exact Cursor.fresh_start id (entries_ne_nil h)
  failed id why hf := by
    subst hf
    exact ⟨rfl,rfl⟩

theorem Outcome.Shows.failed_iff {result : Except Failure Snapshot} {v : Outcome}
    (h : v.Shows result) (id : Nat) : (∃ why, v = .failed why) ↔ (v.cursor id).atEnd = true := by
  cases result with
  | ok found =>
    have hb := (h.found id found rfl).before
    constructor
    · rintro ⟨why,hv⟩
      cases h.same.symm.trans hv
    · intro he
      rw [hb] at he
      cases he
  | error why =>
    obtain ⟨hv,hc⟩ := h.failed id why rfl
    exact ⟨fun _ => by rw [hc],fun _ => ⟨why,hv⟩⟩

end EventLoop
