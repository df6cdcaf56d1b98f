import EventLoop.Proofs.Lineage

/-! Scripts over cursors. Every cursor that a script leads to shows what the script says of it: the
entries of its snapshot from the one behind its moves on, and then nothing. A step changes no cursor
but those it names, even where one is a copy of the other. Main statement: `traverses`. -/
namespace EventLoop
namespace Browse

open Json (Value)

/-- The names whose cursor a step sets. -/
def assigns : Browse → List String
  | .start name _ | .atEnd name | .copy name _ | .advance name _ | .next name | .nth name _
  | .take name _ => [name]
  | .postAdvance name to' => [name, to']
  | _ => []

def answer (steps : List Browse) (b : Browse) : Value := (step (shelf steps) b).2

theorem run_concat (steps : List Browse) (b : Browse) :
    run (steps ++ [b]) = run steps ++ [answer steps b] := by
  suffices h : ∀ s, run.go s (steps ++ [b]) =
      run.go s steps ++ [(step (steps.foldl (fun s b => (step s b).1) s) b).2] from h {}
  induction steps with
  | nil => exact fun _ => rfl
  | cons c steps ih => exact fun s => congrArg _ (ih (step s c).1)

theorem shelf_append (steps more : List Browse) :
    shelf (steps ++ more) = more.foldl (fun s b => (step s b).1) (shelf steps) := by
  simp [shelf]

theorem cursor_step {s : Shelf} {b : Browse} {name : String} (h : name ∉ b.assigns) :
    (step s b).1.cursor name = s.cursor name := by
  cases b with
  | start other _ | atEnd other | copy other _ | advance other _ | next other | nth other _
  | take other _ =>
    have hn : name ≠ other := by simpa [assigns] using h
    simp [step,Shelf.cursor_setCursor,hn]
  | postAdvance other to' =>
    obtain ⟨hn,ht⟩ : name ≠ other ∧ name ≠ to' := by simpa [assigns] using h
    simp [step,Shelf.cursor_setCursor,hn,ht]
  | _ => rfl

theorem cursor_foldl {s : Shelf} {more : List Browse} {name : String}
    (h : ∀ b ∈ more, name ∉ b.assigns) :
    (more.foldl (fun s b => (step s b).1) s).cursor name = s.cursor name := by
  induction more generalizing s with
  | nil => rfl
  | cons b more ih =>
    rw [List.foldl_cons,ih fun c hc => h c (List.mem_cons_of_mem b hc),
      cursor_step (h b List.mem_cons_self)]

/-- Every cursor of a script stands where the script has moved it. -/
theorem shows_shelf (steps : List Browse) (name : String) : ((shelf steps).cursor name).Shows
    ((lineage steps).entries name) ((lineage steps).moves name) := by
  have hf := (follows_shelf steps).cursors name
  unfold Lineage.entries Lineage.moves
  cases hc : (lineage steps).cursors name with
  | none =>
    rw [hc] at hf
    exact (Cursor.over_of_atEnd (h := default) hf (Nat.le_refl 0)).shows
  | some p =>
    rw [hc] at hf
    obtain ⟨h,hh,ho⟩ := hf
    have he : (lineage steps).built[p.1]?.getD [] = h.snapshot.entries := by rw [hh.2]; rfl
    dsimp only
    rw [he]
    exact ho.shows

/-- What is to be told of a cursor over the entries `es` that was moved `k` times. -/
def told (es : List Entry) (k : Nat) : Value :=
  let left := Json.count (es.length - k)
  .object [("value", .null), ("end", .bool (decide (es.length ≤ k))), ("len", left),
    ("hint", .array [left, left]), ("entry", entryOrNull es[k]?)]

theorem state_of_shows {c : Cursor} {es : List Entry} {k : Nat} (h : c.Shows es k) :
    state c .null = told es k := by
  have hc : c.atEnd = decide (es.length ≤ k) := by rw [Bool.eq_iff_iff,h.atEnd,decide_eq_true_iff]
  simp only [state,told,hc,h.remaining,h.current]

/-- What every script makes of its cursors. -/
structure Traverses (steps : List Browse) : Prop where
  shows : ∀ name, ((shelf steps).cursor name).Shows ((lineage steps).entries name)
    ((lineage steps).moves name)
  look : ∀ name, answer steps (.look name) =
    told ((lineage steps).entries name) ((lineage steps).moves name)
  /-- The entry of a cursor at its end cannot be had. -/
  deref : ∀ name, answer steps (.deref name) = .object [("panic", .string Cursor.endMessage)] ↔
    ((shelf steps).cursor name).atEnd = true
  /-- The cursor that a step was made from is handed out as it was. -/
  previous : ∀ name to', (shelf (steps ++ [.postAdvance name to'])).cursor to' =
      (shelf steps).cursor name ∧
    ((shelf (steps ++ [.postAdvance name to'])).cursor to').same ((shelf steps).cursor name) = true
  copied : ∀ name source, (shelf (steps ++ [.copy name source])).cursor name =
    (shelf steps).cursor source
  kept : ∀ more name, (∀ b ∈ more, name ∉ b.assigns) →
    (shelf (steps ++ more)).cursor name = (shelf steps).cursor name
  /-- The answers to a script are those to its steps. -/
  answers : ∀ b, run (steps ++ [b]) = run steps ++ [answer steps b]

theorem traverses (steps : List Browse) : Traverses steps where
  shows := shows_shelf steps
  look name := state_of_shows (shows_shelf steps name)
  deref name := by
    have he := (shows_shelf steps name).entry
    cases hc : ((shelf steps).cursor name).current? with
    | none => simpa [answer,step,hc] using he
    | some e => simpa [answer,step,hc,Entry.report] using he
  previous name to' := by
    have hc : (shelf (steps ++ [.postAdvance name to'])).cursor to' =
        (shelf steps).cursor name := by
      simp [step,Shelf.cursor_setCursor,Cursor.postAdvance]
    exact ⟨hc,by rw [hc]; exact (shows_shelf steps name).sound.same_self⟩
  copied name source := by simp [step,Shelf.cursor_setCursor]
  kept more name h := by rw [shelf_append,cursor_foldl h]
  answers := run_concat steps

end Browse
end EventLoop
