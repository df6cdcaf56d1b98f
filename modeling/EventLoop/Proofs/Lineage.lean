import EventLoop.Browse
import EventLoop.Proofs.Standing
import Mathlib.Logic.Function.Basic

/-! What a script says of its cursors: from which of the snapshots that it has built each of them was
made, and how often it was moved since. Copies share the snapshot and the number of moves and go on
by themselves. Main statement: `follows_shelf`. -/
namespace EventLoop
namespace Browse

def Holds (built : List (List Entry)) : Option Nat → Held → Prop
  | none, h => h.snapshot.entries = []
  | some i, h => h.id = i ∧ built[i]? = some h.snapshot.entries

/-- The cursor was made of the snapshot of that number and moved so often. -/
def Fits (built : List (List Entry)) : Option (Nat × Nat) → Cursor → Prop
  | none, c => c.atEnd = true
  | some (i, k), c => ∃ h, Holds built (some i) h ∧ c.Over h k

/-- The snapshots built so far, and what the names stand for: the number of a snapshot, or for a
cursor the number of its snapshot and of its moves. A name not used before, and a cursor that is at
its end by default, comes from none. -/
structure Lineage where
  built : List (List Entry) := []
  snapshots : String → Option Nat := fun _ => none
  cursors : String → Option (Nat × Nat) := fun _ => none

namespace Lineage

def set (l : Lineage) (name : String) (o : Option (Nat × Nat)) : Lineage :=
  { l with cursors := Function.update l.cursors name o }

def move (l : Lineage) (name : String) (n : Nat) : Lineage :=
  l.set name ((l.cursors name).map fun (i, k) => (i, k + n))

/-- What one step does. To take what stands behind `n` entries is to move behind it, and a step that
stops at the end early is as good as one that goes on there. -/
def step (l : Lineage) : Browse → Lineage
  | .hold name es =>
    { l with
      built := l.built ++ [es]
      snapshots := Function.update l.snapshots name (some l.built.length) }
  | .share name source =>
    { l with snapshots := Function.update l.snapshots name (l.snapshots source) }
  | .start name source => l.set name ((l.snapshots source).map (·, 0))
  | .atEnd name => l.set name none
  | .copy name source => l.set name (l.cursors source)
  | .advance name n => l.move name n
  | .next name => l.move name 1
  | .nth name n => l.move name (n + 1)
  | .take name n => l.move name n
  | .postAdvance name to' => (l.move name 1).set to' (l.cursors name)
  | _ => l

def entries (l : Lineage) (name : String) : List Entry :=
  match l.cursors name with
  | none => []
  | some (i, _) => l.built[i]?.getD []

def moves (l : Lineage) (name : String) : Nat :=
  match l.cursors name with
  | none => 0
  | some (_, k) => k

end Lineage

def shelf (steps : List Browse) : Shelf := steps.foldl (fun s b => (step s b).1) {}

def lineage (steps : List Browse) : Lineage := steps.foldl Lineage.step {}

@[simp] theorem shelf_concat (steps : List Browse) (b : Browse) :
    shelf (steps ++ [b]) = (step (shelf steps) b).1 := by simp [shelf]

@[simp] theorem lineage_concat (steps : List Browse) (b : Browse) :
    lineage (steps ++ [b]) = (lineage steps).step b := by simp [lineage]

namespace Shelf

theorem cursor_setCursor (s : Shelf) (name : String) (c : Cursor) :
    (s.setCursor name c).cursor = Function.update s.cursor name c := by
  funext other
  by_cases h : other = name
  · subst h
    simp [cursor,setCursor]
  · have hb : (other == name) = false := by simpa using h
    simp [cursor,setCursor,List.lookup_cons,hb,h]

theorem held_setHeld (s : Shelf) (name : String) (h : Held) :
    (s.setHeld name h).held = Function.update s.held name h := by
  funext other
  by_cases ho : other = name
  · subst ho
    simp [held,setHeld]
  · have hb : (other == name) = false := by simpa using ho
    simp [held,setHeld,List.lookup_cons,hb,ho]

@[simp] theorem held_setCursor (s : Shelf) (name : String) (c : Cursor) :
    (s.setCursor name c).held = s.held := rfl

@[simp] theorem cursor_setHeld (s : Shelf) (name : String) (h : Held) :
    (s.setHeld name h).cursor = s.cursor := rfl

end Shelf

variable {built : List (List Entry)} {i : Option Nat} {o : Option (Nat × Nat)} {h : Held}
  {c d : Cursor} {n : Nat}

theorem Holds.append (hh : Holds built i h) (es : List Entry) : Holds (built ++ [es]) i h := by
  cases i with
  | none => exact hh
  | some i =>
    have hi := (List.getElem?_eq_some_iff.1 hh.2).1
    exact ⟨hh.1,by rw [List.getElem?_append_left hi,hh.2]⟩

theorem Fits.append (hf : Fits built o c) (es : List Entry) : Fits (built ++ [es]) o c := by
  cases o with
  | none => exact hf
  | some p =>
    obtain ⟨h,hh,hc⟩ := hf
    exact ⟨h,hh.append es,hc⟩

theorem Holds.start (hh : Holds built i h) : Fits built (i.map (·, 0)) (Cursor.start h) := by
  cases i with
  | none =>
    have he : h.snapshot.entries = [] := hh
    simp [Fits,Cursor.start,he]
  | some i => exact ⟨h,hh,Cursor.over_start h⟩

theorem Fits.move (hf : Fits built o c) (hd : ∀ h k, c.Over h k → d.Over h (k + n)) :
    Fits built (o.map fun (i, k) => (i, k + n)) d := by
  cases o with
  | none =>
    have hc := Cursor.over_of_atEnd (h := default) (k := 0) hf (Nat.le_refl 0)
    exact (hd _ _ hc).atEnd.2 (Nat.zero_le _)
  | some p =>
    obtain ⟨h,hh,hc⟩ := hf
    exact ⟨h,hh,hd _ _ hc⟩

/-- The shelf is as the script says. -/
structure Follows (s : Shelf) (l : Lineage) : Prop where
  built : s.built = l.built.length
  snapshots : ∀ name, Holds l.built (l.snapshots name) (s.held name)
  cursors : ∀ name, Fits l.built (l.cursors name) (s.cursor name)

namespace Follows

variable {s : Shelf} {l : Lineage}

theorem set (hf : Follows s l) (name : String) (hc : Fits l.built o c) :
    Follows (s.setCursor name c) (l.set name o) where
  built := hf.built
  snapshots := hf.snapshots
  cursors other := by
    rw [Shelf.cursor_setCursor,Lineage.set]
    by_cases hn : other = name
    · subst hn
      simpa using hc
    · simpa [hn] using hf.cursors other

theorem move (hf : Follows s l) (name : String)
    (hd : ∀ h k, (s.cursor name).Over h k → d.Over h (k + n)) :
    Follows (s.setCursor name d) (l.move name n) :=
  hf.set name ((hf.cursors name).move hd)

theorem setHeld (hf : Follows s l) (name : String) (hh : Holds l.built i h) :
    Follows (s.setHeld name h)
      { l with snapshots := Function.update l.snapshots name i } where
  built := hf.built
  snapshots other := by
    rw [Shelf.held_setHeld]
    by_cases hn : other = name
    · subst hn
      simpa using hh
    · simpa [hn] using hf.snapshots other
  cursors := hf.cursors

theorem build (hf : Follows s l) (es : List Entry) :
    Follows { s with built := s.built + 1 } { l with built := l.built ++ [es] } where
  built := by simp [hf.built]
  snapshots name := (hf.snapshots name).append es
  cursors name := (hf.cursors name).append es

theorem step (hf : Follows s l) (b : Browse) : Follows (step s b).1 (l.step b) := by
  cases b with
  | hold name es => exact (hf.build es).setHeld name ⟨hf.built,by simp⟩
  | share name source => exact hf.setHeld name (hf.snapshots source)
  | start name source => exact hf.set name (hf.snapshots source).start
  | atEnd name => exact hf.set name rfl
  | copy name source => exact hf.set name (hf.cursors source)
  | advance name n => exact hf.move name fun h k hc => hc.moved n
  | next name => exact hf.move name fun h k hc => hc.advance
  | nth name n => exact hf.move name fun h k hc => (hc.nth n).2
  | take name n => exact hf.move name fun h k hc => (hc.take n).2
  | postAdvance name to' =>
    exact (hf.move name fun h k hc => hc.advance).set to' (hf.cursors name)
  | info _ | get _ _ | sameSnapshot _ _ | compareEntries _ _ | same _ _ | deref _ | collect _
  | look _ => exact hf

end Follows

theorem follows_shelf (steps : List Browse) : Follows (shelf steps) (lineage steps) := by
  suffices h : ∀ s l, Follows s l → Follows (steps.foldl (fun s b => (step s b).1) s)
      (steps.foldl Lineage.step l) from h {} {} ⟨rfl,fun _ => rfl,fun _ => rfl⟩
  induction steps with
  | nil => exact fun _ _ h => h
  | cons b steps ih => exact fun s l h => ih _ _ (h.step b)

example : (lineage [.hold "s" [default, default], .start "a" "s", .next "a", .copy "b" "a",
    .nth "a" 3]).cursors "b" = some (0, 1) := rfl

end Browse
end EventLoop
