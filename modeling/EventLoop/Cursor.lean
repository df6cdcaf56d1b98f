import EventLoop.Snapshot

/-! Single-pass traversal of a snapshot. Copies of a cursor share the snapshot and move
independently; a cursor past the last entry is at its end for good. -/
namespace EventLoop

/-- A snapshot together with the identity that its copies share. -/
structure Held where
  id : Nat
  snapshot : Snapshot
  deriving DecidableEq, Inhabited, Repr

/-- The default cursor is at its end and belongs to no snapshot. -/
structure Cursor where
  held : Option Held := none
  position : Nat := 0
  atEnd : Bool := true
  deriving Inhabited, Repr

namespace Cursor

def start (h : Held) : Cursor :=
  { held := some h, position := 0, atEnd := h.snapshot.entries.isEmpty }

def current? (c : Cursor) : Option Entry :=
  if c.atEnd then none else c.held.bind (·.snapshot.get? c.position)

def size (c : Cursor) : Nat := (c.held.map (·.snapshot.size)).getD 0

def advance (c : Cursor) : Cursor :=
  if c.atEnd then c
  else { c with position := c.position + 1, atEnd := c.size ≤ c.position + 1 }

def postAdvance (c : Cursor) : Cursor × Cursor := (c, c.advance)

def next (c : Cursor) : Option Entry × Cursor := (c.current?, c.advance)

def remaining (c : Cursor) : Nat := if c.atEnd then 0 else c.size - c.position

/-- Drops `n` entries and takes the next, stopping early at the end. -/
def nth (c : Cursor) : Nat → Option Entry × Cursor
  | 0 => c.next
  | n+1 =>
    match c.next with
    | (none, c) => (none, c)
    | (some _, c) => c.nth n

def take (c : Cursor) : Nat → List Entry × Cursor
  | 0 => ([], c)
  | n+1 =>
    match c.next with
    | (none, c) => ([], c)
    | (some e, c) => let (es, c) := c.take n; (e :: es, c)

def rest (c : Cursor) : List Entry := (c.take c.remaining).1

/-- Two cursors agree when both are at their ends, or both stand at the same place of one
shared snapshot. -/
def same (c d : Cursor) : Bool :=
  if c.atEnd || d.atEnd then c.atEnd && d.atEnd
  else match c.held, d.held with
    | some h, some k => h.id = k.id && c.position = d.position
    | _, _ => false

def endMessage : String := "dereferenced a resolver iterator at its end"

end Cursor
end EventLoop
