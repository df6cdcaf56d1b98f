import EventLoop.Cursor
import EventLoop.Script.Report

/-! Scripts over named snapshots and cursors, one answer a step. -/
namespace EventLoop

open Json (Value)

/-- What is done with the snapshots and cursors of given names. -/
inductive Browse
  | hold (name : String) (entries : List Entry)
  | share (name source : String)
  | info (name : String)
  | get (name : String) (i : Nat)
  | sameSnapshot (a b : String)
  | compareEntries (a b : Entry)
  | same (a b : String)
  | deref (name : String)
  | collect (name : String)
  | start (name source : String)
  | atEnd (name : String)
  | copy (name source : String)
  | look (name : String)
  | advance (name : String) (n : Nat)
  | next (name : String)
  | nth (name : String) (n : Nat)
  | take (name : String) (n : Nat)
  | postAdvance (name to' : String)

namespace Browse

/-- Snapshots and cursors by name; every snapshot built gets an identity of its own. -/
structure Shelf where
  built : Nat := 0
  snapshots : List (String × Held) := []
  cursors : List (String × Cursor) := []

namespace Shelf

def held (s : Shelf) (name : String) : Held := (s.snapshots.lookup name).getD default

def cursor (s : Shelf) (name : String) : Cursor := (s.cursors.lookup name).getD {}

def setHeld (s : Shelf) (name : String) (h : Held) : Shelf :=
  { s with snapshots := (name, h) :: s.snapshots }

def setCursor (s : Shelf) (name : String) (c : Cursor) : Shelf :=
  { s with cursors := (name, c) :: s.cursors }

end Shelf

def numbered (n : Nat) : List Entry :=
  (List.range n).map fun i =>
    ⟨⟨.v4 ⟨10,0,0,1⟩, UInt16.ofNat (8000 + i)⟩, "echo.local", "8000"⟩

def entryOrNull (e : Option Entry) : Value :=
  match e with
  | some e => e.report
  | none => .null

def state (c : Cursor) (v : Value) : Value :=
  .object [("value", v), ("end", .bool c.atEnd), ("len", Json.count c.remaining),
    ("hint", .array [Json.count c.remaining, Json.count c.remaining]),
    ("entry", entryOrNull c.current?)]

def step (s : Shelf) : Browse → Shelf × Value
  | .hold name entries =>
    ({ s with built := s.built + 1 }.setHeld name ⟨s.built, ⟨entries⟩⟩, .null)
  | .share name source => (s.setHeld name (s.held source), .null)
  | .info name =>
    let x := (s.held name).snapshot
    (s, .object [("len", Json.count x.size), ("empty", .bool x.entries.isEmpty),
      ("endpoints", Json.strings (x.endpoints.map (·.text))), ("entries", x.report)])
  | .get name i => (s, entryOrNull ((s.held name).snapshot.get? i))
  | .sameSnapshot a b => (s, .bool ((s.held a).id = (s.held b).id))
  | .compareEntries a b =>
    (s, .object [("eq", .bool (a = b)), ("addr_eq", .bool (a.endpoint = b.endpoint)),
      ("addr", .string a.endpoint.text)])
  | .same a b => (s, .bool ((s.cursor a).same (s.cursor b)))
  | .deref name =>
    (s, match (s.cursor name).current? with
      | some e => e.report
      | none => .object [("panic", .string Cursor.endMessage)])
  | .collect name => (s, .array ((s.cursor name).rest.map Entry.report))
  | .start name source =>
    let c := Cursor.start (s.held source)
    (s.setCursor name c, state c .null)
  | .atEnd name => (s.setCursor name {}, state {} .null)
  | .copy name source =>
    let c := s.cursor source
    (s.setCursor name c, state c .null)
  | .look name => (s, state (s.cursor name) .null)
  | .advance name n =>
    let c := n.repeat Cursor.advance (s.cursor name)
    (s.setCursor name c, state c .null)
  | .next name =>
    let (e, c) := (s.cursor name).next
    (s.setCursor name c, state c (entryOrNull e))
  | .nth name n =>
    let (e, c) := (s.cursor name).nth n
    (s.setCursor name c, state c (entryOrNull e))
  | .take name n =>
    let (es, c) := (s.cursor name).take n
    (s.setCursor name c, state c (.array (es.map Entry.report)))
  | .postAdvance name to' =>
    let (before, c) := (s.cursor name).postAdvance
    let s := (s.setCursor name c).setCursor to' before
    (s, state (s.cursor name) (entryOrNull before.current?))

def run (steps : List Browse) : List Value := go {} steps
where
  go (s : Shelf) : List Browse → List Value
    | [] => []
    | b :: bs => let (s, v) := step s b; v :: go s bs

end Browse
end EventLoop
