import EventLoop.Cursor
import EventLoop.Machine.Task

/-! What the older interface makes of a lookup: a cursor at the first entry found, or, beside a
failure, a cursor at its end. -/
namespace EventLoop

/-- A lookup that the caller waits for hands out a cursor of its own, or the failure
unchanged. -/
def Cursor.ofLookup (id : Nat) (r : Except Failure Snapshot) : Except Failure Cursor :=
  r.map fun found => Cursor.start ⟨id, found⟩

namespace Outcome

def ofResult : Except Failure Snapshot → Outcome
  | .ok found => .resolved found
  | .error why => .failed why

def cursor (id : Nat) : Outcome → Cursor
  | .resolved found => Cursor.start ⟨id, found⟩
  | _ => {}

@[simp] theorem cursor_ofResult_ok (id : Nat) (found : Snapshot) :
    (ofResult (.ok found)).cursor id = Cursor.start ⟨id, found⟩ := rfl

@[simp] theorem cursor_ofResult_error (id : Nat) (why : Failure) :
    (ofResult (.error why)).cursor id = {} := rfl

end Outcome
end EventLoop
