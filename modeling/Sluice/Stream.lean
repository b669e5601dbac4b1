import Sluice.Component

/-!
# Streams

A stream holds the items that were pushed and not yet polled. Polled without an
item it ends if it was closed, and otherwise remembers the task that polled it,
to be woken by the next push or by the closing.
-/

namespace Sluice

inductive Item
  | value (v : Value)
  | failure (e : String)
deriving Inhabited

def Item.poll : Item → Poll
  | value v => .value v
  | failure e => .failure e

structure Stream where
  items : List Item
  closed : Bool
  waker : Option Nat := none
  dropped : Bool := false

namespace Stream

def poll (s : Stream) (task : Option Nat) : Poll × Stream :=
  match s.items with
  | item :: left => (item.poll, { s with items := left })
  | [] => if s.closed then (.closed, s) else (.pending, { s with waker := task })

/-- Appends items, closes if asked to, and yields the task to wake. -/
def push (s : Stream) (items : List Item) (close : Bool) : Option Nat × Stream :=
  (s.waker, { s with items := s.items ++ items, closed := s.closed || close, waker := none })

end Stream
end Sluice
