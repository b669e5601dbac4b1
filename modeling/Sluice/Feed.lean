import Sluice.Completion

/-!
# Feeds

A feed is what an iterator yields: a list, in which a missing entry is a place
where the iterator has nothing and after which it has nothing for ever, or an
integer range, possibly endless.
-/

namespace Sluice

inductive Feed
  | items (left : List (Option Value))
  | range (next : Int) (stop : Option Int)

namespace Feed

def next : Feed → Option Value × Feed
  | items [] => (none, items [])
  | items (v :: left) => (v, items left)
  | range n stop =>
    if stop.all (n < ·) then (some (Int64.ofInt n), range (n + 1) stop) else (none, range n stop)

end Feed
end Sluice
