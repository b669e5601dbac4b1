/-!
# Demand

How many further values a subscriber allows its publisher to deliver: a 64-bit
count, or no bound at all. A sum that leaves the 64-bit range is unlimited, and
unlimited stays unlimited under every later addition and every value taken.
-/

namespace Sluice

inductive Demand
  | upTo (count : UInt64)
  | unlimited
deriving DecidableEq

namespace Demand

def zero : Demand := .upTo 0
def one : Demand := .upTo 1

instance : Inhabited Demand := ⟨zero⟩

def isZero : Demand → Bool
  | upTo n => n == 0
  | unlimited => false

def isUnlimited : Demand → Bool
  | upTo _ => false
  | unlimited => true

def count? : Demand → Option UInt64
  | upTo n => some n
  | unlimited => none

def add : Demand → Demand → Demand
  | upTo a, upTo b => if a.toNat + b.toNat < UInt64.size then upTo (a + b) else unlimited
  | _, _ => unlimited

instance : Add Demand := ⟨add⟩

/-- The demand left after one value, if there was any. -/
def takeOne? : Demand → Option Demand
  | unlimited => some unlimited
  | upTo n => if n = 0 then none else some (upTo (n - 1))

def le : Demand → Demand → Prop
  | upTo a, upTo b => a ≤ b
  | _, unlimited => True
  | unlimited, upTo _ => False

instance : LE Demand := ⟨le⟩
instance : LT Demand := ⟨fun a b => ¬ b ≤ a⟩

instance (a b : Demand) : Decidable (a ≤ b) :=
  match a, b with
  | upTo a, upTo b => inferInstanceAs (Decidable (a ≤ b))
  | upTo _, unlimited => .isTrue trivial
  | unlimited, unlimited => .isTrue trivial
  | unlimited, upTo _ => .isFalse id

instance (a b : Demand) : Decidable (a < b) := inferInstanceAs (Decidable (¬ b ≤ a))

instance : Ord Demand := ⟨fun a b => compareOfLessAndEq a b⟩

def larger (a b : Demand) : Demand := if b < a then a else b
def smaller (a b : Demand) : Demand := if b < a then b else a

def sum (ds : List Demand) : Demand := ds.foldl (· + ·) zero

def sorted (ds : List Demand) : List Demand := ds.mergeSort (fun a b => decide (a ≤ b))

def text : Demand → String
  | upTo n => "max(" ++ toString n.toNat ++ ")"
  | unlimited => "unlimited"

def debugText : Demand → String
  | upTo n => "Max(" ++ toString n.toNat ++ ")"
  | unlimited => "Unlimited"

def takeUpTo (d : Demand) : Nat → Nat × Demand
  | 0 => (0, d)
  | limit + 1 =>
    match d.takeOne? with
    | none => (0, d)
    | some rest =>
      let (taken, left) := takeUpTo rest limit
      (taken + 1, left)

end Demand
end Sluice
