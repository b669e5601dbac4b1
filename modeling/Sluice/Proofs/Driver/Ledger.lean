import Mathlib.Data.ENat.Lattice
import Sluice.Driver
import Sluice.Proofs.Demand
import Sluice.Proofs.Session

/-!
# The ledger of a driver

A driver in a session has a subscriber, a stream that yields one outcome after
the other with any number of pending polls between, and a task that runs at any
time but never inside itself. The account of a log follows the unit of demand
that is in flight: a poll holds it, a delivery spends it, and it is used up when
the driver completes its subscriber or ends with it.
-/

namespace Sluice.Driver

variable {ρ : Type}

def component : Component (Driver ρ) (In ρ) (Out ρ) (Frame ρ) := ⟨enter, proceed⟩

abbrev Note (ρ : Type) := Entry (Driver ρ) (In ρ) (Out ρ) (Frame ρ)
abbrev Play (ρ : Type) := Session (Driver ρ) (In ρ) (Out ρ) (Frame ρ)

namespace Frame

def isPassing : Frame ρ → Bool
  | passing => true
  | _ => false

def isRunning : Frame ρ → Bool
  | polling | delivering | concluding => true
  | _ => false

end Frame

def busy (fs : List (Frame ρ)) : List (Frame ρ) := fs.filter fun fr => !fr.isPassing

/-- Where the unit of demand that the driver took last has gone. -/
inductive Fate
  | spent
  | held
  | used
deriving DecidableEq

def Fate.owed : Fate → Nat
  | spent => 0
  | held | used => 1

structure Account where
  granted : ℕ∞ := 0
  taken : Nat := 0
  delivered : List Value := []
  concluded : List Ending := []
  fate : Fate := .spent
  cancelled : Bool := false

namespace Account

/-- Demand counts as granted when it is requested before a cancellation and when a delivery
returns it; an outcome is taken when a poll yields it. -/
def turn (a : Account) : Turn (In ρ) → Account
  | .enter (.request d) =>
    { a with granted := if a.cancelled then a.granted else d.amount + a.granted }
  | .enter .cancel => { a with cancelled := true }
  | .reply (.demand d) => { a with granted := d.amount + a.granted }
  | .reply (.poll x) => { a with taken := if x.isPending then a.taken else a.taken + 1 }
  | _ => a

def move (a : Account) : Option (Move (Out ρ) (Frame ρ)) → Account
  | some (.call .poll _) => { a with fate := .held }
  | some (.call (.deliver _ v) _) => { a with delivered := a.delivered ++ [v], fate := .spent }
  | some (.call (.conclude _ c) _) => { a with concluded := a.concluded ++ [c], fate := .used }
  | some (.answer (.pause .ended)) => { a with fate := if a.fate = .held then .used else a.fate }
  | _ => a

end Account

def account : List (Note ρ) → Account
  | [] => {}
  | e :: log => ((account log).turn e.turn).move e.move

def Out.isWork : Out ρ → Bool
  | poll | deliver _ _ | conclude _ _ => true
  | _ => false

def Final (log : List (Note ρ)) : Prop :=
  log.Pairwise fun e' e => (∃ dest c, e.call? = some (.conclude dest c)) →
    ∀ o, e'.call? = some o → o.isWork = false

/-- The environment subscribes first, runs the task while it is not running, and answers the polls
by the outcomes of the stream in turn. No callback panics. -/
def Proper (f : Nat → Poll) (p : Play ρ) : Turn (In ρ) → Prop
  | .enter (.subscribe _) => p.log = []
  | .enter .run => p.log ≠ [] ∧ ∀ fr ∈ p.frames, fr.isRunning = false
  | .enter _ => p.log ≠ []
  | .reply r =>
    match p.frames.head? with
    | some .polling => r = .poll .pending ∨ r = .poll (f (account p.log).taken)
    | some .delivering => ∃ d, r = .demand d
    | _ => r = .done
  | .raise => False

/-- A driver that has kept its demand, its subscriber and its cancellation. -/
structure Kept (s t : Driver ρ) : Prop where
  demand : t.demand = s.demand
  subscriber : t.subscriber = s.subscriber
  cancelled : t.cancelled = s.cancelled

/-- What a section of the task that has no unit of demand in hand can do. -/
inductive Sought (s t : Driver ρ) : Move (Out ρ) (Frame ρ) → Prop
  | ended (hc : s.cancelled = true) (ht : t = s.stop) : Sought s t (.answer (.pause .ended))
  | parked (hp : t.phase = .parked) (hk : Kept s t) : Sought s t (.answer (.pause .waiting))
  | poll {rest : Demand} (hd : s.demand.takeOne? = some rest) (hp : t.phase = .polling)
      (hk : Kept { s with demand := rest } t) : Sought s t (.call .poll .polling)

inductive Selected (s t : Driver ρ) : Move (Out ρ) (Frame ρ) → Prop
  | ended (hc : s.cancelled = true) (hp : t.phase = .ended) (hd : t.demand = s.demand)
      (hx : t.cancelled = true) : Selected s t (.answer (.pause .ended))
  | poll (hp : t.phase = .polling) (hk : Kept s t) : Selected s t (.call .poll .polling)

section Sections

variable {s : Driver ρ}

theorem select_selected (s : Driver ρ) : Selected s s.select.1 s.select.2 := by
  unfold select
  cases s.wakeup.await with
  | mk had used =>
    cases had with
    | true =>
      simp only
      split
      · next hc => exact .ended hc rfl rfl hc
      · exact .poll rfl ⟨rfl, rfl, rfl⟩
    | false => exact .poll rfl ⟨rfl, rfl, rfl⟩

theorem seek_sought (s : Driver ρ) : Sought s s.seek.1 s.seek.2 := by
  unfold seek
  by_cases hc : s.cancelled = true
  · rw [if_pos hc]
    exact .ended hc rfl
  · rw [if_neg hc]
    cases hd : s.demand.takeOne? with
    | none => exact .parked rfl ⟨rfl, rfl, rfl⟩
    | some rest =>
      have hs := select_selected { s with demand := rest }
      dsimp only
      generalize select { s with demand := rest } = r at hs
      obtain ⟨t, mv⟩ := r
      cases hs with
      | ended hx => exact absurd hx hc
      | poll hp hk => exact .poll hd hp hk

end Sections

end Sluice.Driver
