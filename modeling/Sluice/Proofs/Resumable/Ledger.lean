import Sluice.Proofs.Demand
import Sluice.Proofs.Resumable

/-!
# The ledger of a subscriber

What a session has granted is the sum of the demands that were requested and of
those returned for values; each value delivered spends one unit. A value counts
as delivered from the moment its delivery begins, a request from the moment it
is made, and a returned demand from the moment it is returned.
-/

namespace Sluice.Resumable

variable {σ τ : Type}

abbrev Note (σ τ : Type) := Entry (Resumable σ τ) (Message σ) (Out σ τ) (Frame τ)
abbrev Play (σ τ : Type) := Session (Resumable σ τ) (Message σ) (Out σ τ) (Frame τ)

def isDelivery : Turn (Message σ) → Bool
  | .enter (.value _) => true
  | _ => false

def grantOf (e : Note σ τ) : ℕ∞ :=
  match e.move with
  | some (.call (.request _ d) _) => d.amount
  | some (.answer r) => r.granted.amount
  | _ => 0

def granted (log : List (Note σ τ)) : ℕ∞ := (log.map grantOf).sum

def delivered (log : List (Note σ τ)) : Nat := log.countP fun e => isDelivery e.turn

/-- The units granted and not yet spent on a value. -/
def outstanding (log : List (Note σ τ)) : ℕ∞ := granted log - delivered log

/-- How many values the calls under way may still grant. -/
def promised (fs : List (Frame τ)) : Nat := (fs.map Frame.promise).sum

@[simp] theorem delivered_nil : delivered ([] : List (Note σ τ)) = 0 := rfl
@[simp] theorem promised_nil : promised ([] : List (Frame τ)) = 0 := rfl

@[simp] theorem promised_cons (f : Frame τ) (fs : List (Frame τ)) :
    promised (f :: fs) = f.promise + promised fs := by simp [promised]

theorem granted_cons (e : Note σ τ) (log : List (Note σ τ)) :
    granted (e :: log) = grantOf e + granted log := by simp [granted]

theorem delivered_cons (e : Note σ τ) (log : List (Note σ τ)) :
    delivered (e :: log) = delivered log + (isDelivery e.turn).toNat := by
  cases hd : isDelivery e.turn with
  | true => simp [delivered, hd]
  | false => simp [delivered, hd]

theorem outstanding_eq {log : List (Note σ τ)} {g : Nat} (hg : granted log = g) :
    outstanding log = (g - delivered log : Nat) := by
  simp [outstanding, hg]

def requests (log : List (Note σ τ)) : List (σ × Demand) :=
  log.filterMap fun e =>
    match e.call? with
    | some (.request link d) => some (link, d)
    | _ => none

theorem mem_requests {log : List (Note σ τ)} {link : σ} {d : Demand} :
    (link, d) ∈ requests log ↔ ∃ e ∈ log, e.call? = some (.request link d) := by
  rw [requests, List.mem_filterMap]
  refine exists_congr fun e => and_congr_right fun _ => ?_
  split
  · simp_all
  · rename_i hne
    exact ⟨by simp, fun hc => absurd hc (hne link d)⟩

theorem requests_cons_answer {turn : Turn (Message σ)} {s u : Resumable σ τ} {r : Reply}
    (log : List (Note σ τ)) : requests (⟨turn, s, u, some (.answer r)⟩ :: log) = requests log := rfl

theorem requests_cons_request {turn : Turn (Message σ)} {s u : Resumable σ τ} {link : σ}
    {d : Demand} {f : Frame τ} (log : List (Note σ τ)) :
    requests (⟨turn, s, u, some (.call (.request link d) f)⟩ :: log) = (link, d) :: requests log :=
  rfl

end Sluice.Resumable
