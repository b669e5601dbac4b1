import Mathlib.Data.ENat.Basic
import Sluice.Demand

/-!
# Demands as extended numbers

The exact size of a demand. Sums of sizes do not saturate, so they are the
reference for what a run has granted. A publisher that keeps adding demands and
taking units of them keeps a balance with that reference.
-/

namespace Sluice.Demand

def amount : Demand → ℕ∞
  | upTo n => n.toNat
  | unlimited => ⊤

@[simp] theorem amount_zero : zero.amount = 0 := rfl
@[simp] theorem amount_one : one.amount = 1 := rfl

theorem zero_le_one : zero ≤ one := by decide
theorem one_le_one : one ≤ one := by decide

/-- A sum of demands is exact unless it leaves the 64-bit range. -/
theorem amount_add (a b : Demand) : (a + b).amount = a.amount + b.amount ∨
    a + b = unlimited ∧ (UInt64.size : ℕ∞) ≤ a.amount + b.amount := by
  cases a with
  | unlimited => exact .inl (top_add _).symm
  | upTo m =>
    cases b with
    | unlimited => exact .inl (add_top _).symm
    | upTo n =>
      change (add (upTo m) (upTo n)).amount = _ ∨ add (upTo m) (upTo n) = _ ∧ _
      by_cases h : m.toNat + n.toNat < UInt64.size
      · left
        simp only [add, if_pos h, amount]
        rw [UInt64.toNat_add, Nat.mod_eq_of_lt h]
        push_cast
        rfl
      · right
        simp only [add, if_neg h, amount, true_and]
        exact_mod_cast Nat.le_of_not_lt h

theorem amount_injective : Function.Injective amount := by
  intro a b h
  cases a with
  | unlimited =>
    cases b with
    | unlimited => rfl
    | upTo n => exact absurd h.symm (ENat.natCast_ne_top n.toNat)
  | upTo m =>
    cases b with
    | unlimited => exact absurd h (ENat.natCast_ne_top m.toNat)
    | upTo n => exact congrArg upTo (UInt64.toNat_inj.mp (ENat.natCast_inj.mp h))

def saturate (n : ℕ∞) : ℕ∞ := if (UInt64.size : ℕ∞) ≤ n then ⊤ else n

theorem saturate_amount (a : Demand) : saturate a.amount = a.amount := by
  cases a with
  | unlimited => exact if_pos le_top
  | upTo n =>
    refine if_neg (not_le.mpr ?_)
    exact ENat.natCast_lt_natCast.mpr n.toNat_lt_size

theorem saturate_add (m n : ℕ∞) : saturate (saturate m + n) = saturate (m + n) := by
  by_cases hm : (UInt64.size : ℕ∞) ≤ m
  · have hs : saturate m = ⊤ := if_pos hm
    rw [hs, top_add, saturate, saturate, if_pos le_top, if_pos (hm.trans le_self_add)]
  · have hs : saturate m = m := if_neg hm
    rw [hs]

theorem amount_sum (a b : Demand) : (a + b).amount = saturate (a.amount + b.amount) := by
  rcases amount_add a b with h | ⟨h, hle⟩
  · rw [← h, saturate_amount]
  · rw [h, saturate, if_pos hle]
    rfl

protected theorem add_zero (a : Demand) : a + zero = a := by
  apply amount_injective
  rw [amount_sum, amount_zero, add_zero, saturate_amount]

protected theorem add_assoc (a b c : Demand) : a + b + c = a + (b + c) := by
  apply amount_injective
  calc (a + b + c).amount
      = saturate (saturate (a.amount + b.amount) + c.amount) := by rw [amount_sum, amount_sum]
    _ = saturate (saturate (b.amount + c.amount) + a.amount) := by
      rw [saturate_add, saturate_add, add_assoc, add_comm]
    _ = (a + (b + c)).amount := by rw [amount_sum, amount_sum, add_comm]

theorem amount_takeOne? {d rest : Demand} (h : d.takeOne? = some rest) :
    d.amount = 1 + rest.amount ∧ (d = unlimited → rest = unlimited) := by
  cases d with
  | unlimited =>
    obtain rfl := Option.some.inj h
    exact ⟨(add_top _).symm, fun _ => rfl⟩
  | upTo n =>
    by_cases hn : n = 0
    · simp [takeOne?, hn] at h
    · obtain rfl : upTo (n - 1) = rest := by simpa [takeOne?, hn] using h
      have hpos : n.toNat ≠ 0 := fun hz => hn (UInt64.toNat_inj.mp hz)
      have hle : (1 : UInt64) ≤ n := UInt64.le_iff_toNat_le.mpr (Nat.one_le_iff_ne_zero.mpr hpos)
      refine ⟨?_, by simp⟩
      simp only [amount, UInt64.toNat_sub_of_le n 1 hle]
      exact_mod_cast (Nat.add_sub_cancel' (Nat.one_le_iff_ne_zero.mpr hpos)).symm

theorem takeOne?_eq_none {d : Demand} : d.takeOne? = none ↔ d.isZero = true := by
  cases d with
  | unlimited => simp [takeOne?, isZero]
  | upTo n => by_cases hn : n = 0 <;> simp [takeOne?, isZero, hn]

theorem amount_of_isZero {d : Demand} (h : d.isZero = true) : d.amount = 0 := by
  cases d with
  | unlimited => cases h
  | upTo n =>
    obtain rfl : n = 0 := by simpa [isZero] using h
    rfl

/-- Of `granted` units `spent` are spent and `left` is what is left. A demand that left the 64-bit
range only says that so many units were granted. -/
def Balances (granted : ℕ∞) (spent : Nat) (left : Demand) : Prop :=
  granted = spent + left.amount ∨ left = unlimited ∧ (UInt64.size : ℕ∞) ≤ granted

variable {granted : ℕ∞} {spent : Nat} {left : Demand}

theorem Balances.grant (h : Balances granted spent left) (d : Demand) :
    Balances (d.amount + granted) spent (left + d) := by
  have hd := amount_add left d
  rcases h with h | ⟨rfl, h⟩
  · rcases hd with hd | ⟨hd, hle⟩
    · left
      rw [hd, h, add_comm, add_assoc]
    · right
      refine ⟨hd, hle.trans ?_⟩
      rw [h, add_comm]
      exact add_le_add le_rfl le_add_self
  · exact .inr ⟨by cases d <;> rfl, h.trans le_add_self⟩

theorem Balances.spend {rest : Demand} (h : Balances granted spent left)
    (hr : left.takeOne? = some rest) : Balances granted (spent + 1) rest := by
  obtain ⟨ha, hu⟩ := amount_takeOne? hr
  rcases h with h | ⟨hl, h⟩
  · left
    rw [h, ha, Nat.cast_add, Nat.cast_one, add_assoc]
  · exact .inr ⟨hu hl, h⟩

theorem Balances.le (h : Balances granted spent left) (hs : spent ≤ UInt64.size) :
    (spent : ℕ∞) ≤ granted := by
  rcases h with h | ⟨-, h⟩
  · rw [h]
    exact le_self_add
  · exact le_trans (by exact_mod_cast hs) h

theorem Balances.eq_spent (h : Balances granted spent left) (hz : left.isZero = true) :
    granted = spent := by
  rcases h with h | ⟨rfl, -⟩
  · rw [h, amount_of_isZero hz, add_zero]
  · cases hz

end Sluice.Demand
