import Mathlib.Algebra.Order.BigOperators.Group.List
import Mathlib.Data.List.Induction
import Sluice.Proofs.Demand

/-!
# Demand as a ledger

Demands are ordered by their exact size, and a sum of demands is the exact sum as
far as 64 bits hold it. A ledger adds demands to a running one and takes units of it
in any order. What was added is what was taken and what is left, until the running
demand leaves the 64-bit range; from then on every unit is granted.
-/

namespace Sluice.Demand

theorem le_iff_amount_le {a b : Demand} : a ≤ b ↔ a.amount ≤ b.amount := by
  cases a with
  | unlimited =>
    cases b with
    | unlimited => exact iff_of_true trivial le_rfl
    | upTo n => exact iff_of_false id (not_le.mpr (ENat.natCast_lt_top n.toNat))
  | upTo m =>
    cases b with
    | unlimited => exact iff_of_true trivial le_top
    | upTo n => exact UInt64.le_iff_toNat_le.trans ENat.natCast_le_natCast.symm

theorem lt_iff_amount_lt {a b : Demand} : a < b ↔ a.amount < b.amount := by
  change ¬b ≤ a ↔ _
  rw [le_iff_amount_le, not_le]

theorem compare_eq_lt {a b : Demand} : compare a b = .lt ↔ a < b := by
  change compareOfLessAndEq a b = .lt ↔ _
  unfold compareOfLessAndEq
  by_cases h : a < b
  · simp [h]
  · rw [if_neg h]
    split <;> simp [h]

theorem compare_eq_eq {a b : Demand} : compare a b = .eq ↔ a = b := by
  change compareOfLessAndEq a b = .eq ↔ _
  unfold compareOfLessAndEq
  by_cases h : a < b
  · have hne : a ≠ b := fun he => (lt_iff_amount_lt.mp h).ne (congrArg amount he)
    simp [h, hne]
  · simp [h]

theorem saturate_mono {m n : ℕ∞} (h : m ≤ n) : saturate m ≤ saturate n := by
  unfold saturate
  by_cases hn : (UInt64.size : ℕ∞) ≤ n
  · rw [if_pos hn]
    exact le_top
  · rw [if_neg hn, if_neg fun hm => hn (hm.trans h)]
    exact h

protected theorem add_comm (a b : Demand) : a + b = b + a := by
  apply amount_injective
  rw [amount_sum, amount_sum, add_comm]

protected theorem add_le_add {a b c d : Demand} (h : a ≤ b) (h' : c ≤ d) : a + c ≤ b + d := by
  rw [le_iff_amount_le] at h h' ⊢
  rw [amount_sum, amount_sum]
  exact saturate_mono (add_le_add h h')

/-- Demands are totally ordered, with no bound above every count, and saturating addition goes
with that order. -/
structure Ordered : Prop where
  refl : ∀ a : Demand, a ≤ a
  antisymm : ∀ a b : Demand, a ≤ b → b ≤ a → a = b
  trans : ∀ a b c : Demand, a ≤ b → b ≤ c → a ≤ c
  total : ∀ a b : Demand, a ≤ b ∨ b ≤ a
  lt_iff : ∀ a b : Demand, a < b ↔ a ≤ b ∧ ¬b ≤ a
  counts : ∀ m n : UInt64, upTo m ≤ upTo n ↔ m ≤ n
  top : ∀ n : UInt64, upTo n < unlimited
  compared : ∀ a b : Demand, (compare a b = .lt ↔ a < b) ∧ (compare a b = .eq ↔ a = b)
  assoc : ∀ a b c : Demand, a + b + c = a + (b + c)
  comm : ∀ a b : Demand, a + b = b + a
  zero_add : ∀ a : Demand, zero + a = a
  add_zero : ∀ a : Demand, a + zero = a
  mono : ∀ a b c d : Demand, a ≤ b → c ≤ d → a + c ≤ b + d

theorem ordered : Ordered where
  refl a := le_iff_amount_le.mpr le_rfl
  antisymm a b h h' :=
    amount_injective (le_antisymm (le_iff_amount_le.mp h) (le_iff_amount_le.mp h'))
  trans a b c h h' :=
    le_iff_amount_le.mpr ((le_iff_amount_le.mp h).trans (le_iff_amount_le.mp h'))
  total a b := by
    rw [le_iff_amount_le, le_iff_amount_le]
    exact le_total a.amount b.amount
  lt_iff a b := by
    rw [lt_iff_amount_lt, le_iff_amount_le, le_iff_amount_le]
    exact lt_iff_le_not_ge
  counts m n := Iff.rfl
  top n := id
  compared a b := ⟨compare_eq_lt, compare_eq_eq⟩
  assoc := Demand.add_assoc
  comm := Demand.add_comm
  zero_add a := (Demand.add_comm zero a).trans (Demand.add_zero a)
  add_zero := Demand.add_zero
  mono a b c d := Demand.add_le_add

def total (ns : List UInt64) : Nat := (ns.map UInt64.toNat).sum

theorem amount_foldl (ds : List Demand) (d : Demand) :
    (ds.foldl (· + ·) d).amount = saturate (d.amount + (ds.map amount).sum) := by
  induction ds generalizing d with
  | nil => simp [saturate_amount]
  | cons x ds ih =>
    calc ((x :: ds).foldl (· + ·) d).amount
        = saturate (saturate (d.amount + x.amount) + (ds.map amount).sum) := by
          rw [List.foldl_cons, ih, amount_sum]
      _ = saturate (d.amount + ((x :: ds).map amount).sum) := by
          rw [saturate_add, List.map_cons, List.sum_cons, add_assoc]

theorem amount_listSum (ds : List Demand) : (sum ds).amount = saturate (ds.map amount).sum := by
  rw [sum, amount_foldl, amount_zero, zero_add]

theorem sum_amounts (ns : List UInt64) : ((ns.map upTo).map amount).sum = (total ns : ℕ∞) := by
  induction ns with
  | nil => rfl
  | cons n ns ih =>
    rw [List.map_cons, List.map_cons, List.sum_cons, ih]
    simp [total, amount]

theorem eq_unlimited_of_amount {d : Demand} (h : d.amount = ⊤) : d = unlimited :=
  amount_injective h

/-- The sum of a list depends on its items only, whatever their order. It is exact if there is a
bound on each item and 64 bits hold the exact sum, and has no bound otherwise. -/
structure SumsExactly : Prop where
  exact : ∀ ns : List UInt64, total ns < UInt64.size →
    sum (ns.map upTo) = upTo (.ofNat (total ns))
  overflow : ∀ ns : List UInt64, UInt64.size ≤ total ns → sum (ns.map upTo) = unlimited
  unbounded : ∀ ds : List Demand, unlimited ∈ ds → sum ds = unlimited
  order : ∀ ds ds' : List Demand, ds.Perm ds' → sum ds = sum ds'

theorem sumsExactly : SumsExactly where
  exact ns h := by
    apply amount_injective
    rw [amount_listSum, sum_amounts, saturate, if_neg (by exact_mod_cast not_le.mpr h)]
    simp [amount, UInt64.toNat_ofNat_of_lt' h]
  overflow ns h := by
    apply eq_unlimited_of_amount
    rw [amount_listSum, sum_amounts, saturate, if_pos (by exact_mod_cast h)]
  unbounded ds h := by
    apply eq_unlimited_of_amount
    have hle : unlimited.amount ≤ (ds.map amount).sum :=
      List.single_le_sum (fun _ _ => zero_le) _ (List.mem_map_of_mem h)
    rw [amount_listSum, saturate, if_pos (le_trans le_top hle)]
  order ds ds' h := by
    apply amount_injective
    rw [amount_listSum, amount_listSum, (h.map amount).sum_eq]

inductive Posting
  | credit (d : Demand)
  | debit
deriving DecidableEq

structure Ledger where
  left : Demand := zero
  taken : Nat := 0

namespace Ledger

def post (l : Ledger) : Posting → Ledger
  | .credit d => { l with left := l.left + d }
  | .debit =>
    match l.left.takeOne? with
    | some rest => ⟨rest, l.taken + 1⟩
    | none => l

def after (ps : List Posting) : Ledger := ps.foldl post {}

end Ledger

def credited (ps : List Posting) : ℕ∞ :=
  (ps.map fun
    | .credit d => d.amount
    | .debit => 0).sum

theorem credited_append (ps qs : List Posting) :
    credited (ps ++ qs) = credited ps + credited qs := by
  simp [credited]

namespace Ledger

variable {ps : List Posting}

theorem after_append (ps qs : List Posting) : after (ps ++ qs) = qs.foldl post (after ps) :=
  List.foldl_append

theorem post_balance {l : Ledger} {n : ℕ∞} (p : Posting) (hl : (l.post p).left ≠ unlimited)
    (h : l.left ≠ unlimited → n = l.taken + l.left.amount) :
    n + credited [p] = (l.post p).taken + (l.post p).left.amount := by
  cases p with
  | credit d =>
    have hne : l.left ≠ unlimited := by
      intro he
      apply hl
      change l.left + d = unlimited
      rw [he]
      rfl
    obtain ha | ⟨hu, -⟩ := amount_add l.left d
    · change n + ((d.amount : ℕ∞) + 0) = l.taken + (l.left + d).amount
      rw [ha, h hne, add_zero, add_assoc]
    · exact absurd hu hl
  | debit =>
    change n + (0 + 0) = _
    rw [add_zero, add_zero]
    unfold post at hl ⊢
    cases ht : l.left.takeOne? with
    | none =>
      simp only [ht] at hl ⊢
      exact h hl
    | some rest =>
      simp only [ht] at hl ⊢
      obtain ⟨ha, hu⟩ := amount_takeOne? ht
      rw [h (fun he => hl (hu he)), ha, Nat.cast_add, Nat.cast_one, add_assoc]

theorem post_unlimited {l : Ledger} (h : l.left = unlimited) (p : Posting) :
    l.post p = ⟨unlimited, l.taken + [p].count .debit⟩ := by
  obtain ⟨left, taken⟩ := l
  obtain rfl : left = unlimited := h
  cases p with
  | credit d => rfl
  | debit => rfl

theorem foldl_unlimited (qs : List Posting) {l : Ledger} (h : l.left = unlimited) :
    qs.foldl post l = ⟨unlimited, l.taken + qs.count .debit⟩ := by
  induction qs generalizing l with
  | nil =>
    obtain ⟨left, taken⟩ := l
    exact congrArg (Ledger.mk · taken) h
  | cons q qs ih =>
    rw [List.foldl_cons, post_unlimited h, ih rfl, ← List.singleton_append (l := qs),
      List.count_append, Nat.add_assoc]

theorem balance (ps : List Posting) (h : (after ps).left ≠ unlimited) :
    credited ps = (after ps).taken + (after ps).left.amount := by
  induction ps using List.reverseRecOn with
  | nil => rfl
  | append_singleton ps p ih =>
    rw [after_append] at h ⊢
    rw [credited_append]
    exact post_balance p h ih

end Ledger

/-- No unit is taken that is not there: only a demand of nothing refuses one, a count that grants
one is by one smaller afterwards, and no bound grants any number. -/
structure TakesSafely : Prop where
  refused : ∀ d : Demand, d.takeOne? = none ↔ d = zero
  count : ∀ (n : UInt64) (rest : Demand), (upTo n).takeOne? = some rest →
    ∃ k : UInt64, rest = upTo k ∧ n.toNat = k.toNat + 1
  unlimited : unlimited.takeOne? = some unlimited

theorem takesSafely : TakesSafely where
  refused d := by
    rw [takeOne?_eq_none]
    refine ⟨fun h => amount_injective ((amount_of_isZero h).trans amount_zero.symm), ?_⟩
    rintro rfl
    rfl
  count n rest h := by
    obtain ⟨ha, -⟩ := amount_takeOne? h
    cases rest with
    | unlimited => exact absurd ha (ENat.natCast_ne_top n.toNat)
    | upTo k =>
      refine ⟨k, rfl, ?_⟩
      simp only [amount] at ha
      rw [Nat.add_comm]
      exact_mod_cast ha
  unlimited := rfl

/-- Demand is an ordered saturating ledger. Whatever is added to a running demand and taken of it,
what was added is what was taken and what is left as long as there is a bound, and once there is
none there never is one again and no unit is refused. -/
theorem ordered_saturating_ledger : Ordered ∧ SumsExactly ∧ TakesSafely ∧
    ∀ ps : List Posting,
      ((Ledger.after ps).left ≠ unlimited →
        credited ps = (Ledger.after ps).taken + (Ledger.after ps).left.amount) ∧
      ((Ledger.after ps).left = unlimited → ∀ qs : List Posting,
        (Ledger.after (ps ++ qs)).left = unlimited ∧
        (Ledger.after (ps ++ qs)).taken = (Ledger.after ps).taken + qs.count .debit) := by
  refine ⟨ordered, sumsExactly, takesSafely, fun ps => ⟨Ledger.balance ps, fun h qs => ?_⟩⟩
  rw [Ledger.after_append, Ledger.foldl_unlimited qs h]
  exact ⟨rfl, rfl⟩

end Sluice.Demand
