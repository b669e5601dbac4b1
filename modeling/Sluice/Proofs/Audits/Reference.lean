import Mathlib.Data.List.Induction
import Sluice.Audit.Report
import Sluice.Proofs.Demand

/-!
# The reference audit

What a report should say of a list of requests, as a function of the list: the requests, the
saturating sum of them, and request by request its violations. A report comes to it one
observation at a time. The gaps between requests are only compared with an interval that none of
them can break, or that all of them break.
-/

namespace Sluice
namespace Demand

theorem lt_iff_amount {a b : Demand} : a < b ↔ a.amount < b.amount := by
  cases a with
  | unlimited =>
    refine ⟨fun h => absurd ?_ h, fun h => absurd h not_top_lt⟩
    cases b <;> trivial
  | upTo m =>
    cases b with
    | unlimited => exact ⟨fun _ => ENat.natCast_lt_top m.toNat, fun _ h => h⟩
    | upTo n =>
      change ¬ n ≤ m ↔ _
      rw [amount, amount, Nat.cast_lt, UInt64.le_iff_toNat_le, Nat.not_le]

theorem amount_le_add (a b : Demand) : a.amount ≤ (a + b).amount := by
  obtain h | ⟨h, -⟩ := amount_add a b
  · rw [h]
    exact le_self_add
  · rw [h]
    exact le_top

theorem lt_add {a b : Demand} (h : a < b) (c : Demand) : a < b + c :=
  lt_iff_amount.mpr ((lt_iff_amount.mp h).trans_le (amount_le_add b c))

theorem sum_concat (ds : List Demand) (d : Demand) : sum (ds ++ [d]) = sum ds + d :=
  List.foldl_append

theorem amount_sum_list (ds : List Demand) : (sum ds).amount = saturate (ds.map amount).sum := by
  induction ds using List.reverseRecOn with
  | nil => exact (saturate_amount zero).symm
  | append_singleton ds d ih =>
    rw [sum_concat, amount_sum, ih, saturate_add, List.map_append, List.sum_append,
      List.map_singleton, List.sum_singleton]

end Demand

namespace Audit

structure Observation where
  time : Duration
  demand : Demand

def totalOf (os : List Observation) : Demand := Demand.sum (os.map (·.demand))

@[simp] theorem totalOf_concat (os : List Observation) (o : Observation) :
    totalOf (os ++ [o]) = totalOf os + o.demand := by
  rw [totalOf, List.map_append, List.map_singleton, Demand.sum_concat, totalOf]

namespace Limits

variable (l : Limits) (earlier : List Observation) (o : Observation)

def oversize? : Option Violation :=
  (l.maxDemand.filter (· < o.demand)).map (.maxDemandExceeded o.demand)

/-- The running total includes the request itself. -/
def overspent? : Option Violation :=
  (l.budget.filter (· < totalOf (earlier ++ [o]))).map (.budgetExceeded (totalOf (earlier ++ [o])))

/-- Every request but the first is too early. -/
def early? : Option Violation :=
  match l.minInterval.filter (·.nanos ≠ 0), earlier.head? with
  | some gap, some first => some (.tooFrequent ⟨o.time.nanos - first.time.nanos⟩ gap)
  | _, _ => none

/-- What is wrong with a request that follows the `earlier` ones. -/
def judge : List Violation :=
  (l.oversize? o).toList ++ (l.overspent? earlier o).toList ++ (l.early? earlier o).toList

def audit : List Observation → List Observation → List Violation
  | _, [] => []
  | earlier, o :: os => l.judge earlier o ++ audit (earlier ++ [o]) os

theorem audit_append (os more : List Observation) :
    l.audit earlier (os ++ more) = l.audit earlier os ++ l.audit (earlier ++ os) more := by
  induction os generalizing earlier with
  | nil => rw [List.nil_append, audit, List.nil_append, List.append_nil]
  | cons o os ih =>
    rw [List.cons_append, audit, audit, ih, List.append_assoc, List.append_assoc,
      List.singleton_append]

/-- No interval is set, or it is zero, or longer than the time that the requests take. -/
def Lasting (os : List Observation) : Prop :=
  ∀ gap, l.minInterval = some gap → gap.nanos = 0 ∨
    ∀ first ∈ os.head?, ∀ o ∈ os, o.time.nanos < first.time.nanos + gap.nanos

variable {l} {earlier} {o}

theorem Lasting.left {os more : List Observation} (h : l.Lasting (os ++ more)) :
    l.Lasting os := by
  intro gap hg
  refine (h gap hg).imp_right fun h first hf o ho => ?_
  have hhead : (os ++ more).head? = some first := by
    rw [List.head?_append, Option.mem_def.mp hf, Option.some_or]
  exact h first hhead o (List.mem_append_left more ho)

theorem overspent_of_lt {budget : Demand} (hb : l.budget = some budget)
    (hlt : budget < totalOf earlier) :
    .budgetExceeded (totalOf (earlier ++ [o])) budget ∈ l.judge earlier o := by
  have hnow : budget < totalOf (earlier ++ [o]) := by
    rw [totalOf_concat]
    exact Demand.lt_add hlt o.demand
  have hover : l.overspent? earlier o =
      some (.budgetExceeded (totalOf (earlier ++ [o])) budget) := by
    rw [overspent?, hb, Option.filter_some, if_pos (decide_eq_true hnow), Option.map_some]
  rw [judge, hover]
  exact List.mem_append_left _ (List.mem_append_right _ (List.mem_singleton_self _))

end Limits

namespace Report

def see (r : Report) (o : Observation) : Report := (r.observe o.time o.demand).1

def ofObservations (l : Limits) (os : List Observation) : Report := os.foldl see { limits := l }

theorem limits_foldl_see (r : Report) (os : List Observation) :
    (os.foldl see r).limits = r.limits := by
  induction os generalizing r with
  | nil => rfl
  | cons o os ih => exact ih (r.see o)

/-- The report says what it should of the requests. -/
structure Matches (r : Report) (os : List Observation) : Prop where
  requests : r.requests = os.map (·.demand)
  total : r.total = totalOf os
  violations : r.violations = r.limits.audit [] os

/-- With that the gaps of later requests are compared with the time of the first one. -/
structure Tracks (r : Report) (os : List Observation) : Prop extends Matches r os where
  first : ∀ gap, r.limits.minInterval = some gap → gap.nanos ≠ 0 →
    r.lastAccepted = os.head?.map (·.time)

theorem Tracks.fresh (l : Limits) : Tracks { limits := l } [] :=
  ⟨⟨rfl, rfl, rfl⟩, fun _ _ _ => rfl⟩

theorem toList_oversize (l : Limits) (o : Observation) :
    (l.oversize? o).toList = sizeViolations l o.demand := by
  unfold Limits.oversize? sizeViolations
  cases l.maxDemand with
  | none => rfl
  | some max => by_cases h : max < o.demand <;> simp [Option.filter, h]

theorem toList_overspent (l : Limits) (os : List Observation) (o : Observation) :
    (l.overspent? os o).toList = budgetViolations l (totalOf os + o.demand) := by
  unfold Limits.overspent? budgetViolations
  rw [totalOf_concat]
  cases l.budget with
  | none => rfl
  | some budget => by_cases h : budget < totalOf os + o.demand <;> simp [Option.filter, h]

theorem Tracks.gapViolations {r : Report} {os : List Observation} {o : Observation}
    (h : r.Tracks os) (hl : r.limits.Lasting (os ++ [o])) :
    (gapViolations r.limits r.lastAccepted o.time).1 = (r.limits.early? os o).toList ∧
      ∀ gap, r.limits.minInterval = some gap → gap.nanos ≠ 0 →
        (gapViolations r.limits r.lastAccepted o.time).2 = (os ++ [o]).head?.map (·.time) := by
  unfold Report.gapViolations Limits.early?
  cases hg : r.limits.minInterval with
  | none => exact ⟨rfl, by simp⟩
  | some gap =>
    by_cases hz : gap.nanos = 0
    · -- A gap of nothing is never broken.
      refine ⟨?_, fun g hg' hne => absurd hz (Option.some.inj hg' ▸ hne)⟩
      have hfilter : (some gap).filter (fun g => decide (g.nanos ≠ 0)) = none := by
        rw [Option.filter_some, if_neg (by simpa using hz)]
      rw [hfilter]
      cases r.lastAccepted with
      | none => rfl
      | some before => simp [hz]
    · have hfilter : (some gap).filter (fun g => decide (g.nanos ≠ 0)) = some gap := by
        rw [Option.filter_some, if_pos (decide_eq_true hz)]
      rw [hfilter, h.first gap hg hz]
      cases os with
      | nil => exact ⟨rfl, fun _ _ _ => rfl⟩
      | cons first os =>
        have hlong : o.time.nanos < first.time.nanos + gap.nanos :=
          (hl gap hg).resolve_left hz first rfl o (List.mem_append_right _ (by simp))
        have hearly : o.time.nanos - first.time.nanos < gap.nanos := by omega
        simp [hearly]

theorem Tracks.found {r : Report} {os : List Observation} {o : Observation} (h : r.Tracks os)
    (hl : r.limits.Lasting (os ++ [o])) :
    (r.observe o.time o.demand).2 = r.limits.judge os o := by
  rw [Limits.judge, toList_oversize, toList_overspent, ← (h.gapViolations hl).1, ← h.total]
  rfl

theorem Tracks.see {r : Report} {os : List Observation} {o : Observation} (h : r.Tracks os)
    (hl : r.limits.Lasting (os ++ [o])) : (r.see o).Tracks (os ++ [o]) where
  requests := by
    rw [List.map_append, ← h.requests]
    rfl
  total := by
    rw [totalOf_concat, ← h.total]
    rfl
  violations := by
    have hv : (r.see o).violations = r.violations ++ (r.observe o.time o.demand).2 := rfl
    rw [hv, h.found hl, h.violations, Limits.audit_append]
    exact congrArg _ (List.append_nil _).symm
  first := fun gap hg hz => (h.gapViolations hl).2 gap hg hz

theorem tracks_ofObservations {l : Limits} {os : List Observation} (hl : l.Lasting os) :
    (ofObservations l os).Tracks os := by
  induction os using List.reverseRecOn with
  | nil => exact .fresh l
  | append_singleton os o ih =>
    have hlimits : (ofObservations l os).limits = l := limits_foldl_see _ os
    rw [ofObservations, List.foldl_append]
    exact (ih hl.left).see (o := o) (by rwa [← hlimits] at hl)

end Report
end Audit
end Sluice
