import Sluice.Proofs.Machine.Player

/-!
# How far a gated sink comes

A sink that was resumed `k` times is shown values up to the one whose refusal is the
`k + 1`st. This tells how many it is shown, whatever publishes them.
-/

namespace Sluice

variable {verdict : Nat → Bool} {i j k n : Nat}

def refusals (verdict : Nat → Bool) (i : Nat) : Nat := (List.range i).countP fun j => !verdict j

theorem refusals_succ (i : Nat) :
    refusals verdict (i + 1) = refusals verdict i + if verdict i then 0 else 1 := by
  cases h : verdict i <;> simp [refusals, List.range_succ, h]

theorem refusals_mono (h : i ≤ j) : refusals verdict i ≤ refusals verdict j := by
  induction h with
  | refl => exact Nat.le_refl _
  | step _ ih =>
    rw [refusals_succ]
    omega

/-- Of `n` values, `i` are shown in the course of `k` resumes: the last of them was let in, and it
was the last of all or was refused once too often. -/
structure Halts (verdict : Nat → Bool) (n k i : Nat) : Prop where
  bound : i ≤ n
  reached : refusals verdict (i - 1) ≤ k
  stopped : i < n → k < refusals verdict i

theorem Halts.le (h : Halts verdict n k i) (h' : Halts verdict n k j) : i ≤ j := by
  by_contra hlt
  have hk := h'.stopped (by have := h.bound; omega)
  have hm : refusals verdict j ≤ refusals verdict (i - 1) := refusals_mono (by omega)
  have hi := h.reached
  omega

theorem Halts.unique (h : Halts verdict n k i) (h' : Halts verdict n k j) : i = j :=
  Nat.le_antisymm (h.le h') (h'.le h)

structure Heard (t : Array Signal) (ys : List Value) (cs : List Ending) : Prop where
  shown : t.toList.filterMap (Signal.shown? 0) = ys
  handled : t.toList.filterMap (Signal.handled? 0) = cs

namespace Heard

variable {t : Array Signal} {ys : List Value} {cs : List Ending}

theorem empty : Heard #[] [] [] := ⟨rfl, rfl⟩

theorem predicate (h : Heard t ys cs) (v : Value) :
    Heard (t.push (.asked (.predicate 0 v))) (ys ++ [v]) cs :=
  ⟨by simp [h.shown, Signal.shown?], by simp [h.handled, Signal.handled?]⟩

theorem handler (h : Heard t ys cs) (c : Ending) :
    Heard (t.push (.asked (.handler 0 c))) ys (cs ++ [c]) :=
  ⟨by simp [h.shown, Signal.shown?], by simp [h.handled, Signal.handled?]⟩

theorem push (h : Heard t ys cs) {s : Signal} (hs : s.shown? 0 = none) (hc : s.handled? 0 = none) :
    Heard (t.push s) ys cs :=
  ⟨by simp [h.shown, hs], by simp [h.handled, hc]⟩

end Heard
end Sluice
