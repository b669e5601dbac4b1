import Mathlib.Logic.Function.Iterate
import Sluice.Proofs.Machine.Runs

/-!
# A player of verdicts

The simplest environment answers every predicate by a verdict that depends on how
often the predicate was asked before, returns from all other questions at once, and
starts a call only when the one before has returned. What a list of calls comes to
is then determined.
-/

namespace Sluice

namespace Signal

def shown? (i : Nat) : Signal → Option Value
  | .asked (.predicate j v) => if j = i then some v else none
  | _ => none

def handled? (i : Nat) : Signal → Option Ending
  | .asked (.handler j c) => if j = i then some c else none
  | _ => none

end Signal

namespace World

def shown (w : World) (i : Nat) : List Value := w.trace.toList.filterMap (Signal.shown? i)

def handled (w : World) (i : Nat) : List Ending := w.trace.toList.filterMap (Signal.handled? i)

end World

namespace Machine

variable {verdict : Nat → Bool} {m m' m'' : Machine}

/-- One move: of the player if it is asked something, and otherwise of the machine. -/
def respond (verdict : Nat → Bool) (m : Machine) : Machine :=
  match m.control with
  | .idle (.asked (.predicate i _)) => m.reply (.pull (verdict ((m.world.shown i).length - 1)))
  | .idle (.asked _) => m.reply .done
  | _ => m.step

theorem next_respond (verdict : Nat → Bool) (m : Machine) : m.Next (m.respond verdict) := by
  unfold respond
  split
  · exact .reply ⟨_, by assumption⟩ _
  · exact .reply ⟨_, by assumption⟩ _
  · exact .step

theorem respond_predicate (w : World) (fs : List Frame) (i : Nat) (v : Value) :
    respond verdict ⟨w, .asked (.predicate i v) :: fs, .idle (.asked (.predicate i v))⟩ =
      ⟨w, fs, .answering (.pull (verdict ((w.shown i).length - 1)))⟩ := rfl

def Leads (verdict : Nat → Bool) (m m' : Machine) : Prop := ∃ n, (respond verdict)^[n] m = m'

theorem Leads.trans (h : Leads verdict m m') (h' : Leads verdict m' m'') :
    Leads verdict m m'' := by
  obtain ⟨n, rfl⟩ := h
  obtain ⟨n', rfl⟩ := h'
  exact ⟨n' + n, Function.iterate_add_apply _ n' n m⟩

theorem Leads.cons (h : Leads verdict (m.respond verdict) m') : Leads verdict m m' :=
  trans ⟨1, rfl⟩ h

def Rests (m : Machine) : Prop := m.stack = [] ∧ ∃ r, m.control = .idle (.returned r)

theorem Rests.respond_eq (h : m.Rests) : m.respond verdict = m := by
  obtain ⟨-, r, hr⟩ := h
  simp only [respond, hr, step]

theorem Leads.unique (h : Leads verdict m m') (hm : m'.Rests) (h' : Leads verdict m m'')
    (hm' : m''.Rests) : m' = m'' := by
  obtain ⟨n, rfl⟩ := h
  obtain ⟨n', rfl⟩ := h'
  rcases Nat.le_total n n' with hle | hle
  · obtain ⟨d, rfl⟩ := Nat.exists_eq_add_of_le' hle
    rw [Function.iterate_add_apply, Function.iterate_fixed hm.respond_eq]
  · obtain ⟨d, rfl⟩ := Nat.exists_eq_add_of_le' hle
    rw [Function.iterate_add_apply, Function.iterate_fixed hm'.respond_eq]

inductive Plays (verdict : Nat → Bool) : Machine → List Call → Machine → Prop
  | nil (m : Machine) : Plays verdict m [] m
  | cons {c : Call} {cs : List Call} {m m' m'' : Machine} (h : Leads verdict (m.invoke c) m')
      (hm : m'.Rests) (hcs : Plays verdict m' cs m'') : Plays verdict m (c :: cs) m''

theorem Plays.unique {cs : List Call} (h : Plays verdict m cs m') (h' : Plays verdict m cs m'') :
    m' = m'' := by
  induction h with
  | nil =>
    cases h'
    rfl
  | cons h hm _ ih =>
    cases h' with
    | cons hu hmu hcs =>
      obtain rfl := hu.unique hmu h hm
      exact ih hcs

end Machine
end Sluice
