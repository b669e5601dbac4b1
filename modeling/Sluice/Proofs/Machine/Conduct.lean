import Mathlib.Logic.Function.Iterate
import Sluice.Proofs.Machine.Runs

/-!
# Environments with a conduct

An environment whose conduct is fixed reacts to a question by some calls of its own, one
after the other, and then answers. It keeps a log of what it was asked, and how it reacts
depends on that log alone. It starts a top-level call only when the one before has
returned, so what a list of calls comes to is determined.
-/

namespace Sluice

/-- What is done about a question: calls that are made before it is answered, and the answer. -/
structure Reaction where
  asides : List Call := []
  reply : Reply := .done

/-- How an environment reacts to a question, given what it was asked before. -/
abbrev Conduct := List Question → Question → Reaction

/-- A machine with the reactions that are under way in it, the innermost first. -/
structure Performance where
  machine : Machine
  reactions : List Reaction := []
  log : List Question := []

namespace Performance

structure Rests (p : Performance) : Prop where
  reactions : p.reactions = []
  stack : p.machine.stack = []
  returned : ∃ r, p.machine.control = .idle (.returned r)

def invoke (p : Performance) (c : Call) : Performance := { p with machine := p.machine.invoke c }

end Performance

namespace Conduct

variable {k : Conduct} {p p' p'' : Performance}

/-- One move, of the environment if it is its turn and of the machine otherwise. -/
def play (k : Conduct) (p : Performance) : Performance :=
  match p.machine.control with
  | .idle (.asked q) => ⟨p.machine.attend, k p.log q :: p.reactions, p.log ++ [q]⟩
  | .idle _ =>
    match p.reactions with
    | [] => p
    | ⟨c :: cs, r⟩ :: rest => ⟨p.machine.invoke c, ⟨cs, r⟩ :: rest, p.log⟩
    | ⟨[], r⟩ :: rest => ⟨p.machine.reply r, rest, p.log⟩
  | _ => ⟨p.machine.step, p.reactions, p.log⟩

theorem next_play (k : Conduct)
    (hp : ∀ x ∈ p.reactions, ∀ c ∈ x.asides, c.Public p.machine.world) :
    p.machine.Next (k.play p).machine := by
  unfold play
  split
  next q hq => exact .attend ⟨_, hq⟩
  next o ho hq =>
    split
    next =>
      have hs : p.machine.Next p.machine.step := .step
      rwa [show p.machine.step = p.machine by simp only [Machine.step, hq]] at hs
    next c cs r rest hr => exact .invoke ⟨_, hq⟩ (hp ⟨c :: cs, r⟩ (by simp [hr]) c (by simp))
    next r rest hr => exact .reply ⟨_, hq⟩ r
  next => exact .step

theorem log_play (k : Conduct) (p : Performance) :
    (k.play p).log = p.log ∨ ∃ q, (k.play p).log = p.log ++ [q] := by
  unfold play
  split
  · exact .inr ⟨_, rfl⟩
  · split <;> exact .inl rfl
  · exact .inl rfl

theorem log_iterate (k : Conduct) (p : Performance) (n : Nat) :
    p.log <+: (k.play^[n] p).log := by
  induction n with
  | zero => exact List.prefix_rfl
  | succ n ih =>
    rw [Function.iterate_succ_apply']
    obtain h | ⟨q, h⟩ := k.log_play (k.play^[n] p)
    · exact h ▸ ih
    · exact ih.trans (h ▸ List.prefix_append _ _)

def Leads (k : Conduct) (p p' : Performance) : Prop := ∃ n, k.play^[n] p = p'

theorem Leads.refl (p : Performance) : k.Leads p p := ⟨0, rfl⟩

theorem Leads.trans (h : k.Leads p p') (h' : k.Leads p' p'') : k.Leads p p'' := by
  obtain ⟨n, rfl⟩ := h
  obtain ⟨n', rfl⟩ := h'
  exact ⟨n' + n, Function.iterate_add_apply _ n' n p⟩

theorem Leads.cons (h : k.Leads (k.play p) p') : k.Leads p p' := trans ⟨1, rfl⟩ h

theorem Leads.log (h : k.Leads p p') : p.log <+: p'.log := by
  obtain ⟨n, rfl⟩ := h
  exact k.log_iterate p n

theorem Rests.play_eq (h : p.Rests) : k.play p = p := by
  obtain ⟨hr, -, r, hc⟩ := h
  simp only [play, hc, hr]

theorem Rests.iterate_eq (h : p.Rests) (n : Nat) : k.play^[n] p = p :=
  Function.iterate_fixed (Rests.play_eq h) n

theorem Leads.total (h : k.Leads p p') (h' : k.Leads p p'') :
    k.Leads p' p'' ∨ k.Leads p'' p' := by
  obtain ⟨n, rfl⟩ := h
  obtain ⟨n', rfl⟩ := h'
  rcases Nat.le_total n n' with hle | hle
  · obtain ⟨d, rfl⟩ := Nat.exists_eq_add_of_le' hle
    exact .inl ⟨d, (Function.iterate_add_apply _ d n p).symm⟩
  · obtain ⟨d, rfl⟩ := Nat.exists_eq_add_of_le' hle
    exact .inr ⟨d, (Function.iterate_add_apply _ d n' p).symm⟩

theorem Leads.eq_of_rests (h : k.Leads p p') (hp : p.Rests) : p' = p := by
  obtain ⟨n, rfl⟩ := h
  exact Rests.iterate_eq hp n

theorem Leads.unique (h : k.Leads p p') (hp : p'.Rests) (h' : k.Leads p p'') (hp' : p''.Rests) :
    p' = p'' := by
  obtain hl | hl := h.total h'
  · exact (hl.eq_of_rests hp).symm
  · exact hl.eq_of_rests hp'

theorem log_prefix_of_le {n n' : Nat} (hn : n ≤ n') :
    (k.play^[n] p).log <+: (k.play^[n'] p).log := by
  obtain ⟨d, rfl⟩ := Nat.exists_eq_add_of_le' hn
  rw [Function.iterate_add_apply]
  exact k.log_iterate _ d

theorem Leads.log_within (h : k.Leads p p') (hp : p'.Rests) (n : Nat) :
    (k.play^[n] p).log <+: p'.log := by
  obtain hl | hl := Leads.total ⟨n, rfl⟩ h
  · exact hl.log
  · exact (hl.eq_of_rests hp).symm ▸ List.prefix_rfl

/-- The calls are made one after the other, and all of them return. -/
inductive Plays (k : Conduct) : Performance → List Call → Performance → Prop
  | nil (p : Performance) : Plays k p [] p
  | cons {c : Call} {cs : List Call} {p p' p'' : Performance} (h : k.Leads (p.invoke c) p')
      (hp : p'.Rests) (hcs : Plays k p' cs p'') : Plays k p (c :: cs) p''

theorem Plays.unique {cs : List Call} (h : k.Plays p cs p') (h' : k.Plays p cs p'') :
    p' = p'' := by
  induction h with
  | nil =>
    cases h'
    rfl
  | cons h hp _ ih =>
    cases h' with
    | cons hu hpu hcs =>
      obtain rfl := hu.unique hpu h hp
      exact ih hcs

inductive Meets (k : Conduct) : Performance → List Call → Performance → Prop
  | here (p : Performance) (cs : List Call) : Meets k p cs p
  | amid {c : Call} {cs : List Call} {p p' : Performance} (h : k.Leads (p.invoke c) p') :
      Meets k p (c :: cs) p'
  | later {c : Call} {cs : List Call} {p p' p'' : Performance} (h : k.Leads (p.invoke c) p')
      (hp : p'.Rests) (hcs : Meets k p' cs p'') : Meets k p (c :: cs) p''

end Conduct
end Sluice
