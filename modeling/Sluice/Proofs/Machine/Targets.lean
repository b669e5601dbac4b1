import Sluice.Proofs.Machine.Effects

/-!
# Who changes a target

Targets change in two places only: when a write begins, and when the setter of one
returns. A new target comes after all others. Every other section of every
component leaves the table of targets as it is.
-/

namespace Sluice

namespace Machine

variable (m : Machine)

variable {m} in
theorem Effect.targets {p : Part} {m' : Machine} (h : Effect m p m') (hp : p ≠ .targets) :
    m'.world.targets = m.world.targets := by
  cases h with
  | store | set | written => exact absurd rfl hp
  | sink | assign | sequence | subject | driver | ticker =>
    exact (congrArg World.targets (move_world m _ _ _ _)).trans rfl
  | _ => rfl

theorem enterDriver_targets (n : Nat) (input : Driver.In Outlet) :
    (m.enterDriver n input).world.targets = m.world.targets :=
  (enterDriver_effect m n input).targets nofun

theorem run_targets (t : Nat) : (m.run t).world.targets = m.world.targets := by
  unfold run
  split
  · dsimp only
    split
    · exact enterDriver_targets _ _ _
    · exact (enterTicker_effect _ _ _).targets nofun
  · rfl

theorem enter_targets {c : Call} (hc : ∀ t rule v, c ≠ .write t rule v) :
    (m.enter c).world.targets = m.world.targets := by
  cases c with
  | write t rule v => exact absurd rfl (hc t rule v)
  | subscribe source i =>
    obtain ⟨ds, h⟩ := subscribe_effect m source i
    exact h.targets (by cases source.origin <;> nofun)
  | attach source i => rfl
  | request link d =>
    obtain ⟨rs, h⟩ := request_effect m link d
    exact h.targets (by cases link.tap <;> nofun)
  | run t => exact run_targets m t
  | cancel link => exact (cancelTap_effect m link.tap).targets (by cases link.tap <;> nofun)
  | _ => exact (enter_effect m rfl).targets nofun

theorem dropJob_targets (w : World) (j : Job) : (dropJob w j).targets = w.targets := by
  unfold dropJob
  split <;> split <;> rfl

theorem endTask_targets (w : World) (t : Nat) : (endTask w t).targets = w.targets := by
  unfold endTask
  dsimp only
  split
  · exact dropJob_targets _ _
  · rfl

theorem proceedDriver_targets (i : Nat) (f : Driver.Frame Outlet) (r : Reply) :
    (m.proceedDriver i f r).world.targets = m.world.targets := by
  unfold proceedDriver
  split
  · dsimp only
    split
    · exact (Effect.driver i _).targets nofun
    · exact (Effect.driver i _).targets nofun
  · rfl

theorem stopTask_targets (t : Nat) (p : Pause) :
    (m.stopTask t p).world.targets = m.world.targets := by
  cases p with
  | ended => exact endTask_targets m.world t
  | _ => rfl

theorem proceed_targets (r : Reply) {f : Frame} (hf : ∀ t, f ≠ .setting t) :
    (m.proceed r f).world.targets = m.world.targets := by
  cases f with
  | setting t => exact absurd rfl (hf t)
  | driver i f => exact proceedDriver_targets m i f r
  | task t => exact stopTask_targets m t _
  | _ => exact (proceed_effect m r rfl).targets nofun

theorem unwound_targets (why : Panic) (f : Frame) :
    (m.unwound why f).world.targets = m.world.targets := by
  unfold unwound
  split
  · split <;> rfl
  · exact endTask_targets m.world _
  · split <;> rfl
  · rfl
  · rfl

def AtTarget : Prop :=
  (∃ t rule v, m.control = .calling (.write t rule v)) ∨
    ∃ r t rest, m.control = .answering r ∧ m.stack = .setting t :: rest

variable {m} {m' : Machine}

theorem step_targets (hm : ¬ m.AtTarget) : m.step.world.targets = m.world.targets := by
  unfold step
  cases hc : m.control with
  | calling c => exact enter_targets m fun t rule v h => hm (.inl ⟨t, rule, v, h ▸ hc⟩)
  | answering r =>
    cases hs : m.stack with
    | nil => rfl
    | cons f rest =>
      refine proceed_targets { m with stack := rest } r fun t h => hm (.inr ⟨r, t, rest, hc, ?_⟩)
      rw [hs, h]
  | unwinding why =>
    cases hs : m.stack with
    | nil => rfl
    | cons f rest => exact unwound_targets { m with stack := rest } why f
  | idle o => rfl
  | stuck => rfl

theorem Next.targets (h : m.Next m') (hm : ¬ m.AtTarget) {t : Nat}
    (ht : t < m.world.targets.size) : m'.world.targets[t]? = m.world.targets[t]? := by
  cases h with
  | step => rw [step_targets hm]
  | attend => rfl
  | invoke => rfl
  | begin => rfl
  | reply _ r => unfold Machine.reply; split <;> rfl
  | raise _ why => unfold Machine.raise; split <;> rfl
  | change _ hw =>
    cases hw with
    | target T => exact Array.getElem?_push_lt .. |>.trans (Array.getElem?_eq_getElem ht).symm
    | _ => rfl

end Machine
end Sluice
