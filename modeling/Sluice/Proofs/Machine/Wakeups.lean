import Sluice.Proofs.Machine.Launch

/-!
# No wakeup is lost

A machine stays attentive as long as nothing panics. So whenever no task is
runnable, every driver that was started and has not ended waits for something that
has not happened yet.

Requests, cancellations and pushes come at any moment between two sections, from
inside a poll or a delivery too, but never within a section. A request that another
thread makes after a driver has checked its demand and before it waits is outside
the model.
-/

namespace Sluice
namespace Machine

variable {m m' : Machine} {rest : List Frame} {d t : Nat} {x : StreamTask} {r : Reply}

theorem Attentive.goOn (h : m.Attentive) (hrun : ∀ t, m.control ≠ .calling (.run t))
    (hwake : ∀ d, m.control ≠ .calling (.wakeDriver d))
    (hspawn : ∀ d, m.control ≠ .calling (.spawn d)) (ho : m.world.Open m.stack)
    (hw : m'.world = m.world)
    (hs : Atop m.stack m'.stack) (hrun' : ∀ t, m'.control ≠ .calling (.run t))
    (ht : m'.Topped) : m'.Attentive := by
  have hunder : m'.underway = m.underway :=
    (underway_eq hrun' hs).trans (underway_eq hrun (.inl rfl)).symm
  have hno : RunsNoDriver m m' :=
    { coherent := by
        rw [hunder, hw]
        exact h.coherent
      job := by
        rw [hw]
        exact fun _ _ => id
      size := by rw [hw]
      drivers := fun e y hy => ⟨y, by rw [hw, hy], .refl y, (h.driven e y hy).ok, .inl⟩
      minds := fun e y u _ => .of_follows (by rw [hw]; exact .refl _) (hrun u) (hwake e) hs.mem
        (by rw [hw])
      opening := fun e dest => hs.mem
      spawning := hspawn
      streams := Nat.le_of_eq (by rw [hw])
      waker := fun i s u hsi hwk => ⟨s, hw ▸ hsi, hwk, rfl, rfl⟩
      polls := fun i => by rw [hw] }
  refine h.runsNoDriver hno ?_ ht
  rw [hw]
  exact hs.linked ho h.linked

theorem Attentive.turn (h : m.Attentive) (hc : m.control.Plain) (hs : Atop rest m.stack)
    (ho : m.world.Open rest) :
    (Machine.turn { m with stack := rest }).Attentive := by
  unfold Machine.turn
  simp only
  split
  · rename_i u s hstart
    obtain ⟨hu, rfl⟩ := Schedule.start?_eq hstart
    exact h.begin hc hs ho hu rfl (.inr ⟨.turning, trivial, rfl⟩) rfl
  · have hk : m.world.KeepsDrivers { m.world with schedule := m.world.schedule.wakeYielded } :=
      .reschedule (.wakeYielded _) fun _ hco => hco.wakeYielded
    exact h.plain ⟨hk, .inl rfl, trivial⟩ hc hs ho

theorem Attentive.tapped {i : Nat} {input : Driver.In Outlet} (h : m.Attentive)
    (hc : m.control.Plain) (ho : m.world.Open m.stack)
    (hin : ∀ s : Driver Outlet, s.Ok →
      s.Nudged (s.enter input).1 (s.enter input).2 ∧ (s.enter input).1.Ok) :
    (m.enterDriver i input).Attentive := by
  unfold enterDriver
  split
  · rename_i y hy
    obtain ⟨hn, hok⟩ := hin y.driver (h.driven i y hy).ok
    exact h.nudge hc ho hy hn hok
  · exact h.plain (answer_keepsDrivers m _) hc (.inl rfl) ho

theorem Attentive.request {link : Link} {dem : Demand} (h : m.Attentive)
    (hc : m.control = .calling (.request link dem)) : (m.request link dem).Attentive := by
  have hp : m.control.Plain := hc ▸ trivial
  have ho := h.topped.open_calling hc (by simp)
  have hk := World.KeepsDrivers.audit m.world dem link.audits
  unfold Machine.request
  split
  · rename_i w v hw
    rw [hw] at hk
    exact h.plain ⟨hk, .inl rfl, trivial⟩ hp (.inl rfl) ho
  · rename_i w hw
    rw [hw] at hk
    have h0 := h.change hk hp ho
    have ho0 := h0.topped.open_calling hc (by simp)
    cases link.tap with
    | driver i => exact h0.tapped hp ho0 fun s hs => Driver.onRequest_nudged hs dem
    | _ => exact h0.plain ((requestTap_effect _ dem _).keepsDrivers trivial) hp (.inl rfl) ho0

theorem Attentive.cancel {link : Link} (h : m.Attentive)
    (hc : m.control = .calling (.cancel link)) : (m.cancelTap link.tap).Attentive := by
  have hp : m.control.Plain := hc ▸ trivial
  have ho := h.topped.open_calling hc (by simp)
  cases link.tap with
  | driver i => exact h.tapped hp ho fun s hs => Driver.onCancel_nudged hs
  | _ => exact h.plain ((cancelTap_effect m _).keepsDrivers trivial) hp (.inl rfl) ho

theorem subscribe_keepsDrivers {source : Source} {i : Nat} (m : Machine)
    (hs : (Call.subscribe source i).Plain) :
    KeepsDrivers m.stack m.world (m.subscribe source i) := by
  unfold Machine.subscribe
  simp only
  split
  · exact (enterSequence_effect m _ _).keepsDrivers trivial
  · exact (enterSubject_effect m _ _).keepsDrivers trivial
  · exact ⟨.of_eq rfl rfl rfl rfl, .inl rfl, trivial⟩
  · rename_i hj
    simp [Call.Plain, hj] at hs

theorem enter_keepsDrivers {c : Call} (m : Machine) (hc : c.Plain)
    (hr : ∀ link dem, c ≠ .request link dem) (hk : ∀ link, c ≠ .cancel link) (ht : c ≠ .turn) :
    KeepsDrivers m.stack m.world (m.enter c) := by
  cases c with
  | subscribe source i => exact subscribe_keepsDrivers m hc
  | attach source i => exact call_keepsDrivers m trivial hc
  | request link dem => exact absurd rfl (hr link dem)
  | cancel link => exact absurd rfl (hk link)
  | poll | spawn | run => exact hc.elim
  | turn => exact absurd rfl ht
  | _ => exact (enter_effect m rfl).keepsDrivers (by trivial)

theorem Attentive.attach {source : Source} {i : Nat} (h : m.Attentive)
    (hc : m.control = .calling (.attach source i)) :
    (m.call (.attaching i) (.subscribe source i)).Attentive := by
  have htop := (topped_attach hc).mp h.topped
  exact h.goOn (by simp [hc]) (by simp [hc]) (by simp [hc]) htop.1 rfl
    (.inr ⟨.attaching i, trivial, rfl⟩) (by simp [call]) ⟨trivial, htop.2⟩

theorem Attentive.enter {c : Call} (h : m.Attentive) (hc : m.control = .calling c) :
    (m.enter c).Attentive := by
  by_cases hp : c.Plain
  · have ho := h.topped.open_calling hc fun d hd => by simp [hd, Call.Plain] at hp
    have hcontrol : m.control.Plain := hc ▸ hp
    by_cases ht : c = .turn
    · subst ht
      exact h.turn hcontrol (.inl rfl) ho
    · by_cases hk : ∃ link, c = .cancel link
      · obtain ⟨link, rfl⟩ := hk
        exact h.cancel hc
      · by_cases hr : ∃ link dem, c = .request link dem
        · obtain ⟨link, dem, rfl⟩ := hr
          exact h.request hc
        · have hn := enter_keepsDrivers m hp (fun link dem he => hr ⟨link, dem, he⟩)
            (fun link he => hk ⟨link, he⟩) ht
          exact h.plain hn hcontrol (.inl rfl) ho
  · cases c with
    | poll d => exact h.poll hc
    | spawn d => exact h.spawn hc
    | wakeDriver d => exact h.wakeDriver hc
    | run t => exact h.run hc
    | subscribe source i =>
      cases hj : source.origin with
      | stream j pace => exact h.subscribe hc hj
      | _ => exact absurd (by simp [Call.Plain, hj]) hp
    | attach source i => exact h.attach hc
    | _ => exact absurd trivial hp

theorem proceed_keepsDrivers {f : Frame} (m : Machine) (r : Reply) (hf : f.Plain)
    (ht : f ≠ .turning) : KeepsDrivers m.stack m.world (m.proceed r f) := by
  cases f with
  | driver i f =>
    cases f with
    | passing =>
      simp only [proceed, proceedDriver]
      split
      · rename_i x hx
        have hk : m.world.KeepsDrivers (m.world.setDriver i x.driver) :=
          (World.setDriver_same hx).symm ▸ .refl _
        exact ⟨hk, .inl rfl, trivial⟩
      · exact answer_keepsDrivers m _
    | _ => exact hf.elim
  | task t => exact hf.elim
  | turning => exact absurd rfl ht
  | _ => exact (proceed_effect m r rfl).keepsDrivers (by trivial)

theorem Attentive.proceed {f : Frame} (h : m.Attentive) (hc : m.control = .answering r)
    (hs : m.stack = f :: rest) : (proceed { m with stack := rest } r f).Attentive := by
  have hl := h.linked
  rw [hs] at hl
  by_cases hf : f.Plain
  · have hp : m.control.Plain := hc ▸ trivial
    have ho := (World.sits_plain hf).mp hl.1
    by_cases ht : f = .turning
    · subst ht
      exact h.turn hp (.inr ⟨.turning, trivial, hs⟩) ho
    · exact h.plain (proceed_keepsDrivers { m with stack := rest } r hf ht) hp (.inr ⟨f, hf, hs⟩) ho
  · cases f with
    | task t => exact h.stop hc hs
    | polling p => exact h.handed hc hs
    | driver d f =>
      cases f with
      | opening dest => exact h.opened hc hs
      | passing => exact absurd trivial hf
      | polling => exact h.polled hc hs
      | delivering => exact h.delivered hc hs
      | concluding => exact h.concluded hc hs
    | _ => exact absurd trivial hf

theorem Attentive.step (h : m.Attentive) (hm : m.Calm) : m.step.Attentive := by
  unfold Machine.step
  cases hc : m.control with
  | calling c => exact h.enter hc
  | answering r =>
    cases hs : m.stack with
    | nil =>
      have hn : KeepsDrivers [] m.world { m with stack := [], control := .idle (.returned r) } :=
        ⟨.refl _, .inl rfl, trivial⟩
      have hplain := h.plain hn (hc ▸ trivial) (.inl hs) trivial
      simpa only [hs] using hplain
    | cons f rest => exact h.proceed hc hs
  | unwinding why => simp [Calm, hc] at hm
  | idle o => exact h
  | stuck => exact h

theorem Attentive.invoke {c : Call} (h : m.Attentive) (hm : m.Idle) (hc : c.Public m.world) :
    (m.invoke c).Attentive := by
  have ho := h.topped.open_idle hm
  obtain ⟨o, hi⟩ := hm
  refine h.goOn (by simp [hi]) (by simp [hi]) (by simp [hi]) ho rfl (.inl rfl) ?_ ?_
  · intro t ht
    obtain rfl : c = .run t := by simpa [Machine.invoke] using ht
    exact hc
  · cases c with
    | subscribe source i => exact ⟨ho, hc⟩
    | attach source i => exact ⟨ho, hc⟩
    | poll d => exact hc.elim
    | spawn d => exact hc.elim
    | _ => exact ho

theorem Attentive.next (h : m.Attentive) (hm : m.Calm) (hn : m.Next m') : m'.Attentive := by
  have hplain (hi : m.Idle) : m.control.Plain := by
    obtain ⟨o, ho⟩ := hi
    exact ho ▸ trivial
  cases hn with
  | step => exact h.step hm
  | attend hi =>
    have hn : KeepsDrivers m.stack m.world m.attend := ⟨.refl _, .inl rfl, trivial⟩
    exact h.plain hn (hplain hi) (.inl rfl) (h.topped.open_idle hi)
  | invoke hi hc => exact h.invoke hi hc
  | begin hi ht =>
    exact h.begin (hplain hi) (.inl rfl) (h.topped.open_idle hi) ht rfl (.inl rfl) rfl
  | reply hi r =>
    unfold Machine.reply
    split
    · rename_i q rest hs
      have hn : KeepsDrivers rest m.world { m with stack := rest, control := .answering r } :=
        ⟨.refl _, .inl rfl, trivial⟩
      have hl := h.linked
      rw [hs] at hl
      exact h.plain hn (hplain hi) (.inr ⟨.asked q, trivial, hs⟩) hl.1
    · exact h
  | raise hi why =>
    unfold Machine.raise
    split
    · rename_i q rest hs
      have hn : KeepsDrivers rest m.world { m with stack := rest, control := .unwinding why } :=
        ⟨.refl _, .inl rfl, trivial⟩
      have hl := h.linked
      rw [hs] at hl
      exact h.plain hn (hplain hi) (.inr ⟨.asked q, trivial, hs⟩) hl.1
    · exact h
  | change hi hw => exact h.change hw.keeps (hplain hi) (h.topped.open_idle hi)

theorem Reached.attentive (h : Reached Calm m) : m.Attentive ∧ m.Calm :=
  h.invariant (P := fun m => m.Attentive ∧ m.Calm) ⟨attentive_empty, trivial⟩
    fun hm hn hcalm => ⟨hm.1.next hm.2 hn, hcalm⟩

/-- No task is queued, has yielded, is under way, or is just being spawned, woken or run. -/
structure Quiet (m : Machine) : Prop where
  ready : m.world.schedule.ready = []
  yielded : m.world.schedule.yielded = []
  stack : ∀ t, Frame.task t ∉ m.stack
  spawn : ∀ d, m.control ≠ .calling (.spawn d)
  wake : ∀ d, m.control ≠ .calling (.wakeDriver d)
  run : ∀ t, m.control ≠ .calling (.run t)

theorem Quiet.of_idle (hi : m.Idle) (hs : m.stack = []) (hr : m.world.schedule.ready = [])
    (hy : m.world.schedule.yielded = []) : m.Quiet := by
  obtain ⟨o, ho⟩ := hi
  exact ⟨hr, hy, by simp [hs], by simp [ho], by simp [ho], by simp [ho]⟩

theorem Attentive.not_due (h : m.Attentive) (hq : m.Quiet) (t : Nat) : ¬m.Due t := by
  intro hdue
  rcases hdue with (ha | ha) | hr
  · have := (h.coherent.queued t).mpr ha
    simp [hq.ready] at this
  · have hmem := (h.coherent.underway t).mpr (.inr ha)
    rcases List.mem_append.mp hmem with hs | hs
    · cases hc : m.control with
      | calling c =>
        cases c with
        | run u => exact hq.run u hc
        | _ => simp [hc, Control.starting] at hs
      | _ => simp [hc, Control.starting] at hs
    · obtain ⟨f, hf, hft⟩ := List.mem_filterMap.mp hs
      cases f with
      | task u => exact hq.stack u hf
      | _ => simp [Frame.task?] at hft
  · exact hq.run t hr

end Machine

namespace Driver

variable {ρ : Type}

/-- How many units of demand a driver has taken and not used up yet. It takes one before it begins
to wait for its stream, and holds it for as long as it waits. -/
def unitsHeld (s : Driver ρ) : Nat := if s.phase = .polling ∧ s.waiter ≠ .absent then 1 else 0

end Driver

namespace Machine

variable {m : Machine} {d : Nat} {x : StreamTask}

end Machine
end Sluice
