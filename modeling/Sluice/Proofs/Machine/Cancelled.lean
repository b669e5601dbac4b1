import Sluice.Proofs.Machine.Carrying
import Sluice.Proofs.Machine.Dropped

/-!
# Cancelled drivers

A driver that was cancelled takes up no errand any more, whatever the errand under
way comes to. It has ended, and its stream is dropped, by the time that no task is
runnable; if it was cancelled while it was handed over, it is never given a task.
-/

namespace Sluice

theorem Driver.onCancel_cancelled {ρ : Type} (s : Driver ρ) : s.onCancel.1.cancelled = true ∧
    (s.onCancel.2 = .answer .done ∨ s.onCancel.2 = .call .wake .passing) := by
  unfold onCancel
  split
  · rename_i hc
    exact ⟨hc, .inl rfl⟩
  · unfold notify
    split
    · exact ⟨rfl, .inr rfl⟩
    · exact ⟨rfl, .inl rfl⟩

namespace Machine

variable {m m' : Machine} {d i : Nat} {x : StreamTask}

/-- Only drivers with a task have polled their streams, and those that have ended let go of them. -/
structure Tended (m : Machine) : Prop where
  sound : m.Sound
  parted : ∀ (d : Nat) x, m.world.drivers[d]? = some x → m.Parted x
  polled : ∀ i, m.world.lastPoll i ≠ none → ∃ d t x, m.world.Drives d t x ∧ x.stream = i

theorem Carries.drives (h : Carries m m') {t : Nat} (hd : m.world.Drives d t x) :
    ∃ x', m'.world.Drives d t x' ∧ x'.stream = x.stream := by
  obtain ⟨x', hc⟩ := h.drivers d x hd.1
  refine ⟨x', ⟨hc.self, ?_⟩, hc.stream⟩
  rcases hc.task with ht | ⟨hnone, -⟩
  · exact ht.trans hd.2
  · simp [hd.2] at hnone

theorem Tended.next (h : m.Tended) (hn : m.Next m') : m'.Tended := by
  have hc := h.sound.carries hn
  refine ⟨h.sound.next hn, ?_, ?_⟩
  · intro d x' hx'
    cases hx : m.world.drivers[d]? with
    | none => exact fun he => absurd he (hc.fresh d x' hx' hx)
    | some x =>
      obtain ⟨y, hy⟩ := hc.drivers d x hx
      obtain rfl := Option.some.inj (hy.self.symm.trans hx')
      exact hy.parted (h.parted d x hx)
  · intro i hi
    have hold : ∃ d t x, m.world.Drives d t x ∧ x.stream = i := by
      rcases hc.polls i with hp | hp
      · exact h.polled i (hp ▸ hi)
      · exact hp
    obtain ⟨d, t, x, hd, hs⟩ := hold
    obtain ⟨x', hd', hs'⟩ := hc.drives hd
    exact ⟨d, t, x', hd', hs'.trans hs⟩

theorem Reached.tended (h : Reached (fun _ => True) m) : m.Tended := by
  refine h.invariant (P := Tended) ⟨.inl attentive_empty, by simp, ?_⟩ fun hm hn _ => hm.next hn
  intro i hi
  simp [World.lastPoll] at hi

theorem Sound.own (h : m.Sound) {e : Nat} {y : StreamTask} (hx : m.world.drivers[d]? = some x)
    (hy : m.world.drivers[e]? = some y) (hs : x.stream = y.stream) : d = e := by
  rcases h with h | ⟨m₀, _, _, _, _, hf⟩
  · exact h.streamed.own d e x y hx hy hs
  · rw [hf.world] at hx hy
    exact hf.attentive.streamed.own d e x y hx hy hs

theorem Tended.unpolled (h : m.Tended) (hx : m.world.drivers[d]? = some x)
    (ht : x.task = none) : m.world.lastPoll x.stream = none := by
  cases hp : m.world.lastPoll x.stream with
  | none => rfl
  | some p =>
    obtain ⟨e, t, y, hy, hs⟩ := h.polled x.stream (by simp [hp])
    obtain rfl := h.sound.own hy.1 hx hs
    obtain rfl := hy.state_eq hx
    simp [hy.2] at ht

theorem Attentive.ended_of_unlaunched (h : m.Attentive) (hx : m.world.drivers[d]? = some x)
    (ht : x.task = none) (hc : m.control ≠ .calling (.spawn d))
    (ho : ∀ dest, Frame.driver d (.opening dest) ∉ m.stack) : x.driver.phase = .ended := by
  have hp := (h.driven d x hx).placed
  cases hph : x.driver.phase with
  | ended => rfl
  | unstarted =>
    obtain ⟨-, dest, hm⟩ := (placed_unstarted hph).mp hp
    exact absurd hm (ho dest)
  | seeking =>
    rcases (placed_seeking hph).mp hp with ⟨hs, -⟩ | ⟨t, hsome, -⟩
    · exact absurd hs hc
    · simp [ht] at hsome
  | parked =>
    obtain ⟨-, t, hsome, -⟩ := (placed_parked hph).mp hp
    simp [ht] at hsome
  | polling =>
    obtain ⟨t, hsome, -⟩ := (placed_polling hph).mp hp
    simp [ht] at hsome

theorem Sound.ended_of_unlaunched (h : m.Sound) (hx : m.world.drivers[d]? = some x)
    (ht : x.task = none) (hc : m.control ≠ .calling (.spawn d))
    (ho : ∀ dest, Frame.driver d (.opening dest) ∉ m.stack) : x.driver.phase = .ended := by
  rcases h with h | ⟨m₀, _, _, _, rest, hf⟩
  · exact h.ended_of_unlaunched hx ht hc ho
  · rw [hf.world] at hx
    refine hf.attentive.ended_of_unlaunched hx ht (hf.onTask.spawn d) fun dest hm => ho dest ?_
    have hrest := hf.onTask.opening d dest hm
    rcases hf.stack with hs | hs
    · rw [hs]
      exact .tail _ hrest
    · rw [hs]
      exact .tail _ (.tail _ hrest)

/-- Driver `d` was cancelled, and is neither about to poll nor about to be given a task. -/
structure CalledOff (m : Machine) (d : Nat) (x : StreamTask) : Prop where
  tended : m.Tended
  self : m.world.drivers[d]? = some x
  cancelled : x.driver.cancelled = true
  poll : m.control ≠ .calling (.poll d)
  spawn : m.control ≠ .calling (.spawn d)

theorem CalledOff.next (h : m.CalledOff d x) (hn : m.Next m') :
    (errands d m'.stack).Sublist (errands d m.stack) ∧
      ∃ x', m'.CalledOff d x' ∧ x'.stream = x.stream ∧ x'.task = x.task := by
  obtain ⟨x', hc⟩ := (h.tended.sound.carries hn).drivers d x h.self
  obtain ⟨hcan, hs⟩ := hc.cancelled h.cancelled
  refine ⟨hs.errands, x', ⟨h.tended.next hn, hc.self, hcan, hs.poll, hs.spawn⟩, hc.stream, ?_⟩
  exact hc.task.resolve_right fun ht => h.spawn ht.2

theorem CalledOff.continues (h : m.CalledOff d x) (hr : m.Continues m') :
    ∃ x', m'.CalledOff d x' ∧ x'.stream = x.stream ∧ x'.task = x.task := by
  induction hr with
  | refl => exact ⟨x, h, rfl, rfl⟩
  | tail _ hn ih =>
    obtain ⟨y, hy, hs, ht⟩ := ih
    obtain ⟨-, z, hz, hs', ht'⟩ := hy.next hn
    exact ⟨z, hz, hs'.trans hs, ht'.trans ht⟩

theorem calledOff_of_cancel {link : Link} (h : m.Tended) (hc : m.control = .calling (.cancel link))
    (hl : link.tap = .driver d) (hx : m.world.drivers[d]? = some x) :
    ∃ x', m.step.CalledOff d x' ∧ x'.stream = x.stream ∧ x'.task = x.task := by
  have hstep : m.step = m.driverSection d x.driver.onCancel := by
    simp only [Machine.step, hc, enter, cancelTap, hl, enterDriver, hx, Driver.enter]
  have hself : m.step.world.drivers[d]? = some { x with driver := x.driver.onCancel.1 } := by
    rw [hstep, driverSection_world]
    exact World.setDriver_self hx
  obtain ⟨hcan, hmove⟩ := x.driver.onCancel_cancelled
  have hne (c : Call) (hc : c ≠ .wakeDriver d) : m.step.control ≠ .calling c := by
    rw [hstep, driverSection]
    rcases hmove with hmv | hmv
    · simp [hmv, move]
    · simpa [hmv, move, driverCall] using Ne.symm hc
  exact ⟨_, ⟨h.next .step, hself, hcan, hne _ (by simp), hne _ (by simp)⟩, rfl, rfl⟩

theorem CalledOff.gone (h : m.CalledOff d x) (he : x.driver.phase = .ended)
    (ht : ∀ t, x.task = some t → Frame.task t ∉ m.stack) : m.world.Gone x.stream := by
  rcases h.tended.parted d x h.self he with hg | ⟨t, rest, hsome, hs, -⟩
  · exact hg
  · exact absurd (hs ▸ List.mem_cons_self) (ht t hsome)

def Polls (m : Machine) (i : Nat) : Prop :=
  ∃ d x, m.control = .calling (.poll d) ∧ m.world.drivers[d]? = some x ∧ x.stream = i

theorem CalledOff.not_polls (h : m.CalledOff d x) : ¬m.Polls x.stream := by
  intro hp
  obtain ⟨e, y, hc, hy, hs⟩ := hp
  obtain rfl := h.tended.sound.own hy h.self hs
  exact h.poll hc

theorem CalledOff.ended_of_quiet (h : m.CalledOff d x) (hq : m.Quiet)
    (ho : ∀ dest, Frame.driver d (.opening dest) ∉ m.stack) : x.driver.phase = .ended := by
  -- Whoever waits was notified of the cancellation, and its task is queued or under way.
  have hatt := h.tended.sound.attentive_of_quiet hq
  have hd := hatt.driven d x h.self
  have hwaiting {t : Nat} (hw : x.driver.waiter ≠ .absent)
      (hn : x.driver.waiter = .notified → m.Roused d t) : False := by
    cases hreg : x.driver.waiter with
    | absent => exact hw hreg
    | registered =>
      have hlive := (hd.ok.patient hreg).1
      simp [h.cancelled] at hlive
    | notified =>
      rcases hn hreg with hdue | hwake
      · exact hatt.not_due hq t hdue
      · exact hq.wake d hwake
  cases hp : x.driver.phase with
  | ended => rfl
  | unstarted =>
    obtain ⟨-, dest, hm⟩ := (placed_unstarted hp).mp hd.placed
    exact absurd hm (ho dest)
  | seeking =>
    rcases (placed_seeking hp).mp hd.placed with ⟨hs, -⟩ | ⟨t, -, hdue | hy | hs⟩
    · exact absurd hs h.spawn
    · exact absurd hdue (hatt.not_due hq t)
    · simp [hq.yielded] at hy
    · exact absurd hs (hq.stack t)
  | parked =>
    obtain ⟨hw, t, -, hn⟩ := (placed_parked hp).mp hd.placed
    exact (hwaiting hw hn).elim
  | polling =>
    obtain ⟨t, -, hn, hs | ⟨hw, -⟩⟩ := (placed_polling hp).mp hd.placed
    · exact absurd hs (hq.stack t)
    · exact (hwaiting hw hn).elim

theorem CalledOff.returns {f : Driver.Frame Outlet} {rest : List Frame} {r : Reply}
    (h : m.CalledOff d x) (hs : m.stack = .driver d f :: rest) (hc : m.control = .answering r) :
    m.step.stack = rest := by
  have hstep : m.step = proceedDriver { m with stack := rest } d f r := by
    simp only [Machine.step, hc, hs, proceed]
  obtain ⟨-, r', hmv⟩ := Driver.proceed_heeds x.driver r f h.cancelled
  rw [hstep, proceedDriver, h.self]
  simp only [driverSection, hmv, move]
  split
  · rfl
  · rfl

theorem run_of_drives {t : Nat} (hj : m.world.schedule.job? t = some (.driver d))
    (hx : m.world.drivers[d]? = some x) :
    m.run t = driverSection { m with stack := .task t :: m.stack } d x.driver.onRun := by
  obtain ⟨task, htask, hjob⟩ := Option.map_eq_some_iff.mp hj
  simp only [Machine.run, htask, hjob, enterDriver, hx, Driver.enter]

structure LetGo (m : Machine) (d i : Nat) : Prop where
  ended : m.world.drivers[d]?.map (·.driver.phase) = some .ended
  gone : m.world.Gone i

theorem letGo_endTask {t : Nat} {w : World} {rest : List Frame} {k : Control}
    (hj : w.schedule.job? t = some (.driver d)) (hx : w.drivers[d]? = some x)
    (hlt : x.stream < w.streams.size) : LetGo ⟨endTask w t, rest, k⟩ d x.stream := by
  have hself := World.setDriver_self (w := { w with schedule := w.schedule.stop t .ended })
    (s := x.driver.stop) hx
  refine ⟨?_, ?_⟩
  · simp only [endTask_driver hj hx]
    exact congrArg (Option.map (·.driver.phase)) hself
  · simp only [endTask_driver hj hx]
    exact World.gone_dropStream hlt

theorem CalledOff.letGo_of_run {t : Nat} (h : m.CalledOff d x) (ht : x.task = some t)
    (hc : m.control = .calling (.run t)) : (m.steps 2).LetGo d x.stream := by
  have hatt := h.tended.sound.attentive (by simp [hc])
  have hd : m.world.Drives d t x := ⟨h.self, ht⟩
  have hj := hatt.drives hd
  have hdriven := hatt.driven d x h.self
  obtain ⟨hst, hwait⟩ := hatt.ready hc hd
  obtain ⟨-, hmv⟩ := Driver.onRun_cancelled hdriven.ok hst hwait h.cancelled
  have hrun : m.step = ⟨m.world.setDriver d x.driver.onRun.1, .task t :: m.stack,
      .answering (.pause .ended)⟩ := by
    simp only [Machine.step, hc, enter, run_of_drives hj h.self, driverSection, hmv, move]
  rw [steps, steps, steps, hrun]
  exact letGo_endTask (x := { x with driver := x.driver.onRun.1 }) hj (World.setDriver_self h.self)
    hdriven.range

/-- What there is of driver `d` in `m'` after a cancellation found it in the state `x` in `m`. -/
structure Silenced (m m' : Machine) (d : Nat) (x x' : StreamTask) : Prop where
  self : m'.world.drivers[d]? = some x'
  stream : x'.stream = x.stream
  polls : ¬m'.Polls x.stream
  errands : ∀ m'', m'.Next m'' → (errands d m''.stack).Sublist (errands d m'.stack)
  returns : ∀ f rest r, m'.stack = .driver d f :: rest → m'.control = .answering r →
    m'.step.stack = rest
  run : ∀ t, x'.task = some t → m'.control = .calling (.run t) → (m'.steps 2).LetGo d x.stream
  quiet : (∀ dest, Frame.driver d (.opening dest) ∉ m'.stack) → m'.Quiet → m'.LetGo d x.stream
  opening : ∀ dest, Frame.driver d (.opening dest) ∈ m.stack →
    x'.task = none ∧ m'.world.lastPoll x.stream = none ∧
      ((∀ dest, Frame.driver d (.opening dest) ∉ m'.stack) → m'.LetGo d x.stream)

/-- From the cancellation of a driver on, no poll of its stream begins, and the driver begins no
delivery and no completion, whatever its calls under way come back with. The next run of its task
ends it, and by the time that no task is runnable it has ended and its stream was dropped. If it was
being handed over, it never gets a task, its stream is never polled, and is dropped when the
hand-over is done. -/
theorem cancel_silences {link : Link} (h : Reached (fun _ => True) m)
    (hc : m.control = .calling (.cancel link)) (hl : link.tap = .driver d)
    (hx : m.world.drivers[d]? = some x) (hr : m.step.Continues m') :
    ∃ x', Silenced m m' d x x' := by
  obtain ⟨y, hy, hstream, htask⟩ := calledOff_of_cancel h.tended hc hl hx
  obtain ⟨x', hx', hstream', htask'⟩ := hy.continues hr
  have hs : x'.stream = x.stream := hstream'.trans hstream
  have hletGo (he : x'.driver.phase = .ended)
      (ht : ∀ t, x'.task = some t → Frame.task t ∉ m'.stack) : m'.LetGo d x.stream :=
    ⟨by rw [hx'.self, Option.map_some, he], hs ▸ hx'.gone he ht⟩
  refine ⟨x', hx'.self, hs, hs ▸ hx'.not_polls, fun _ hn => (hx'.next hn).1,
    fun _ _ _ => hx'.returns, fun t => hs ▸ hx'.letGo_of_run, fun ho hq => ?_, fun dest hm => ?_⟩
  · exact hletGo (hx'.ended_of_quiet hq ho) fun t _ => hq.stack t
  · obtain ⟨z, hz, hznone, -⟩ := (h.sound.attentive (by simp [hc])).linked.opening hm
    obtain rfl := Option.some.inj (hx.symm.trans hz)
    have hnone : x'.task = none := htask'.trans (htask.trans hznone)
    refine ⟨hnone, hs ▸ hx'.tended.unpolled hx'.self hnone, fun ho => ?_⟩
    have he := hx'.tended.sound.ended_of_unlaunched hx'.self hnone hx'.spawn ho
    exact hletGo he (by simp [hnone])

/-- The driver is cancelled while a poll that found a value is under way. -/
theorem cancel_silences_amid_poll :
    ∃ m m' : Machine, Reached (fun _ => True) m ∧
      m.control = .calling (.cancel ⟨[], .driver 0⟩) ∧ m.world.lastPoll 0 = some (.value 7) ∧
      m.step.Continues m' ∧ m'.Quiet ∧ m'.LetGo 0 0 ∧
      m'.world.drivers[0]?.map (·.driver.delivered) = some 0 := by
  have h : Reached (fun _ => True) {} := .start
  have hs := h.next (.change ⟨_, rfl⟩ (.stream [.value 7] false)) trivial
  have hc := hs.next (.change ⟨_, rfl⟩ (.subscriber .custom)) trivial
  have hfresh : Source.Fresh ⟨[], .stream 0 .standard⟩
      ((({} : World).addStream [.value 7] false).addSubscriber .custom) :=
    ⟨by decide, by simp [World.addStream, World.addSubscriber]⟩
  have h1 := (hc.next (.invoke (c := .subscribe ⟨[], .stream 0 .standard⟩ 0) ⟨_, rfl⟩ hfresh)
    trivial).steps 3 fun _ _ => trivial
  have h2 := (h1.next (.invoke (c := .request ⟨[], .driver 0⟩ .one) ⟨_, rfl⟩ trivial)
    trivial).steps 2 fun _ _ => trivial
  have h3 := (h2.next (.reply ⟨_, rfl⟩ .done) trivial).steps 5 fun _ _ => trivial
  have h4 := (h3.next (.begin (t := 0) ⟨_, rfl⟩ (by decide)) trivial).steps 3 fun _ _ => trivial
  have h5 := h4.next (.invoke (c := .cancel ⟨[], .driver 0⟩) ⟨_, rfl⟩ trivial) trivial
  have hstart {m : Machine} (_ : Reached (fun _ => True) m) := Continues.refl m.step
  have hr := ((hstart h5).steps 3).next (.reply ⟨_, rfl⟩ .done)
  obtain ⟨x', hx'⟩ := cancel_silences h5 rfl rfl rfl (hr.steps 4)
  have hgone := hx'.quiet (fun _ => List.not_mem_nil) (.of_idle ⟨_, rfl⟩ rfl rfl rfl)
  exact ⟨_, _, h5, rfl, rfl, hr.steps 4, .of_idle ⟨_, rfl⟩ rfl rfl rfl, hgone, rfl⟩

end Machine
end Sluice
