import Sluice.Proofs.Machine.Attentive

/-!
# Steps that run no driver

A step that runs no part of a driver's task leaves what the driver waits for as it
is. It may add to what the driver has to attend to, as long as it also sees to it
that the driver will.
-/

namespace Sluice

namespace Machine

variable {m m' : Machine} {rest : List Frame}

structure RunsNoDriver (m m' : Machine) : Prop where
  coherent : m'.world.schedule.Coherent m'.underway
  job : ∀ t d, m'.world.schedule.job? t = some (.driver d) →
    m.world.schedule.job? t = some (.driver d)
  size : m'.world.drivers.size = m.world.drivers.size
  drivers : ∀ (d : Nat) x, m.world.drivers[d]? = some x → ∃ x', m'.world.drivers[d]? = some x' ∧
    x.Like x' ∧ x'.driver.Ok ∧ (x'.driver.waiter = .notified →
      x.driver.waiter = .notified ∨ m'.control = .calling (.wakeDriver d))
  minds : ∀ d x t, m.world.Drives d t x → Minds m m' d x.stream t
  opening : ∀ d dest, Frame.driver d (.opening dest) ∈ m.stack →
    Frame.driver d (.opening dest) ∈ m'.stack
  spawning : ∀ d, m.control ≠ .calling (.spawn d)
  streams : m.world.streams.size ≤ m'.world.streams.size
  waker : ∀ (i : Nat) s' t, m'.world.streams[i]? = some s' → s'.waker = some t →
    ∃ s, m.world.streams[i]? = some s ∧ s.waker = some t ∧ s'.items = s.items ∧
      s'.closed = s.closed
  polls : ∀ i, m'.world.lastPoll i = m.world.lastPoll i

theorem RunsNoDriver.driver_of (h : RunsNoDriver m m') {d : Nat} {x' : StreamTask}
    (hx' : m'.world.drivers[d]? = some x') :
    ∃ x, m.world.drivers[d]? = some x ∧ x.Like x' ∧ x'.driver.Ok ∧
      (x'.driver.waiter = .notified →
        x.driver.waiter = .notified ∨ m'.control = .calling (.wakeDriver d)) := by
  have hlt : d < m.world.drivers.size := by
    rw [← h.size]
    exact (Array.getElem?_eq_some_iff.mp hx').1
  obtain ⟨y, hy, hl⟩ := h.drivers d _ (Array.getElem?_eq_getElem hlt)
  obtain rfl := Option.some.inj (hy.symm.trans hx')
  exact ⟨_, Array.getElem?_eq_getElem hlt, hl⟩

theorem Attentive.runsNoDriver (h : m.Attentive) (hm : RunsNoDriver m m')
    (hl : m'.world.Linked m'.stack) (ht : m'.Topped) : m'.Attentive where
  coherent := hm.coherent
  driven := by
    intro d x' hx'
    obtain ⟨x, hx, hlike, hok, hn⟩ := hm.driver_of hx'
    exact (h.driven d x hx).keep hlike hok hn hm.streams (fun t ht => hm.minds d x t ⟨hx, ht⟩)
      (hm.opening d) (hm.spawning d)
  driver := by
    intro t d hj
    obtain ⟨x, hx, ht⟩ := h.driver t d (hm.job t d hj)
    obtain ⟨x', hx', hlike, -⟩ := hm.drivers d x hx
    exact ⟨x', hx', hlike.task.trans ht⟩
  streamed := by
    refine ⟨?_, ?_⟩
    · apply h.streamed.own_of
      intro d x' hx'
      obtain ⟨x, hx, hl, -⟩ := hm.driver_of hx'
      exact ⟨x, hx, hl.stream.symm⟩
    · intro i s' t hs' hw
      obtain ⟨s, hs, hw, hi, hc⟩ := hm.waker i s' t hs' hw
      obtain ⟨hi', hc', hp, d, x, ⟨hx, ht⟩, hstr, hph⟩ := h.streamed.waker i s t hs hw
      obtain ⟨x', hx', hlike, -⟩ := hm.drivers d x hx
      refine ⟨hi.trans hi', hc.trans hc', (hm.polls i).trans hp, d, x',
        ⟨hx', hlike.task.trans ht⟩, hlike.stream.trans hstr, ?_⟩
      rw [hlike.phase]
      exact hph.imp_right fun hq => ⟨hq.1, mt hlike.absent.mp hq.2⟩
  linked := hl
  topped := ht

theorem RunsNoDriver.persists (hm : RunsNoDriver m m')
    (ht : ∀ t, Frame.task t ∈ rest →
      m.world.schedule.state t ≠ .ended ∧ m'.control ≠ .calling (.run t)) :
    m.world.Persists m'.world rest where
  job := fun t d _ hj => hm.job t d hj
  opening := by
    intro d dest _ hpre
    obtain ⟨x, hx, htask, hp⟩ := hpre
    obtain ⟨x', hx', hl, -⟩ := hm.drivers d x hx
    exact ⟨x', hx', hl.task.trans htask, hl.phase.trans hp⟩
  drives := by
    intro d x t hd hmem
    obtain ⟨x', hx', hl, -⟩ := hm.drivers d x hd.1
    have hminds := hm.minds d x t hd
    have hdue (hd : m'.Due t) : m'.world.schedule.Awake t := hd.resolve_right (ht t hmem).2
    refine ⟨x', hx', hl, ?_, ?_⟩
    · intro hor
      rcases hor with hw | ha
      · rcases hminds.waker (ht t hmem).1 hw with hd | hw
        · exact .inr (hdue hd)
        · exact .inl hw
      · exact .inr (hdue (hminds.due (.inl ha)))
    · intro hnone
      apply Option.eq_none_iff_forall_ne_some.mpr
      intro u hu
      obtain ⟨s', hs', hw'⟩ := World.waker_eq_some.mp hu
      obtain ⟨s, hs, hw, -⟩ := hm.waker _ s' u hs' hw'
      simp [World.waker_eq_some.mpr ⟨s, hs, hw⟩] at hnone

theorem Attentive.keepsDrivers (h : m.Attentive) (hn : KeepsDrivers rest m.world m')
    (hu : m.underway = rest.filterMap Frame.task?)
    (ho : ∀ d dest, Frame.driver d (.opening dest) ∈ m.stack →
      Frame.driver d (.opening dest) ∈ rest)
    (hl : m.world.Linked rest) (hopen : m.world.Open rest)
    (hrun : ∀ d x t, m.world.Drives d t x → m.control ≠ .calling (.run t))
    (hwake : ∀ d x t, m.world.Drives d t x → m.world.schedule.state t ≠ .ended →
      m.control = .calling (.wakeDriver d) → m'.world.schedule.Awake t)
    (hspawn : ∀ d, m.control ≠ .calling (.spawn d)) : m'.Attentive := by
  have hk := hn.keeps
  have htop : Atop rest m'.stack := hn.stack
  have hunder : m'.underway = m.underway := (underway_eq hn.control.ne_run htop).trans hu.symm
  have hstack (t : Nat) (ht : Frame.task t ∈ m.stack) : Frame.task t ∈ m'.stack := by
    have hmem := mem_underway_of_mem_stack ht
    rw [hu] at hmem
    exact htop.mem (mem_stack_of_mem_filterMap hmem)
  have hrest (t : Nat) (ht : Frame.task t ∈ rest) :
      m.world.schedule.state t ≠ .ended ∧ m'.control ≠ .calling (.run t) := by
    refine ⟨h.not_ended_of_mem_underway ?_, hn.control.ne_run t⟩
    rw [hu]
    exact List.mem_filterMap.mpr ⟨_, ht, rfl⟩
  have hno : RunsNoDriver m m' :=
    { coherent := by
        rw [hunder]
        exact hk.coherent _ h.coherent
      job := hk.schedule.driver
      size := by rw [hk.drivers]
      drivers := fun d x hx => ⟨x, by rw [hk.drivers, hx], .refl x, (h.driven d x hx).ok, .inl⟩
      minds := fun d x t hd =>
        { job := hk.schedule.job t _
          ended := hk.schedule.ended t
          due := fun hdue => .inl (hk.schedule.awake t (hdue.resolve_right (hrun d x t hd)))
          roused := fun hs hc => .inl (.inl (hwake d x t hd hs hc))
          yielded := fun hy hs => (hk.schedule.yielded t hy hs).imp_right .inl
          stack := hstack t
          waker := fun hs hw => (hk.hears _ t hw hs).symm.imp_left .inl }
      opening := fun d dest hm => htop.mem (ho d dest hm)
      spawning := hspawn
      streams := hk.streams
      waker := hk.waker
      polls := hk.polls }
  have hp := hno.persists hrest
  have hopen' := hopen.persist hp
  apply h.runsNoDriver hno (htop.linked hopen' (hl.persist hp))
  refine .of_open (htop.isOpen hopen') ?_ hn.control
  intro d t x hd
  exact hk.schedule.job t _ (h.drives ⟨hk.drivers ▸ hd.1, hd.2⟩)

theorem Attentive.plain (h : m.Attentive) (hn : KeepsDrivers rest m.world m') (hc : m.control.Plain)
    (hs : Atop rest m.stack) (ho : m.world.Open rest) : m'.Attentive := by
  refine h.keepsDrivers hn (underway_eq hc.ne_run hs) ?_ (hs.linked_rest h.linked) ho ?_ ?_
    hc.ne_spawn
  · exact fun d dest => hs.mem_rest id
  · exact fun d x t _ => hc.ne_run t
  · exact fun d x t _ _ hr => absurd hr (hc.ne_wake d)

theorem Attentive.change {w : World} (h : m.Attentive) (hw : m.world.KeepsDrivers w)
    (hc : m.control.Plain) (ho : m.world.Open m.stack) : ({ m with world := w }).Attentive :=
  h.plain ⟨hw, .inl rfl, hc⟩ hc (.inl rfl) ho

theorem Attentive.wakeDriver {d : Nat} (h : m.Attentive)
    (hc : m.control = .calling (.wakeDriver d)) :
    (m.wakeTask (m.world.drivers[d]?.bind StreamTask.task)).Attentive := by
  have ho := h.topped.open_calling hc (by simp)
  refine h.keepsDrivers ((wakeTask_effect m _).keepsDrivers trivial) ?_ (fun _ _ => id) h.linked ho
    ?_ ?_ ?_
  · simp [underway, hc, Control.starting]
  · simp [hc]
  · intro e x t hd hs hc'
    obtain rfl : d = e := by simpa [hc] using hc'
    rw [hd.1, Option.bind_some, hd.2]
    exact Schedule.awake_wake hs
  · simp [hc]

theorem Attentive.redrive {d : Nat} {x : StreamTask} {s : Driver Outlet} (h : m.Attentive)
    (hc : m.control.Plain) (ho : m.world.Open m.stack) (hx : m.world.drivers[d]? = some x)
    (hlike : x.Like { x with driver := s }) (hok : s.Ok) (hw : m'.world = m.world.setDriver d s)
    (hs : Atop m.stack m'.stack)
    (hn : s.waiter = .notified →
      x.driver.waiter = .notified ∨ m'.control = .calling (.wakeDriver d))
    (hrun : ∀ t, m'.control ≠ .calling (.run t))
    (ht : m'.world.Open m'.stack →
      (∀ e t y, m'.world.Drives e t y → m'.world.schedule.job? t = some (.driver e)) →
      m'.Topped) : m'.Attentive := by
  have hunder : m'.underway = m.underway :=
    (underway_eq hrun hs).trans (underway_eq hc.ne_run (.inl rfl)).symm
  have hno : RunsNoDriver m m' :=
    { coherent := by
        rw [hunder, hw]
        exact h.coherent
      job := by
        rw [hw]
        exact fun _ _ => id
      size := by simp [hw, World.setDriver]
      drivers := by
        intro e y hy
        rw [hw, World.getElem?_setDriver, hy]
        by_cases he : d = e
        · subst he
          obtain rfl := Option.some.inj (hx.symm.trans hy)
          exact ⟨_, by simp, hlike, hok, hn⟩
        · exact ⟨y, by simp [he], .refl y, (h.driven e y hy).ok, .inl⟩
      minds := fun e y t _ => .of_follows (by rw [hw]; exact .refl _) (hc.ne_run t) (hc.ne_wake e)
        hs.mem (by rw [hw]; rfl)
      opening := fun e dest => hs.mem
      spawning := hc.ne_spawn
      streams := Nat.le_of_eq (by rw [hw]; rfl)
      waker := fun i s' t hs' hwk => ⟨s', by rw [hw] at hs'; exact hs', hwk, rfl, rfl⟩
      polls := fun i => by rw [hw]; rfl }
  have hp : m.world.Persists m'.world m.stack :=
    hno.persists fun t ht =>
      ⟨h.not_ended_of_mem_underway (mem_underway_of_mem_stack ht), hrun t⟩
  have hopen := ho.persist hp
  refine h.runsNoDriver hno (hs.linked hopen (h.linked.persist hp)) (ht (hs.isOpen hopen) ?_)
  intro e t y hy
  obtain ⟨z, hz, hl, -⟩ := hno.driver_of hy.1
  rw [hw]
  exact h.drives ⟨hz, hl.task ▸ hy.2⟩

theorem driverSection_world (m : Machine) (d : Nat)
    (r : Driver Outlet × Move (Driver.Out Outlet) (Driver.Frame Outlet)) :
    (m.driverSection d r).world = m.world.setDriver d r.1 := by
  obtain ⟨s, mv⟩ := r
  cases mv <;> rfl

theorem driverSection_ne_run (m : Machine) (d : Nat)
    (r : Driver Outlet × Move (Driver.Out Outlet) (Driver.Frame Outlet)) (t : Nat) :
    (m.driverSection d r).control ≠ .calling (.run t) := by
  obtain ⟨s, mv⟩ := r
  cases mv with
  | answer r => simp [driverSection, move]
  | call o f => cases o <;> simp [driverSection, move, driverCall, handOver]

theorem Attentive.nudge {d : Nat} {x : StreamTask} {s : Driver Outlet}
    {mv : Move (Driver.Out Outlet) (Driver.Frame Outlet)} (h : m.Attentive) (hc : m.control.Plain)
    (ho : m.world.Open m.stack) (hx : m.world.drivers[d]? = some x)
    (hn : x.driver.Nudged s mv) (hok : s.Ok) : (m.driverSection d (s, mv)).Attentive := by
  cases hn with
  | woken hs ht hp =>
    have hlike : x.Like { x with driver := s } := ⟨rfl, rfl, hp, by simp [hs, ht]⟩
    exact h.redrive hc ho hx hlike hok rfl (.inr ⟨.driver d .passing, trivial, rfl⟩)
      (fun _ => .inr rfl) (driverSection_ne_run m d _) fun _ _ => trivial
  | noted ht hp =>
    have hlike : x.Like { x with driver := s } := ⟨rfl, rfl, hp, by simp [ht]⟩
    exact h.redrive hc ho hx hlike hok rfl (.inl rfl) (fun hw => .inl (ht ▸ hw))
      (driverSection_ne_run m d _) fun ho' hj => ho'.takes hj _

end Machine
end Sluice
