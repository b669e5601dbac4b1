import Sluice.Proofs.Machine.RunsNoDriver

/-!
# Steps of a driver's task

A task is begun, its driver works through its sections, and the task stops. Each
of these steps changes the state of one driver at most, and what it leaves to do
is left on the stack, in the queue, or with a wakeup and a stream.
-/

namespace Sluice
namespace Machine

variable {m m' : Machine} {rest : List Frame} {d t : Nat} {x x' : StreamTask}

theorem Minds.of_take {e i u : Nat} (hc : m.control.Plain)
    (hq : m.world.schedule.state t = .queued)
    (hw : m'.world = { m.world with schedule := m.world.schedule.take t })
    (hc' : m'.control = .calling (.run t))
    (hs : Frame.task u ∈ m.stack → Frame.task u ∈ m'.stack) : Minds m m' e i u := by
  have hself : (m.world.schedule.take t).state t = .running :=
    Schedule.state_setState_self _ (by simp [hq])
  have hother (hu : u ≠ t) : (m.world.schedule.take t).state u = m.world.schedule.state u :=
    Schedule.state_setState_ne _ hu
  refine ⟨?_, ?_, ?_, fun _ hr => absurd hr (hc.ne_wake e), ?_, hs, ?_⟩
  · rw [hw]
    exact (Schedule.job?_setState _).trans
  · rw [hw]
    intro he
    by_cases hu : u = t
    · subst hu
      simp [hself] at he
    · rwa [hother hu] at he
  · intro hd
    have ha : m.world.schedule.Awake u := hd.resolve_right (hc.ne_run u)
    by_cases hu : u = t
    · exact .inr (hu ▸ hc')
    · refine .inl ?_
      rw [hw]
      simpa only [Schedule.Awake, hother hu] using ha
  · exact fun hy _ => .inl (by rw [hw]; exact hy)
  · exact fun _ hwk => .inr (by rw [hw]; exact hwk)

theorem Attentive.begin (h : m.Attentive) (hc : m.control.Plain) (hs : Atop rest m.stack)
    (ho : m.world.Open rest) (ht : t ∈ m.world.schedule.ready)
    (hw : m'.world = { m.world with schedule := m.world.schedule.take t })
    (hs' : Atop rest m'.stack) (hc' : m'.control = .calling (.run t)) : m'.Attentive := by
  have hqueued := (h.coherent.queued t).mp ht
  have hrest := underway_eq hc.ne_run hs
  have hne (u : Nat) (hu : u ∈ m.underway) : u ≠ t := by
    intro heq
    subst heq
    have := (h.coherent.underway u).mp hu
    simp [hqueued] at this
  have hunder : m'.underway = t :: m.underway := by
    rw [underway, hc', hs'.filterMap_task?, hrest]
    rfl
  have hno : RunsNoDriver m m' :=
    { coherent := by
        rw [hunder, hw]
        exact h.coherent.take ht
      job := by
        rw [hw]
        exact fun u e hj => (Schedule.job?_setState _).symm.trans hj
      size := by rw [hw]
      drivers := fun e y hy => ⟨y, by rw [hw, hy], .refl y, (h.driven e y hy).ok, .inl⟩
      minds := fun e y u _ => .of_take hc hqueued hw hc' fun hm => hs'.mem (hs.mem_rest id hm)
      opening := fun e dest hm => hs'.mem (hs.mem_rest id hm)
      spawning := hc.ne_spawn
      streams := Nat.le_of_eq (by rw [hw])
      waker := fun i s u hsi hwk => ⟨s, by rw [hw] at hsi; exact hsi, hwk, rfl, rfl⟩
      polls := fun i => by rw [hw]; rfl }
  have hp : m.world.Persists m'.world rest := by
    apply hno.persists
    intro u hu
    have hmem : u ∈ m.underway := by
      rw [hrest]
      exact List.mem_filterMap.mpr ⟨_, hu, rfl⟩
    refine ⟨h.not_ended_of_mem_underway hmem, fun hr => hne u hmem ?_⟩
    simpa [hc'] using hr.symm
  have hl := (hs.linked_rest h.linked).persist hp
  apply h.runsNoDriver hno (hs'.linked (ho.persist hp) hl)
  rw [Topped, hc']
  exact hs'.isOpen (ho.persist hp)

/-- Only driver `d` and its stream change, and the driver keeps its task. -/
structure Around (m m' : Machine) (d : Nat) (x x' : StreamTask) : Prop where
  task : x'.task = x.task
  stream : x'.stream = x.stream
  drivers : ∀ e : Nat, m'.world.drivers[e]? = if e = d then some x' else m.world.drivers[e]?
  job : ∀ t, m'.world.schedule.job? t = m.world.schedule.job? t
  minds : ∀ e y t, e ≠ d → m.world.Drives e t y → Minds m m' e y.stream t
  opening : ∀ e dest, e ≠ d → Frame.driver e (.opening dest) ∈ m.stack →
    Frame.driver e (.opening dest) ∈ m'.stack
  spawning : ∀ e, e ≠ d → m.control ≠ .calling (.spawn e)
  size : m'.world.streams.size = m.world.streams.size
  streams : ∀ i : Nat, i ≠ x.stream → m'.world.streams[i]? = m.world.streams[i]?
  polls : ∀ i, i ≠ x.stream → m'.world.lastPoll i = m.world.lastPoll i

theorem Around.self (ha : Around m m' d x x') : m'.world.drivers[d]? = some x' := by
  rw [ha.drivers, if_pos rfl]

theorem Around.other (ha : Around m m' d x x') {e : Nat} (he : e ≠ d) :
    m'.world.drivers[e]? = m.world.drivers[e]? := by
  rw [ha.drivers, if_neg he]

theorem Attentive.around (h : m.Attentive) (hx : m.world.drivers[d]? = some x)
    (ha : Around m m' d x x') (hco : m'.world.schedule.Coherent m'.underway)
    (hself : m'.Driven d x')
    (hwk : ∀ s t, m'.world.streams[x.stream]? = some s → s.waker = some t → s.items = [] ∧
      s.closed = false ∧ m'.world.lastPoll x.stream = some .pending ∧ x.task = some t ∧
      (x'.driver.phase = .ended ∨ x'.driver.phase = .polling ∧ x'.driver.waiter ≠ .absent))
    (hl : m'.world.Linked m'.stack) (ht : m'.Topped) : m'.Attentive where
  coherent := hco
  driven := by
    intro e y hy
    by_cases he : e = d
    · subst he
      obtain rfl := Option.some.inj (ha.self.symm.trans hy)
      exact hself
    · rw [ha.other he] at hy
      exact (h.driven e y hy).keep (.refl y) (h.driven e y hy).ok .inl (Nat.le_of_eq ha.size.symm)
        (fun t ht => ha.minds e y t he ⟨hy, ht⟩) (fun dest => ha.opening e dest he)
        (ha.spawning e he)
  driver := by
    intro t e hj
    rw [ha.job] at hj
    obtain ⟨y, hy, hyt⟩ := h.driver t e hj
    by_cases he : e = d
    · subst he
      obtain rfl := Option.some.inj (hx.symm.trans hy)
      exact ⟨x', ha.self, ha.task.trans hyt⟩
    · exact ⟨y, (ha.other he).trans hy, hyt⟩
  streamed := by
    refine ⟨?_, ?_⟩
    · apply h.streamed.own_of
      intro e y hy
      by_cases he : e = d
      · subst he
        obtain rfl := Option.some.inj (ha.self.symm.trans hy)
        exact ⟨x, hx, ha.stream.symm⟩
      · exact ⟨y, (ha.other he).symm.trans hy, rfl⟩
    · intro i s t hs hw
      by_cases hi : i = x.stream
      · subst hi
        obtain ⟨hitems, hclosed, hpoll, htask, hph⟩ := hwk s t hs hw
        exact ⟨hitems, hclosed, hpoll, d, x', ⟨ha.self, ha.task.trans htask⟩, ha.stream, hph⟩
      · rw [ha.streams i hi] at hs
        obtain ⟨hitems, hclosed, hpoll, e, y, ⟨hy, hyt⟩, hys, hph⟩ := h.streamed.waker i s t hs hw
        refine ⟨hitems, hclosed, (ha.polls i hi).trans hpoll, e, y, ⟨?_, hyt⟩, hys, hph⟩
        have he : e ≠ d := by
          intro heq
          subst heq
          obtain rfl := Option.some.inj (hx.symm.trans hy)
          exact hi hys.symm
        exact (ha.other he).trans hy
  linked := hl
  topped := ht

theorem Around.job_of_drives (ha : Around m m' d x x') (h : m.Attentive)
    (hx : m.world.drivers[d]? = some x) {e u : Nat} {y : StreamTask}
    (hy : m'.world.Drives e u y) : m'.world.schedule.job? u = some (.driver e) := by
  rw [ha.job]
  by_cases he : e = d
  · subst he
    obtain rfl := hy.state_eq ha.self
    exact h.drives ⟨hx, ha.task ▸ hy.2⟩
  · exact h.drives ⟨(ha.other he).symm.trans hy.1, hy.2⟩

theorem Around.persists (h : m.Attentive) (hx : m.world.drivers[d]? = some x)
    (ha : Around m m' d x x')
    (hrest : ∀ t, Frame.task t ∈ rest →
      x.task ≠ some t ∧ m.world.schedule.state t ≠ .ended ∧ m'.control ≠ .calling (.run t))
    (hno : ∀ dest, Frame.driver d (.opening dest) ∉ rest) : m.world.Persists m'.world rest where
  job := fun t e _ hj => (ha.job t).symm.trans hj
  opening := by
    intro e dest hm hpre
    obtain ⟨y, hy, htask, hp⟩ := hpre
    have he : e ≠ d := fun he => hno dest (he ▸ hm)
    exact ⟨y, (ha.other he).trans hy, htask, hp⟩
  drives := by
    intro e y t hd hm
    obtain ⟨hxt, hst, hrun⟩ := hrest t hm
    have he : e ≠ d := by
      intro heq
      subst heq
      obtain rfl := Option.some.inj (hx.symm.trans hd.1)
      exact hxt hd.2
    have hminds := ha.minds e y t he hd
    have hi : y.stream ≠ x.stream := fun hs => he (h.streamed.own e d y x hd.1 hx hs)
    refine ⟨y, (ha.other he).trans hd.1, .refl y, ?_, ?_⟩
    · intro hor
      rcases hor with hw | haw
      · exact (hminds.waker hst hw).symm.imp_right (Or.resolve_right · hrun)
      · exact .inr ((hminds.due (.inl haw)).resolve_right hrun)
    · rw [World.waker, World.waker, ha.streams _ hi]
      exact id

/-- The task `t` of driver `d` is under way, right above the frames `rest`, and it is the driver's
turn. -/
structure OnTask (m : Machine) (d t : Nat) (x : StreamTask) (rest : List Frame) : Prop where
  drives : m.world.Drives d t x
  underway : m.underway = t :: rest.filterMap Frame.task?
  linked : m.world.Linked rest
  isOpen : m.world.Open rest
  opening : ∀ e dest, Frame.driver e (.opening dest) ∈ m.stack →
    Frame.driver e (.opening dest) ∈ rest
  run : ∀ u, m.control = .calling (.run u) → u = t
  wake : ∀ e, m.control ≠ .calling (.wakeDriver e)
  spawn : ∀ e, m.control ≠ .calling (.spawn e)

theorem OnTask.not_mem (ho : m.OnTask d t x rest) (h : m.Attentive) : Frame.task t ∉ rest := by
  intro hm
  have hnd := h.coherent.single
  rw [ho.underway] at hnd
  exact (List.nodup_cons.mp hnd).1 (List.mem_filterMap.mpr ⟨_, hm, rfl⟩)

theorem OnTask.mem_rest (ho : m.OnTask d t x rest) {u : Nat} (hu : u ≠ t)
    (hm : Frame.task u ∈ m.stack) : Frame.task u ∈ rest := by
  have hmem := mem_underway_of_mem_stack hm
  rw [ho.underway] at hmem
  exact mem_stack_of_mem_filterMap ((List.mem_cons.mp hmem).resolve_left hu)

theorem OnTask.ne (ho : m.OnTask d t x rest) (h : m.Attentive) {e u : Nat} {y : StreamTask}
    (he : e ≠ d) (hd : m.world.Drives e u y) : u ≠ t := by
  intro heq
  subst heq
  exact he (by simpa using (h.drives hd).symm.trans (h.drives ho.drives))

theorem OnTask.around (ho : m.OnTask d t x rest) (h : m.Attentive)
    (htask : x'.task = x.task) (hstream : x'.stream = x.stream)
    (hdr : ∀ e : Nat, m'.world.drivers[e]? = if e = d then some x' else m.world.drivers[e]?)
    (hsch : m'.world.schedule = m.world.schedule)
    (hsize : m'.world.streams.size = m.world.streams.size)
    (hstr : ∀ i : Nat, i ≠ x.stream → m'.world.streams[i]? = m.world.streams[i]?)
    (hpoll : ∀ i, i ≠ x.stream → m'.world.lastPoll i = m.world.lastPoll i)
    (hsub : ∀ f ∈ rest, f ∈ m'.stack) : Around m m' d x x' where
  task := htask
  stream := hstream
  drivers := hdr
  job := fun u => by rw [hsch]
  minds := fun e y u he hd =>
    { job := by simp [hsch]
      ended := by simp [hsch]
      due := by
        intro hor
        rcases hor with ha | hr
        · exact .inl (hsch ▸ ha)
        · exact absurd (ho.run u hr) (ho.ne h he hd)
      roused := fun _ hc => absurd hc (ho.wake e)
      yielded := fun hy _ => .inl (hsch ▸ hy)
      stack := fun hm => hsub _ (ho.mem_rest (ho.ne h he hd) hm)
      waker := fun _ hw => .inr (by
        have hi : y.stream ≠ x.stream := fun hi =>
          he (h.streamed.own e d y x hd.1 ho.drives.1 hi)
        rw [← hw, World.waker, World.waker, hstr _ hi]) }
  opening := fun e dest _ hm => hsub _ (ho.opening e dest hm)
  spawning := fun e _ => ho.spawn e
  size := hsize
  streams := hstr
  polls := hpoll

theorem OnTask.persists (ho : m.OnTask d t x rest) (h : m.Attentive)
    (ha : Around m m' d x x') (hrun : ∀ u, m'.control ≠ .calling (.run u)) :
    m.world.Persists m'.world rest := by
  refine ha.persists h ho.drives.1 ?_ ?_
  · intro u hu
    have hmem : u ∈ m.underway := by
      rw [ho.underway]
      exact .tail _ (List.mem_filterMap.mpr ⟨_, hu, rfl⟩)
    refine ⟨fun hx => ho.not_mem h ?_, h.not_ended_of_mem_underway hmem, hrun u⟩
    rwa [Option.some.inj (ho.drives.2.symm.trans hx)]
  · intro dest hm
    obtain ⟨y, hy, hytask, -⟩ := ho.linked.opening hm
    obtain rfl := ho.drives.state_eq hy
    simp [ho.drives.2] at hytask

theorem Attentive.drives_eq (h : m.Attentive) (ho : m.OnTask d t x rest)
    (ha : Around m m' d x x') {e : Nat} {y : StreamTask} (hd : m'.world.Drives e t y) : y = x' := by
  by_cases he : e = d
  · subst he
    exact Option.some.inj (hd.1.symm.trans ha.self)
  · exact absurd rfl (ho.ne h he ⟨(ha.other he).symm.trans hd.1, hd.2⟩)

theorem Placed.of_stepped {s : Driver Outlet}
    {mv : Move (Driver.Out Outlet) (Driver.Frame Outlet)} (hs : s.Stepped mv)
    (htask : x'.task = some t) (hx' : x'.driver = s) (hm : Frame.task t ∈ m'.stack) :
    m'.Placed d x' := by
  subst hx'
  cases hs with
  | ended hp hw => exact placed_ended hp
  | yielded hp hw => exact (placed_seeking hp).mpr (.inr ⟨t, htask, .inr (.inr hm)⟩)
  | parked hp hw => exact (placed_parked hp).mpr ⟨by simp [hw], t, htask, by simp [hw]⟩
  | polling hp hw => exact (placed_polling hp).mpr ⟨t, htask, by simp [hw], .inl hm⟩
  | delivering hp hw => exact (placed_polling hp).mpr ⟨t, htask, by simp [hw], .inl hm⟩
  | concluding hp hw => exact (placed_polling hp).mpr ⟨t, htask, by simp [hw], .inl hm⟩

section Stepped

variable {s : Driver Outlet} {mv : Move (Driver.Out Outlet) (Driver.Frame Outlet)}

theorem linked_of_stepped (hm' : driverSection { m with stack := .task t :: rest } d (s, mv) = m')
    (hs : s.Stepped mv) (hd : m'.world.Drives d t { x with driver := s })
    (ho : m'.world.Open rest) (hl : m'.world.Linked rest) : m'.world.Linked m'.stack := by
  subst hm'
  cases hs with
  | polling hp hw => exact ⟨⟨t, rest, _, rfl, hd, hp, by simp [hw]⟩, ho, hl⟩
  | delivering hp hw => exact ⟨⟨t, rest, _, rfl, hd, hp, by simp [hw]⟩, ho, hl⟩
  | concluding hp hw => exact ⟨⟨t, rest, _, rfl, hd, hp, by simp [hw]⟩, ho, hl⟩
  | _ => exact ⟨ho, hl⟩

theorem topped_of_stepped (hm' : driverSection { m with stack := .task t :: rest } d (s, mv) = m')
    (hs : s.Stepped mv) (hone : ∀ e y, m'.world.Drives e t y → y.driver = s) : m'.Topped := by
  subst hm'
  cases hs with
  | polling hp hw => exact ⟨_, rfl⟩
  | delivering hp hw => trivial
  | concluding hp hw => trivial
  | ended hp hw =>
    intro e y hd
    exact ⟨.ended, rfl, by rw [World.Paused, hone e y hd, hp]⟩
  | yielded hp hw =>
    intro e y hd
    exact ⟨.yielded, rfl, by rw [World.Paused, hone e y hd, hp]⟩
  | parked hp hw =>
    intro e y hd
    refine ⟨.waiting, rfl, ?_⟩
    rw [World.Paused, hone e y hd]
    exact ⟨by simp [hw], .inl hp⟩

theorem underway_of_stepped
    (hm' : driverSection { m with stack := .task t :: rest } d (s, mv) = m') (hs : s.Stepped mv) :
    m'.underway = t :: rest.filterMap Frame.task? := by
  subst hm'
  cases hs <;> rfl

theorem Attentive.stepped (h : m.Attentive) (ho : m.OnTask d t x rest) (hs : s.Stepped mv)
    (hok : s.Ok) (hwk : m.world.waker x.stream = none ∨ s.phase = .ended ∨
      s.phase = .polling ∧ s.waiter ≠ .absent) :
    (driverSection { m with stack := .task t :: rest } d (s, mv)).Attentive := by
  have hworld := driverSection_world { m with stack := .task t :: rest } d (s, mv)
  have hsub : ∀ f ∈ Frame.task t :: rest,
      f ∈ (driverSection { m with stack := .task t :: rest } d (s, mv)).stack := by
    intro f hf
    cases mv with
    | answer r => exact hf
    | call o g => exact .tail _ hf
  have hrun := driverSection_ne_run { m with stack := .task t :: rest } d (s, mv)
  generalize hm' : driverSection { m with stack := .task t :: rest } d (s, mv) = m' at *
  have hd := h.driven d x ho.drives.1
  have hst := h.not_ended_of_mem_underway (t := t) (by simp [ho.underway])
  have ha : Around m m' d x { x with driver := s } := by
    refine ho.around h rfl rfl ?_ (by rw [hworld]; rfl) (by rw [hworld]; rfl)
      (fun i _ => by rw [hworld]; rfl) (fun i _ => by rw [hworld]; rfl)
      fun f hf => hsub f (.tail _ hf)
    rw [hworld]
    exact World.drivers_setDriver ho.drives.1 s
  have hper := ho.persists h ha hrun
  refine h.around ho.drives.1 ha ?_ ⟨?_, ?_, ?_, hok, ?_⟩ ?_ ?_ ?_
  · rw [underway_of_stepped hm' hs, ← ho.underway, hworld]
    exact h.coherent
  · rw [ha.size]
    exact hd.range
  · intro u hu
    rw [ha.job]
    exact hd.job u hu
  · intro u hu he
    rw [hworld] at he
    obtain rfl : u = t := Option.some.inj (hu.symm.trans ho.drives.2)
    exact absurd he hst
  · exact .of_stepped hs ho.drives.2 rfl (hsub _ List.mem_cons_self)
  · intro str u hstr hu
    rw [hworld] at hstr
    obtain ⟨hi, hc, hpoll, htask, -⟩ := h.waker_own ho.drives.1 hstr hu
    refine ⟨hi, hc, (by rw [hworld]; exact hpoll), htask, ?_⟩
    rcases hwk with hwk | hwk
    · have hwaker : m.world.waker x.stream = some u := World.waker_eq_some.mpr ⟨str, hstr, hu⟩
      simp [hwk] at hwaker
    · exact hwk
  · exact linked_of_stepped hm' hs ⟨ha.self, ho.drives.2⟩ (ho.isOpen.persist hper)
      (ho.linked.persist hper)
  · apply topped_of_stepped hm' hs
    intro e y hy
    obtain rfl := h.drives_eq ho ha hy
    rfl

end Stepped

theorem Attentive.onTask_of_run (h : m.Attentive) (hc : m.control = .calling (.run t))
    (hd : m.world.Drives d t x) : m.OnTask d t x m.stack where
  drives := hd
  underway := by rw [underway, hc]; rfl
  linked := h.linked
  isOpen := h.topped.open_calling hc (by simp)
  opening := fun _ _ => id
  run := fun u hu => by simpa [hc] using hu.symm
  wake := by simp [hc]
  spawn := by simp [hc]

theorem Attentive.ready (h : m.Attentive) (hc : m.control = .calling (.run t))
    (hd : m.world.Drives d t x) : x.driver.phase ≠ .unstarted ∧
      (x.driver.phase = .parked ∨ x.driver.phase = .polling → x.driver.waiter ≠ .absent) := by
  have ho := h.onTask_of_run hc hd
  have hdriven := h.driven d x hd.1
  refine ⟨?_, ?_⟩
  · intro hp
    have hnone := ((placed_unstarted hp).mp hdriven.placed).1
    simp [hd.2] at hnone
  · intro hp
    rcases hp with hp | hp
    · exact (hdriven.of_parked hd.2 hp).1
    · obtain ⟨-, hmem | hw⟩ := hdriven.of_polling hd.2 hp
      · exact absurd hmem (ho.not_mem h)
      · exact hw.1

theorem Attentive.run_driver (h : m.Attentive) (hc : m.control = .calling (.run t))
    (hd : m.world.Drives d t x) :
    (driverSection { m with stack := .task t :: m.stack } d x.driver.onRun).Attentive := by
  have ho := h.onTask_of_run hc hd
  have hdriven := h.driven d x hd.1
  obtain ⟨hst, hwait⟩ := h.ready hc hd
  obtain ⟨hs, hok⟩ := Driver.onRun_stepped hdriven.ok hst hwait
  refine h.stepped ho hs hok ?_
  -- Only a driver that was polling can have left its task with the stream.
  by_cases hp : x.driver.phase = .polling
  · exact .inr (Driver.onRun_polling hp (hwait (.inr hp)))
  · by_cases he : x.driver.phase = .ended
    · exact .inr (.inl (by simp [he]))
    · exact .inl (h.waker_none hd.1 (absurd · hp) he)

theorem Attentive.run (h : m.Attentive) (hc : m.control = .calling (.run t)) :
    (m.run t).Attentive := by
  have hrun : t ∈ m.underway := by simp [underway, hc, Control.starting]
  have hst := h.not_ended_of_mem_underway hrun
  have hlt := Schedule.lt_size hst
  unfold Machine.run
  cases ht : m.world.schedule.tasks[t]? with
  | none =>
    have := Array.getElem?_eq_none_iff.mp ht
    omega
  | some task =>
    have hjob : m.world.schedule.job? t = some task.job := by rw [Schedule.job?, ht]; rfl
    simp only
    cases hj : task.job with
    | driver d =>
      rw [hj] at hjob
      obtain ⟨x, hd⟩ := h.driver t d hjob
      simp only [enterDriver, hd.1]
      exact h.run_driver hc hd
    | ticker i =>
      rw [hj] at hjob
      have ho := h.topped.open_calling hc (by simp)
      have he := enterTicker_effect { m with stack := .task t :: m.stack } i
        (.run m.world.schedule.now)
      refine h.keepsDrivers (he.keepsDrivers trivial) ?_ (fun _ _ hm => .tail _ hm) ⟨ho, h.linked⟩
        ?_ ?_ ?_ ?_
      · rw [underway, hc]
        rfl
      · intro d hd
        simp [hjob] at hd
      · intro d x u hd hu
        obtain rfl : t = u := by simpa [hc] using hu
        simp [h.drives hd] at hjob
      · simp [hc]
      · simp [hc]

theorem Attentive.onTask_of_frame {b : Bool} {f : Driver.Frame Outlet}
    (h : m.Attentive) (hc : m.control.Plain) (hs : m.stack = .driver d f :: rest)
    (ha : m.world.Attends d b rest) :
    ∃ t x rest', rest = .task t :: rest' ∧ m.OnTask d t x rest' ∧
      x.driver.phase = .polling ∧ (x.driver.waiter == .absent) = b := by
  obtain ⟨t, rest', x, rfl, hd, hp, hw⟩ := ha
  have hl := h.linked
  rw [hs] at hl
  refine ⟨t, x, rest', rfl, ⟨hd, ?_, hl.2.2, hl.2.1, ?_, ?_, hc.ne_wake, hc.ne_spawn⟩, hp, hw⟩
  · rw [underway_eq hc.ne_run (.inl rfl), hs]
    rfl
  · intro e dest hm
    rw [hs] at hm
    rcases List.mem_cons.mp hm with hf | hm
    · obtain ⟨rfl, rfl⟩ : e = d ∧ .opening dest = f := by simpa using hf
      obtain ⟨y, hy, hyt, -⟩ := hl.1.2.1
      obtain rfl := hd.state_eq hy
      simp [hd.2] at hyt
    · simpa using hm
  · exact fun u hu => absurd hu (hc.ne_run u)

theorem Attentive.found_nothing {r : Reply} (h : m.Attentive) (hc : m.control = .answering r)
    (ho : m.OnTask d t x rest) (hp : x.driver.phase = .polling) (hw : x.driver.waiter ≠ .absent)
    (hh : m.world.Hears x.stream t) :
    (driverSection { m with stack := .task t :: rest } d
      (x.driver, .answer (.pause .waiting))).Attentive := by
  have hdr := World.drivers_setDriver ho.drives.1 x.driver
  have ha : Around m (driverSection { m with stack := .task t :: rest } d
      (x.driver, .answer (.pause .waiting))) d x x :=
    ho.around h rfl rfl hdr rfl rfl (fun _ _ => rfl) (fun _ _ => rfl) fun f hf => .tail _ hf
  have hper := ho.persists h ha (driverSection_ne_run _ d _)
  have hd := h.driven d x ho.drives.1
  refine h.around ho.drives.1 ha ?_ ⟨hd.range, hd.job, hd.alive, hd.ok, ?_⟩ ?_ ?_ ?_
  · have hco := h.coherent
    rwa [ho.underway] at hco
  · have hr := (hd.of_polling ho.drives.2 hp).1
    refine (placed_polling hp).mpr ⟨t, ho.drives.2, fun hn => .inl (.inl ?_),
      .inl List.mem_cons_self⟩
    exact (hr hn).awake (by simp [hc]) (by simp [hc])
  · exact fun str v => h.waker_own ho.drives.1
  · exact ⟨ho.isOpen.persist hper, ho.linked.persist hper⟩
  · intro e y hy
    obtain rfl := h.drives_eq ho ha hy
    exact ⟨.waiting, rfl, hw, .inr ⟨hp, hh⟩⟩

theorem Attentive.polled {r : Reply} (h : m.Attentive) (hc : m.control = .answering r)
    (hs : m.stack = .driver d .polling :: rest) :
    (proceedDriver { m with stack := rest } d .polling r).Attentive := by
  have hl := h.linked
  have htop := (topped_answering hc).mp h.topped
  rw [hs] at hl htop
  obtain ⟨p, rfl, y, u, hy, hcond⟩ := htop
  obtain ⟨t, x, rest', rfl, ho, hp, hw⟩ := h.onTask_of_frame (hc ▸ trivial) hs hl.1
  obtain rfl := ho.drives.state_eq hy.1
  obtain rfl := ho.drives.unique hy
  have hwait : y.driver.waiter ≠ .absent := by simpa using hw
  simp only [proceedDriver, ho.drives.1]
  by_cases hpend : p = .pending
  · rw [if_pos hpend] at hcond
    subst hpend
    exact h.found_nothing hc ho hp hwait hcond
  · rw [if_neg hpend] at hcond
    obtain ⟨hstep, hok⟩ := Driver.onPolled_stepped (s := y.driver) hpend hp
    exact h.stepped ho hstep hok (.inl hcond)

theorem Attentive.delivered {r : Reply} (h : m.Attentive) (hc : m.control = .answering r)
    (hs : m.stack = .driver d .delivering :: rest) :
    (proceedDriver { m with stack := rest } d .delivering r).Attentive := by
  have hl := h.linked
  rw [hs] at hl
  obtain ⟨t, x, rest', rfl, ho, hp, hw⟩ := h.onTask_of_frame (hc ▸ trivial) hs hl.1
  have hwait : x.driver.waiter = .absent := by simpa using hw
  simp only [proceedDriver, ho.drives.1]
  obtain ⟨hstep, hok⟩ := Driver.onDelivered_stepped hwait r.granted
  exact h.stepped ho hstep hok (.inl (h.waker_none ho.drives.1 (fun _ => hwait) (by simp [hp])))

theorem Attentive.concluded {r : Reply} (h : m.Attentive) (hc : m.control = .answering r)
    (hs : m.stack = .driver d .concluding :: rest) :
    (proceedDriver { m with stack := rest } d .concluding r).Attentive := by
  have hl := h.linked
  rw [hs] at hl
  obtain ⟨t, x, rest', rfl, ho, hp, hw⟩ := h.onTask_of_frame (hc ▸ trivial) hs hl.1
  simp only [proceedDriver, ho.drives.1]
  obtain ⟨hstep, hok⟩ := Driver.finish_stepped x.driver
  exact h.stepped ho hstep hok (.inr (.inl rfl))

end Machine
end Sluice
