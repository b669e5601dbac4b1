import Sluice.Proofs.Machine.Stopping

/-!
# Launching drivers

A driver is made when its publisher is subscribed to, hands itself over, and is
given a task when the hand-over is done, unless it was cancelled by then.
-/

namespace Sluice
namespace Machine

variable {m m' : Machine} {rest : List Frame} {d t : Nat} {x x' : StreamTask} {r : Reply}

structure Made (m m' : Machine) (x : StreamTask) (dest : Outlet) : Prop where
  stack : m'.stack = .driver m.world.drivers.size (.opening dest) :: m.stack
  control : m'.control = .calling (handOver dest (.driver m.world.drivers.size))
  schedule : m'.world.schedule = m.world.schedule
  streams : m'.world.streams = m.world.streams
  polls : ∀ i, m'.world.lastPoll i = m.world.lastPoll i
  drivers : ∀ e : Nat, m'.world.drivers[e]? =
    if e = m.world.drivers.size then some x else m.world.drivers[e]?

theorem Made.old {dest : Outlet} (hm : Made m m' x dest) {e : Nat} {y : StreamTask}
    (hy : m.world.drivers[e]? = some y) : m'.world.drivers[e]? = some y := by
  have := (Array.getElem?_eq_some_iff.mp hy).1
  rw [hm.drivers, if_neg (by omega), hy]

theorem Made.cases {dest : Outlet} (hm : Made m m' x dest) {e : Nat} {y : StreamTask}
    (hy : m'.world.drivers[e]? = some y) :
    e = m.world.drivers.size ∧ y = x ∨ m.world.drivers[e]? = some y := by
  rw [hm.drivers] at hy
  by_cases he : e = m.world.drivers.size
  · rw [if_pos he] at hy
    exact .inl ⟨he, (Option.some.inj hy).symm⟩
  · rw [if_neg he] at hy
    exact .inr hy

theorem Made.persists {dest : Outlet} (hm : Made m m' x dest) :
    m.world.Persists m'.world m.stack where
  job := fun u e _ hu => by rwa [hm.schedule] at hu
  opening := by
    intro e dest' _ hpre
    obtain ⟨y, hy, hp⟩ := hpre
    exact ⟨y, hm.old hy, hp⟩
  drives := by
    intro e y u hd _
    refine ⟨y, hm.old hd.1, .refl y, ?_, ?_⟩
    · simp only [World.Hears, World.waker, hm.streams, hm.schedule]
      exact id
    · simp only [World.waker, hm.streams]
      exact id

theorem Made.attentive {source : Source} {i : Nat} {dest : Outlet} (hm : Made m m' x dest)
    (h : m.Attentive) (hc : m.control = .calling (.subscribe source i))
    (hnew : x.task = none ∧ x.driver.waiter = .absent ∧ x.driver.phase = .unstarted)
    (hlt : x.stream < m.world.streams.size)
    (hfree : ∀ (e : Nat) y, m.world.drivers[e]? = some y → y.stream ≠ x.stream) :
    m'.Attentive := by
  have ho := h.topped.open_calling hc (by simp)
  have hmem (f : Frame) (hf : f ∈ m.stack) : f ∈ m'.stack := hm.stack ▸ .tail _ hf
  have hper := hm.persists
  refine ⟨?_, ?_, ?_, ⟨?_, ?_⟩, ?_, ?_⟩
  · have hunder : m'.underway = m.underway := by
      rw [underway, underway, hm.control, hm.stack, hc]
      rfl
    rw [hunder, hm.schedule]
    exact h.coherent
  · intro e y hy
    rcases hm.cases hy with ⟨rfl, rfl⟩ | hy
    · refine ⟨hm.streams ▸ hlt, by simp [hnew.1], by simp [hnew.1], .of_absent hnew.2.1, ?_⟩
      exact (placed_unstarted hnew.2.2).mpr ⟨hnew.1, _, hm.stack ▸ List.mem_cons_self⟩
    · refine (h.driven e y hy).keep (.refl y) (h.driven e y hy).ok .inl
        (Nat.le_of_eq (by rw [hm.streams])) (fun u _ => ?_) (fun dest => hmem _) (by simp [hc])
      exact .of_follows (hm.schedule ▸ .refl _) (by simp [hc]) (by simp [hc]) (hmem _) hm.streams
  · intro u e hu
    rw [hm.schedule] at hu
    obtain ⟨y, hy⟩ := h.driver u e hu
    exact ⟨y, hm.old hy.1, hy.2⟩
  · intro e e' y y' hy hy' hs
    rcases hm.cases hy with ⟨rfl, rfl⟩ | hy
    · rcases hm.cases hy' with ⟨rfl, rfl⟩ | hy'
      · rfl
      · exact absurd hs.symm (hfree e' y' hy')
    · rcases hm.cases hy' with ⟨rfl, rfl⟩ | hy'
      · exact absurd hs (hfree e y hy)
      · exact h.streamed.own e e' y y' hy hy' hs
  · intro k s u hs hw
    rw [hm.streams] at hs
    obtain ⟨hi, hcl, hlast, e, y, hd, hy⟩ := h.streamed.waker k s u hs hw
    exact ⟨hi, hcl, (hm.polls k).trans hlast, e, y, ⟨hm.old hd.1, hd.2⟩, hy⟩
  · rw [hm.stack]
    have hno (dest' : Outlet) :
        Frame.driver m.world.drivers.size (.opening dest') ∉ m.stack := by
      intro hmem
      obtain ⟨y, hy, -⟩ := h.linked.opening hmem
      simp at hy
    have hopening : m'.world.Opening m.world.drivers.size :=
      ⟨x, by rw [hm.drivers, if_pos rfl], hnew.1, hnew.2.2⟩
    exact ⟨⟨ho.persist hper, hopening, hno⟩, h.linked.persist hper⟩
  · rw [Topped, hm.control, hm.stack]
    trivial

theorem subscribe_made {source : Source} {j : Nat} {pace : Driver.Pace} (m : Machine) (i : Nat)
    (hj : source.origin = .stream j pace) : Made m (m.subscribe source i)
      { driver := { pace := pace, subscriber := some ⟨source.audits, i⟩ }, stream := j }
      ⟨source.audits, i⟩ := by
  unfold Machine.subscribe
  rw [hj]
  simp only [enterDriver, Array.getElem?_push_size]
  refine ⟨rfl, rfl, rfl, rfl, fun _ => rfl, fun e => ?_⟩
  simp only [Driver.enter, driverSection, move, World.getElem?_setDriver, Array.getElem?_push]
  by_cases he : e = m.world.drivers.size
  · simp [he]
  · simp [he, Ne.symm he]

theorem Attentive.subscribe {source : Source} {i j : Nat} {pace : Driver.Pace} (h : m.Attentive)
    (hc : m.control = .calling (.subscribe source i)) (hj : source.origin = .stream j pace) :
    (m.subscribe source i).Attentive := by
  have hfresh := ((topped_subscribe hc).mp h.topped).2
  rw [Source.Fresh, hj] at hfresh
  exact (subscribe_made m i hj).attentive h hc ⟨rfl, rfl, rfl⟩ hfresh.1 hfresh.2

section Opened

variable {s : Driver Outlet} {mv : Move (Driver.Out Outlet) (Driver.Frame Outlet)}

theorem placed_of_opened (hm' : driverSection { m with stack := rest } d (s, mv) = m')
    (ho : s.Opened mv) (htask : x.task = none) : m'.Placed d { x with driver := s } := by
  subst hm'
  cases ho with
  | stopped hp => exact placed_ended hp
  | started hp => exact (placed_seeking hp).mpr (.inl ⟨rfl, htask⟩)

theorem topped_of_opened (hm' : driverSection { m with stack := rest } d (s, mv) = m')
    (ho : s.Opened mv)
    (hx : m'.world.drivers[d]? = some { x with driver := s } ∧ x.task = none)
    (hopen : m'.world.Open m'.stack)
    (hj : ∀ e u y, m'.world.Drives e u y → m'.world.schedule.job? u = some (.driver e)) :
    m'.Topped := by
  subst hm'
  cases ho with
  | stopped => exact hopen.takes hj _
  | started hp => exact ⟨hopen, _, hx.1, hx.2, hp⟩

theorem Attentive.handedOver {dest : Outlet} (h : m.Attentive)
    (hc : m.control = .answering r) (hs : m.stack = .driver d (.opening dest) :: rest)
    (hx : m.world.drivers[d]? = some x) (htask : x.task = none) (hopened : s.Opened mv)
    (hok : s.Ok) :
    (driverSection { m with stack := rest } d (s, mv)).Attentive ∧
      (driverSection { m with stack := rest } d (s, mv)).world.Open
        (driverSection { m with stack := rest } d (s, mv)).stack := by
  have hl := h.linked
  rw [hs] at hl
  obtain ⟨⟨ho, -, hno⟩, hlrest⟩ := hl
  have hd := h.driven d x hx
  have hself := World.setDriver_self (s := s) hx
  have hworld := driverSection_world { m with stack := rest } d (s, mv)
  have hstack : Atop rest (driverSection { m with stack := rest } d (s, mv)).stack := by
    cases hopened with
    | stopped => exact .inl rfl
    | started => exact .inr ⟨.driver d .passing, trivial, rfl⟩
  have hcontrol := driverSection_ne_run { m with stack := rest } d (s, mv)
  generalize hm' : driverSection { m with stack := rest } d (s, mv) = m' at *
  have hmem {f : Frame} (hf : f ∈ m.stack) (hne : f ≠ .driver d (.opening dest)) :
      f ∈ m'.stack := by
    rw [hs] at hf
    exact hstack.mem ((List.mem_cons.mp hf).resolve_left hne)
  have ha : Around m m' d x { x with driver := s } :=
    { task := rfl
      stream := rfl
      drivers := by
        rw [hworld]
        exact World.drivers_setDriver hx s
      job := fun u => by rw [hworld]; rfl
      minds := fun e y u _ _ => .of_follows (by rw [hworld]; exact .refl _) (by simp [hc])
        (by simp [hc]) (fun hm => hmem hm (by simp)) (by rw [hworld]; rfl)
      opening := fun e dest' he hm => hmem hm (by simp [he])
      spawning := by simp [hc]
      size := by rw [hworld]; rfl
      streams := fun i _ => by rw [hworld]; rfl
      polls := fun i _ => by rw [hworld]; rfl }
  have hunder : m'.underway = m.underway := by
    rw [underway_eq hcontrol hstack, underway, hc, hs]
    rfl
  have hper : m.world.Persists m'.world rest := by
    refine ha.persists h hx (fun u hu => ?_) hno
    refine ⟨by simp [htask], h.not_ended_of_mem_underway ?_, hcontrol u⟩
    rw [underway, hs]
    exact List.mem_append_right _ (List.mem_filterMap.mpr ⟨_, .tail _ hu, rfl⟩)
  have hopen := hstack.isOpen (ho.persist hper)
  refine ⟨h.around hx ha ?_ ⟨?_, by simp [htask], by simp [htask], hok,
    placed_of_opened hm' hopened htask⟩ ?_ ?_ ?_, hopen⟩
  · rw [hunder, hworld]
    exact h.coherent
  · rw [ha.size]
    exact hd.range
  · intro str u hstr hu
    rw [hworld] at hstr
    obtain ⟨-, -, -, hown, -⟩ := h.waker_own hx hstr hu
    simp [htask] at hown
  · exact hstack.linked (ho.persist hper) (hlrest.persist hper)
  · exact topped_of_opened hm' hopened ⟨ha.self, htask⟩ hopen
      fun e u y => ha.job_of_drives h hx

end Opened

theorem Attentive.opened {dest : Outlet} (h : m.Attentive) (hc : m.control = .answering r)
    (hs : m.stack = .driver d (.opening dest) :: rest) :
    (proceedDriver { m with stack := rest } d (.opening dest) r).Attentive := by
  have hl := h.linked
  rw [hs] at hl
  obtain ⟨⟨-, ⟨x, hx, htask, hp⟩, -⟩, -⟩ := hl
  have hd := h.driven d x hx
  obtain ⟨hopen, hok⟩ := Driver.onOpened_opened (hd.ok.absent (by simp [hp]) (by simp [hp]))
  obtain ⟨hatt, ho⟩ := h.handedOver hc hs hx htask hopen hok
  simp only [proceedDriver, hx]
  split
  · rename_i f b hf hcan
    have hstop : x.driver.onOpened = (x.driver.stop, .answer .done) := by
      rw [Driver.onOpened, if_pos hcan]
    refine hatt.change (.dropStream _ _) ?_ ho
    rw [hstop]
    trivial
  · exact hatt

structure Spawned (m m' : Machine) (d : Nat) (x : StreamTask) : Prop where
  stack : m'.stack = m.stack
  control : m'.control = .answering .done
  schedule : m'.world.schedule = m.world.schedule.spawn (.driver d)
  streams : m'.world.streams = m.world.streams
  polls : ∀ i, m'.world.lastPoll i = m.world.lastPoll i
  self : m'.world.drivers[d]? = some { x with task := some m.world.schedule.tasks.size }
  other : ∀ e : Nat, e ≠ d → m'.world.drivers[e]? = m.world.drivers[e]?

theorem spawn_spawned (hx : m.world.drivers[d]? = some x) : Spawned m (m.spawn d) d x where
  stack := rfl
  control := rfl
  schedule := rfl
  streams := rfl
  polls := fun _ => rfl
  self := by simp [Machine.spawn, Array.getElem?_modify, hx]
  other := fun e he => by simp [Machine.spawn, Array.getElem?_modify, Ne.symm he]

theorem Spawned.state (hs : Spawned m m' d x) {u : Nat} (hu : u ≠ m.world.schedule.tasks.size) :
    m'.world.schedule.state u = m.world.schedule.state u := by
  rw [hs.schedule, Schedule.state_spawn, if_neg hu]

theorem Spawned.job (hs : Spawned m m' d x) {u : Nat} (hu : u ≠ m.world.schedule.tasks.size) :
    m'.world.schedule.job? u = m.world.schedule.job? u := by
  rw [hs.schedule, Schedule.job?_spawn, if_neg hu]

theorem Attentive.drives_ne_size (h : m.Attentive) {e u : Nat} {y : StreamTask}
    (hy : m.world.Drives e u y) : u ≠ m.world.schedule.tasks.size := by
  intro heq
  subst heq
  simpa [Schedule.job?_size] using h.drives hy

theorem Spawned.minds (hs : Spawned m m' d x) (hc : m.control = .calling (.spawn d))
    {e i u : Nat} (hu : u ≠ m.world.schedule.tasks.size) : Minds m m' e i u where
  job := by
    rw [hs.job hu]
    exact id
  ended := by
    rw [hs.state hu]
    exact id
  due := by
    intro hor
    rcases hor with ha | hr
    · exact .inl (by simpa only [Schedule.Awake, hs.state hu] using ha)
    · simp [hc] at hr
  roused := by simp [hc]
  yielded := fun hy _ => .inl (by rw [hs.schedule]; exact hy)
  stack := by
    rw [hs.stack]
    exact id
  waker := fun _ hw => .inr (by rw [World.waker, hs.streams]; exact hw)

theorem Spawned.drives (hs : Spawned m m' d x) (hx : m.world.drivers[d]? = some x)
    (htask : x.task = none) {e u : Nat} {y : StreamTask} (hy : m.world.Drives e u y) :
    m'.world.Drives e u y := by
  have he : e ≠ d := by
    intro heq
    subst heq
    obtain rfl := hy.state_eq hx
    simp [World.Drives, htask] at hy
  exact ⟨(hs.other e he).trans hy.1, hy.2⟩

theorem Spawned.persists (hs : Spawned m m' d x) (h : m.Attentive)
    (hx : m.world.drivers[d]? = some x) (htask : x.task = none)
    (hp : x.driver.phase = .seeking) : m.world.Persists m'.world m.stack where
  job := by
    intro u e hu hj
    have hst := h.not_ended_of_mem_underway (mem_underway_of_mem_stack hu)
    have hne : u ≠ m.world.schedule.tasks.size := by
      intro heq
      subst heq
      exact hst Schedule.state_size
    rwa [hs.job hne] at hj
  opening := by
    intro e dest _ hpre
    obtain ⟨y, hy, hytask, hyp⟩ := hpre
    have he : e ≠ d := by
      intro heq
      subst heq
      obtain rfl := Option.some.inj (hx.symm.trans hy)
      simp [hp] at hyp
    exact ⟨y, (hs.other e he).trans hy, hytask, hyp⟩
  drives := by
    intro e y u hy _
    have hu := h.drives_ne_size hy
    refine ⟨y, (hs.drives hx htask hy).1, .refl y, ?_, ?_⟩
    · simp only [World.Hears, World.waker, hs.streams, Schedule.Awake, hs.state hu]
      exact id
    · simp only [World.waker, hs.streams]
      exact id

theorem Spawned.driven (hs : Spawned m m' d x) (hd : m.Driven d x)
    (hp : x.driver.phase = .seeking) :
    m'.Driven d { x with task := some m.world.schedule.tasks.size } := by
  have hq : m'.world.schedule.state m.world.schedule.tasks.size = .queued := by
    rw [hs.schedule, Schedule.state_spawn, if_pos rfl]
  refine ⟨hs.streams ▸ hd.range, ?_, ?_, hd.ok, ?_⟩
  · intro u hu
    obtain rfl := Option.some.inj hu
    rw [hs.schedule, Schedule.job?_spawn, if_pos rfl]
  · intro u hu hend
    obtain rfl := Option.some.inj hu
    simp [hq] at hend
  · refine (placed_seeking ?_).mpr (.inr ⟨_, rfl, .inl (.inl (.inl hq))⟩)
    exact hp

theorem Spawned.attentive (hs : Spawned m m' d x) (h : m.Attentive)
    (hc : m.control = .calling (.spawn d)) (ho : m.world.Open m.stack)
    (hx : m.world.drivers[d]? = some x) (htask : x.task = none)
    (hp : x.driver.phase = .seeking) : m'.Attentive := by
  have hper := hs.persists h hx htask hp
  have hdriven (e : Nat) (y : StreamTask) (hy : m'.world.drivers[e]? = some y) :
      m'.Driven e y := by
    by_cases he : e = d
    · subst he
      obtain rfl := Option.some.inj (hs.self.symm.trans hy)
      exact hs.driven (h.driven e x hx) hp
    · rw [hs.other e he] at hy
      exact (h.driven e y hy).keep (.refl y) (h.driven e y hy).ok .inl
        (Nat.le_of_eq (by rw [hs.streams]))
        (fun u hu => hs.minds hc (h.drives_ne_size ⟨hy, hu⟩))
        (fun dest hm => hs.stack ▸ hm) (by simp [hc, Ne.symm he])
  refine ⟨?_, hdriven, ?_, ⟨?_, ?_⟩, ?_, ?_⟩
  · have hunder : m'.underway = m.underway := by
      rw [underway, underway, hs.control, hs.stack, hc]
      rfl
    rw [hunder, hs.schedule]
    exact h.coherent.spawn _
  · intro u e hj
    by_cases hu : u = m.world.schedule.tasks.size
    · subst hu
      obtain rfl : d = e := by simpa [hs.schedule, Schedule.job?_spawn] using hj
      exact ⟨_, hs.self, rfl⟩
    · rw [hs.job hu] at hj
      obtain ⟨y, hy⟩ := h.driver u e hj
      exact ⟨y, hs.drives hx htask hy⟩
  · apply h.streamed.own_of
    intro e y hy
    by_cases he : e = d
    · subst he
      obtain rfl := Option.some.inj (hs.self.symm.trans hy)
      exact ⟨x, hx, rfl⟩
    · exact ⟨y, (hs.other e he).symm.trans hy, rfl⟩
  · intro k s u hstr hw
    rw [hs.streams] at hstr
    obtain ⟨hi, hcl, hlast, e, y, hy, hph⟩ := h.streamed.waker k s u hstr hw
    exact ⟨hi, hcl, (hs.polls k).trans hlast, e, y, hs.drives hx htask hy, hph⟩
  · rw [hs.stack]
    exact h.linked.persist hper
  · rw [topped_answering hs.control, hs.stack]
    exact (ho.persist hper).takes (fun e u y hy => (hdriven e y hy.1).job u hy.2) _

theorem Attentive.spawn (h : m.Attentive) (hc : m.control = .calling (.spawn d)) :
    (m.spawn d).Attentive := by
  obtain ⟨ho, x, hx, htask, hp⟩ := (topped_spawn hc).mp h.topped
  exact (spawn_spawned hx).attentive h hc ho hx htask hp

end Machine
end Sluice
