import Sluice.Proofs.Machine.Polling

/-!
# Tasks that stop

A task that stops leaves the stack. Its driver has ended, or yielded, or is
registered with its wakeup and, if it polls, with its stream; a notification that
came while the task ran has it queued again.
-/

namespace Sluice
namespace Machine

variable {m m' : Machine} {rest : List Frame} {d t : Nat} {x x' : StreamTask} {r : Reply}

theorem Minds.of_stop {e i u : Nat} {p : Pause} (hu : u ≠ t) (hc : m.control = .answering r)
    (hs : m.stack = .task t :: rest)
    (hsch : m'.world.schedule = m.world.schedule.stop t p) (hs' : m'.stack = rest)
    (hw : m'.world.waker i = m.world.waker i) : Minds m m' e i u where
  job := by
    rw [hsch, Schedule.job?_stop]
    exact id
  ended := by
    rw [hsch, Schedule.state_stop_ne p hu]
    exact id
  due := by
    intro hor
    rcases hor with ha | hr
    · refine .inl ?_
      rw [hsch]
      simpa only [Schedule.Awake, Schedule.state_stop_ne p hu] using ha
    · simp [hc] at hr
  roused := by simp [hc]
  yielded := by
    rw [hsch]
    exact fun hy _ => .inl (Schedule.mem_yielded_stop p hy)
  stack := by
    rw [hs, hs']
    intro hm
    simpa [hu] using hm
  waker := fun _ h => .inr (hw.trans h)

theorem Attentive.onTask_of_stop (h : m.Attentive) (hc : m.control = .answering r)
    (hs : m.stack = .task t :: rest) (hd : m.world.Drives d t x) : m.OnTask d t x rest := by
  have hl := h.linked
  rw [hs] at hl
  refine ⟨hd, ?_, hl.2, hl.1, ?_, ?_, ?_, ?_⟩
  · rw [underway, hc, hs]
    rfl
  · intro e dest hm
    rw [hs] at hm
    simpa using hm
  · simp [hc]
  · simp [hc]
  · simp [hc]

theorem Attentive.placed_of_stop {p : Pause} (h : m.Attentive) (hc : m.control = .answering r)
    (hd : m.world.Drives d t x) (hp : m.world.Paused t x p) (hne : p ≠ .ended)
    (hsch : m'.world.schedule = m.world.schedule.stop t p)
    (hstr : m'.world.streams = m.world.streams)
    (hdue : m.world.schedule.Awake t → m'.Due t) : m'.Placed d x := by
  have hdriven := h.driven d x hd.1
  have hroused (hr : m.Roused d t) : m'.Roused d t :=
    .inl (hdue (hr.awake (by simp [hc]) (by simp [hc])))
  cases p with
  | ended => exact absurd rfl hne
  | yielded =>
    refine (placed_seeking hp).mpr (.inr ⟨t, hd.2, .inr (.inl ?_)⟩)
    rw [hsch]
    exact Schedule.mem_yielded_stop_self
  | waiting =>
    obtain ⟨hw, hphase | ⟨hphase, hh⟩⟩ := hp
    · have hr := (hdriven.of_parked hd.2 hphase).2
      exact (placed_parked hphase).mpr ⟨hw, t, hd.2, fun hn => hroused (hr hn)⟩
    · have hr := (hdriven.of_polling hd.2 hphase).1
      refine (placed_polling hphase).mpr ⟨t, hd.2, fun hn => hroused (hr hn), .inr ⟨hw, ?_⟩⟩
      rcases hh with hh | haw
      · exact .inr (by rw [World.waker, hstr]; exact hh)
      · exact .inl (hdue haw)

theorem Attentive.stopped {p : Pause} (h : m.Attentive) (hc : m.control = .answering r)
    (hs : m.stack = .task t :: rest) (ho : m.OnTask d t x rest) (hp : m.world.Paused t x p)
    (hx' : x' = x ∨ p = .ended ∧ x' = { x with driver := x.driver.stop })
    (hdr : ∀ e : Nat, m'.world.drivers[e]? = if e = d then some x' else m.world.drivers[e]?)
    (hsch : m'.world.schedule = m.world.schedule.stop t p)
    (hstr : m'.world.streams = m.world.streams)
    (hpoll : ∀ i, m'.world.lastPoll i = m.world.lastPoll i)
    (hs' : m'.stack = rest) (hc' : m'.control = .answering .done) :
    m'.Attentive ∧ m'.world.Open m'.stack := by
  have hd := h.driven d x ho.drives.1
  have hkept : x'.task = x.task ∧ x'.stream = x.stream ∧ x'.driver.Ok ∧
      (x' = x ∨ x'.driver.phase = .ended) := by
    rcases hx' with rfl | ⟨-, rfl⟩
    · exact ⟨rfl, rfl, hd.ok, .inl rfl⟩
    · exact ⟨rfl, rfl, .of_absent rfl, .inr rfl⟩
  obtain ⟨htask, hstream, hok, hsame⟩ := hkept
  have hway : t ∈ m.underway := by simp [ho.underway]
  have hst := h.not_ended_of_mem_underway hway
  have ha : Around m m' d x x' :=
    { task := htask
      stream := hstream
      drivers := hdr
      job := fun u => by rw [hsch, Schedule.job?_stop]
      minds := fun e y u he hy =>
        .of_stop (ho.ne h he hy) hc hs hsch hs' (by rw [World.waker, hstr, World.waker])
      opening := fun e dest _ hm => hs' ▸ ho.opening e dest hm
      spawning := by simp [hc]
      size := by rw [hstr]
      streams := fun i _ => by rw [hstr]
      polls := fun i _ => hpoll i }
  have hper := ho.persists h ha (by simp [hc'])
  have hunder : m'.underway = rest.filterMap Frame.task? := by
    rw [underway, hc', hs']
    rfl
  have hjob : m.world.schedule.job? t = some (.driver d) := h.drives ho.drives
  have hopen : m'.world.Open m'.stack := hs' ▸ ho.isOpen.persist hper
  refine ⟨h.around ho.drives.1 ha ?_ ⟨?_, ?_, ?_, hok, ?_⟩ ?_ ?_ ?_, hopen⟩
  · rw [hunder, hsch]
    have hco := h.coherent
    rw [ho.underway] at hco
    exact hco.stop p
  · rw [hstream, hstr]
    exact hd.range
  · intro u hu
    rw [hsch, Schedule.job?_stop]
    exact hd.job u (htask ▸ hu)
  · intro u hu he
    obtain rfl : u = t := Option.some.inj (hu.symm.trans (htask.trans ho.drives.2))
    by_cases hpe : p = .ended
    · rcases hsame with rfl | hph
      · rwa [hpe] at hp
      · exact hph
    · rw [hsch, Schedule.state_stop_self hpe hst] at he
      split at he <;> simp at he
  · by_cases hpe : x'.driver.phase = .ended
    · exact placed_ended hpe
    · obtain rfl := hsame.resolve_right hpe
      have hne : p ≠ .ended := by
        intro heq
        subst heq
        exact hpe hp
      refine h.placed_of_stop hc ho.drives hp hne hsch hstr fun haw => .inl ?_
      rw [hsch]
      exact h.coherent.awake_stop hway hne haw
  · intro str v hstr' hv
    rw [hstr] at hstr'
    obtain ⟨hi, hcl, hlast, hv, hph⟩ := h.waker_own ho.drives.1 hstr' hv
    refine ⟨hi, hcl, (hpoll _).trans hlast, hv, ?_⟩
    rcases hsame with rfl | hpe
    · exact hph
    · exact .inl hpe
  · rw [hs']
    exact ho.linked.persist hper
  · rw [topped_answering hc']
    exact hopen.takes (fun e u y => ha.job_of_drives h ho.drives.1) _

theorem stopTask_other (hj : ∀ d, m.world.schedule.job? t ≠ some (.driver d)) (p : Pause) :
    (m.stopTask t p).world.drivers = m.world.drivers ∧
      (m.stopTask t p).world.streams = m.world.streams ∧
      (m.stopTask t p).world.trace = m.world.trace ∧
      (m.stopTask t p).world.schedule = m.world.schedule.stop t p := by
  cases p with
  | waiting => exact ⟨rfl, rfl, rfl, rfl⟩
  | yielded => exact ⟨rfl, rfl, rfl, rfl⟩
  | ended =>
    simp only [stopTask, endTask]
    split
    · rename_i task htask
      obtain ⟨i, hi⟩ : ∃ i, task.job = .ticker i := by
        cases hk : task.job with
        | ticker i => exact ⟨i, rfl⟩
        | driver d =>
          refine absurd ?_ (hj d)
          rw [← Schedule.job?_stop .ended, Schedule.job?, htask, Option.map_some, hk]
      rw [hi, dropJob]
      split
      · exact ⟨rfl, rfl, rfl, rfl⟩
      · exact ⟨rfl, rfl, rfl, rfl⟩
    · exact ⟨rfl, rfl, rfl, rfl⟩

theorem Attentive.stop_other (h : m.Attentive) (hc : m.control = .answering r)
    (hs : m.stack = .task t :: rest) (hj : ∀ d, m.world.schedule.job? t ≠ some (.driver d)) :
    (stopTask { m with stack := rest } t r.paused).Attentive := by
  have hl := h.linked
  rw [hs] at hl
  obtain ⟨hdr, hstr, htr, hsch⟩ := stopTask_other (m := { m with stack := rest }) hj r.paused
  have hs' : (stopTask { m with stack := rest } t r.paused).stack = rest := rfl
  have hc' : (stopTask { m with stack := rest } t r.paused).control = .answering .done := rfl
  generalize stopTask { m with stack := rest } t r.paused = m' at hdr hstr htr hsch hs' hc' ⊢
  have hpoll (i : Nat) : m'.world.lastPoll i = m.world.lastPoll i := by
    rw [World.lastPoll, htr, World.lastPoll]
  have hunder : m.underway = t :: rest.filterMap Frame.task? := by
    rw [underway, hc, hs]
    rfl
  have hne {e u : Nat} {y : StreamTask} (hy : m.world.Drives e u y) : u ≠ t := by
    intro heq
    subst heq
    exact hj e (h.drives hy)
  have hno : RunsNoDriver m m' :=
    { coherent := by
        have hco := h.coherent
        rw [hunder] at hco
        rw [underway, hc', hs', hsch]
        exact hco.stop _
      job := fun u e => by
        rw [hsch, Schedule.job?_stop]
        exact id
      size := by rw [hdr]
      drivers := fun e y hy => ⟨y, by rw [hdr, hy], .refl y, (h.driven e y hy).ok, .inl⟩
      minds := fun e y u hy =>
        .of_stop (hne hy) hc hs hsch hs' (by rw [World.waker, hstr, World.waker])
      opening := fun e dest hm => by
        rw [hs']
        rw [hs] at hm
        simpa using hm
      spawning := by simp [hc]
      streams := Nat.le_of_eq (by rw [hstr])
      waker := fun i s u hsi hw => ⟨s, by rw [← hstr, hsi], hw, rfl, rfl⟩
      polls := hpoll }
  have hper : m.world.Persists m'.world rest := by
    refine hno.persists fun u hu => ⟨?_, by simp [hc']⟩
    apply h.not_ended_of_mem_underway
    rw [hunder]
    exact .tail _ (List.mem_filterMap.mpr ⟨_, hu, rfl⟩)
  apply h.runsNoDriver hno (hs' ▸ hl.2.persist hper)
  refine .of_open (hs' ▸ World.Open.persist hl.1 hper) ?_ (hc' ▸ trivial)
  intro e u y hy
  rw [hsch, Schedule.job?_stop]
  exact h.drives ⟨hdr ▸ hy.1, hy.2⟩

theorem endTask_driver {w : World} (hj : w.schedule.job? t = some (.driver d))
    (hx : w.drivers[d]? = some x) : endTask w t =
      (World.setDriver { w with schedule := w.schedule.stop t .ended } d
        x.driver.stop).dropStream x.stream := by
  rw [← Schedule.job?_stop (t := t) .ended, Schedule.job?] at hj
  obtain ⟨task, htask, hjob⟩ := Option.map_eq_some_iff.mp hj
  simp only [endTask, htask, dropJob, hjob, hx]

theorem Attentive.stop (h : m.Attentive) (hc : m.control = .answering r)
    (hs : m.stack = .task t :: rest) :
    (stopTask { m with stack := rest } t r.paused).Attentive := by
  by_cases hj : ∃ d, m.world.schedule.job? t = some (.driver d)
  · obtain ⟨d, hjob⟩ := hj
    obtain ⟨x, hd⟩ := h.driver t d hjob
    have ho := h.onTask_of_stop hc hs hd
    have htop := (topped_answering hc).mp h.topped
    rw [hs] at htop
    obtain ⟨p, rfl, hp⟩ := htop d x hd
    have hself := World.drivers_self hd.1
    cases p with
    | waiting =>
      have hstop : Attentive (stopTask { m with stack := rest } t .waiting) ∧ _ :=
        h.stopped hc hs ho hp (.inl rfl) hself rfl rfl (fun _ => rfl) rfl rfl
      exact hstop.1
    | yielded =>
      have hstop : Attentive (stopTask { m with stack := rest } t .yielded) ∧ _ :=
        h.stopped hc hs ho hp (.inl rfl) hself rfl rfl (fun _ => rfl) rfl rfl
      exact hstop.1
    | ended =>
      have hset := World.drivers_setDriver hd.1 x.driver.stop
      have hstop : Attentive { m with
          world := { m.world with schedule := m.world.schedule.stop t .ended }.setDriver d
            x.driver.stop
          stack := rest
          control := .answering .done } ∧ _ :=
        h.stopped hc hs ho hp (.inr ⟨rfl, rfl⟩) hset rfl rfl (fun _ => rfl) rfl rfl
      simp only [stopTask, Reply.paused, endTask_driver hjob hd.1]
      exact hstop.1.change (.dropStream _ x.stream) trivial hstop.2
  · exact h.stop_other hc hs (not_exists.mp hj)

end Machine
end Sluice
