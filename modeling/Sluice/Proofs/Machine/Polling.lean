import Sluice.Proofs.Machine.Task

/-!
# Polls of streams

A poll that finds nothing leaves the driver's task with the stream. One that finds
something finds a stream that has no task to wake.
-/

namespace Sluice

theorem Item.poll_ne_pending (item : Item) : item.poll ≠ .pending := by
  cases item <;> simp [Item.poll]

inductive Stream.PolledBy (task : Option Nat) (s : Stream) : Poll → Stream → Prop
  | nothing {s' : Stream} (hi : s'.items = []) (hc : s'.closed = false) (hw : s'.waker = task) :
      PolledBy task s .pending s'
  | something {p : Poll} {s' : Stream} (hp : p ≠ .pending) (hs : s.items ≠ [] ∨ s.closed = true)
      (hw : s'.waker = s.waker) : PolledBy task s p s'

theorem Stream.poll_polledBy (s : Stream) (task : Option Nat) :
    s.PolledBy task (s.poll task).1 (s.poll task).2 := by
  unfold Stream.poll
  cases hi : s.items with
  | cons item left => exact .something item.poll_ne_pending (.inl (by simp [hi])) rfl
  | nil =>
    simp only
    by_cases hc : s.closed = true
    · rw [if_pos hc]
      exact .something (by simp) (.inr hc) rfl
    · rw [if_neg hc]
      exact .nothing rfl (by simpa using hc) rfl

theorem Stream.poll_dropped (s : Stream) (task : Option Nat) :
    (s.poll task).2.dropped = s.dropped := by
  unfold Stream.poll
  cases s.items with
  | cons item left => rfl
  | nil =>
    simp only
    split
    · rfl
    · rfl

namespace Machine

variable {m m' : Machine} {rest : List Frame} {d t : Nat} {x : StreamTask}

theorem Attentive.handed {p : Poll} {r : Reply} (h : m.Attentive) (hc : m.control = .answering r)
    (hs : m.stack = .polling p :: rest) :
    (answer { m with stack := rest } (.poll p)).Attentive := by
  have hplain : m.control.Plain := hc ▸ trivial
  have hl := h.linked
  rw [hs] at hl
  have hmem (f : Frame) (hf : ∀ p, f ≠ .polling p) (hm : f ∈ m.stack) : f ∈ rest := by
    rw [hs] at hm
    exact (List.mem_cons.mp hm).resolve_left (hf p)
  have hno : RunsNoDriver m (answer { m with stack := rest } (.poll p)) :=
    { coherent := by
        have hco := h.coherent
        rwa [underway, hc, hs] at hco
      job := fun _ _ => id
      size := rfl
      drivers := fun e y hy => ⟨y, hy, .refl y, (h.driven e y hy).ok, .inl⟩
      minds := fun e y u _ => .of_follows (.refl _) (hplain.ne_run u) (hplain.ne_wake e)
        (hmem _ (by simp)) rfl
      opening := fun e dest => hmem _ (by simp)
      spawning := hplain.ne_spawn
      streams := Nat.le_refl _
      waker := fun i s u hsi hw => ⟨s, hsi, hw, rfl, rfl⟩
      polls := fun _ => rfl }
  apply h.runsNoDriver hno hl.2
  obtain ⟨d, rest', rfl, hp⟩ := hl.1
  exact ⟨p, rfl, hp⟩

theorem Attentive.onTask_of_poll (h : m.Attentive) (hc : m.control = .calling (.poll d)) :
    ∃ t x rest, m.stack = .driver d .polling :: .task t :: rest ∧ m.OnTask d t x rest ∧
      x.driver.phase = .polling ∧ x.driver.waiter ≠ .absent := by
  obtain ⟨rest, hs⟩ := (topped_poll hc).mp h.topped
  have hl := h.linked
  rw [hs] at hl
  obtain ⟨t, rest', x, rfl, hd, hp, hw⟩ := hl.1
  refine ⟨t, x, rest', hs, ⟨hd, ?_, hl.2.2, hl.2.1, ?_, ?_, ?_, ?_⟩, hp, by simpa using hw⟩
  · rw [underway, hc, hs]
    rfl
  · intro e dest hm
    rw [hs] at hm
    simpa using hm
  · simp [hc]
  · simp [hc]
  · simp [hc]

theorem Attentive.unheard (h : m.Attentive) {i : Nat} {s : Stream}
    (hs : m.world.streams[i]? = some s) (hsome : s.items ≠ [] ∨ s.closed = true) :
    s.waker = none := by
  apply Option.eq_none_iff_forall_ne_some.mpr
  intro v hv
  obtain ⟨hi, hc, -⟩ := h.streamed.waker i s v hs hv
  rcases hsome with hsome | hsome
  · exact hsome hi
  · simp [hc] at hsome

/-- What the poll of the stream of a driver in the state `x` changes. It leaves the stream as `s'`,
and the outcome `p` lies on the stack while the environment has its turn. -/
structure Probed (m m' : Machine) (x : StreamTask) (s' : Stream) (p : Poll) : Prop where
  stack : m'.stack = .polling p :: m.stack
  control : m'.control = .calling (.ask (.poll x.stream))
  drivers : m'.world.drivers = m.world.drivers
  schedule : m'.world.schedule = m.world.schedule
  size : m'.world.streams.size = m.world.streams.size
  self : m'.world.streams[x.stream]? = some s'
  other : ∀ i : Nat, i ≠ x.stream → m'.world.streams[i]? = m.world.streams[i]?
  last : m'.world.lastPoll x.stream = some p
  polls : ∀ i, i ≠ x.stream → m'.world.lastPoll i = m.world.lastPoll i

theorem poll_probed {s : Stream} (hx : m.world.drivers[d]? = some x)
    (hs : m.world.streams[x.stream]? = some s) :
    Probed m (m.poll d) x (s.poll x.task).2 (s.poll x.task).1 := by
  have hlt := (Array.getElem?_eq_some_iff.mp hs).1
  unfold Machine.poll
  rw [hx]
  simp only [hs]
  refine ⟨rfl, rfl, rfl, rfl, ?_, ?_, ?_, ?_, ?_⟩
  · simp [call, World.signal]
  · simp [call, World.signal, hlt]
  · intro i hi
    simp [call, World.signal, Ne.symm hi]
  · simp only [call, World.lastPoll_signal, Signal.pollOf, if_pos, Option.some_or]
  · intro i hi
    simp only [call, World.lastPoll_signal, Signal.pollOf, if_neg (Ne.symm hi), Option.none_or]
    rfl

theorem Probed.around {s' : Stream} {p : Poll} (hm : Probed m m' x s' p) (h : m.Attentive)
    (ho : m.OnTask d t x rest) (hs : m.stack = .driver d .polling :: .task t :: rest) :
    Around m m' d x x := by
  refine ho.around h rfl rfl ?_ hm.schedule hm.size hm.other hm.polls ?_
  · rw [hm.drivers]
    exact World.drivers_self ho.drives.1
  · intro f hf
    rw [hm.stack, hs]
    exact .tail _ (.tail _ (.tail _ hf))

theorem Probed.polled {s s' : Stream} {p : Poll} (hm : Probed m m' x s' p) (h : m.Attentive)
    (hd : m.world.Drives d t x) (hstr : m.world.streams[x.stream]? = some s)
    (hby : s.PolledBy x.task p s') : m'.world.Polled d p := by
  have hwaker : m'.world.waker x.stream = s'.waker := by simp [World.waker, hm.self]
  refine ⟨x, t, ⟨hm.drivers ▸ hd.1, hd.2⟩, ?_⟩
  cases hby with
  | nothing hi hcl hwk =>
    rw [if_pos rfl]
    exact .inl (hwaker.trans (hwk.trans hd.2))
  | something hne hsome hwk =>
    rw [if_neg hne, hwaker, hwk]
    exact h.unheard hstr hsome

theorem Probed.attentive {s s' : Stream} {p : Poll} (hm : Probed m m' x s' p)
    (h : m.Attentive) (hc : m.control = .calling (.poll d)) (ho : m.OnTask d t x rest)
    (hs : m.stack = .driver d .polling :: .task t :: rest) (hp : x.driver.phase = .polling)
    (hw : x.driver.waiter ≠ .absent) (hstr : m.world.streams[x.stream]? = some s)
    (hby : s.PolledBy x.task p s') : m'.Attentive := by
  have hd := h.driven d x ho.drives.1
  have ha := hm.around h ho hs
  have hper := ho.persists h ha (by simp [hm.control])
  have hdrives : m'.world.Drives d t x := ⟨hm.drivers ▸ ho.drives.1, ho.drives.2⟩
  refine h.around ho.drives.1 ha ?_ ⟨?_, ?_, ?_, hd.ok, ?_⟩ ?_ ?_ ?_
  · have hunder : m'.underway = m.underway := by
      rw [underway, hm.control, hm.stack, hs, ho.underway]
      rfl
    rw [hunder, hm.schedule]
    exact h.coherent
  · rw [hm.size]
    exact hd.range
  · rw [hm.schedule]
    exact hd.job
  · rw [hm.schedule]
    exact hd.alive
  · have hr := (hd.of_polling ho.drives.2 hp).1
    have htask : Frame.task t ∈ m'.stack := by simp [hm.stack, hs]
    refine (placed_polling hp).mpr ⟨t, ho.drives.2, fun hn => .inl (.inl ?_), .inl htask⟩
    rw [hm.schedule]
    exact (hr hn).awake (by simp [hc]) (by simp [hc])
  · intro str v hstr' hv
    obtain rfl := Option.some.inj (hm.self.symm.trans hstr')
    have hlast := hm.last
    cases hby with
    | nothing hi hcl hwk => exact ⟨hi, hcl, hlast, hwk ▸ hv, .inr ⟨hp, hw⟩⟩
    | something hne hsome hwk =>
      rw [hwk, h.unheard hstr hsome] at hv
      simp at hv
  · rw [hm.stack, hs]
    have hsits : m'.world.Attends d false (.task t :: rest) :=
      ⟨t, rest, x, rfl, hdrives, hp, by simpa using hw⟩
    exact ⟨⟨d, _, rfl, hm.polled h ho.drives hstr hby⟩, hsits, ho.isOpen.persist hper,
      ho.linked.persist hper⟩
  · rw [Topped, hm.control, hm.stack]
    trivial

theorem Attentive.poll (h : m.Attentive) (hc : m.control = .calling (.poll d)) :
    (m.poll d).Attentive := by
  obtain ⟨t, x, rest, hs, ho, hp, hw⟩ := h.onTask_of_poll hc
  have hstr := Array.getElem?_eq_getElem (h.driven d x ho.drives.1).range
  have hm := poll_probed ho.drives.1 hstr
  exact hm.attentive h hc ho hs hp hw hstr (Stream.poll_polledBy _ _)

end Machine
end Sluice
