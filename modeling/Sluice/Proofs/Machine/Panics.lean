import Sluice.Proofs.Machine.Wakeups

/-!
# Panics

A panic outside of the tasks of drivers leaves a machine attentive. One that starts
in such a task falls through the frames on it, at most the poll, and then ends the
task, which leaves the machine as if the driver had stopped by itself.
-/

namespace Sluice

theorem Driver.stop_stop {ρ : Type} (s : Driver ρ) : s.stop.stop = s.stop := by
  simp [Driver.stop, Driver.Wakeup.forget]

theorem World.setDriver_setDriver (w : World) (d : Nat) (s s' : Driver Outlet) :
    (w.setDriver d s).setDriver d s' = w.setDriver d s' := by
  have hsame : ((w.setDriver d s).setDriver d s').drivers = (w.setDriver d s').drivers := by
    apply Array.ext_getElem?
    intro e
    simp only [getElem?_setDriver, Option.map_map]
    congr 1
    funext x
    by_cases he : d = e
    · simp [he]
    · simp [he]
  exact congrArg (fun ds => { w with drivers := ds }) hsame

namespace Machine

variable {m m' m₀ : Machine} {rest : List Frame} {d t : Nat} {x : StreamTask} {why : Panic}

theorem Topped.open_unwinding (h : m.Topped) (hc : m.control = .unwinding why) :
    m.world.Open m.stack := by
  rwa [Topped, hc] at h

theorem unwound_keepsDrivers {f : Frame} (m : Machine) (why : Panic) (hf : f.Plain)
    (hn : ∀ i n, f ≠ .handle i n) : KeepsDrivers m.stack m.world (m.unwound why f) := by
  cases f with
  | handle i n => exact absurd rfl (hn i n)
  | closing i => exact ⟨.of_eq rfl rfl rfl rfl, .inl rfl, trivial⟩
  | task t => exact hf.elim
  | driver i f =>
    cases f with
    | passing => exact unwind_keepsDrivers m why
    | _ => exact hf.elim
  | _ => exact unwind_keepsDrivers m why

theorem Attentive.unwound_handle {i n : Nat} (h : m.Attentive) (hc : m.control = .unwinding why)
    (hs : m.stack = .handle i n :: rest) (ho : m.world.Open rest) :
    (Machine.unwound { m with stack := rest } why (.handle i n)).Attentive := by
  have hplain : m.control.Plain := hc ▸ trivial
  have htop : Atop rest m.stack := .inr ⟨.handle i n, trivial, hs⟩
  simp only [Machine.unwound]
  split
  · -- Two frames go on the stack, the first of them while the panic still holds.
    have hn : KeepsDrivers rest m.world
        { m with stack := .rethrow why :: rest, control := .unwinding why } :=
      ⟨.refl _, .inr ⟨.rethrow why, trivial, rfl⟩, trivial⟩
    have h₁ := h.plain hn hplain htop ho
    exact h₁.plain (call_keepsDrivers { m with stack := .rethrow why :: rest } trivial trivial)
      trivial
      (.inl rfl) trivial
  · exact h.plain (unwind_keepsDrivers { m with stack := rest } why) hplain htop ho

theorem Attentive.unwound_opening {dest : Outlet} (h : m.Attentive)
    (hc : m.control = .unwinding why) (hs : m.stack = .driver d (.opening dest) :: rest) :
    (Machine.unwound { m with stack := rest } why (.driver d (.opening dest))).Attentive := by
  have hl := h.linked
  rw [hs] at hl
  obtain ⟨⟨-, ⟨x, hx, htask, -⟩, -⟩, -⟩ := hl
  have ho : m.world.Open m.stack := hs ▸ trivial
  have hn : KeepsDrivers m.stack m.world { m with control := .answering .done } :=
    ⟨.refl _, .inl rfl, trivial⟩
  have h₁ := h.plain hn (hc ▸ trivial) (.inl rfl) ho
  have hstop : x.driver.stop.Opened (.answer .done) := .stopped rfl rfl
  obtain ⟨h₂, ho₂⟩ := h₁.handedOver rfl hs hx htask hstop (.of_absent rfl)
  simp only [Machine.unwound, hx]
  exact h₂.plain ⟨.dropStream _ x.stream, .inl rfl, trivial⟩ trivial (.inl rfl) ho₂

theorem Attentive.unwound_other (h : m.Attentive) (hc : m.control = .unwinding why)
    (hs : m.stack = .task t :: rest) (hj : ∀ d, m.world.schedule.job? t ≠ some (.driver d)) :
    (Machine.unwound { m with stack := rest } why (.task t)).Attentive := by
  have ho : m.world.Open m.stack := by
    rw [hs]
    exact hj
  have hn : KeepsDrivers m.stack m.world { m with control := .answering (.pause .ended) } :=
    ⟨.refl _, .inl rfl, trivial⟩
  have h₁ := h.plain hn (hc ▸ trivial) (.inl rfl) ho
  exact h₁.stop_other rfl hs hj

/-- A panic that began in `m₀`, in the task `t` of driver `d`, is about to end this task. -/
structure Falls (m₀ m : Machine) (d t : Nat) (x : StreamTask) (rest : List Frame) : Prop where
  attentive : m₀.Attentive
  onTask : m₀.OnTask d t x rest
  world : m.world = m₀.world
  control : ∃ why, m.control = .unwinding why
  stack : m.stack = .task t :: rest ∨ m.stack = .driver d .polling :: .task t :: rest

theorem Falls.of_poll {p : Poll} (h : m.Attentive) (hc : m.control = .unwinding why)
    (hs : m.stack = .polling p :: rest) :
    ∃ d t x rest', Falls m ⟨m.world, rest, .unwinding why⟩ d t x rest' := by
  have hplain : m.control.Plain := hc ▸ trivial
  have hl := h.linked
  rw [hs] at hl
  obtain ⟨d, rest₁, rfl, -⟩ := hl.1
  obtain ⟨t, rest₂, x, rfl, hd, -⟩ := hl.2.1
  refine ⟨d, t, x, rest₂, h, ⟨hd, ?_, hl.2.2.2, hl.2.2.1, ?_, ?_, hplain.ne_wake, hplain.ne_spawn⟩,
    rfl, ⟨why, rfl⟩, .inr rfl⟩
  · rw [underway_eq hplain.ne_run (.inl rfl), hs]
    rfl
  · intro e dest hm
    rw [hs] at hm
    simpa using hm
  · exact fun u hu => absurd hu (hplain.ne_run u)

theorem Falls.of_attends {b : Bool} {f : Driver.Frame Outlet} (h : m.Attentive)
    (hc : m.control = .unwinding why) (hs : m.stack = .driver d f :: rest)
    (ha : m.world.Attends d b rest) :
    ∃ d t x rest', Falls m ⟨m.world, rest, .unwinding why⟩ d t x rest' := by
  obtain ⟨t, x, rest', rfl, ho, -⟩ := h.onTask_of_frame (hc ▸ trivial) hs ha
  exact ⟨d, t, x, rest', h, ho, rfl, ⟨why, rfl⟩, .inl rfl⟩

theorem endTask_stopped {w : World} (hj : w.schedule.job? t = some (.driver d))
    (hx : w.drivers[d]? = some x) : endTask (w.setDriver d x.driver.stop) t = endTask w t := by
  have hend := endTask_driver (w := w.setDriver d x.driver.stop) hj (World.setDriver_self hx)
  rw [Driver.stop_stop] at hend
  have htwice := World.setDriver_setDriver { w with schedule := w.schedule.stop t .ended } d
    x.driver.stop x.driver.stop
  refine hend.trans ?_
  rw [endTask_driver hj hx]
  exact congrArg (World.dropStream · x.stream) htwice

theorem Falls.attentive_endTask (h : Falls m₀ m d t x rest) :
    Attentive ⟨endTask m.world t, rest, .answering .done⟩ := by
  have hstop : x.driver.stop.Stepped (.answer (.pause .ended)) := .ended rfl rfl
  have h₁ := h.attentive.stepped h.onTask hstop (.of_absent rfl) (.inr (.inl rfl))
  have h₂ := h₁.stop rfl rfl
  rw [h.world, ← endTask_stopped (h.attentive.drives h.onTask.drives) h.onTask.drives.1]
  exact h₂

/-- No driver is left behind, or the task of one is about to end with a panic. -/
def Sound (m : Machine) : Prop := m.Attentive ∨ ∃ m₀ d t x rest, Falls m₀ m d t x rest

theorem Sound.attentive (h : m.Sound) (hc : ∀ why, m.control ≠ .unwinding why) :
    m.Attentive := by
  rcases h with h | ⟨m₀, d, t, x, rest, hf⟩
  · exact h
  · obtain ⟨why, hw⟩ := hf.control
    exact absurd hw (hc why)

theorem Sound.attentive_of_quiet (h : m.Sound) (hq : m.Quiet) : m.Attentive := by
  rcases h with h | ⟨m₀, d, t, x, rest, hf⟩
  · exact h
  · exfalso
    apply hq.stack t
    rcases hf.stack with hs | hs
    · simp [hs]
    · simp [hs]

theorem Attentive.unwound {f : Frame} (h : m.Attentive) (hc : m.control = .unwinding why)
    (hs : m.stack = f :: rest) : (Machine.unwound { m with stack := rest } why f).Sound := by
  have hplain : m.control.Plain := hc ▸ trivial
  have hl := h.linked
  have ho := h.topped.open_unwinding hc
  rw [hs] at hl ho
  by_cases hf : f.Plain
  · have hrest := (World.sits_plain hf).mp hl.1
    left
    by_cases hn : ∃ i n, f = .handle i n
    · obtain ⟨i, n, rfl⟩ := hn
      exact h.unwound_handle hc hs hrest
    · have hn := unwound_keepsDrivers { m with stack := rest } why hf fun i n hi => hn ⟨i, n, hi⟩
      exact h.plain hn hplain (.inr ⟨f, hf, hs⟩) hrest
  · cases f with
    | polling p => exact .inr ⟨m, Falls.of_poll h hc hs⟩
    | task t => exact .inl (h.unwound_other hc hs ho)
    | driver d f =>
      cases f with
      | opening dest => exact .inl (h.unwound_opening hc hs)
      | passing => exact absurd trivial hf
      | polling => exact ho.elim
      | delivering => exact .inr ⟨m, Falls.of_attends h hc hs hl.1⟩
      | concluding => exact .inr ⟨m, Falls.of_attends h hc hs hl.1⟩
    | _ => exact absurd trivial hf

theorem Falls.step (h : Falls m₀ m d t x rest) :
    m.stack = .task t :: rest ∧ m.step = ⟨endTask m.world t, rest, .answering .done⟩ ∨
      m.stack = .driver d .polling :: .task t :: rest ∧
        m.step = ⟨m.world, .task t :: rest, m.control⟩ := by
  obtain ⟨why, hc⟩ := h.control
  rcases h.stack with hs | hs
  · refine .inl ⟨hs, ?_⟩
    simp only [Machine.step, hc, hs, Machine.unwound]
  · refine .inr ⟨hs, ?_⟩
    simp only [Machine.step, hc, hs, Machine.unwound, unwind]

theorem Next.eq_step (hn : m.Next m') (hc : m.control = .unwinding why) : m' = m.step := by
  have hidle (hi : m.Idle) : m' = m.step := by
    obtain ⟨o, ho⟩ := hi
    simp [hc] at ho
  cases hn with
  | step => rfl
  | attend hi => exact hidle hi
  | invoke hi => exact hidle hi
  | begin hi => exact hidle hi
  | reply hi => exact hidle hi
  | raise hi => exact hidle hi
  | change hi => exact hidle hi

theorem Attentive.unwinding (h : m.Attentive) (hc : m.control = .unwinding why) :
    m.step.Sound := by
  unfold Machine.step
  rw [hc]
  cases hs : m.stack with
  | nil =>
    have hn : KeepsDrivers [] m.world { m with stack := [], control := .idle (.panicked why) } :=
      ⟨.refl _, .inl rfl, trivial⟩
    have hplain := h.plain hn (hc ▸ trivial) (.inl hs) trivial
    exact .inl (by simpa only [hs] using hplain)
  | cons f rest => exact h.unwound hc hs

theorem Sound.next (h : m.Sound) (hn : m.Next m') : m'.Sound := by
  rcases h with h | ⟨m₀, d, t, x, rest, hf⟩
  · cases hc : m.control with
    | unwinding why =>
      obtain rfl := hn.eq_step hc
      exact h.unwinding hc
    | _ => exact .inl (h.next (by simp [Calm, hc]) hn)
  · obtain ⟨why, hc⟩ := hf.control
    obtain rfl := hn.eq_step hc
    rcases hf.step with ⟨-, hs⟩ | ⟨-, hs⟩
    · exact .inl (hs ▸ hf.attentive_endTask)
    · rw [hs]
      exact .inr ⟨m₀, d, t, x, rest, hf.attentive, hf.onTask, hf.world, ⟨why, hc⟩, .inl rfl⟩

theorem Reached.sound (h : Reached (fun _ => True) m) : m.Sound :=
  h.invariant (P := Sound) (.inl attentive_empty) fun hm hn _ => hm.next hn

end Machine
end Sluice
