import Sluice.Proofs.Machine.Stack

/-!
# Attentive machines

A machine is attentive if no driver is left behind. A driver that has something to
do has a task that is queued or under way, or a call that is about to wake it; any
other driver is registered with its wakeup and, if it polls, with its stream.
-/

namespace Sluice

def Control.starting : Control → List Nat
  | .calling (.run t) => [t]
  | _ => []

def Frame.task? : Frame → Option Nat
  | .task t => some t
  | _ => none

namespace World

/-- Drivers do not share streams. A stream that has a task to wake was found without an item by the
driver of that task, was not pushed to since, and is still polled unless the driver ended. -/
structure Streamed (w : World) : Prop where
  own : ∀ (d d' : Nat) x x', w.drivers[d]? = some x → w.drivers[d']? = some x' →
    x.stream = x'.stream → d = d'
  waker : ∀ (i : Nat) s t, w.streams[i]? = some s → s.waker = some t →
    s.items = [] ∧ s.closed = false ∧ w.lastPoll i = some .pending ∧
      ∃ d x, w.Drives d t x ∧ x.stream = i ∧
        (x.driver.phase = .ended ∨ x.driver.phase = .polling ∧ x.driver.waiter ≠ .absent)

theorem Streamed.own_of {w w' : World} (h : w.Streamed)
    (hs : ∀ (d : Nat) x', w'.drivers[d]? = some x' →
      ∃ x, w.drivers[d]? = some x ∧ x.stream = x'.stream) :
    ∀ (d d' : Nat) x x', w'.drivers[d]? = some x → w'.drivers[d']? = some x' →
      x.stream = x'.stream → d = d' := by
  intro d d' x x' hx hx' heq
  obtain ⟨y, hy, hyx⟩ := hs d x hx
  obtain ⟨y', hy', hyx'⟩ := hs d' x' hx'
  exact h.own d d' y y' hy hy' (by rw [hyx, heq, hyx'])

end World

theorem Control.Plain.ne_run {k : Control} (hk : k.Plain) (t : Nat) : k ≠ .calling (.run t) := by
  intro heq
  subst heq
  exact hk

theorem Control.Plain.ne_wake {k : Control} (hk : k.Plain) (d : Nat) :
    k ≠ .calling (.wakeDriver d) := by
  intro heq
  subst heq
  exact hk

theorem Control.Plain.ne_spawn {k : Control} (hk : k.Plain) (d : Nat) :
    k ≠ .calling (.spawn d) := by
  intro heq
  subst heq
  exact hk

theorem Control.starting_eq_nil {k : Control} (hk : ∀ t, k ≠ .calling (.run t)) :
    k.starting = [] := by
  cases k with
  | calling c =>
    cases c with
    | run t => exact absurd rfl (hk t)
    | _ => rfl
  | _ => rfl

theorem Atop.filterMap_task? {rest stack : List Frame} (h : Atop rest stack) :
    stack.filterMap Frame.task? = rest.filterMap Frame.task? := by
  rcases h with rfl | ⟨f, hf, rfl⟩
  · rfl
  · cases f with
    | task t => exact hf.elim
    | _ => rfl

namespace Machine

variable {m m' : Machine} {d t : Nat} {x x' : StreamTask}

def underway (m : Machine) : List Nat := m.control.starting ++ m.stack.filterMap Frame.task?

/-- The task is queued, will be queued when it stops, or is about to run. -/
def Due (m : Machine) (t : Nat) : Prop :=
  m.world.schedule.Awake t ∨ m.control = .calling (.run t)

/-- The notification of driver `d` has reached its task or is on the way. -/
def Roused (m : Machine) (d t : Nat) : Prop := m.Due t ∨ m.control = .calling (.wakeDriver d)

theorem Roused.awake (h : m.Roused d t) (hrun : m.control ≠ .calling (.run t))
    (hwake : m.control ≠ .calling (.wakeDriver d)) : m.world.schedule.Awake t :=
  (h.resolve_right hwake).resolve_right hrun

def Placed (m : Machine) (d : Nat) (x : StreamTask) : Prop :=
  match x.driver.phase with
  | .unstarted => x.task = none ∧ ∃ dest, Frame.driver d (.opening dest) ∈ m.stack
  | .seeking => m.control = .calling (.spawn d) ∧ x.task = none ∨
      ∃ t, x.task = some t ∧
        (m.Due t ∨ t ∈ m.world.schedule.yielded ∨ Frame.task t ∈ m.stack)
  | .parked => x.driver.waiter ≠ .absent ∧
      ∃ t, x.task = some t ∧ (x.driver.waiter = .notified → m.Roused d t)
  | .polling => ∃ t, x.task = some t ∧ (x.driver.waiter = .notified → m.Roused d t) ∧
      (Frame.task t ∈ m.stack ∨
        x.driver.waiter ≠ .absent ∧ (m.Due t ∨ m.world.waker x.stream = some t))
  | .ended => True

theorem placed_unstarted (hp : x.driver.phase = .unstarted) :
    m.Placed d x ↔ x.task = none ∧ ∃ dest, Frame.driver d (.opening dest) ∈ m.stack := by
  rw [Placed, hp]

theorem placed_seeking (hp : x.driver.phase = .seeking) :
    m.Placed d x ↔ m.control = .calling (.spawn d) ∧ x.task = none ∨ ∃ t, x.task = some t ∧
      (m.Due t ∨ t ∈ m.world.schedule.yielded ∨ Frame.task t ∈ m.stack) := by
  rw [Placed, hp]

theorem placed_parked (hp : x.driver.phase = .parked) :
    m.Placed d x ↔ x.driver.waiter ≠ .absent ∧
      ∃ t, x.task = some t ∧ (x.driver.waiter = .notified → m.Roused d t) := by
  rw [Placed, hp]

theorem placed_polling (hp : x.driver.phase = .polling) :
    m.Placed d x ↔ ∃ t, x.task = some t ∧ (x.driver.waiter = .notified → m.Roused d t) ∧
      (Frame.task t ∈ m.stack ∨
        x.driver.waiter ≠ .absent ∧ (m.Due t ∨ m.world.waker x.stream = some t)) := by
  rw [Placed, hp]

theorem placed_ended (hp : x.driver.phase = .ended) : m.Placed d x := by
  rw [Placed, hp]
  trivial

structure Driven (m : Machine) (d : Nat) (x : StreamTask) : Prop where
  range : x.stream < m.world.streams.size
  job : ∀ t, x.task = some t → m.world.schedule.job? t = some (.driver d)
  alive : ∀ t, x.task = some t → m.world.schedule.state t = .ended → x.driver.phase = .ended
  ok : x.driver.Ok
  placed : m.Placed d x

theorem Driven.of_parked (h : m.Driven d x) (ht : x.task = some t)
    (hp : x.driver.phase = .parked) :
    x.driver.waiter ≠ .absent ∧ (x.driver.waiter = .notified → m.Roused d t) := by
  obtain ⟨ha, u, hu, hr⟩ := (placed_parked hp).mp h.placed
  obtain rfl : u = t := Option.some.inj (hu.symm.trans ht)
  exact ⟨ha, hr⟩

theorem Driven.of_polling (h : m.Driven d x) (ht : x.task = some t)
    (hp : x.driver.phase = .polling) :
    (x.driver.waiter = .notified → m.Roused d t) ∧ (Frame.task t ∈ m.stack ∨
      x.driver.waiter ≠ .absent ∧ (m.Due t ∨ m.world.waker x.stream = some t)) := by
  obtain ⟨u, hu, hr⟩ := (placed_polling hp).mp h.placed
  obtain rfl : u = t := Option.some.inj (hu.symm.trans ht)
  exact hr

structure Attentive (m : Machine) : Prop where
  coherent : m.world.schedule.Coherent m.underway
  driven : ∀ (d : Nat) x, m.world.drivers[d]? = some x → m.Driven d x
  driver : ∀ t d, m.world.schedule.job? t = some (.driver d) → ∃ x, m.world.Drives d t x
  streamed : m.world.Streamed
  linked : m.world.Linked m.stack
  topped : m.Topped

theorem attentive_empty : Attentive {} where
  coherent := Schedule.coherent_empty
  driven := by simp
  driver := by simp [Schedule.job?]
  streamed := ⟨by simp, by simp⟩
  linked := trivial
  topped := trivial

/-- What `m` owes to the task `t` of driver `d`, whose stream is `i`, is owed by `m'` as well. -/
structure Minds (m m' : Machine) (d i t : Nat) : Prop where
  job : m.world.schedule.job? t = some (.driver d) →
    m'.world.schedule.job? t = some (.driver d)
  ended : m'.world.schedule.state t = .ended → m.world.schedule.state t = .ended
  due : m.Due t → m'.Due t
  roused : m.world.schedule.state t ≠ .ended → m.control = .calling (.wakeDriver d) →
    m'.Roused d t
  yielded : t ∈ m.world.schedule.yielded → m.world.schedule.state t ≠ .ended →
    t ∈ m'.world.schedule.yielded ∨ m'.Due t
  stack : Frame.task t ∈ m.stack → Frame.task t ∈ m'.stack
  waker : m.world.schedule.state t ≠ .ended → m.world.waker i = some t →
    m'.Due t ∨ m'.world.waker i = some t

theorem Minds.of_follows {i : Nat} (hf : m.world.schedule.Follows m'.world.schedule)
    (hrun : m.control ≠ .calling (.run t)) (hwake : m.control ≠ .calling (.wakeDriver d))
    (hs : Frame.task t ∈ m.stack → Frame.task t ∈ m'.stack)
    (hstr : m'.world.streams = m.world.streams) : Minds m m' d i t where
  job := hf.job t _
  ended := hf.ended t
  due := fun hd => .inl (hf.awake t (hd.resolve_right hrun))
  roused := fun _ hc => absurd hc hwake
  yielded := fun hy hst => (hf.yielded t hy hst).imp_right .inl
  stack := hs
  waker := fun _ hw => .inr (by rw [World.waker, hstr]; exact hw)

theorem Minds.rousedOf (h : Minds m m' d x.stream t) (hs : m.world.schedule.state t ≠ .ended)
    (hr : m.Roused d t) : m'.Roused d t := by
  rcases hr with hd | hc
  · exact .inl (h.due hd)
  · exact h.roused hs hc

theorem Driven.keep (h : m.Driven d x) (hl : x.Like x') (hok : x'.driver.Ok)
    (hn : x'.driver.waiter = .notified →
      x.driver.waiter = .notified ∨ m'.control = .calling (.wakeDriver d))
    (hs : m.world.streams.size ≤ m'.world.streams.size)
    (hm : ∀ t, x.task = some t → Minds m m' d x.stream t)
    (ho : ∀ dest, Frame.driver d (.opening dest) ∈ m.stack →
      Frame.driver d (.opening dest) ∈ m'.stack)
    (hc : m.control ≠ .calling (.spawn d)) : m'.Driven d x' := by
  have hstate (t : Nat) (ht : x.task = some t) (hp : x.driver.phase ≠ .ended) :
      m.world.schedule.state t ≠ .ended := fun he => hp (h.alive t ht he)
  have hrouse (t : Nat) (ht : x.task = some t) (hp : x.driver.phase ≠ .ended)
      (hr : x.driver.waiter = .notified → m.Roused d t) (hw : x'.driver.waiter = .notified) :
      m'.Roused d t := by
    rcases hn hw with hw | hw
    · exact (hm t ht).rousedOf (hstate t ht hp) (hr hw)
    · exact .inr hw
  refine ⟨?_, ?_, ?_, hok, ?_⟩
  · rw [hl.stream]
    exact Nat.lt_of_lt_of_le h.range hs
  · intro t ht
    rw [hl.task] at ht
    exact (hm t ht).job (h.job t ht)
  · intro t ht he
    rw [hl.task] at ht
    rw [hl.phase]
    exact h.alive t ht ((hm t ht).ended he)
  -- Each phase leans on other promises: of the queue, of the stack, or of the stream.
  · have hp := h.placed
    cases hph : x.driver.phase with
    | unstarted =>
      rw [placed_unstarted hph] at hp
      rw [placed_unstarted (hl.phase.trans hph), hl.task]
      exact ⟨hp.1, hp.2.imp ho⟩
    | seeking =>
      rw [placed_seeking hph] at hp
      rw [placed_seeking (hl.phase.trans hph), hl.task]
      rcases hp with hp | ⟨t, ht, hp⟩
      · exact absurd hp.1 hc
      · refine .inr ⟨t, ht, ?_⟩
        rcases hp with hp | hp | hp
        · exact .inl ((hm t ht).due hp)
        · rcases (hm t ht).yielded hp (hstate t ht (by simp [hph])) with hy | hy
          · exact .inr (.inl hy)
          · exact .inl hy
        · exact .inr (.inr ((hm t ht).stack hp))
    | parked =>
      obtain ⟨ha, t, ht, hr⟩ := (placed_parked hph).mp hp
      rw [placed_parked (hl.phase.trans hph), hl.task]
      exact ⟨mt hl.absent.mp ha, t, ht, hrouse t ht (by simp [hph]) hr⟩
    | polling =>
      obtain ⟨t, ht, hr, hp⟩ := (placed_polling hph).mp hp
      rw [placed_polling (hl.phase.trans hph), hl.task, hl.stream]
      refine ⟨t, ht, hrouse t ht (by simp [hph]) hr, ?_⟩
      rcases hp with hp | ⟨ha, hp⟩
      · exact .inl ((hm t ht).stack hp)
      · refine .inr ⟨mt hl.absent.mp ha, ?_⟩
        rcases hp with hp | hp
        · exact .inl ((hm t ht).due hp)
        · exact (hm t ht).waker (hstate t ht (by simp [hph])) hp
    | ended => exact placed_ended (hl.phase.trans hph)

theorem Attentive.drives (h : m.Attentive) (hd : m.world.Drives d t x) :
    m.world.schedule.job? t = some (.driver d) :=
  (h.driven d x hd.1).job t hd.2

theorem mem_underway_of_mem_stack (h : Frame.task t ∈ m.stack) : t ∈ m.underway :=
  List.mem_append_right _ (List.mem_filterMap.mpr ⟨_, h, rfl⟩)

theorem underway_eq {rest : List Frame} (hrun : ∀ t, m.control ≠ .calling (.run t))
    (hs : Atop rest m.stack) : m.underway = rest.filterMap Frame.task? := by
  rw [underway, Control.starting_eq_nil hrun, List.nil_append, hs.filterMap_task?]

theorem mem_stack_of_mem_filterMap {rest : List Frame} (h : t ∈ rest.filterMap Frame.task?) :
    Frame.task t ∈ rest := by
  obtain ⟨f, hf, hft⟩ := List.mem_filterMap.mp h
  cases f with
  | task u =>
    obtain rfl : u = t := by simpa [Frame.task?] using hft
    exact hf
  | _ => simp [Frame.task?] at hft

theorem Attentive.not_ended_of_mem_underway (h : m.Attentive) (ht : t ∈ m.underway) :
    m.world.schedule.state t ≠ .ended := by
  have hs := (h.coherent.underway t).mp ht
  intro he
  simp [he] at hs

theorem Attentive.waker_own (h : m.Attentive) (hx : m.world.drivers[d]? = some x) {s : Stream}
    (hs : m.world.streams[x.stream]? = some s) (hw : s.waker = some t) :
    s.items = [] ∧ s.closed = false ∧ m.world.lastPoll x.stream = some .pending ∧
      x.task = some t ∧
      (x.driver.phase = .ended ∨ x.driver.phase = .polling ∧ x.driver.waiter ≠ .absent) := by
  obtain ⟨hi, hc, hlast, e, y, hy, hys, hp⟩ := h.streamed.waker _ s t hs hw
  have he := h.streamed.own e d y x hy.1 hx hys
  subst he
  obtain rfl := hy.state_eq hx
  exact ⟨hi, hc, hlast, hy.2, hp⟩

theorem Attentive.waker_none (h : m.Attentive) (hx : m.world.drivers[d]? = some x)
    (hp : x.driver.phase = .polling → x.driver.waiter = .absent) (he : x.driver.phase ≠ .ended) :
    m.world.waker x.stream = none := by
  apply Option.eq_none_iff_forall_ne_some.mpr
  intro u hu
  obtain ⟨s, hs, hw⟩ := World.waker_eq_some.mp hu
  obtain ⟨-, -, -, -, hph | hph⟩ := h.waker_own hx hs hw
  · exact he hph
  · exact hph.2 (hp hph.1)

end Machine
end Sluice
