import Sluice.Proofs.Machine.Panics

/-!
# Errands of drivers

A driver's errands are the polls of its stream and the deliveries and completions
that it makes. What one move of a machine can do to a driver is said here once: a
driver that is cancelled takes up no errand, and one that has ended has let go of
its stream, or is about to.
-/

namespace Sluice

namespace Driver

variable {ρ : Type} {s t : Driver ρ} {mv : Move (Out ρ) (Frame ρ)}

def Heeds (s t : Driver ρ) (mv : Move (Out ρ) (Frame ρ)) : Prop :=
  s.cancelled = true → t.cancelled = true ∧ ∃ r, mv = .answer r

theorem finish_heeds (s : Driver ρ) : s.Heeds s.finish.1 s.finish.2 := fun hc => ⟨hc, _, rfl⟩

theorem seek_cancelled (hc : s.cancelled = true) :
    s.seek.1.cancelled = true ∧ s.seek.2 = .answer (.pause .ended) := by
  rw [seek, if_pos hc]
  exact ⟨hc, rfl⟩

theorem onRequest_heeds (s : Driver ρ) (d : Demand) :
    s.Heeds (s.onRequest d).1 (s.onRequest d).2 := by
  intro hc
  rw [onRequest, if_pos (by simp [hc])]
  exact ⟨hc, _, rfl⟩

theorem onCancel_heeds (s : Driver ρ) : s.Heeds s.onCancel.1 s.onCancel.2 := by
  intro hc
  rw [onCancel, if_pos hc]
  exact ⟨hc, _, rfl⟩

theorem onRun_cancelled (h : s.Ok) (hu : s.phase ≠ .unstarted)
    (hw : s.phase = .parked ∨ s.phase = .polling → s.waiter ≠ .absent) (hc : s.cancelled = true) :
    s.onRun.1.cancelled = true ∧ s.onRun.2 = .answer (.pause .ended) := by
  -- Whoever waits was not cancelled when it began to, so a cancellation since has notified it.
  have hreg : s.waiter ≠ .registered := by
    intro hr
    simp [(h.patient hr).1] at hc
  unfold onRun
  cases hp : s.phase with
  | unstarted => exact absurd hp hu
  | ended => exact ⟨hc, rfl⟩
  | seeking => exact seek_cancelled hc
  | parked =>
    simp only
    cases hw' : s.wakeup.consume? with
    | some w => exact seek_cancelled hc
    | none => exact absurd (consume?_eq_none hw' (hw (.inl hp))) hreg
  | polling =>
    simp only
    cases hw' : s.wakeup.consume? with
    | some w =>
      simp only [if_pos hc]
      exact ⟨hc, rfl⟩
    | none => exact absurd (consume?_eq_none hw' (hw (.inr hp))) hreg

theorem onRun_heeds (h : s.Ok) (hu : s.phase ≠ .unstarted)
    (hw : s.phase = .parked ∨ s.phase = .polling → s.waiter ≠ .absent) :
    s.Heeds s.onRun.1 s.onRun.2 := by
  intro hc
  obtain ⟨hc', hmv⟩ := onRun_cancelled h hu hw hc
  exact ⟨hc', _, hmv⟩

theorem onPolled_heeds (s : Driver ρ) (p : Poll) :
    s.Heeds (s.onPolled p).1 (s.onPolled p).2 := by
  intro hc
  cases p with
  | pending => exact ⟨hc, _, rfl⟩
  | value v =>
    simp only [onPolled, hc]
    exact ⟨rfl, _, rfl⟩
  | failure e =>
    simp only [onPolled, hc]
    exact ⟨rfl, _, rfl⟩
  | closed =>
    simp only [onPolled, hc]
    exact ⟨rfl, _, rfl⟩

theorem onDelivered_heeds (s : Driver ρ) (d : Demand) :
    s.Heeds (s.onDelivered d).1 (s.onDelivered d).2 := by
  intro hc
  simp only [onDelivered]
  split
  · exact ⟨hc, _, rfl⟩
  · have hseek := seek_cancelled
      (s := { s with demand := s.demand + d, delivered := s.delivered + 1 }) hc
    exact ⟨hseek.1, _, hseek.2⟩

theorem onOpened_heeds (s : Driver ρ) : s.Heeds s.onOpened.1 s.onOpened.2 := by
  intro hc
  rw [onOpened, if_pos hc]
  exact ⟨hc, _, rfl⟩

theorem proceed_heeds (s : Driver ρ) (r : Reply) (f : Frame ρ) :
    s.Heeds (s.proceed r f).1 (s.proceed r f).2 := by
  cases f with
  | opening dest => exact onOpened_heeds s
  | passing => exact fun hc => ⟨hc, _, rfl⟩
  | polling => exact onPolled_heeds s r.polled
  | delivering => exact onDelivered_heeds s r.granted
  | concluding => exact finish_heeds s

theorem Stepped.of_ended (h : t.Stepped mv) (he : t.phase = .ended) :
    mv = .answer (.pause .ended) := by
  cases h with
  | ended => rfl
  | _ hp => simp [hp] at he

end Driver

namespace Frame

/-- A poll of driver `d`'s stream, or a call of its subscriber's for a value or a completion. -/
def isErrand (d : Nat) : Frame → Bool
  | .driver e .polling | .driver e .delivering | .driver e .concluding => e == d
  | _ => false

theorem isErrand_plain {f : Frame} (hf : f.Plain) (d : Nat) : f.isErrand d = false := by
  cases f with
  | driver e f =>
    cases f with
    | passing => rfl
    | _ => exact hf.elim
  | _ => rfl

theorem isErrand_ne {d e : Nat} (h : e ≠ d) (f : Driver.Frame Outlet) :
    (Frame.driver d f).isErrand e = false := by
  cases f with
  | opening dest => rfl
  | passing => rfl
  | _ => simp [isErrand, Ne.symm h]

end Frame

def errands (d : Nat) (stack : List Frame) : List Frame := stack.filter (Frame.isErrand d)

theorem errands_cons {d : Nat} {f : Frame} (hf : f.isErrand d = false) (stack : List Frame) :
    errands d (f :: stack) = errands d stack := by
  rw [errands, List.filter_cons_of_neg (by simp [hf]), errands]

theorem errands_push {d : Nat} {f : Frame} (hf : f.isErrand d = false) (stack : List Frame) :
    (errands d (f :: stack)).Sublist (errands d stack) :=
  errands_cons hf stack ▸ .refl _

theorem errands_tail (d : Nat) (f : Frame) (stack : List Frame) :
    (errands d stack).Sublist (errands d (f :: stack)) :=
  (List.sublist_cons_self f stack).filter _

theorem errands_rest {stack rest : List Frame} {f : Frame} (hs : stack = f :: rest) (d : Nat) :
    (errands d rest).Sublist (errands d stack) :=
  hs ▸ errands_tail d f rest

theorem Atop.errands_eq {rest stack : List Frame} (h : Atop rest stack) (d : Nat) :
    errands d stack = errands d rest := by
  rcases h with rfl | ⟨f, hf, rfl⟩
  · rfl
  · exact errands_cons (Frame.isErrand_plain hf d) rest

theorem Control.Plain.ne_poll {k : Control} (hk : k.Plain) (d : Nat) : k ≠ .calling (.poll d) := by
  intro heq
  subst heq
  exact hk

namespace Machine

variable {m m' : Machine} {rest : List Frame} {d t : Nat} {x x' : StreamTask}

/-- Driver `d` takes up no errand and is not given a task. -/
structure Silent (m m' : Machine) (d : Nat) : Prop where
  errands : (errands d m'.stack).Sublist (errands d m.stack)
  poll : m'.control ≠ .calling (.poll d)
  spawn : m'.control ≠ .calling (.spawn d)

def Stopping (m : Machine) (x : StreamTask) : Prop :=
  ∃ t rest, x.task = some t ∧ m.stack = .task t :: rest ∧ m.control = .answering (.pause .ended)

/-- Once it has ended, driver `x` has let go of its stream or is about to. -/
def Parted (m : Machine) (x : StreamTask) : Prop :=
  x.driver.phase = .ended → m.world.Gone x.stream ∨ m.Stopping x

/-- What one move makes of driver `d`. -/
structure Carried (m m' : Machine) (d : Nat) (x x' : StreamTask) : Prop where
  self : m'.world.drivers[d]? = some x'
  stream : x'.stream = x.stream
  task : x'.task = x.task ∨ x.task = none ∧ m.control = .calling (.spawn d)
  cancelled : x.driver.cancelled = true → x'.driver.cancelled = true ∧ Silent m m' d
  parted : m.Parted x → m'.Parted x'

structure Carries (m m' : Machine) : Prop where
  drivers : ∀ (d : Nat) x, m.world.drivers[d]? = some x → ∃ x', Carried m m' d x x'
  fresh : ∀ (d : Nat) x', m'.world.drivers[d]? = some x' → m.world.drivers[d]? = none →
    x'.driver.phase ≠ .ended
  gone : ∀ i, m.world.Gone i → m'.world.Gone i
  polls : ∀ i, m'.world.lastPoll i = m.world.lastPoll i ∨
    ∃ d t x, m.world.Drives d t x ∧ x.stream = i

theorem Carried.kept (hx' : m'.world.drivers[d]? = some x)
    (hg : ∀ i, m.world.Gone i → m'.world.Gone i) (hstop : ¬m.Stopping x) (hs : Silent m m' d) :
    Carried m m' d x x where
  self := hx'
  stream := rfl
  task := .inl rfl
  cancelled := fun hc => ⟨hc, hs⟩
  parted := fun h he => .inl (hg _ ((h he).resolve_right hstop))

theorem Carries.of_same (hdr : m'.world.drivers = m.world.drivers)
    (hg : ∀ i, m.world.Gone i → m'.world.Gone i)
    (hp : ∀ i, m'.world.lastPoll i = m.world.lastPoll i ∨
      ∃ d t x, m.world.Drives d t x ∧ x.stream = i)
    (hstop : ∀ (d : Nat) x, m.world.drivers[d]? = some x → ¬m.Stopping x)
    (hs : ∀ d, Silent m m' d) : Carries m m' where
  drivers := fun d x hx => ⟨x, .kept (hdr ▸ hx) hg (hstop d x hx) (hs d)⟩
  fresh := by
    intro d x' hx' hnone
    rw [hdr, hnone] at hx'
    simp at hx'
  gone := hg
  polls := hp

theorem Carries.of_eq (hdr : m'.world.drivers = m.world.drivers)
    (hstr : m'.world.streams = m.world.streams) (htr : m'.world.trace = m.world.trace)
    (hstop : ∀ (d : Nat) x, m.world.drivers[d]? = some x → ¬m.Stopping x)
    (hs : ∀ d, Silent m m' d) : Carries m m' := by
  apply Carries.of_same hdr _ _ hstop hs
  · intro i hi
    rwa [World.Gone, hstr]
  · intro i
    left
    rw [World.lastPoll, htr, World.lastPoll]

theorem Carries.of_world (hw : m'.world = m.world)
    (hr : ∀ d, (errands d m'.stack).Sublist (errands d m.stack)) (hstop : ∀ x, ¬m.Stopping x)
    (hp : ∀ d, m'.control ≠ .calling (.poll d)) (hc : ∀ d, m'.control ≠ .calling (.spawn d)) :
    Carries m m' :=
  .of_eq (by rw [hw]) (by rw [hw]) (by rw [hw]) (fun _ x _ => hstop x) fun d => ⟨hr d, hp d, hc d⟩

theorem Carries.of_driver (hx : m.world.drivers[d]? = some x)
    (hdr : ∀ e : Nat, m'.world.drivers[e]? = if e = d then some x' else m.world.drivers[e]?)
    (hself : m'.world.drivers[d]? = some x' → Carried m m' d x x')
    (hg : ∀ i, m.world.Gone i → m'.world.Gone i)
    (hp : ∀ i, m'.world.lastPoll i = m.world.lastPoll i)
    (hstop : ∀ (e : Nat) y, e ≠ d → m.world.drivers[e]? = some y → ¬m.Stopping y)
    (hs : ∀ e, e ≠ d → Silent m m' e) : Carries m m' where
  drivers := by
    intro e y hy
    by_cases he : e = d
    · subst he
      obtain rfl := Option.some.inj (hx.symm.trans hy)
      exact ⟨x', hself (by rw [hdr, if_pos rfl])⟩
    · exact ⟨y, .kept (by rw [hdr, if_neg he, hy]) hg (hstop e y he hy) (hs e he)⟩
  fresh := by
    intro e y hy hnone
    rw [hdr] at hy
    by_cases he : e = d
    · subst he
      simp [hx] at hnone
    · simp [he, hnone] at hy
  gone := hg
  polls := fun i => .inl (hp i)

theorem Carries.of_keeps {w : World} (hw : m.world.KeepsDrivers w)
    (h : Carries { m with world := w } m') : Carries m m' where
  drivers := by
    intro d x hx
    obtain ⟨x', hc⟩ := h.drivers d x (hw.drivers ▸ hx)
    refine ⟨x', hc.self, hc.stream, hc.task, fun hcan => ?_, fun hpart => hc.parted fun he => ?_⟩
    · obtain ⟨hcan', hs⟩ := hc.cancelled hcan
      exact ⟨hcan', hs.errands, hs.poll, hs.spawn⟩
    · exact (hpart he).imp_left (hw.gone _)
  fresh := fun d x' hx' hnone => h.fresh d x' hx' (hw.drivers ▸ hnone)
  gone := fun i hi => h.gone i (hw.gone i hi)
  polls := by
    intro i
    rcases h.polls i with hp | ⟨d, t, x, ⟨hx, ht⟩, hi⟩
    · exact .inl (hp.trans (hw.polls i))
    · exact .inr ⟨d, t, x, ⟨hw.drivers ▸ hx, ht⟩, hi⟩

theorem KeepsDrivers.carries (hn : KeepsDrivers rest m.world m')
    (hr : ∀ d, (errands d rest).Sublist (errands d m.stack)) (hstop : ∀ x, ¬m.Stopping x) :
    Carries m m' := by
  refine .of_same hn.keeps.drivers hn.keeps.gone (fun i => .inl (hn.keeps.polls i))
    (fun _ x _ => hstop x) fun d => ⟨?_, hn.control.ne_poll d, hn.control.ne_spawn d⟩
  have htop : Atop rest m'.stack := hn.stack
  rw [htop.errands_eq]
  exact hr d

section Sections

variable {s : Driver Outlet} {mv : Move (Driver.Out Outlet) (Driver.Frame Outlet)}

theorem driverSection_silent {e : Nat} (he : e ≠ d)
    (hr : (errands e rest).Sublist (errands e m.stack)) :
    Silent m (driverSection { m with stack := rest } d (s, mv)) e := by
  cases mv with
  | answer r => exact ⟨hr, by simp [driverSection, move], by simp [driverSection, move]⟩
  | call o f =>
    refine ⟨?_, ?_, ?_⟩
    · change (errands e (.driver d f :: rest)).Sublist _
      rwa [errands_cons (Frame.isErrand_ne he f)]
    · cases o <;> simp [driverSection, move, driverCall, handOver, Ne.symm he]
    · cases o <;> simp [driverSection, move, driverCall, handOver, Ne.symm he]

theorem section_carries (hx : m.world.drivers[d]? = some x)
    (hr : ∀ e, (errands e rest).Sublist (errands e m.stack)) (hstop : ∀ y, ¬m.Stopping y)
    (hh : x.driver.Heeds s mv)
    (hend : s.phase = .ended → x.driver.phase = .ended ∨
      (driverSection { m with stack := rest } d (s, mv)).Stopping { x with driver := s }) :
    Carries m (driverSection { m with stack := rest } d (s, mv)) := by
  have hworld := driverSection_world { m with stack := rest } d (s, mv)
  have hg (i : Nat) (hi : m.world.Gone i) :
      (driverSection { m with stack := rest } d (s, mv)).world.Gone i := by
    rw [hworld]
    exact hi
  have hdr := World.drivers_setDriver hx s
  rw [← hworld] at hdr
  refine .of_driver hx hdr (fun hself => ?_) hg ?_ (fun _ y _ _ => hstop y)
    fun e he => driverSection_silent he (hr e)
  · refine ⟨hself, rfl, .inl rfl, fun hc => ?_, fun hpart he => ?_⟩
    · obtain ⟨hc', r, rfl⟩ := hh hc
      exact ⟨hc', hr d, by simp [driverSection, move], by simp [driverSection, move]⟩
    · rcases hend he with hp | hst
      · exact .inl (hg _ ((hpart hp).resolve_right (hstop x)))
      · exact .inr hst
  · intro i
    rw [hworld]
    rfl

theorem stepped_carries (hd : m.world.Drives d t x)
    (hr : ∀ e, (errands e (.task t :: rest)).Sublist (errands e m.stack))
    (hstop : ∀ y, ¬m.Stopping y) (hs : s.Stepped mv) (hh : x.driver.Heeds s mv) :
    Carries m (driverSection { m with stack := .task t :: rest } d (s, mv)) := by
  refine section_carries hd.1 hr hstop hh fun he => .inr ?_
  obtain rfl := hs.of_ended he
  exact ⟨t, rest, hd.2, rfl, rfl⟩

end Sections

theorem stopped_carries {sch : Schedule} (hx : m.world.drivers[d]? = some x)
    (hlt : x.stream < m.world.streams.size)
    (hw : m'.world = (World.setDriver { m.world with schedule := sch } d
      x.driver.stop).dropStream x.stream)
    (hstop : ∀ (e : Nat) y, e ≠ d → m.world.drivers[e]? = some y → ¬m.Stopping y)
    (hs : ∀ e, Silent m m' e) : Carries m m' := by
  have hk := World.KeepsDrivers.dropStream
    (World.setDriver { m.world with schedule := sch } d x.driver.stop) x.stream
  rw [← hw] at hk
  have hgone : m'.world.Gone x.stream := hw ▸ World.gone_dropStream hlt
  have hdr (e : Nat) : m'.world.drivers[e]? =
      if e = d then some { x with driver := x.driver.stop } else m.world.drivers[e]? := by
    rw [hk.drivers]
    exact World.drivers_setDriver (w := { m.world with schedule := sch }) hx x.driver.stop e
  refine .of_driver hx hdr (fun hself => ?_) hk.gone hk.polls hstop fun e _ => hs e
  exact ⟨hself, rfl, .inl rfl, fun hc => ⟨hc, hs d⟩, fun _ _ => .inl hgone⟩

end Machine
end Sluice
