import Sluice.Proofs.Machine.Errands

/-!
# Every move carries the drivers

Each kind of move is looked at in turn: entering a call, leaving one, a panic on its
way through the stack, and what the environment does.
-/

namespace Sluice
namespace Machine

variable {m m' m₀ : Machine} {rest : List Frame} {d t : Nat} {x : StreamTask} {r : Reply}
  {why : Panic}

theorem not_stopping_calling {c : Call} (hc : m.control = .calling c) (x : StreamTask) :
    ¬m.Stopping x := by
  simp [Stopping, hc]

theorem not_stopping_unwinding (hc : m.control = .unwinding why) (x : StreamTask) :
    ¬m.Stopping x := by
  simp [Stopping, hc]

theorem not_stopping_idle (hi : m.Idle) (x : StreamTask) : ¬m.Stopping x := by
  obtain ⟨o, ho⟩ := hi
  simp [Stopping, ho]

theorem not_stopping_top {f : Frame} (hs : m.stack = f :: rest) (hf : ∀ t, f ≠ .task t)
    (x : StreamTask) : ¬m.Stopping x := by
  intro hst
  obtain ⟨t, rest', -, hs', -⟩ := hst
  obtain ⟨rfl, -⟩ := List.cons.inj (hs.symm.trans hs')
  exact hf t rfl

theorem turn_carries (hr : ∀ d, (errands d rest).Sublist (errands d m.stack))
    (hstop : ∀ x, ¬m.Stopping x) : Carries m (turn { m with stack := rest }) := by
  unfold Machine.turn
  simp only
  split
  · rename_i u s hstart
    exact .of_eq rfl rfl rfl (fun _ x _ => hstop x) fun d => ⟨hr d, by simp [call], by simp [call]⟩
  · have hk : m.world.KeepsDrivers { m.world with schedule := m.world.schedule.wakeYielded } :=
      .reschedule (.wakeYielded _) fun _ hco => hco.wakeYielded
    have hn : KeepsDrivers rest m.world
      ⟨{ m.world with schedule := m.world.schedule.wakeYielded }, rest, .answering .done⟩ :=
      ⟨hk, .inl rfl, trivial⟩
    exact hn.carries hr hstop

theorem tapped_carries {input : Driver.In Outlet} (h : m.Attentive) (hstop : ∀ x, ¬m.Stopping x)
    (hin : ∀ s : Driver Outlet, s.Ok → s.Nudged (s.enter input).1 (s.enter input).2 ∧
      s.Heeds (s.enter input).1 (s.enter input).2) : Carries m (m.enterDriver d input) := by
  unfold enterDriver
  split
  · rename_i x hx
    obtain ⟨hn, hh⟩ := hin x.driver (h.driven d x hx).ok
    exact section_carries hx (fun _ => .refl _) hstop hh fun he => .inl (hn.phase ▸ he)
  · exact (answer_keepsDrivers m _).carries (fun _ => .refl _) hstop

theorem cancel_carries {link : Link} (h : m.Attentive) (hstop : ∀ x, ¬m.Stopping x) :
    Carries m (m.cancelTap link.tap) := by
  cases link.tap with
  | driver i =>
    exact tapped_carries h hstop fun s hs => ⟨(Driver.onCancel_nudged hs).1, s.onCancel_heeds⟩
  | _ => exact ((cancelTap_effect m _).keepsDrivers (by trivial)).carries (fun _ => .refl _) hstop

theorem requestTap_carries (h : m.Attentive) (hstop : ∀ x, ¬m.Stopping x) (dem : Demand)
    (tap : Tap) : Carries m (m.requestTap dem tap) := by
  cases tap with
  | driver i =>
    exact tapped_carries h hstop fun s hs =>
      ⟨(Driver.onRequest_nudged hs dem).1, s.onRequest_heeds dem⟩
  | _ =>
    exact ((requestTap_effect m dem _).keepsDrivers (by trivial)).carries (fun _ => .refl _) hstop

theorem request_carries {link : Link} {dem : Demand} (h : m.Attentive)
    (hc : m.control = .calling (.request link dem)) : Carries m (m.request link dem) := by
  have hstop := not_stopping_calling hc
  have hk := World.KeepsDrivers.audit m.world dem link.audits
  unfold Machine.request
  split
  · rename_i w v hw
    rw [hw] at hk
    have hn : KeepsDrivers m.stack m.world
      { m with world := w, control := .unwinding (.violation v) } :=
      ⟨hk, .inl rfl, trivial⟩
    exact hn.carries (fun _ => .refl _) hstop
  · rename_i w hw
    rw [hw] at hk
    -- The audit comes before the request, and may itself have changed the world.
    have h₀ := h.change hk (hc ▸ trivial) (h.topped.open_calling hc (by simp))
    exact .of_keeps hk (requestTap_carries h₀ hstop dem link.tap)

theorem Probed.carries {s s' : Stream} {p : Poll} (hm : Probed m m' x s' p)
    (hd : m.world.Drives d t x) (hc : m.control = .calling (.poll d))
    (hs : m.world.streams[x.stream]? = some s) (hkept : s.dropped = true → s'.dropped = true) :
    Carries m m' := by
  refine .of_same hm.drivers ?_ ?_ (fun _ x _ => not_stopping_calling hc x) fun e => ⟨?_, ?_, ?_⟩
  · intro i hg
    obtain ⟨v, hv, hvd⟩ := hg
    by_cases hi : i = x.stream
    · subst hi
      obtain rfl := Option.some.inj (hs.symm.trans hv)
      exact ⟨s', hm.self, hkept hvd⟩
    · exact ⟨v, (hm.other i hi).trans hv, hvd⟩
  · intro i
    by_cases hi : i = x.stream
    · exact .inr ⟨d, t, x, hd, hi.symm⟩
    · exact .inl (hm.polls i hi)
  · rw [hm.stack]
    exact errands_push rfl _
  · simp [hm.control]
  · simp [hm.control]

theorem poll_carries (h : m.Attentive) (hc : m.control = .calling (.poll d)) :
    Carries m (m.poll d) := by
  obtain ⟨t, x, rest, hs, ho, -⟩ := h.onTask_of_poll hc
  have hstr := Array.getElem?_eq_getElem (h.driven d x ho.drives.1).range
  refine (poll_probed ho.drives.1 hstr).carries ho.drives hc hstr fun hd => ?_
  rw [Stream.poll_dropped]
  exact hd

theorem Spawned.carries (hs : Spawned m m' d x) (hx : m.world.drivers[d]? = some x)
    (hc : m.control = .calling (.spawn d)) (htask : x.task = none) : Carries m m' := by
  have hg (i : Nat) (hi : m.world.Gone i) : m'.world.Gone i := by rwa [World.Gone, hs.streams]
  have hstop := not_stopping_calling hc
  have hsil (e : Nat) : Silent m m' e := by
    refine ⟨?_, by simp [hs.control], by simp [hs.control]⟩
    exact hs.stack ▸ .refl _
  have hdr (e : Nat) : m'.world.drivers[e]? = if e = d then
      some { x with task := some m.world.schedule.tasks.size } else m.world.drivers[e]? := by
    by_cases he : e = d
    · rw [if_pos he, he, hs.self]
    · rw [if_neg he, hs.other e he]
  refine .of_driver hx hdr (fun hself => ?_) hg hs.polls (fun _ y _ _ => hstop y) fun e _ => hsil e
  refine ⟨hself, rfl, .inr ⟨htask, hc⟩, fun hcan => ⟨hcan, hsil d⟩, fun hpart he => ?_⟩
  exact .inl (hg _ ((hpart he).resolve_right (hstop x)))

theorem Made.carries {dest : Outlet} {source : Source} {i : Nat} (hm : Made m m' x dest)
    (hc : m.control = .calling (.subscribe source i)) (hp : x.driver.phase = .unstarted) :
    Carries m m' where
  drivers := by
    intro e y hy
    refine ⟨y, .kept (hm.old hy) ?_ (not_stopping_calling hc y) ⟨?_, ?_, ?_⟩⟩
    · exact fun i hi => by rwa [World.Gone, hm.streams]
    · rw [hm.stack]
      exact errands_push rfl _
    · simp [hm.control, handOver]
    · simp [hm.control, handOver]
  fresh := by
    intro e y hy hnone
    rcases hm.cases hy with ⟨-, rfl⟩ | hold
    · simp [hp]
    · simp [hnone] at hold
  gone := fun i hi => by rwa [World.Gone, hm.streams]
  polls := fun i => .inl (hm.polls i)

theorem run_carries (h : m.Attentive) (hc : m.control = .calling (.run t)) :
    Carries m (m.run t) := by
  have hstop := not_stopping_calling hc
  unfold Machine.run
  split
  · rename_i task htask
    cases hj : task.job with
    | driver d =>
      have hjob : m.world.schedule.job? t = some (.driver d) := by
        rw [Schedule.job?, htask, Option.map_some, hj]
      obtain ⟨x, hd⟩ := h.driver t d hjob
      obtain ⟨hst, hwait⟩ := h.ready hc hd
      have hok := (h.driven d x hd.1).ok
      simp only [enterDriver, hd.1]
      exact stepped_carries hd (fun e => errands_push rfl m.stack) hstop
        (Driver.onRun_stepped hok hst hwait).1 (Driver.onRun_heeds hok hst hwait)
    | ticker i =>
      have he := enterTicker_effect { m with stack := .task t :: m.stack } i
        (.run m.world.schedule.now)
      exact KeepsDrivers.carries (m := m) (he.keepsDrivers trivial)
        (fun d => errands_push rfl m.stack) hstop
  · exact (answer_keepsDrivers m _).carries (fun _ => .refl _) hstop

theorem subscribe_carries {source : Source} {i : Nat}
    (hc : m.control = .calling (.subscribe source i)) : Carries m (m.subscribe source i) := by
  cases hj : source.origin with
  | stream j pace =>
    exact (subscribe_made m i hj).carries hc rfl
  | _ =>
    refine (subscribe_keepsDrivers m ?_).carries (fun _ => .refl _) (not_stopping_calling hc)
    simp [Call.Plain, hj]

theorem enter_carries {c : Call} (h : m.Attentive) (hc : m.control = .calling c) :
    Carries m (m.enter c) := by
  have hstop := not_stopping_calling hc
  by_cases hp : c.Plain
  · -- Turns start tasks, and requests and cancellations reach drivers; other plain calls do not.
    by_cases ht : c = .turn
    · subst ht
      exact turn_carries (fun _ => .refl _) hstop
    · by_cases hk : ∃ link, c = .cancel link
      · obtain ⟨link, rfl⟩ := hk
        exact cancel_carries h hstop
      · by_cases hr : ∃ link dem, c = .request link dem
        · obtain ⟨link, dem, rfl⟩ := hr
          exact request_carries h hc
        · have hn := enter_keepsDrivers m hp (fun link dem he => hr ⟨link, dem, he⟩)
            (fun link he => hk ⟨link, he⟩) ht
          exact hn.carries (fun _ => .refl _) hstop
  · cases c with
    | poll d => exact poll_carries h hc
    | spawn d =>
      obtain ⟨-, x, hx, htask, -⟩ := (topped_spawn hc).mp h.topped
      exact (spawn_spawned hx).carries hx hc htask
    | wakeDriver d =>
      exact ((wakeTask_effect m _).keepsDrivers trivial).carries (fun _ => .refl _) hstop
    | run t => exact run_carries h hc
    | subscribe source i => exact subscribe_carries hc
    | attach source i =>
      exact .of_world rfl (fun _ => .refl _) hstop (by simp [enter, call]) (by simp [enter, call])
    | _ => exact absurd trivial hp

theorem opening_carries {dest : Outlet} (h : m.Attentive)
    (hs : m.stack = .driver d (.opening dest) :: rest) :
    Carries m (proceedDriver { m with stack := rest } d (.opening dest) r) := by
  have hstop := not_stopping_top hs (by simp)
  have hl := h.linked
  rw [hs] at hl
  obtain ⟨⟨-, ⟨x, hx, -⟩, -⟩, -⟩ := hl
  simp only [proceedDriver, hx]
  by_cases hcan : x.driver.cancelled = true
  · rw [Driver.proceed, Driver.onOpened, if_pos hcan, hcan]
    refine stopped_carries hx (h.driven d x hx).range rfl (fun _ y _ _ => hstop y) fun e =>
      ⟨errands_rest hs e, ?_, ?_⟩
    · simp [driverSection, move]
    · simp [driverSection, move]
  · have hlive : x.driver.proceed r (.opening dest) =
        ({ x.driver with phase := .seeking }, .call .spawn .passing) := by
      rw [Driver.proceed, Driver.onOpened, if_neg hcan]
    have hh := Driver.onOpened_heeds x.driver
    rw [Driver.onOpened, if_neg hcan] at hh
    have hcarries : Carries m (driverSection { m with stack := rest } d _) :=
      section_carries hx (errands_rest hs) hstop hh (by simp)
    simpa only [hlive, hcan] using hcarries

theorem driver_carries {f : Driver.Frame Outlet} (h : m.Attentive) (hc : m.control = .answering r)
    (hs : m.stack = .driver d f :: rest) :
    Carries m (proceedDriver { m with stack := rest } d f r) := by
  have hl := h.linked
  have htop := (topped_answering hc).mp h.topped
  have hstop := not_stopping_top hs (by simp)
  rw [hs] at hl htop
  cases f with
  | passing =>
    have hn := proceed_keepsDrivers (f := .driver d .passing) { m with stack := rest } r trivial
      (by simp)
    exact KeepsDrivers.carries (m := m) hn (errands_rest hs) hstop
  | polling =>
    obtain ⟨p, rfl, y, u, hy, hcond⟩ := htop
    obtain ⟨t, x, rest', rfl, ho, hp, hw⟩ := h.onTask_of_frame (hc ▸ trivial) hs hl.1
    simp only [proceedDriver, ho.drives.1]
    by_cases hpend : p = .pending
    · -- A poll that found nothing leaves the driver waiting, which is no end of its task.
      subst hpend
      refine section_carries ho.drives.1 (errands_rest hs) hstop
        (Driver.onPolled_heeds x.driver .pending) ?_
      exact fun he => .inl he
    · exact stepped_carries ho.drives (errands_rest hs) hstop (Driver.onPolled_stepped hpend hp).1
        (Driver.onPolled_heeds _ _)
  | delivering =>
    obtain ⟨t, x, rest', rfl, ho, hp, hw⟩ := h.onTask_of_frame (hc ▸ trivial) hs hl.1
    simp only [proceedDriver, ho.drives.1]
    exact stepped_carries ho.drives (errands_rest hs) hstop
      (Driver.onDelivered_stepped (by simpa using hw) _).1 (Driver.onDelivered_heeds _ _)
  | concluding =>
    obtain ⟨t, x, rest', rfl, ho, -⟩ := h.onTask_of_frame (hc ▸ trivial) hs hl.1
    simp only [proceedDriver, ho.drives.1]
    exact stepped_carries ho.drives (errands_rest hs) hstop (Driver.finish_stepped _).1
      (Driver.finish_heeds _)
  | opening dest => exact opening_carries h hs

theorem task_of_stopping (hst : m.Stopping x) (hs : m.stack = .task t :: rest) :
    x.task = some t ∧ m.control = .answering (.pause .ended) := by
  obtain ⟨u, rest', hu, hs', hc⟩ := hst
  obtain ⟨hut, -⟩ := List.cons.inj (hs.symm.trans hs')
  obtain rfl := Frame.task.inj hut
  exact ⟨hu, hc⟩

theorem endTask_carries (hx : m.world.drivers[d]? = some x)
    (hj : m.world.schedule.job? t = some (.driver d)) (hlt : x.stream < m.world.streams.size)
    (hs : m.stack = .task t :: rest)
    (hstop : ∀ (e : Nat) y, e ≠ d → m.world.drivers[e]? = some y → ¬m.Stopping y) :
    Carries m ⟨endTask m.world t, rest, .answering .done⟩ :=
  stopped_carries hx hlt (endTask_driver hj hx) hstop fun e =>
    ⟨errands_rest hs e, by simp, by simp⟩

theorem stop_other_carries {p : Pause} (h : m.Attentive) (hs : m.stack = .task t :: rest)
    (hj : ∀ d, m.world.schedule.job? t ≠ some (.driver d)) :
    Carries m (stopTask { m with stack := rest } t p) := by
  obtain ⟨hdr, hstr, htr, -⟩ := stopTask_other (m := { m with stack := rest }) hj p
  refine .of_eq hdr hstr htr ?_ fun d =>
    ⟨errands_rest hs d, by simp [stopTask], by simp [stopTask]⟩
  intro d x hx hst
  obtain ⟨ht, -⟩ := task_of_stopping hst hs
  exact hj d (h.drives ⟨hx, ht⟩)

theorem stop_carries (h : m.Attentive) (hc : m.control = .answering r)
    (hs : m.stack = .task t :: rest) :
    Carries m (stopTask { m with stack := rest } t r.paused) := by
  by_cases hj : ∃ d, m.world.schedule.job? t = some (.driver d)
  · obtain ⟨d, hjob⟩ := hj
    obtain ⟨x, hd⟩ := h.driver t d hjob
    have htop := (topped_answering hc).mp h.topped
    rw [hs] at htop
    obtain ⟨p, rfl, -⟩ := htop d x hd
    by_cases hp : p = .ended
    · subst hp
      refine endTask_carries hd.1 hjob (h.driven d x hd.1).range hs fun e y he hy hst => ?_
      -- A task has one job, so no other driver is stopped with it.
      have hother := h.drives ⟨hy, (task_of_stopping hst hs).1⟩
      exact he (by simpa using hother.symm.trans hjob)
    · have hstop (y : StreamTask) : ¬m.Stopping y := by
        intro hst
        have hend := (task_of_stopping hst hs).2
        exact hp (by simpa [hc] using hend)
      have hw : (stopTask { m with stack := rest } t p).world =
          { m.world with schedule := m.world.schedule.stop t p } := by
        cases p with
        | ended => exact absurd rfl hp
        | _ => rfl
      rw [Reply.paused]
      exact .of_eq (by rw [hw]) (by rw [hw]) (by rw [hw]) (fun _ y _ => hstop y) fun e =>
        ⟨errands_rest hs e, by simp [stopTask], by simp [stopTask]⟩
  · exact stop_other_carries h hs (not_exists.mp hj)

theorem proceed_carries {f : Frame} (h : m.Attentive) (hc : m.control = .answering r)
    (hs : m.stack = f :: rest) : Carries m (proceed { m with stack := rest } r f) := by
  by_cases ht : ∃ t, f = .task t
  · obtain ⟨t, rfl⟩ := ht
    exact stop_carries h hc hs
  · have hstop := not_stopping_top hs (not_exists.mp ht)
    by_cases hf : f.Plain
    · by_cases hturn : f = .turning
      · subst hturn
        exact turn_carries (errands_rest hs) hstop
      · have hn := proceed_keepsDrivers { m with stack := rest } r hf hturn
        exact KeepsDrivers.carries (m := m) hn (errands_rest hs) hstop
    · cases f with
      | task t => exact absurd ⟨t, rfl⟩ ht
      | polling p =>
        exact .of_world rfl (errands_rest hs) hstop (by simp [proceed, answer])
          (by simp [proceed, answer])
      | driver d f => exact driver_carries h hc hs
      | _ => exact absurd trivial hf

theorem unwound_carries {f : Frame} (h : m.Attentive) (hc : m.control = .unwinding why)
    (hs : m.stack = f :: rest) : Carries m (unwound { m with stack := rest } why f) := by
  have hstop := not_stopping_unwinding hc
  have ho := h.topped.open_unwinding hc
  have hl := h.linked
  rw [hs] at ho hl
  have hpop {m' : Machine} (hm : m' = ⟨m.world, rest, .unwinding why⟩) : Carries m m' := by
    subst hm
    exact .of_world rfl (errands_rest hs) hstop (by simp) (by simp)
  by_cases hf : f.Plain
  · by_cases hn : ∃ i n, f = .handle i n
    · obtain ⟨i, n, rfl⟩ := hn
      simp only [unwound]
      split
      · have hpush (e : Nat) : (errands e (.closing i :: .rethrow why :: rest)).Sublist
            (errands e m.stack) :=
          ((errands_push rfl _).trans (errands_push rfl rest)).trans (errands_rest hs e)
        exact .of_world rfl hpush hstop (by simp [call]) (by simp [call])
      · exact hpop rfl
    · have hn := unwound_keepsDrivers { m with stack := rest } why hf fun i n hi => hn ⟨i, n, hi⟩
      exact KeepsDrivers.carries (m := m) hn (errands_rest hs) hstop
  · cases f with
    | polling p => exact hpop rfl
    | task t =>
      exact stop_other_carries (p := .ended) h hs ho
    | driver d f =>
      cases f with
      | opening dest =>
        obtain ⟨⟨-, ⟨x, hx, -⟩, -⟩, -⟩ := hl
        simp only [unwound, hx]
        exact stopped_carries hx (h.driven d x hx).range rfl (fun _ y _ _ => hstop y) fun e =>
          ⟨errands_rest hs e, by simp, by simp⟩
      | passing => exact absurd trivial hf
      | _ => exact hpop rfl
    | _ => exact absurd trivial hf

theorem Falls.carries (h : Falls m₀ m d t x rest) : Carries m m.step := by
  obtain ⟨why, hc⟩ := h.control
  have hstop := not_stopping_unwinding hc
  have hd := h.onTask.drives
  have hj := h.attentive.drives hd
  have hlt := (h.attentive.driven d x hd.1).range
  rw [← h.world] at hd hj hlt
  rcases h.step with ⟨hs, hstep⟩ | ⟨hs, hstep⟩
  · rw [hstep]
    exact endTask_carries hd.1 hj hlt hs fun _ y _ _ => hstop y
  · rw [hstep]
    exact .of_world rfl (errands_rest hs) hstop (by simp [hc]) (by simp [hc])

theorem Attentive.step_carries (h : m.Attentive) : Carries m m.step := by
  unfold Machine.step
  cases hc : m.control with
  | calling c => exact enter_carries h hc
  | answering r =>
    cases hs : m.stack with
    | nil =>
      have hstop (x : StreamTask) : ¬m.Stopping x := by simp [Stopping, hs]
      exact .of_world rfl (fun _ => List.nil_sublist _) hstop (by simp) (by simp)
    | cons f rest => exact proceed_carries h hc hs
  | unwinding why =>
    cases hs : m.stack with
    | nil =>
      exact .of_world rfl (fun _ => List.nil_sublist _) (not_stopping_unwinding hc) (by simp)
        (by simp)
    | cons f rest => exact unwound_carries h hc hs
  | idle o =>
    exact .of_world rfl (fun _ => .refl _) (not_stopping_idle ⟨o, hc⟩) (by simp [hc]) (by simp [hc])
  | stuck =>
    exact .of_world rfl (fun _ => .refl _) (by simp [Stopping, hc]) (by simp [hc]) (by simp [hc])

theorem invoke_carries {c : Call} (hi : m.Idle) (hc : c.Public m.world) :
    Carries m (m.invoke c) := by
  refine .of_world rfl (fun _ => .refl _) (not_stopping_idle hi) ?_ ?_
  · intro d heq
    obtain rfl : c = .poll d := by simpa [invoke] using heq
    exact hc
  · intro d heq
    obtain rfl : c = .spawn d := by simpa [invoke] using heq
    exact hc

theorem Attentive.carries (h : m.Attentive) (hn : m.Next m') : Carries m m' := by
  have hkeep {w : World} (hi : m.Idle) (hw : m.world.KeepsDrivers w) (k : Control) (hk : k.Plain) :
      Carries m ⟨w, m.stack, k⟩ := by
    have hn : KeepsDrivers m.stack m.world ⟨w, m.stack, k⟩ := ⟨hw, .inl rfl, hk⟩
    exact hn.carries (fun _ => .refl _) (not_stopping_idle hi)
  cases hn with
  | step => exact h.step_carries
  | attend hi => exact hkeep hi (.refl _) _ trivial
  | invoke hi hc => exact invoke_carries hi hc
  | begin hi ht =>
    exact .of_eq rfl rfl rfl (fun _ y _ => not_stopping_idle hi y) fun d =>
      ⟨.refl _, by simp [Machine.begin], by simp [Machine.begin]⟩
  | reply hi r =>
    unfold Machine.reply
    split
    · rename_i q rest' hs
      exact .of_world rfl (errands_rest hs) (not_stopping_idle hi) (by simp) (by simp)
    · obtain ⟨o, ho⟩ := hi
      exact hkeep ⟨o, ho⟩ (.refl _) _ (ho ▸ trivial)
  | raise hi why =>
    unfold Machine.raise
    split
    · rename_i q rest' hs
      exact .of_world rfl (errands_rest hs) (not_stopping_idle hi) (by simp) (by simp)
    · obtain ⟨o, ho⟩ := hi
      exact hkeep ⟨o, ho⟩ (.refl _) _ (ho ▸ trivial)
  | change hi hw =>
    obtain ⟨o, ho⟩ := hi
    exact hkeep ⟨o, ho⟩ hw.keeps _ (ho ▸ trivial)

theorem Sound.carries (h : m.Sound) (hn : m.Next m') : Carries m m' := by
  rcases h with h | ⟨m₀, d, t, x, rest, hf⟩
  · exact h.carries hn
  · obtain ⟨why, hc⟩ := hf.control
    obtain rfl := hn.eq_step hc
    exact hf.carries

end Machine
end Sluice
