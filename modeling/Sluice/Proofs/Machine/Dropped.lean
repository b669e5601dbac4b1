import Mathlib.Logic.Relation
import Sluice.Proofs.Machine.Subscribers

/-!
# Dropped handles

A subscriber that is terminal stays so and makes no call but cancellations. Dropping
a handle outside of any call makes its subscriber terminal, unless the subscriber
still waits for its subscription.
-/

namespace Sluice

theorem Sink.enter_terminal {σ : Type} {s : Sink σ} (h : s.lifecycle = .terminal)
    (msg : Message σ) :
    (s.enter msg).1 = s ∧ ((∃ r, (s.enter msg).2 = .answer r) ∨
      ∃ link f, (s.enter msg).2 = .call (.cancel link) f) := by
  obtain ⟨l, p, b⟩ := s
  obtain rfl : l = .terminal := h
  cases msg with
  | subscription link => exact ⟨rfl, .inr ⟨link, .passing, rfl⟩⟩
  | value v => exact ⟨rfl, .inl ⟨_, rfl⟩⟩
  | completion c => exact ⟨rfl, .inl ⟨_, rfl⟩⟩
  | resume => exact ⟨rfl, .inl ⟨_, rfl⟩⟩
  | cancel => exact ⟨rfl, .inl ⟨_, rfl⟩⟩

theorem Assign.enter_terminal {σ τ : Type} {s : Assign σ τ} (h : s.lifecycle = .terminal)
    (msg : Message σ) :
    (s.enter msg).1.lifecycle = .terminal ∧ ((∃ r, (s.enter msg).2 = .answer r) ∨
      ∃ link f, (s.enter msg).2 = .call (.cancel link) f) := by
  obtain ⟨mode, x, l, p⟩ := s
  obtain rfl : l = .terminal := h
  cases msg with
  | subscription link => exact ⟨rfl, .inr ⟨link, .passing, rfl⟩⟩
  | value v => exact ⟨rfl, .inl ⟨_, rfl⟩⟩
  | completion c => exact ⟨rfl, .inl ⟨_, rfl⟩⟩
  | resume => cases mode <;> exact ⟨rfl, .inl ⟨_, rfl⟩⟩
  | cancel => exact ⟨rfl, .inl ⟨_, rfl⟩⟩

theorem Sink.proceed_answers {σ : Type} (s : Sink σ) (r : Reply) (f : Sink.Frame) :
    (s.proceed r f).1.lifecycle = s.lifecycle ∧ ∃ r', (s.proceed r f).2 = .answer r' := by
  cases f <;> exact ⟨rfl, _, rfl⟩

theorem Assign.proceed_answers {σ τ : Type} (s : Assign σ τ) (f : Assign.Frame τ) :
    (s.proceed f).1.lifecycle = s.lifecycle ∧ ∃ r', (s.proceed f).2 = .answer r' := by
  cases f <;> exact ⟨rfl, _, rfl⟩

namespace Machine

def IsTerminal (m : Machine) (i : Nat) : Prop :=
  m.world.subscribers[i]?.map Subscriber.status = some .terminal

/-- The subscriber is terminal and makes no call but cancellations. -/
structure Inert (i : Nat) (m : Machine) : Prop where
  terminal : m.IsTerminal i
  acting : m.acting? ≠ some i
  seated : m.Seated

def Continues (m m' : Machine) : Prop := Relation.ReflTransGen Next m m'

variable {m m' : Machine} {i j : Nat}

theorem Continues.refl (m : Machine) : m.Continues m := Relation.ReflTransGen.refl

theorem Continues.next {m'' : Machine} (h : m.Continues m') (hn : m'.Next m'') :
    m.Continues m'' :=
  Relation.ReflTransGen.tail h hn

theorem Continues.steps (h : m.Continues m') (n : Nat) : m.Continues (m'.steps n) := by
  induction n with
  | zero => exact h
  | succ n ih => exact ih.next .step

theorem IsTerminal.cases (h : m.IsTerminal i) :
    (∃ s, m.world.subscribers[i]? = some (.sink s) ∧ s.lifecycle = .terminal) ∨
      ∃ s rule, m.world.subscribers[i]? = some (.assign s rule) ∧ s.lifecycle = .terminal := by
  obtain ⟨s, hs, ht⟩ := Option.map_eq_some_iff.mp h
  cases s with
  | sink s =>
    refine .inl ⟨s, hs, ?_⟩
    cases hl : s.lifecycle <;> simp [Subscriber.status, Lifecycle.status, hl] at ht ⊢
  | assign s rule =>
    refine .inr ⟨s, rule, hs, ?_⟩
    cases hl : s.lifecycle <;> simp [Subscriber.status, Lifecycle.status, hl] at ht ⊢
  | custom => simp [Subscriber.status] at ht

theorem sinkSection_terminal {r : Sink Link × Move (Sink.Out Link) Sink.Frame}
    (hi : i < m.world.subscribers.size) (hl : r.1.lifecycle = .terminal) :
    (m.sinkSection i r).IsTerminal i := by
  obtain ⟨s, mv⟩ := r
  have ht : (m.world.setSubscriber i (.sink s)).subscribers[i]?.map Subscriber.status =
      some .terminal := by
    simp only [World.setSubscriber, Array.getElem?_setIfInBounds_self_of_lt hi]
    exact congrArg (fun l => some (Lifecycle.status l)) hl
  cases mv <;> exact ht

theorem assignSection_terminal {r : Assign Link Nat × Move (Assign.Out Link Nat) (Assign.Frame Nat)}
    (rule : WriteRule) (hi : i < m.world.subscribers.size) (hl : r.1.lifecycle = .terminal) :
    (m.assignSection i rule r).IsTerminal i := by
  obtain ⟨s, mv⟩ := r
  have ht : (m.world.setSubscriber i (.assign s rule)).subscribers[i]?.map Subscriber.status =
      some .terminal := by
    simp only [World.setSubscriber, Array.getElem?_setIfInBounds_self_of_lt hi]
    exact congrArg (fun l => some (Lifecycle.status l)) hl
  cases mv <;> exact ht

theorem sinkSection_inert {r : Sink Link × Move (Sink.Out Link) Sink.Frame}
    (hi : i < m.world.subscribers.size) (hl : r.1.lifecycle = .terminal)
    (hr : (∃ x, r.2 = .answer x) ∨ ∃ link f, r.2 = .call (.cancel link) f) :
    Inert i (m.sinkSection i r) := by
  refine ⟨sinkSection_terminal hi hl, ?_, (sinkSection_sectioned m i r).seated⟩
  obtain ⟨s, mv⟩ := r
  rcases hr with ⟨x, rfl⟩ | ⟨link, f, rfl⟩
  · simp [sinkSection, move, acting?]
  · simp [sinkSection, move, acting?, sinkCall]

theorem assignSection_inert {r : Assign Link Nat × Move (Assign.Out Link Nat) (Assign.Frame Nat)}
    (rule : WriteRule) (hi : i < m.world.subscribers.size) (hl : r.1.lifecycle = .terminal)
    (hr : (∃ x, r.2 = .answer x) ∨ ∃ link f, r.2 = .call (.cancel link) f) :
    Inert i (m.assignSection i rule r) := by
  refine ⟨assignSection_terminal rule hi hl, ?_, (assignSection_sectioned m i rule r).seated⟩
  obtain ⟨s, mv⟩ := r
  rcases hr with ⟨x, rfl⟩ | ⟨link, f, rfl⟩
  · simp [assignSection, move, acting?]
  · simp [assignSection, move, acting?, assignCall]

theorem Sectioned.inert (h : Sectioned j m.world.subscribers m') (ht : m.IsTerminal i)
    (hj : i ≠ j) : Inert i m' where
  terminal := (congrArg (Option.map Subscriber.status) (h.others i hj)).trans ht
  acting := by
    rcases h.acting with hn | hs
    · simp [hn]
    · simpa [hs] using hj.symm
  seated := h.seated

theorem IsTerminal.tell (h : m.IsTerminal i) (j : Nat) (msg : Message Link) :
    Inert i (m.tell j msg) := by
  by_cases hj : i = j
  · subst hj
    rcases h.cases with ⟨s, hs, hl⟩ | ⟨s, rule, hs, hl⟩
    · obtain ⟨he, hr⟩ := Sink.enter_terminal hl msg
      rw [tell_sink hs (by rcases hr with ⟨x, hx⟩ | ⟨link, f, hx⟩ <;> simp [hx])]
      exact sinkSection_inert (lt_size_of_getElem? hs) (by rw [he, hl]) hr
    · obtain ⟨he, hr⟩ := Assign.enter_terminal hl msg
      rw [tell_assign hs]
      exact assignSection_inert rule (lt_size_of_getElem? hs) he hr
  · exact (tell_sectioned m j msg).inert h hj

theorem IsTerminal.proceedSink (h : m.IsTerminal i) (j : Nat) (f : Sink.Frame) (r : Reply) :
    Inert i (m.proceedSink j f r) := by
  by_cases hj : i = j
  · subst hj
    rcases h.cases with ⟨s, hs, hl⟩ | ⟨s, rule, hs, hl⟩
    · obtain ⟨he, hr⟩ := s.proceed_answers r f
      simp only [Machine.proceedSink, hs]
      exact sinkSection_inert (lt_size_of_getElem? hs) (he.trans hl) (.inl hr)
    · simp only [Machine.proceedSink, hs]
      exact ⟨h, by simp [answer, acting?], seated_of_not_idle (by simp [answer])⟩
  · exact (proceedSink_sectioned m j f r).inert h hj

theorem IsTerminal.proceedAssign (h : m.IsTerminal i) (j : Nat) (f : Assign.Frame Nat) :
    Inert i (m.proceedAssign j f) := by
  by_cases hj : i = j
  · subst hj
    rcases h.cases with ⟨s, hs, hl⟩ | ⟨s, rule, hs, hl⟩
    · simp only [Machine.proceedAssign, hs]
      exact ⟨h, by simp [answer, acting?], seated_of_not_idle (by simp [answer])⟩
    · obtain ⟨he, hr⟩ := s.proceed_answers f
      simp only [Machine.proceedAssign, hs]
      exact assignSection_inert rule (lt_size_of_getElem? hs) (he.trans hl) (.inl hr)
  · exact (proceedAssign_sectioned m j f).inert h hj

theorem Aloof.inert (h : Aloof m.world.subscribers m') (ht : m.IsTerminal i) : Inert i m' :=
  ⟨by rw [IsTerminal, h.subscribers]; exact ht, by simp [h.acting], h.seated⟩

theorem Inert.next (h : Inert i m) (hn : m.Next m') : Inert i m' := by
  have ht := h.terminal
  cases hn.moved h.seated with
  | aloof ha => exact ha.inert ht
  | added ha =>
    refine ⟨?_, by simp [ha.acting], ha.seated⟩
    obtain ⟨s, hs, -⟩ := Option.map_eq_some_iff.mp ht
    have hlt := lt_size_of_getElem? hs
    rw [IsTerminal, ha.subscribers, Array.getElem?_push, if_neg (by omega)]
    exact ht
  | message hc => exact ht.tell _ _
  | @sink j f rest r hs => exact IsTerminal.proceedSink (m := { m with stack := rest }) ht j f r
  | @assign j f rest hs => exact IsTerminal.proceedAssign (m := { m with stack := rest }) ht j f

theorem Inert.continues (h : Inert i m) (hr : m.Continues m') : Inert i m' := by
  induction hr with
  | refl => exact h
  | tail _ hn ih => exact ih.next hn

theorem IsTerminal.tell_resume (h : m.IsTerminal i) : m.tell i .resume = m.answer .done := by
  rcases h.cases with ⟨s, hs, hl⟩ | ⟨s, rule, hs, hl⟩
  · have he : s.enter .resume = (s, .answer .done) := by
      simp only [Sink.enter, Sink.onResume, hl, Lifecycle.link?]
    rw [tell_sink hs (by simp [he]), he]
    simp only [sinkSection, move, setSubscriber_same hs, answer]
  · have he : s.enter .resume = (s, .answer .done) := by
      cases hm : s.mode <;> simp only [Assign.enter, Assign.onResume, hl, hm, Lifecycle.link?]
    simp only [tell_assign hs, he, assignSection, move, setSubscriber_same hs, answer]

theorem IsTerminal.resumeAlive (h : m.IsTerminal i) (n : Nat) :
    ∃ k b, (m.resumeAlive i n).steps k = ⟨m.world, m.stack, .answering (.flag b)⟩ := by
  induction n generalizing m with
  | zero => exact ⟨0, m.alive i, rfl⟩
  | succ n ih =>
    by_cases ha : m.alive i
    · have htell : (m.resumeAlive i (n + 1)).step =
          ⟨m.world, .resumer i n :: m.stack, .answering .done⟩ := by
        simp only [Machine.resumeAlive, ha, if_true, step, call, enter]
        exact IsTerminal.tell_resume h
      cases n with
      | zero => exact ⟨2, true, by rw [steps, steps, steps, htell]; rfl⟩
      | succ n =>
        obtain ⟨k, b, hk⟩ := @ih ⟨m.world, m.stack, .answering .done⟩ h
        refine ⟨2 + k, b, ?_⟩
        rw [steps_add, steps, steps, steps, htell]
        exact hk
    · exact ⟨0, false, by simp [Machine.resumeAlive, ha, answer, steps]⟩

theorem IsTerminal.resume (h : m.IsTerminal i) (n : Nat) :
    ∃ k b, (m.invoke (.resumeAlive i n)).steps (k + 1) =
      ⟨m.world, m.stack, .answering (.flag b)⟩ := by
  obtain ⟨k, b, hk⟩ := IsTerminal.resumeAlive (m := m.invoke (.resumeAlive i n)) h n
  refine ⟨k, b, ?_⟩
  rw [Nat.add_comm, steps_add]
  exact hk

theorem IsTerminal.terminated (h : m.IsTerminal i) : m.terminated i = true := by
  obtain ⟨s, hs, ht⟩ := Option.map_eq_some_iff.mp h
  simp [Machine.terminated, hs, ht, Status.isTerminal]

theorem tell_cancel_inert {s : Subscriber} (hs : m.world.subscribers[i]? = some s)
    (ha : s.status ≠ .awaiting) : Inert i (m.tell i .cancel) := by
  by_cases ht : s.status = .terminal
  · have hm : m.IsTerminal i := by rw [IsTerminal, hs, ← ht]; rfl
    exact hm.tell i .cancel
  · have hlt := lt_size_of_getElem? hs
    cases s with
    | custom => exact absurd rfl ha
    | sink s =>
      cases hl : s.lifecycle with
      | awaiting => simp [Subscriber.status, hl, Lifecycle.status] at ha
      | terminal => simp [Subscriber.status, hl, Lifecycle.status] at ht
      | subscribed link =>
        have he : s.enter .cancel =
            ({ s with lifecycle := .terminal }, .call (.cancel link) .releasing) := by
          simp only [Sink.enter, Sink.onCancel, hl, Lifecycle.release]
        rw [tell_sink hs (by simp [he]), he]
        exact sinkSection_inert hlt rfl (.inr ⟨link, _, rfl⟩)
    | assign s rule =>
      cases hl : s.lifecycle with
      | awaiting => simp [Subscriber.status, hl, Lifecycle.status] at ha
      | terminal => simp [Subscriber.status, hl, Lifecycle.status] at ht
      | subscribed link =>
        have he : s.enter .cancel =
            ({ s with lifecycle := .terminal, target := none }, .call (.cancel link) .passing) := by
          simp only [Assign.enter, Assign.onCancel, hl, Lifecycle.release]
        rw [tell_assign hs, he]
        exact assignSection_inert rule hlt rfl (.inr ⟨link, _, rfl⟩)

theorem enter_dropHandle {x : Handle} {h : Nat} (hs : m.stack = [])
    (hh : m.world.handles[h]? = some x) :
    m.enter (.dropHandle h) =
      ⟨m.world.setHandle h .dropped, [.closing h], .calling (.tell x.subscriber .cancel)⟩ := by
  simp [enter, dropHandle, hh, hs, call]

theorem dropHandle_continues {s : Subscriber} {h : Nat} (hs : m.stack = [])
    (hh : m.world.handles[h]? = some { subscriber := i })
    (hi : m.world.subscribers[i]? = some s) (ha : s.status ≠ .awaiting)
    (hr : (m.invoke (.dropHandle h)).Continues m') :
    Inert i m' ∨ m' = m.invoke (.dropHandle h) ∨
      m' = ⟨m.world.setHandle h .dropped, [.closing h], .calling (.tell i .cancel)⟩ := by
  have hstep : (m.invoke (.dropHandle h)).step =
      ⟨m.world.setHandle h .dropped, [.closing h], .calling (.tell i .cancel)⟩ :=
    enter_dropHandle (m := m.invoke (.dropHandle h)) hs hh
  have hnot {c : Call} {w : World} {fs : List Frame} (hi : Idle ⟨w, fs, .calling c⟩) : False := by
    obtain ⟨o, ho⟩ := hi
    simp at ho
  -- The environment has no turn before the cancellation, so the first two machines only step.
  induction hr with
  | refl => exact .inr (.inl rfl)
  | tail _ hn ih =>
    rcases ih with hin | rfl | rfl
    · exact .inl (hin.next hn)
    · cases hn with
      | step => exact .inr (.inr hstep)
      | attend hi | invoke hi | begin hi | reply hi | raise hi | change hi => exact (hnot hi).elim
    · cases hn with
      | step => exact .inl (tell_cancel_inert (m := ⟨m.world.setHandle h .dropped, _, _⟩) hi ha)
      | attend hi | invoke hi | begin hi | reply hi | raise hi | change hi => exact (hnot hi).elim

theorem tell_cancel_awaiting {s : Subscriber} (hs : m.world.subscribers[i]? = some s)
    (ha : s.status = .awaiting) : m.tell i .cancel = m.answer .done := by
  cases s with
  | custom => simp only [Machine.tell, hs, customQuestion]
  | sink s =>
    cases hl : s.lifecycle with
    | awaiting =>
      have he : s.enter .cancel = (s, .answer .done) := by
        simp only [Sink.enter, Sink.onCancel, hl, Lifecycle.release]
      rw [tell_sink hs (by simp [he]), he]
      simp only [sinkSection, move, setSubscriber_same hs, answer]
    | _ => simp [Subscriber.status, hl, Lifecycle.status] at ha
  | assign s rule =>
    cases hl : s.lifecycle with
    | awaiting =>
      have he : s.enter .cancel = (s, .answer .done) := by
        simp only [Assign.enter, Assign.onCancel, hl, Lifecycle.release]
      simp only [tell_assign hs, he, assignSection, move, setSubscriber_same hs, answer]
    | _ => simp [Subscriber.status, hl, Lifecycle.status] at ha

/-- A handle is dropped outside of any call, while its subscriber does not wait for a subscription
any more. From then on the subscriber neither requests nor writes nor runs its predicate or its
completion handler. Once the handle is closed, the subscriber counts as terminated, and resuming it
any number of times changes nothing. -/
theorem dropped_inert {s : Subscriber} {h : Nat} (hs : m.stack = [])
    (hh : m.world.handles[h]? = some { subscriber := i })
    (hi : m.world.subscribers[i]? = some s) (ha : s.status ≠ .awaiting)
    (hr : (m.invoke (.dropHandle h)).Continues m') :
    m'.acting? ≠ some i ∧
      (m'.world.handles[h]?.map Handle.state = some .closed → m'.terminated i = true ∧
        ∀ n, ∃ k b, (m'.invoke (.resumeAlive i n)).steps (k + 1) =
          ⟨m'.world, m'.stack, .answering (.flag b)⟩) := by
  have hkept : (m.world.setHandle h .dropped).handles[h]?.map Handle.state = some .dropped := by
    simp [World.setHandle, Array.getElem?_modify, hh]
  rcases dropHandle_continues hs hh hi ha hr with hin | rfl | rfl
  · exact ⟨hin.acting, fun _ => ⟨hin.terminal.terminated, hin.terminal.resume⟩⟩
  · exact ⟨by simp [invoke, acting?], fun hc => by simp [invoke, hh] at hc⟩
  · refine ⟨by simp [acting?], fun hc => ?_⟩
    simp [hkept] at hc

/-- A sink that got its subscription from a publisher of the environment. -/
def attachedToManual : Machine where
  world :=
    { subscribers := #[.sink ⟨.subscribed ⟨[], .custom 0⟩, true, true⟩]
      manuals := #[[⟨[], 0⟩]]
      handles := #[{ subscriber := 0 }]
      trace := #[.asked (.request 0 .one)] }
  control := .idle (.returned .done)

/-- The publisher sends a value while it is being cancelled, and another one after the drop. -/
theorem dropped_inert_value_while_cancelled :
    ∃ m m' : Machine, Reached (fun _ => True) m ∧ m.stack = [] ∧
      m.world.subscribers[0]?.map Subscriber.status = some .subscribed ∧
      (m.invoke (.dropHandle 0)).Continues m' ∧
      m'.world.handles[0]?.map Handle.state = some .closed ∧ m'.acting? ≠ some 0 ∧
      m'.terminated 0 = true := by
  have h : Reached (fun _ => True) {} := .start
  have h1 := h.next (.change ⟨_, rfl⟩ .manual) trivial
  have h2 := h1.next (.change ⟨_, rfl⟩ (.subscriber .sink)) trivial
  have h3 := (h2.next (.invoke (c := .attach ⟨[], .manual 0⟩ 0) ⟨_, rfl⟩ trivial) trivial).steps 4
    fun _ _ => trivial
  have h4 := (h3.next (.invoke (c := .tell 0 (.subscription ⟨[], .custom 0⟩)) ⟨_, rfl⟩ trivial)
    trivial).steps 3 fun _ _ => trivial
  have h5 : Reached (fun _ => True) attachedToManual :=
    (h4.next (.reply ⟨_, rfl⟩ .done) trivial).steps 2 fun _ _ => trivial
  have hd := (Continues.refl (attachedToManual.invoke (.dropHandle 0))).steps 4
  have hv := (hd.next (.invoke (c := .tell 0 (.value 3)) ⟨_, rfl⟩ trivial)).steps 2
  have hc := (hv.next (.reply ⟨_, rfl⟩ .done)).steps 3
  have hw := (hc.next (.invoke (c := .tell 0 (.value 4)) ⟨_, rfl⟩ trivial)).steps 1
  obtain ⟨hact, hdone⟩ := dropped_inert rfl rfl rfl (by decide) hw
  exact ⟨_, _, h5, rfl, rfl, hw, rfl, hact, (hdone rfl).1⟩

/-- The drop of a handle whose subscriber still waits closes the handle and changes nothing else. -/
theorem dropped_awaiting {s : Subscriber} {h : Nat} (hs : m.stack = [])
    (hh : m.world.handles[h]? = some { subscriber := i })
    (hi : m.world.subscribers[i]? = some s) (ha : s.status = .awaiting) :
    (m.invoke (.dropHandle h)).steps 3 =
      ⟨(m.world.setHandle h .dropped).setHandle h .closed, [], .answering .done⟩ := by
  have htell : tell ⟨m.world.setHandle h .dropped, [.closing h], .calling (.tell i .cancel)⟩ i
      .cancel = ⟨m.world.setHandle h .dropped, [.closing h], .answering .done⟩ :=
    tell_cancel_awaiting hi ha
  have hstep : (m.invoke (.dropHandle h)).step = _ :=
    enter_dropHandle (m := m.invoke (.dropHandle h)) hs hh
  rw [steps, steps, steps, steps, hstep]
  exact congrArg step htell

/-- A sink that still waits for its subscription after its handle was dropped. -/
def droppedAwaiting : Machine where
  world :=
    { subscribers := #[.sink {}]
      manuals := #[[⟨[], 0⟩]]
      handles := #[{ subscriber := 0, state := .closed }] }
  control := .idle (.returned .done)

/-- The subscription comes after the handle was dropped, and the sink requests on it. -/
theorem dropped_awaiting_revived :
    ∃ m m' : Machine, Reached (fun _ => True) m ∧ m.stack = [] ∧
      m.world.handles[0]?.map Handle.state = some .closed ∧ m.Continues m' ∧
      m'.acting? = some 0 ∧ m'.terminated 0 = false := by
  have h : Reached (fun _ => True) {} := .start
  have h1 := h.next (.change ⟨_, rfl⟩ .manual) trivial
  have h2 := h1.next (.change ⟨_, rfl⟩ (.subscriber .sink)) trivial
  have h3 := (h2.next (.invoke (c := .attach ⟨[], .manual 0⟩ 0) ⟨_, rfl⟩ trivial) trivial).steps 4
    fun _ _ => trivial
  have h4 : Reached (fun _ => True) droppedAwaiting :=
    (h3.next (.invoke (c := .dropHandle 0) ⟨_, rfl⟩ trivial) trivial).steps 4 fun _ _ => trivial
  have hc := ((Continues.refl droppedAwaiting).next
    (.invoke (c := .tell 0 (.subscription ⟨[], .custom 0⟩)) ⟨_, rfl⟩ trivial)).steps 1
  refine ⟨_, _, h4, rfl, rfl, hc, rfl, ?_⟩
  -- The call in progress keeps the sink alive, whatever else refers to it.
  rw [terminated, alive, show List.any _ _ = true from rfl, Bool.or_true]
  rfl

end Machine
end Sluice
