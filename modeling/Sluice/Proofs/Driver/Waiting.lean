import Sluice.Driver

/-!
# Where a driver waits

A driver's task only stops at a few places. A registered waiter means that the
last look at demand and cancellation found nothing to do; whoever changes one of
them afterwards finds the waiter and turns it into a notified one.
-/

namespace Sluice.Driver

variable {ρ : Type} {s t : Driver ρ}

def waiter (s : Driver ρ) : Waiter := s.wakeup.waiter

structure Ok (s : Driver ρ) : Prop where
  patient : s.waiter = .registered → s.cancelled = false ∧ (s.phase = .parked → s.demand = .zero)
  waits : s.waiter ≠ .absent → s.phase = .parked ∨ s.phase = .polling

theorem Ok.of_absent (h : s.waiter = .absent) : s.Ok :=
  ⟨fun hw => by simp [h] at hw, fun hw => absurd h hw⟩

theorem Ok.absent (h : s.Ok) (hp : s.phase ≠ .parked) (hq : s.phase ≠ .polling) :
    s.waiter = .absent := by
  by_cases hw : s.waiter = .absent
  · exact hw
  · rcases h.waits hw with h | h
    · exact absurd h hp
    · exact absurd h hq

/-- What a request or a cancellation can do to a driver. -/
inductive Nudged (s t : Driver ρ) : Move (Out ρ) (Frame ρ) → Prop
  | woken (hs : s.waiter = .registered) (ht : t.waiter = .notified) (hp : t.phase = s.phase) :
      Nudged s t (.call .wake .passing)
  | noted (ht : t.waiter = s.waiter) (hp : t.phase = s.phase) : Nudged s t (.answer .done)

theorem Nudged.phase {mv : Move (Out ρ) (Frame ρ)} (h : Nudged s t mv) : t.phase = s.phase := by
  cases h with
  | woken _ _ hp => exact hp
  | noted _ hp => exact hp

theorem notify_nudged (s : Driver ρ) :
    Nudged s s.notify.1 s.notify.2 ∧ s.notify.1.waiter ≠ .registered := by
  unfold notify Wakeup.notify
  cases hw : s.wakeup.waiter with
  | absent => exact ⟨.noted hw.symm rfl, by simp [waiter]⟩
  | registered => exact ⟨.woken hw rfl rfl, by simp [waiter]⟩
  | notified => exact ⟨.noted hw.symm rfl, by simp [waiter]⟩

theorem notify_ok (hs : s.waiter ≠ .absent → s.phase = .parked ∨ s.phase = .polling) :
    s.notify.1.Ok := by
  obtain ⟨hn, hr⟩ := notify_nudged s
  generalize s.notify = r at hn hr ⊢
  obtain ⟨t, mv⟩ := r
  refine ⟨fun hw => absurd hw hr, fun hw => ?_⟩
  rw [hn.phase]
  refine hs fun ha => hw ?_
  cases hn with
  | woken hreg => simp [ha] at hreg
  | noted ht => exact ht.trans ha

theorem onRequest_nudged (h : s.Ok) (d : Demand) :
    Nudged s (s.onRequest d).1 (s.onRequest d).2 ∧ (s.onRequest d).1.Ok := by
  unfold onRequest
  split
  · exact ⟨.noted rfl rfl, h⟩
  · have hn := (notify_nudged { s with demand := s.demand + d }).1
    refine ⟨?_, notify_ok h.waits⟩
    generalize notify { s with demand := s.demand + d } = r at hn
    obtain ⟨t, mv⟩ := r
    cases hn with
    | woken hs ht hp => exact .woken hs ht hp
    | noted ht hp => exact .noted ht hp

theorem onCancel_nudged (h : s.Ok) :
    Nudged s s.onCancel.1 s.onCancel.2 ∧ s.onCancel.1.Ok := by
  unfold onCancel
  split
  · exact ⟨.noted rfl rfl, h⟩
  · have hn := (notify_nudged { s with cancelled := true }).1
    refine ⟨?_, notify_ok h.waits⟩
    generalize notify { s with cancelled := true } = r at hn
    obtain ⟨t, mv⟩ := r
    cases hn with
    | woken hs ht hp => exact .woken hs ht hp
    | noted ht hp => exact .noted ht hp

/-- How a section of a driver's task can end, apart from a poll that found nothing. -/
inductive Stepped (t : Driver ρ) : Move (Out ρ) (Frame ρ) → Prop
  | ended (hp : t.phase = .ended) (hw : t.waiter = .absent) : Stepped t (.answer (.pause .ended))
  | yielded (hp : t.phase = .seeking) (hw : t.waiter = .absent) :
      Stepped t (.answer (.pause .yielded))
  | parked (hp : t.phase = .parked) (hw : t.waiter = .registered) :
      Stepped t (.answer (.pause .waiting))
  | polling (hp : t.phase = .polling) (hw : t.waiter = .registered) :
      Stepped t (.call .poll .polling)
  | delivering {dest : ρ} {v : Value} (hp : t.phase = .polling) (hw : t.waiter = .absent) :
      Stepped t (.call (.deliver dest v) .delivering)
  | concluding {dest : ρ} {c : Ending} (hp : t.phase = .polling) (hw : t.waiter = .absent) :
      Stepped t (.call (.conclude dest c) .concluding)

theorem finish_stepped (s : Driver ρ) : Stepped s.finish.1 s.finish.2 ∧ s.finish.1.Ok :=
  ⟨.ended rfl rfl, .of_absent rfl⟩

theorem await_waiter {w used : Wakeup} (h : w.await = (false, used)) :
    used.waiter = .registered := by
  unfold Wakeup.await at h
  split at h
  · simp at h
  · obtain rfl : _ = used := by simpa using h
    rfl

theorem await_again {w used : Wakeup} (h : w.await = (true, used)) :
    used.await.2.waiter = .registered := by
  unfold Wakeup.await at h
  split at h
  · obtain rfl : _ = used := by simpa using h
    rfl
  · simp at h

theorem select_stepped (hc : s.cancelled = false) :
    Stepped s.select.1 s.select.2 ∧ s.select.1.Ok := by
  unfold select
  cases hw : s.wakeup.await with
  | mk had used =>
    cases had with
    | true =>
      simp only
      rw [if_neg (by simp [hc])]
      exact ⟨.polling rfl (await_again hw), ⟨fun _ => ⟨hc, by simp⟩, fun _ => .inr rfl⟩⟩
    | false => exact ⟨.polling rfl (await_waiter hw), ⟨fun _ => ⟨hc, by simp⟩, fun _ => .inr rfl⟩⟩

theorem eq_zero_of_takeOne? {d : Demand} (h : d.takeOne? = none) : d = .zero := by
  cases d with
  | unlimited => simp [Demand.takeOne?] at h
  | upTo n =>
    obtain rfl : n = 0 := by simpa [Demand.takeOne?] using h
    rfl

theorem seek_stepped (s : Driver ρ) : Stepped s.seek.1 s.seek.2 ∧ s.seek.1.Ok := by
  unfold seek
  by_cases hc : s.cancelled = true
  · rw [if_pos hc]
    exact finish_stepped s
  · have hc : s.cancelled = false := by simpa using hc
    rw [if_neg (by simp [hc])]
    cases hd : s.demand.takeOne? with
    | some rest => exact select_stepped hc
    | none =>
      have hz := eq_zero_of_takeOne? hd
      cases hw : s.wakeup.await with
      | mk had used =>
        cases had with
        | true =>
          exact ⟨.parked rfl (await_again hw), ⟨fun _ => ⟨hc, fun _ => hz⟩, fun _ => .inl rfl⟩⟩
        | false =>
          exact ⟨.parked rfl (await_waiter hw), ⟨fun _ => ⟨hc, fun _ => hz⟩, fun _ => .inl rfl⟩⟩

theorem consume?_eq_none {w : Wakeup} (h : w.consume? = none) (hw : w.waiter ≠ .absent) :
    w.waiter = .registered := by
  unfold Wakeup.consume? at h
  revert h hw
  cases w.waiter <;> simp

theorem onRun_stepped (h : s.Ok) (hu : s.phase ≠ .unstarted)
    (hw : s.phase = .parked ∨ s.phase = .polling → s.waiter ≠ .absent) :
    Stepped s.onRun.1 s.onRun.2 ∧ s.onRun.1.Ok := by
  unfold onRun
  cases hp : s.phase with
  | unstarted => exact absurd hp hu
  | seeking => exact seek_stepped s
  | ended => exact ⟨.ended hp (h.absent (by simp [hp]) (by simp [hp])), h⟩
  | parked =>
    cases hc : s.wakeup.consume? with
    | some w => exact seek_stepped _
    | none => exact ⟨.parked hp (consume?_eq_none hc (hw (.inl hp))), h⟩
  | polling =>
    cases hc : s.wakeup.consume? with
    | none => exact ⟨.polling hp (consume?_eq_none hc (hw (.inr hp))), h⟩
    | some w =>
      simp only
      by_cases hx : s.cancelled = true
      · rw [if_pos hx]
        exact finish_stepped _
      · rw [if_neg hx]
        exact select_stepped (by simpa using hx)

theorem onRun_polling (hp : s.phase = .polling) (hw : s.waiter ≠ .absent) :
    s.onRun.1.phase = .ended ∨ s.onRun.1.phase = .polling ∧ s.onRun.1.waiter ≠ .absent := by
  unfold onRun
  rw [hp]
  simp only
  cases hc : s.wakeup.consume? with
  | none => exact .inr ⟨hp, hw⟩
  | some w =>
    simp only
    by_cases hx : s.cancelled = true
    · rw [if_pos hx]
      exact .inl rfl
    · rw [if_neg hx]
      have hs := (select_stepped (s := { s with wakeup := w }) (by simpa using hx)).1
      unfold select at hs ⊢
      cases ha : w.await with
      | mk had used =>
        cases had with
        | true =>
          simp only
          rw [if_neg hx]
          exact .inr ⟨rfl, by simp [waiter, await_again ha]⟩
        | false => exact .inr ⟨rfl, by simp [waiter, await_waiter ha]⟩

theorem onPolled_stepped {p : Poll} (hp : p ≠ .pending) (hs : s.phase = .polling) :
    Stepped (s.onPolled p).1 (s.onPolled p).2 ∧ (s.onPolled p).1.Ok := by
  cases p with
  | pending => exact absurd rfl hp
  | value v =>
    simp only [onPolled]
    split
    · exact ⟨.delivering hs rfl, .of_absent rfl⟩
    · exact finish_stepped _
  | failure e =>
    simp only [onPolled]
    split
    · exact ⟨.concluding hs rfl, .of_absent rfl⟩
    · exact finish_stepped _
  | closed =>
    simp only [onPolled]
    split
    · exact ⟨.concluding hs rfl, .of_absent rfl⟩
    · exact finish_stepped _

theorem onDelivered_stepped (hs : s.waiter = .absent) (d : Demand) :
    Stepped (s.onDelivered d).1 (s.onDelivered d).2 ∧ (s.onDelivered d).1.Ok := by
  simp only [onDelivered]
  split
  · exact ⟨.yielded rfl hs, .of_absent hs⟩
  · exact seek_stepped _

inductive Opened (t : Driver ρ) : Move (Out ρ) (Frame ρ) → Prop
  | stopped (hp : t.phase = .ended) (hw : t.waiter = .absent) : Opened t (.answer .done)
  | started (hp : t.phase = .seeking) (hw : t.waiter = .absent) : Opened t (.call .spawn .passing)

theorem onOpened_opened (hs : s.waiter = .absent) :
    Opened s.onOpened.1 s.onOpened.2 ∧ s.onOpened.1.Ok := by
  unfold onOpened
  split
  · exact ⟨.stopped rfl rfl, .of_absent rfl⟩
  · exact ⟨.started rfl hs, .of_absent hs⟩

end Sluice.Driver
