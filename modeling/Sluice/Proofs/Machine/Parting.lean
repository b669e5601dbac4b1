import Sluice.Proofs.Machine.Dropped
import Sluice.Proofs.Machine.Enrolled
import Sluice.Proofs.Machine.Members

/-!
# Sinks that part with their subscription

A sink that is subscribed cancels its subscription when it is cancelled, or when a
handle of it is dropped. It does so once, is terminal from then on, and a subject no
longer counts it among its subscribers.
-/

namespace Sluice

namespace Sink

variable {s : Sink Link} {msg : Message Link} {link : Link}

theorem enter_releasing (h : (s.enter msg).2 = .call (.cancel link) .releasing) :
    msg = .cancel ∧ s.lifecycle = .subscribed link := by
  obtain ⟨l, p, b⟩ := s
  cases msg with
  | subscription held => cases l <;> cases h
  | value v => cases l <;> cases h
  | completion c => cases l <;> cases b <;> cases h
  | resume => cases l <;> cases p <;> cases h
  | cancel =>
    cases l with
    | subscribed held =>
      cases h
      exact ⟨rfl, rfl⟩
    | _ => cases h

theorem enter_cancel (h : s.lifecycle = .subscribed link) :
    s.enter .cancel = ({ s with lifecycle := .terminal }, .call (.cancel link) .releasing) := by
  simp only [enter, onCancel, h, Lifecycle.release]

end Sink

namespace Machine

variable {m m' : Machine} {i j : Nat} {link : Link} {msg : Message Link} {s : Sink Link}

theorem sinkSection_releases {p : Sink Link × Move (Sink.Out Link) Sink.Frame}
    (h : (m.sinkSection j p).Releases i link) : j = i ∧ p.2 = .call (.cancel link) .releasing := by
  obtain ⟨s, mv⟩ := p
  obtain ⟨hc, fs, hs⟩ := h
  cases mv with
  | answer r => cases hc
  | call o f =>
    cases o with
    | cancel link' =>
      cases hc
      cases hs
      exact ⟨rfl, rfl⟩
    | _ => cases hc

theorem proceedSink_answers (m : Machine) (j : Nat) (f : Sink.Frame) (r : Reply) :
    ∃ r', (m.proceedSink j f r).control = .answering r' := by
  unfold proceedSink
  split
  · next s _ =>
    obtain ⟨-, r', hr⟩ := s.proceed_answers r f
    exact ⟨r', by simp only [sinkSection, hr, move]⟩
  · exact ⟨_, rfl⟩

theorem proceedAssign_answers (m : Machine) (j : Nat) (f : Assign.Frame Nat) :
    ∃ r', (m.proceedAssign j f).control = .answering r' := by
  unfold proceedAssign
  split
  · next s rule _ =>
    obtain ⟨-, r', hr⟩ := s.proceed_answers f
    exact ⟨r', by simp only [assignSection, hr, move]⟩
  · exact ⟨_, rfl⟩

theorem tell_releases (h : (m.tell j msg).Releases i link) : j = i ∧ msg = .cancel ∧
    ∃ s, m.world.subscribers[i]? = some (.sink s) ∧ s.lifecycle = .subscribed link := by
  unfold tell at h
  split at h
  · next s hs =>
    have hsection (hr : (m.sinkSection j (s.enter msg)).Releases i link) : j = i ∧ msg = .cancel ∧
        ∃ s, m.world.subscribers[i]? = some (.sink s) ∧ s.lifecycle = .subscribed link := by
      obtain ⟨rfl, hmv⟩ := sinkSection_releases hr
      obtain ⟨hmsg, hl⟩ := Sink.enter_releasing hmv
      exact ⟨rfl, hmsg, s, hs, hl⟩
    split at h
    · next s' v f he =>
      split at h
      · cases h.1
      · exact hsection (he ▸ h)
    · exact hsection h
  · next s rule _ =>
    obtain ⟨hc, fs, hs⟩ := h
    generalize s.enter msg = p at hc hs
    obtain ⟨s', mv⟩ := p
    cases mv with
    | answer r => cases hc
    | call o f => cases hs
  · split at h
    · cases h.1
    · cases h.1
  · cases h.1

/-- A sink cancels the subscription that it has held when it is told to, and at no other time. -/
theorem Next.releases (hn : m.Next m') (hm : m.Seated) (h : m'.Releases i link) :
    m' = m.tell i .cancel ∧
      ∃ s, m.world.subscribers[i]? = some (.sink s) ∧ s.lifecycle = .subscribed link := by
  cases hn.moved hm with
  | aloof ha => exact absurd h (ha.releases i link)
  | added ha => exact absurd h (ha.releases i link)
  | message hc =>
    obtain ⟨rfl, rfl, hs⟩ := tell_releases h
    exact ⟨rfl, hs⟩
  | @sink j f fs r _ =>
    obtain ⟨r', hr⟩ := proceedSink_answers { m with stack := fs } j f r
    cases hr.symm.trans h.1
  | @assign j f fs _ =>
    obtain ⟨r', hr⟩ := proceedAssign_answers { m with stack := fs } j f
    cases hr.symm.trans h.1

theorem Inert.not_releases (h : Inert i m) (hn : m.Next m') : ¬m'.Releases i link := by
  intro hr
  obtain ⟨-, s, hs, hl⟩ := hn.releases h.seated hr
  have ht := h.terminal
  simp [IsTerminal, hs, Subscriber.status, hl, Lifecycle.status] at ht

inductive Drops (m : Machine) (i : Nat) : Prop
  | unused {h : Nat} {x : Handle} (hx : m.world.handles[h]? = some x) (hi : x.subscriber = i)
      (hc : m.control = .calling (.dropHandle h)) (hu : m.stack.any (isUsing h) = false)
  | used {h left : Nat} {x : Handle} {rest : List Frame} (hx : m.world.handles[h]? = some x)
      (hi : x.subscriber = i) (hd : x.state = .dropped) (hs : m.stack = .handle h left :: rest)
      (hu : rest.any (isUsing h) = false)
      (hc : (∃ r, m.control = .answering r) ∧ left = 0 ∨ ∃ why, m.control = .unwinding why)

theorem Drops.step (h : m.Drops i) : m.step.control = .calling (.tell i .cancel) ∧
    m.step.world.subscribers = m.world.subscribers := by
  cases h with
  | unused hx hi hc hu =>
    subst hi
    simp [Machine.step, hc, enter, dropHandle, hx, hu, call, World.setHandle]
  | @used h left x rest hx hi hd hs hu hc =>
    subst hi
    have hlast (k : Control) : lastUse ⟨m.world, rest, k⟩ h = some x.subscriber := by
      simp [lastUse, hx, hd, hu]
    rcases hc with ⟨⟨r, hc⟩, rfl⟩ | ⟨why, hc⟩
    · simp [Machine.step, hc, hs, Machine.proceed, hlast, call]
    · simp [Machine.step, hc, hs, Machine.unwound, hlast, call]

theorem cancel_releases (hc : m.control = .calling (.tell i .cancel))
    (hs : m.world.subscribers[i]? = some (.sink s)) (hl : s.lifecycle = .subscribed link) :
    m.step.Releases i link := by
  have hcancel := Sink.enter_cancel hl
  have htell : m.step = m.sinkSection i (s.enter .cancel) := by
    simp only [step, hc, enter]
    exact tell_sink hs (by simp [hcancel])
  rw [htell, hcancel]
  exact ⟨rfl, m.stack, rfl⟩

/-- Sink `i`, which is cancelling a subscription, parts with it for good. -/
structure Parts (m : Machine) (i : Nat) (link : Link) : Prop where
  terminal : m.IsTerminal i
  once : ∀ m', m.step.Continues m' → m'.IsTerminal i ∧ ∀ link', ¬m'.Releases i link'
  unlisted : ∀ n e, link.tap = .subject n e →
    m.step.world.subjects[n]?.map Subject.registered =
      m.world.subjects[n]?.map fun s => s.registered.filter (· ≠ e)

theorem Releases.unlisted {n e : Nat} (h : m.Releases i link) (hm : Orderly m.outline)
    (ht : link.tap = .subject n e) : m.step.world.subjects[n]?.map Subject.registered =
      m.world.subjects[n]?.map fun s => s.registered.filter (· ≠ e) := by
  have hstep : m.step = m.enterSubject n (.cancel e) := by
    simp only [step, h.1, enter, ht, cancelTap]
  rw [hstep, enterSubject]
  cases hs : m.world.subjects[n]? with
  | none =>
    dsimp only [answer]
    rw [hs]
    rfl
  | some s =>
    have hroll := hm.enrolled n s.roll (World.roll_subject hs)
    have hheld (j : Nat) (hj : j ∈ s.registered) : s.holds j = true := by
      obtain ⟨k, hk⟩ := hroll.held j hj
      rw [Subject.roll, Array.getElem?_map] at hk
      obtain ⟨x, hx, hd⟩ := Option.map_eq_some_iff.mp hk
      obtain ⟨dest, hdest, -⟩ := Option.map_eq_some_iff.mp hd
      rw [Subject.holds, hx, Option.bind_some, hdest]
      rfl
    have hset : (m.world.setSubject n (s.onCancel e)).subjects[n]? = some (s.onCancel e) :=
      Array.getElem?_setIfInBounds_self_of_lt (lt_size_of_getElem? hs)
    simp only [subjectSection, Subject.enter, move, hset, Option.map_some]
    exact congrArg some (Subject.onCancel_registered hroll.single hheld e)

theorem Reached.parts {may : Machine → Prop} (h : Reached may m) (hr : m.Releases i link) :
    m.Parts i link := by
  cases h with
  | start => cases hr.1
  | @next m₁ _ h hn hm =>
    obtain ⟨he, s, hs, hl⟩ := hn.releases h.seated hr
    have hinert : Inert i m := by
      rw [he]
      exact tell_cancel_inert hs (by simp [Subscriber.status, hl, Lifecycle.status])
    have hlater {m'' : Machine} (hm'' : m.step.Continues m'') : Inert i m'' :=
      (hinert.next .step).continues hm''
    refine ⟨hinert.terminal, fun m' hm' => ⟨(hlater hm').terminal, fun link' => ?_⟩,
      fun n e => hr.unlisted (Reached.orderly (h.next hn hm))⟩
    rcases hm'.cases_tail with rfl | ⟨m'', hm'', hn'⟩
    · exact hinert.not_releases .step
    · exact (hlater hm'').not_releases hn'

end Machine
end Sluice
