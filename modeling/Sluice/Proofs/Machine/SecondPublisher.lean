import Sluice.Proofs.Machine.Dropped
import Sluice.Proofs.Machine.Refusal

/-!
# What a second publisher does to a subscriber

A sequence that has an item, a subject that is not completed and any stream leave a
subscriber that is subscribed elsewhere as it is, whatever audits stand between them.
An empty sequence and a completed subject end it.
-/

namespace Sluice

def Signal.question? : Signal → Option Question
  | .asked q => some q
  | _ => none

inductive TapEnd
  | sequence (q : Sequence Outlet)
  | entry (e : Subject.Entry Outlet)
  | driver (t : StreamTask)

def TapEnd.outlet? : TapEnd → Option Outlet
  | sequence q => q.subscriber
  | entry e => e.subscriber
  | driver t => t.driver.subscriber

namespace World

def questions (w : World) : List Question := w.trace.toList.filterMap Signal.question?

def tapEnd (w : World) : Tap → Option TapEnd
  | .sequence j => w.sequences[j]?.map .sequence
  | .subject j e => (w.subjects[j]?.bind fun x => x.entries[e]?).map .entry
  | .driver d => w.drivers[d]?.map .driver
  | .inert | .custom _ => none

/-- From `w` to `w'` no subscriber was touched and the environment was asked nothing, all
subscriptions but the one at `tap` are as they were, and that one refers to no subscriber. Only the
source of the origin `o` was read. -/
structure Spared (o : Origin) (tap : Tap) (w w' : World) : Prop where
  subscribers : w'.subscribers = w.subscribers
  questions : w'.questions = w.questions
  others : ∀ t, t ≠ tap → w'.tapEnd t = w.tapEnd t
  released : ∃ e, w'.tapEnd tap = some e ∧ e.outlet? = none
  feeds : ∀ j, o ≠ .sequence j → w'.feeds[j]? = w.feeds[j]?
  subjects : ∀ (j : Nat) (x : Subject Outlet), w.subjects[j]? = some x →
    ∃ x', w'.subjects[j]? = some x' ∧ x'.registered.Perm x.registered ∧ x'.completion = x.completion
  streams : ∀ j, (∀ pace, o ≠ .stream j pace) → w'.streams[j]? = w.streams[j]?
  manuals : w'.manuals = w.manuals
  tickers : w'.tickers = w.tickers
  targets : w'.targets = w.targets
  reports : w'.reports = w.reports
  handles : w'.handles = w.handles
  schedule : w'.schedule = w.schedule

/-- A publisher of this origin offers its subscription at `tap` and goes no further when it is
refused. It reads its iterator by the calls `reads`, and leaves the world `w'`. -/
inductive Offers (w : World) : Origin → List Call → Tap → World → Prop
  | sequence {j : Nat} {v : Value} {feed feed' : Feed} (hq : w.sequences[j]? = some {})
      (hf : w.feeds[j]? = some feed) (hn : feed.next = (some v, feed')) :
      Offers w (.sequence j) [.advance j] (.sequence j) (w.refusedSequence j v feed')
  | subject {j : Nat} {x : Subject Outlet} (hx : w.subjects[j]? = some x)
      (hc : x.completion = none) :
      Offers w (.subject j) [] (.subject j x.entries.size) (w.setSubject j x.refused)
  | stream (j : Nat) (pace : Driver.Pace) :
      Offers w (.stream j pace) [] (.driver w.drivers.size) (w.refusedStream j pace)

/-- A publisher of this origin has nothing to offer: it hands over an inert subscription and then
completes its subscriber by `c`, under the frame `f` and in the world `w'`. -/
inductive Completes (w : World) (dest : Outlet) :
    Origin → List Call → Ending → Frame → World → Prop
  | sequence {j : Nat} {feed feed' : Feed} (hq : w.sequences[j]? = some {})
      (hf : w.feeds[j]? = some feed) (hn : feed.next = (none, feed')) :
      Completes w dest (.sequence j) [.advance j] .finished (.sequence j (.passing dest))
        (({ w with feeds := w.feeds.setIfInBounds j feed' } : World).signal (.advanced j none))
  | subject {j : Nat} {x : Subject Outlet} {c : Ending} (hx : w.subjects[j]? = some x)
      (hc : x.completion = some c) :
      Completes w dest (.subject j) [] c (.subject j (.passing dest)) w

/-- A publisher of this origin can be subscribed to. A sequence is used up by that. -/
def Ready (w : World) : Origin → Prop
  | .sequence j => w.sequences[j]? = some {} ∧ j < w.feeds.size
  | .subject j => j < w.subjects.size
  | .stream _ _ => True
  | .manual _ => False

theorem offers_or_completes {w : World} {o : Origin} (h : w.Ready o) (dest : Outlet) :
    (∃ reads tap w', w.Offers o reads tap w') ∨
      ∃ reads c f w', w.Completes dest o reads c f w' := by
  cases o with
  | sequence j =>
    obtain ⟨hq, hj⟩ := h
    have hf : w.feeds[j]? = some w.feeds[j] := Array.getElem?_eq_getElem hj
    obtain ⟨v, feed', hn⟩ : ∃ v feed', w.feeds[j].next = (v, feed') := ⟨_, _, rfl⟩
    cases v with
    | none => exact .inr ⟨_, _, _, _, .sequence hq hf hn⟩
    | some v => exact .inl ⟨_, _, _, .sequence hq hf hn⟩
  | subject j =>
    have hj : j < w.subjects.size := h
    have hx : w.subjects[j]? = some w.subjects[j] := Array.getElem?_eq_getElem hj
    cases hc : w.subjects[j].completion with
    | none => exact .inl ⟨_, _, _, .subject hx hc⟩
    | some c => exact .inr ⟨_, _, _, _, .subject hx hc⟩
  | manual j => exact h.elim
  | stream j pace => exact .inl ⟨_, _, _, .stream j pace⟩

variable {w w' : World} {o : Origin} {reads : List Call} {tap : Tap}

theorem spared_refusedSequence {j : Nat} {q : Sequence Outlet} (hq : w.sequences[j]? = some q)
    (v : Value) (feed : Feed) :
    Spared (.sequence j) (.sequence j) w (w.refusedSequence j v feed) where
  subscribers := rfl
  questions := by simp [World.questions, refusedSequence, setSequence, signal, Signal.question?]
  others := by
    intro t ht
    cases t with
    | sequence k =>
      have hk : j ≠ k := fun h => ht (h ▸ rfl)
      simp [tapEnd, refusedSequence, setSequence, signal, hk]
    | _ => rfl
  released := by
    refine ⟨.sequence { ahead := some v }, ?_, rfl⟩
    exact congrArg (Option.map TapEnd.sequence) (getElem?_setSequence hq _)
  feeds := by
    intro k hk
    have hj : j ≠ k := fun h => hk (h ▸ rfl)
    simp [refusedSequence, setSequence, signal, hj]
  subjects := fun _ x hx => ⟨x, hx, .refl _, rfl⟩
  streams := fun _ _ => rfl
  manuals := rfl
  tickers := rfl
  targets := rfl
  reports := rfl
  handles := rfl
  schedule := rfl

theorem spared_setSubject {j : Nat} {x : Subject Outlet} (hx : w.subjects[j]? = some x) :
    Spared (.subject j) (.subject j x.entries.size) w (w.setSubject j x.refused) where
  subscribers := rfl
  questions := rfl
  others := by
    intro t ht
    cases t with
    | subject k e =>
      by_cases hk : j = k
      · subst hk
        have he : e ≠ x.entries.size := fun h => ht (h ▸ rfl)
        simp [tapEnd, getElem?_setSubject hx, hx, Subject.refused, Array.getElem?_push, he]
      · simp [tapEnd, setSubject, hk]
    | _ => rfl
  released := by
    refine ⟨.entry ⟨none, .zero⟩, ?_, rfl⟩
    simp [tapEnd, getElem?_setSubject hx, Subject.refused]
  feeds := fun _ _ => rfl
  subjects := by
    intro k y hy
    by_cases hk : j = k
    · subst hk
      obtain rfl : x = y := Option.some.inj (hx.symm.trans hy)
      exact ⟨x.refused, getElem?_setSubject hx _, x.refused_registered, rfl⟩
    · exact ⟨y, by simpa [setSubject, hk] using hy, .refl _, rfl⟩
  streams := fun _ _ => rfl
  manuals := rfl
  tickers := rfl
  targets := rfl
  reports := rfl
  handles := rfl
  schedule := rfl

theorem spared_refusedStream (w : World) (j : Nat) (pace : Driver.Pace) :
    Spared (.stream j pace) (.driver w.drivers.size) w (w.refusedStream j pace) where
  subscribers := rfl
  questions := by
    simp [World.questions, refusedStream, withDriver, dropStream, signal, Signal.question?]
  others := by
    intro t ht
    cases t with
    | driver d =>
      have hd : d ≠ w.drivers.size := fun h => ht (h ▸ rfl)
      simp [tapEnd, refusedStream, withDriver, dropStream, signal, Array.getElem?_push, hd]
    | _ => rfl
  released := by
    refine ⟨_, congrArg (Option.map TapEnd.driver) (getElem?_withDriver w _), rfl⟩
  feeds := fun _ _ => rfl
  subjects := fun _ x hx => ⟨x, hx, .refl _, rfl⟩
  streams := by
    intro k hk
    have hj : j ≠ k := fun h => hk pace (h ▸ rfl)
    simp [refusedStream, withDriver, dropStream, signal, Array.getElem?_modify, hj]
  manuals := rfl
  tickers := rfl
  targets := rfl
  reports := rfl
  handles := rfl
  schedule := rfl

theorem Offers.spared (h : w.Offers o reads tap w') : Spared o tap w w' := by
  cases h with
  | sequence hq hf hn => exact spared_refusedSequence hq _ _
  | subject hx hc => exact spared_setSubject hx
  | stream j pace => exact spared_refusedStream w j pace

end World

theorem Sink.enter_completion {σ : Type} (s : Sink σ) (c : Ending) :
    (s.enter (.completion c)).1.lifecycle = .terminal ∧
      ∀ v f, (s.enter (.completion c)).2 ≠ .call (.predicate v) f := by
  obtain ⟨l, p, b⟩ := s
  cases l <;> cases b <;> exact ⟨rfl, by simp [Sink.enter, Sink.onCompletion, Lifecycle.terminate]⟩

theorem Assign.enter_completion {σ τ : Type} (s : Assign σ τ) (c : Ending) :
    (s.enter (.completion c)).1.lifecycle = .terminal := by
  cases hl : s.lifecycle <;> simp [Assign.enter, Assign.onCompletion, Lifecycle.terminate, hl]

namespace Machine

variable {m m' : Machine} {i : Nat} {w w' : World} {o : Origin} {reads : List Call} {tap : Tap}

theorem runs_of_offers {s : Subscriber} (h : w.Offers o reads tap w')
    (hs : w.subscribers[i]? = some s) (hst : s.status = .subscribed) (as : List Nat)
    (fs : List Frame) :
    Runs ⟨w, fs, .calling (.subscribe ⟨as, o⟩ i)⟩
      (.subscribe ⟨as, o⟩ i :: (reads ++ [.tell i (.subscription ⟨as, tap⟩), .cancel ⟨as, tap⟩]))
      ⟨w', fs, .answering .done⟩ := by
  cases h with
  | sequence hq hf hn => exact sequence_refused (hst ▸ by decide) hs hq hf hn as fs
  | subject hx hc => exact subject_refused (hst ▸ by decide) hs hx hc as fs
  | stream j pace => exact stream_refused (hst ▸ by decide) hs j pace as fs

/-- The two machines differ in nothing that a subscriber can see. -/
structure Alike (m m' : Machine) : Prop where
  subscribers : m.world.subscribers = m'.world.subscribers
  stack : m.stack = m'.stack
  control : m.control = m'.control

theorem move_alike {Out F : Type} {out : Out → Call} {g : F → Frame} {u u' : World}
    (hu : u.subscribers = u'.subscribers) (h : Alike m m') (mv : Move Out F) :
    Alike (m.move u out g mv) (m'.move u' out g mv) := by
  cases mv with
  | answer r => exact ⟨hu, h.stack, rfl⟩
  | call o f => exact ⟨hu, congrArg (g f :: ·) h.stack, rfl⟩

theorem sinkSection_alike (h : Alike m m') (i : Nat)
    (r : Sink Link × Move (Sink.Out Link) Sink.Frame) :
    Alike (m.sinkSection i r) (m'.sinkSection i r) :=
  move_alike (by simp only [World.setSubscriber, h.subscribers]) h r.2

theorem assignSection_alike (h : Alike m m') (i : Nat) (rule : WriteRule)
    (r : Assign Link Nat × Move (Assign.Out Link Nat) (Assign.Frame Nat)) :
    Alike (m.assignSection i rule r) (m'.assignSection i rule r) :=
  move_alike (by simp only [World.setSubscriber, h.subscribers]) h r.2

theorem tell_alike (h : Alike m m') (i : Nat) (msg : Message Link) :
    Alike (m.tell i msg) (m'.tell i msg) := by
  unfold tell
  rw [h.subscribers, h.stack]
  split
  · split
    · split
      · exact ⟨h.subscribers, rfl, rfl⟩
      · exact sinkSection_alike h i _
    · exact sinkSection_alike h i _
  · exact assignSection_alike h i _ _
  · split
    · exact ⟨h.subscribers, congrArg (_ :: ·) h.stack, rfl⟩
    · exact ⟨h.subscribers, h.stack, rfl⟩
  · exact ⟨h.subscribers, h.stack, rfl⟩

/-- A second publisher that has something to offer is subscribed to a subscriber that is subscribed
already. All that happens is that it hands over its subscription and is cancelled at once: the
subscriber is as it was, its predicate, its setter and its handler were not run, the other
subscriptions were neither used nor changed, nothing refers to the subscriber that did not before,
and whatever the subscriber is told next, it does what it would have done. -/
theorem second_publisher_spares {s : Subscriber} (hs : m.world.subscribers[i]? = some s)
    (hst : s.status = .subscribed) (h : m.world.Offers o reads tap w') (as : List Nat) :
    Runs (m.invoke (.subscribe ⟨as, o⟩ i))
      (.subscribe ⟨as, o⟩ i :: (reads ++ [.tell i (.subscription ⟨as, tap⟩), .cancel ⟨as, tap⟩]))
      ⟨w', m.stack, .answering .done⟩ ∧
    m.world.Spared o tap w' ∧
    ∀ msg, Alike (tell ⟨w', m.stack, m.control⟩ i msg) (m.tell i msg) := by
  refine ⟨runs_of_offers h hs hst as m.stack, h.spared, fun msg => tell_alike ?_ i msg⟩
  exact ⟨h.spared.subscribers, rfl, rfl⟩

/-- A sink that is subscribed to a subject, with three things that are not in use: an empty
sequence, a stream that has an item, and an audit that raises at the first request. -/
def attachedToSubject : Machine where
  world :=
    { subscribers := #[.sink ⟨.subscribed ⟨[], .subject 0 0⟩, true, true⟩]
      sequences := #[{}]
      feeds := #[.items []]
      subjects := #[{ entries := #[⟨some ⟨[], 0⟩, .one⟩], registered := [0] }]
      streams := #[{ items := [.value 7], closed := true }]
      reports := #[{ limits := ⟨none, some .zero, none, true⟩ }]
      handles := #[{ subscriber := 0 }] }
  control := .idle (.returned (.handle 0))

theorem attachedToSubject_reached : Reached (fun _ => True) attachedToSubject := by
  have h : Reached (fun _ => True) {} := .start
  have h1 := h.next (.change ⟨_, rfl⟩ .subject) trivial
  have h2 := h1.next (.change ⟨_, rfl⟩ (.subscriber .sink)) trivial
  have h3 := h2.next (.change ⟨_, rfl⟩ (.sequence (.items []))) trivial
  have h4 := h3.next (.change ⟨_, rfl⟩ (.stream [.value 7] true)) trivial
  have h5 := h4.next (.change ⟨_, rfl⟩ (.report ⟨none, some .zero, none, true⟩)) trivial
  exact (h5.next (.invoke (c := .attach ⟨[], .subject 0⟩ 0) ⟨_, rfl⟩ trivial) trivial).steps 8
    fun _ _ => trivial

/-- The second publisher is the stream behind the audit. -/
theorem second_publisher_spares_audited_stream :
    Reached (fun _ => True) attachedToSubject ∧ ∃ w' : World,
      Runs (attachedToSubject.invoke (.subscribe ⟨[0], .stream 0 ⟨0⟩⟩ 0))
        [.subscribe ⟨[0], .stream 0 ⟨0⟩⟩ 0, .tell 0 (.subscription ⟨[0], .driver 0⟩),
          .cancel ⟨[0], .driver 0⟩]
        ⟨w', [], .answering .done⟩ ∧
      attachedToSubject.world.Spared (.stream 0 ⟨0⟩) (.driver 0) w' ∧
      Alike (tell ⟨w', [], attachedToSubject.control⟩ 0 (.value 3))
        (attachedToSubject.tell 0 (.value 3)) := by
  have hs : attachedToSubject.world.subscribers[0]? = some (.sink ⟨_, true, true⟩) := rfl
  obtain ⟨hrun, hspared, halike⟩ := second_publisher_spares hs rfl (.stream 0 ⟨0⟩) [0]
  exact ⟨attachedToSubject_reached, _, hrun, hspared, halike _⟩

theorem runs_of_completes {s : Subscriber} {c : Ending} {f : Frame} {as : List Nat}
    (h : w.Completes ⟨as, i⟩ o reads c f w') (hs : w.subscribers[i]? = some s)
    (hst : s.status = .subscribed) (fs : List Frame) :
    Runs ⟨w, fs, .calling (.subscribe ⟨as, o⟩ i)⟩
      (.subscribe ⟨as, o⟩ i ::
        (reads ++ [.tell i (.subscription ⟨as, .inert⟩), .cancel ⟨as, .inert⟩]))
      ⟨w', f :: fs, .calling (.tell i (.completion c))⟩ := by
  cases h with
  | @sequence j feed feed' hq hf hn =>
    let dest : Outlet := ⟨as, i⟩
    let read := ({ w with feeds := w.feeds.setIfInBounds j feed' } : World).signal
      (.advanced j none)
    have hread : read.sequences[j]? = some {} := hq
    refine .enter ⟨w, .sequence j (.opening dest) :: fs, .calling (.advance j)⟩ ?_ ?_
    · simp only [enter, subscribe, enterSequence, hq, Sequence.enter, sequenceSection, move,
        World.setSequence_same hq, sequenceCall, dest]
    refine .enter ⟨read, .sequence j (.opening dest) :: fs, .answering (.item none)⟩ ?_ ?_
    · simp only [enter, advance, hf, hn, read]
    refine .proceed ⟨read, .sequence j (.refusing dest) :: fs,
      .calling (.tell i (.subscription ⟨as, .inert⟩))⟩ ?_ ?_
    · simp only [proceed, proceedSequence, hread, Sequence.proceed, Reply.item?, Sequence.onOpened,
        sequenceSection, move, World.setSequence_same hread, sequenceCall, handOver, dest]
      rfl
    refine .refused read read (hst ▸ by decide) hs hs (fun gs ctl => rfl) (.proceed _ ?_ (.refl _))
    simp only [proceed, proceedSequence, hread, Sequence.proceed, sequenceSection, move,
      World.setSequence_same hread, sequenceCall, dest]
    rfl
  | @subject j x c hx hc =>
    let dest : Outlet := ⟨as, i⟩
    refine .enter ⟨w, .subject j (.refusing dest c) :: fs,
      .calling (.tell i (.subscription ⟨as, .inert⟩))⟩ ?_ ?_
    · simp only [enter, subscribe, enterSubject, hx, Subject.enter, Subject.onSubscribe, hc,
        subjectSection, move, World.setSubject_same hx, subjectCall, handOver, dest]
    refine .refused w w (hst ▸ by decide) hs hs (fun gs ctl => rfl) (.proceed _ ?_ (.refl _))
    simp only [proceed, proceedSubject, hx, Subject.proceed, subjectSection, move,
      World.setSubject_same hx, subjectCall, dest]

theorem tell_completion_terminal {s : Subscriber} (hs : m.world.subscribers[i]? = some s)
    (hst : s.status = .subscribed) (c : Ending) : (m.tell i (.completion c)).IsTerminal i := by
  have hlt := lt_size_of_getElem? hs
  cases s with
  | custom => simp [Subscriber.status] at hst
  | sink s =>
    obtain ⟨hl, hp⟩ := s.enter_completion c
    rw [tell_sink hs hp]
    exact sinkSection_terminal hlt hl
  | assign s rule =>
    rw [tell_assign hs]
    exact assignSection_terminal rule hlt (s.enter_completion c)

/-- A second publisher that has nothing to offer is subscribed to a subscriber that is subscribed
already. It hands over an inert subscription, which is cancelled, and then completes the subscriber:
that is terminal from there on, whatever its first publisher still has for it. -/
theorem second_publisher_completes {s : Subscriber} {c : Ending} {f : Frame} {as : List Nat}
    (hs : m.world.subscribers[i]? = some s) (hst : s.status = .subscribed)
    (h : m.world.Completes ⟨as, i⟩ o reads c f w') :
    ∃ m', m'.IsTerminal i ∧ Runs (m.invoke (.subscribe ⟨as, o⟩ i))
      (.subscribe ⟨as, o⟩ i :: (reads ++ [.tell i (.subscription ⟨as, .inert⟩),
        .cancel ⟨as, .inert⟩]) ++ [.tell i (.completion c)]) m' := by
  have hs' : w'.subscribers[i]? = some s := by
    cases h with
    | sequence => exact hs
    | subject => exact hs
  refine ⟨_, ?_, (runs_of_completes h hs hst m.stack).trans (.enter _ rfl (.refl _))⟩
  exact tell_completion_terminal (m := ⟨w', f :: m.stack, _⟩) hs' hst c

/-- The empty sequence is subscribed to the sink that waits for the subject's next value: the sink
runs its completion handler and is terminal, while the subject keeps it. -/
theorem second_publisher_ends_first :
    Reached (fun _ => True) attachedToSubject ∧ ∃ m' : Machine,
      (attachedToSubject.invoke (.subscribe ⟨[], .sequence 0⟩ 0)).Continues m' ∧
      m'.stack = [] ∧ m'.IsTerminal 0 ∧ m'.world.questions = [.handler 0 .finished] ∧
      m'.world.subjects[0]?.map Subject.registered = some [0] := by
  have hd := (Continues.refl (attachedToSubject.invoke (.subscribe ⟨[], .sequence 0⟩ 0))).steps 9
  have he := (hd.next (.reply ⟨_, rfl⟩ .done)).steps 4
  exact ⟨attachedToSubject_reached, _, he, rfl, rfl, rfl, rfl⟩

end Machine
end Sluice
