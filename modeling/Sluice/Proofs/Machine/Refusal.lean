import Sluice.Proofs.Machine.Subscribers

/-!
# Second publishers

A subscriber that is subscribed refuses any other subscription by cancelling it. What
comes of that depends on the publisher: one that goes on after the hand-over finds
itself cancelled and lets go, while one that has nothing more to say, because it is
empty or was completed before, completes the subscriber all the same.
-/

namespace Sluice

namespace World

variable {w : World} {j : Nat}

theorem setSequence_same {q : Sequence Outlet} (h : w.sequences[j]? = some q) :
    w.setSequence j q = w := by
  rw [setSequence, setIfInBounds_same h]

theorem getElem?_setSequence {q : Sequence Outlet} (h : w.sequences[j]? = some q)
    (q' : Sequence Outlet) : (w.setSequence j q').sequences[j]? = some q' :=
  Array.getElem?_setIfInBounds_self_of_lt (lt_size_of_getElem? h)

theorem setSequence_setSequence (w : World) (j : Nat) (q q' : Sequence Outlet) :
    (w.setSequence j q).setSequence j q' = w.setSequence j q' := by
  simp [setSequence]

theorem setSubject_same {x : Subject Outlet} (h : w.subjects[j]? = some x) :
    w.setSubject j x = w := by
  rw [setSubject, setIfInBounds_same h]

theorem getElem?_setSubject {x : Subject Outlet} (h : w.subjects[j]? = some x)
    (x' : Subject Outlet) : (w.setSubject j x').subjects[j]? = some x' :=
  Array.getElem?_setIfInBounds_self_of_lt (lt_size_of_getElem? h)

theorem setSubject_setSubject (w : World) (j : Nat) (x x' : Subject Outlet) :
    (w.setSubject j x).setSubject j x' = w.setSubject j x' := by
  simp [setSubject]

def withDriver (w : World) (x : StreamTask) : World := { w with drivers := w.drivers.push x }

theorem getElem?_withDriver (w : World) (x : StreamTask) :
    (w.withDriver x).drivers[w.drivers.size]? = some x :=
  Array.getElem?_push_size

theorem setDriver_withDriver (w : World) (x : StreamTask) (d : Driver Outlet) :
    (w.withDriver x).setDriver w.drivers.size d = w.withDriver { x with driver := d } := by
  have h : (w.drivers.push x).modify w.drivers.size (fun t => { t with driver := d }) =
      w.drivers.push { x with driver := d } := by
    apply Array.ext_getElem?
    intro e
    rw [Array.getElem?_modify, Array.getElem?_push, Array.getElem?_push]
    by_cases he : e = w.drivers.size
    · simp [he]
    · simp [he, Ne.symm he]
  simp only [withDriver, setDriver, h]

def refusedSequence (w : World) (j : Nat) (v : Value) (feed : Feed) : World :=
  (({ w with feeds := w.feeds.setIfInBounds j feed } : World).signal
    (.advanced j (some v))).setSequence j { ahead := some v }

def refusedStream (w : World) (j : Nat) (pace : Driver.Pace) : World :=
  (w.withDriver
    { driver := { pace := pace, cancelled := true, wakeup := { permit := true }, phase := .ended }
      stream := j }).dropStream j

end World

theorem Lifecycle.accept?_eq_none {σ : Type} {l : Lifecycle σ} (h : l.status ≠ .awaiting)
    (link : σ) : l.accept? link = none := by
  cases l with
  | awaiting => exact absurd rfl h
  | _ => rfl

namespace Subject

variable {ρ : Type}

def refused (x : Subject ρ) : Subject ρ :=
  { x with
    entries := x.entries.push ⟨none, .zero⟩
    registered := (x.registered ++ [x.entries.size]).erase x.entries.size }

theorem onCancel_onSubscribe {x : Subject ρ} (hc : x.completion = none) (dest : ρ) :
    (x.onSubscribe dest).1.onCancel x.entries.size = x.refused := by
  have h : (x.entries.push ⟨some dest, .zero⟩).setIfInBounds x.entries.size ⟨none, .zero⟩ =
      x.entries.push ⟨none, .zero⟩ := by
    apply Array.ext_getElem?
    intro e
    rw [Array.getElem?_setIfInBounds, Array.getElem?_push, Array.getElem?_push]
    by_cases he : e = x.entries.size
    · simp [he]
    · simp [he, Ne.symm he]
  simp [onSubscribe, hc, onCancel, setEntry, refused, h]

theorem refused_registered (x : Subject ρ) : x.refused.registered.Perm x.registered := by
  have h := (List.perm_append_singleton x.entries.size x.registered).erase x.entries.size
  rwa [List.erase_cons_head] at h

theorem refused_registered_eq {x : Subject ρ} (h : ∀ i ∈ x.registered, i < x.entries.size) :
    x.refused.registered = x.registered := by
  have hn : x.entries.size ∉ x.registered := fun hm => Nat.lt_irrefl _ (h _ hm)
  calc x.refused.registered
      = x.registered ++ [x.entries.size].erase x.entries.size := List.erase_append_right _ hn
    _ = x.registered := by rw [List.erase_cons_head, List.append_nil]

end Subject

namespace Machine

variable {m m' m'' : Machine} {i : Nat} {w w' : World} {fs : List Frame}

def call? (m : Machine) : Option Call :=
  match m.control with
  | .calling c => some c
  | _ => none

def calls (m : Machine) : Nat → List Call
  | 0 => []
  | n + 1 => m.calls n ++ (m.steps n).call?.toList

theorem calls_add (m : Machine) (a b : Nat) :
    m.calls (a + b) = m.calls a ++ (m.steps a).calls b := by
  induction b with
  | zero => simp only [Nat.add_zero, calls, List.append_nil]
  | succ b ih => rw [← Nat.add_assoc, calls, calls, ih, steps_add, List.append_assoc]

/-- `m` comes to `m'` by its own steps and makes the calls `cs` on the way. -/
def Runs (m : Machine) (cs : List Call) (m' : Machine) : Prop :=
  ∃ n, m.steps n = m' ∧ m.calls n = cs

theorem Runs.refl (m : Machine) : Runs m [] m := ⟨0, rfl, rfl⟩

theorem Runs.trans {cs ds : List Call} (h : Runs m cs m') (h' : Runs m' ds m'') :
    Runs m (cs ++ ds) m'' := by
  obtain ⟨n, rfl, rfl⟩ := h
  obtain ⟨k, rfl, rfl⟩ := h'
  exact ⟨n + k, steps_add m n k, calls_add m n k⟩

theorem Runs.step {cs : List Call} (h : Runs m.step cs m') :
    Runs m (m.call?.toList ++ cs) m' :=
  Runs.trans ⟨1, rfl, rfl⟩ h

theorem Runs.enter {c : Call} {cs : List Call} (m' : Machine)
    (hc : enter ⟨w, fs, .calling c⟩ c = m') (h : Runs m' cs m'') :
    Runs ⟨w, fs, .calling c⟩ (c :: cs) m'' := by
  subst hc
  exact Runs.step (m := ⟨w, fs, .calling c⟩) h

theorem Runs.proceed {r : Reply} {f : Frame} {cs : List Call} (m' : Machine)
    (hf : proceed ⟨w, fs, .answering r⟩ r f = m') (h : Runs m' cs m'') :
    Runs ⟨w, f :: fs, .answering r⟩ cs m'' := by
  subst hf
  exact Runs.step (m := ⟨w, f :: fs, .answering r⟩) h

def Passes (g : Frame) (w : World) : Prop :=
  ∀ fs r ctl, proceed ⟨w, fs, ctl⟩ r g = ⟨w, fs, .answering .done⟩

theorem sink_passes {s : Sink Link} (hs : w.subscribers[i]? = some (.sink s)) :
    Passes (.sink i .passing) w := by
  intro fs r ctl
  simp only [Machine.proceed, proceedSink, hs, Sink.proceed, sinkSection, move,
    setSubscriber_same hs]

theorem assign_passes {s : Assign Link Nat} {rule : WriteRule}
    (hs : w.subscribers[i]? = some (.assign s rule)) : Passes (.assign i .passing) w := by
  intro fs r ctl
  simp only [Machine.proceed, proceedAssign, hs, Assign.proceed, assignSection, move,
    setSubscriber_same hs]

/-- A subscriber that is subscribed, or terminal, cancels any further subscription, and does no
more. -/
theorem tell_subscription {s : Subscriber} (hst : s.status ≠ .awaiting) (i : Nat) :
    ∃ g : Frame, ∀ w, w.subscribers[i]? = some s → Passes g w ∧ ∀ fs ctl link,
      tell ⟨w, fs, ctl⟩ i (.subscription link) = ⟨w, g :: fs, .calling (.cancel link)⟩ := by
  cases s with
  | custom => exact absurd rfl hst
  | sink s =>
    refine ⟨.sink i .passing, fun w hs => ⟨sink_passes hs, fun fs ctl link => ?_⟩⟩
    have he : s.enter (.subscription link) = (s, .call (.cancel link) .passing) := by
      simp only [Sink.enter, Sink.onSubscription, Lifecycle.accept?_eq_none hst]
    rw [tell_sink (m := ⟨w, fs, ctl⟩) hs (by simp [he]), he]
    simp only [sinkSection, move, setSubscriber_same hs, sinkCall]
  | assign s rule =>
    refine ⟨.assign i .passing, fun w hs => ⟨assign_passes hs, fun fs ctl link => ?_⟩⟩
    have he : s.enter (.subscription link) = (s, .call (.cancel link) .passing) := by
      simp only [Assign.enter, Assign.onSubscription, Lifecycle.accept?_eq_none hst]
    rw [tell_assign (m := ⟨w, fs, ctl⟩) hs, he]
    simp only [assignSection, move, setSubscriber_same hs, assignCall]

theorem Runs.refused {s : Subscriber} {link : Link} (w w' : World) (hst : s.status ≠ .awaiting)
    (hs : w.subscribers[i]? = some s) (hs' : w'.subscribers[i]? = some s)
    (hc : ∀ gs ctl, cancelTap ⟨w, gs, ctl⟩ link.tap = ⟨w', gs, .answering .done⟩)
    {cs : List Call} (h : Runs ⟨w', fs, .answering .done⟩ cs m') :
    Runs ⟨w, fs, .calling (.tell i (.subscription link))⟩
      (.tell i (.subscription link) :: .cancel link :: cs) m' := by
  obtain ⟨g, hg⟩ := tell_subscription hst i
  exact .enter _ ((hg w hs).2 fs _ link) (.enter _ (hc (g :: fs) _)
    (.proceed _ ((hg w' hs').1 fs .done _) h))

theorem sequence_refused {s : Subscriber} {j : Nat} {v : Value} {feed feed' : Feed}
    (hst : s.status ≠ .awaiting) (hs : w.subscribers[i]? = some s)
    (hq : w.sequences[j]? = some {}) (hf : w.feeds[j]? = some feed)
    (hn : feed.next = (some v, feed')) (as : List Nat) (fs : List Frame) :
    Runs ⟨w, fs, .calling (.subscribe ⟨as, .sequence j⟩ i)⟩
      [.subscribe ⟨as, .sequence j⟩ i, .advance j, .tell i (.subscription ⟨as, .sequence j⟩),
        .cancel ⟨as, .sequence j⟩]
      ⟨w.refusedSequence j v feed', fs, .answering .done⟩ := by
  let dest : Outlet := ⟨as, i⟩
  let read := ({ w with feeds := w.feeds.setIfInBounds j feed' } : World).signal
    (.advanced j (some v))
  let opened := read.setSequence j { subscriber := some dest, ahead := some v }
  have hopen : opened.sequences[j]? = some { subscriber := some dest, ahead := some v } :=
    World.getElem?_setSequence hq _
  have hend : (w.refusedSequence j v feed').sequences[j]? = some { ahead := some v } :=
    World.getElem?_setSequence hq _
  refine .enter ⟨w, .sequence j (.opening dest) :: fs, .calling (.advance j)⟩ ?_ ?_
  · simp only [enter, subscribe, enterSequence, hq, Sequence.enter, sequenceSection, move,
      World.setSequence_same hq, sequenceCall, dest]
  refine .enter ⟨read, .sequence j (.opening dest) :: fs, .answering (.item (some v))⟩ ?_ ?_
  · simp only [enter, advance, hf, hn, read]
  refine .proceed ⟨opened, .sequence j (.passing dest) :: fs,
    .calling (.tell i (.subscription ⟨as, .sequence j⟩))⟩ ?_ ?_
  · have hread : read.sequences[j]? = some {} := hq
    simp only [proceed, proceedSequence, hread, Sequence.proceed, Reply.item?, Sequence.onOpened,
      sequenceSection, move, sequenceCall, handOver, if_true, opened, dest]
  -- The sequence holds its subscriber by now, and the cancellation lets go of it.
  refine .refused opened (w.refusedSequence j v feed') hst hs hs (fun gs ctl => ?_) ?_
  · simp only [cancelTap, enterSequence, hopen, Sequence.enter, sequenceSection, move]
    rw [World.setSequence_setSequence]
    rfl
  refine .proceed ⟨w.refusedSequence j v feed', fs, .answering .done⟩ ?_ (.refl _)
  simp only [proceed, proceedSequence, hend, Sequence.proceed, sequenceSection, move,
    World.setSequence_same hend]

theorem subject_refused {s : Subscriber} {j : Nat} {x : Subject Outlet}
    (hst : s.status ≠ .awaiting) (hs : w.subscribers[i]? = some s)
    (hx : w.subjects[j]? = some x) (hc : x.completion = none) (as : List Nat) (fs : List Frame) :
    Runs ⟨w, fs, .calling (.subscribe ⟨as, .subject j⟩ i)⟩
      [.subscribe ⟨as, .subject j⟩ i, .tell i (.subscription ⟨as, .subject j x.entries.size⟩),
        .cancel ⟨as, .subject j x.entries.size⟩]
      ⟨w.setSubject j x.refused, fs, .answering .done⟩ := by
  let dest : Outlet := ⟨as, i⟩
  let opened := w.setSubject j (x.onSubscribe dest).1
  have hopen : opened.subjects[j]? = some (x.onSubscribe dest).1 :=
    World.getElem?_setSubject hx _
  have hend : (w.setSubject j x.refused).subjects[j]? = some x.refused :=
    World.getElem?_setSubject hx _
  refine .enter ⟨opened, .subject j (.passing dest) :: fs,
    .calling (.tell i (.subscription ⟨as, .subject j x.entries.size⟩))⟩ ?_ ?_
  · simp only [enter, subscribe, enterSubject, hx, Subject.enter, Subject.onSubscribe, hc,
      subjectSection, move, subjectCall, handOver, opened, dest]
  refine .refused opened (w.setSubject j x.refused) hst hs hs (fun gs ctl => ?_) ?_
  · simp only [cancelTap, enterSubject, hopen, Subject.enter, subjectSection, move]
    rw [World.setSubject_setSubject, Subject.onCancel_onSubscribe hc]
  refine .proceed ⟨w.setSubject j x.refused, fs, .answering .done⟩ ?_ (.refl _)
  simp only [proceed, proceedSubject, hend, Subject.proceed, subjectSection, move,
    World.setSubject_same hend]

theorem stream_refused {s : Subscriber} (hst : s.status ≠ .awaiting)
    (hs : w.subscribers[i]? = some s) (j : Nat) (pace : Driver.Pace) (as : List Nat)
    (fs : List Frame) :
    Runs ⟨w, fs, .calling (.subscribe ⟨as, .stream j pace⟩ i)⟩
      [.subscribe ⟨as, .stream j pace⟩ i,
        .tell i (.subscription ⟨as, .driver w.drivers.size⟩),
        .cancel ⟨as, .driver w.drivers.size⟩]
      ⟨w.refusedStream j pace, fs, .answering .done⟩ := by
  let dest : Outlet := ⟨as, i⟩
  let opened := w.withDriver { driver := { pace := pace, subscriber := some dest }, stream := j }
  let cancelled := w.withDriver
    { driver :=
        { pace := pace, subscriber := some dest, cancelled := true, wakeup := { permit := true } }
      stream := j }
  have hopen : opened.drivers[w.drivers.size]? = some _ := World.getElem?_withDriver w _
  have hend : cancelled.drivers[w.drivers.size]? = some _ := World.getElem?_withDriver w _
  refine .enter ⟨opened, .driver w.drivers.size (.opening dest) :: fs,
    .calling (.tell i (.subscription ⟨as, .driver w.drivers.size⟩))⟩ ?_ ?_
  · have hnew := World.getElem?_withDriver w { driver := { pace := pace }, stream := j }
    have hset := World.setDriver_withDriver w { driver := { pace := pace }, stream := j }
    simp only [World.withDriver] at hnew hset
    simp only [enter, subscribe, enterDriver, hnew, Driver.enter, driverSection, move, driverCall,
      handOver, hset]
    rfl
  refine .refused opened cancelled hst hs hs (fun gs ctl => ?_) ?_
  · simp only [cancelTap, enterDriver, hopen]
    change driverSection _ _ (_, .answer .done) = _
    simp only [driverSection, move]
    rw [World.setDriver_withDriver]
  refine .proceed ⟨w.refusedStream j pace, fs, .answering .done⟩ ?_ (.refl _)
  simp only [proceed, proceedDriver, hend]
  change Machine.mk ((World.setDriver _ _ _).dropStream j) _ _ = _
  rw [World.setDriver_withDriver]
  rfl

end Machine
end Sluice
