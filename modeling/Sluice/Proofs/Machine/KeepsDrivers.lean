import Sluice.Proofs.Machine.Effects

/-!
# Sections that leave drivers alone

Most sections neither touch a driver nor a stream and take no task's place on the
stack. What they do to the schedule only adds to what it owes to tasks.
-/

namespace Sluice

def Signal.pollOf (i : Nat) : Signal → Option Poll
  | .polled j p => if j = i then some p else none
  | _ => none

namespace World

def lastPoll (w : World) (i : Nat) : Option Poll :=
  w.trace.toList.reverse.findSome? (Signal.pollOf i)

theorem lastPoll_signal (w : World) (s : Signal) (i : Nat) :
    (w.signal s).lastPoll i = (s.pollOf i).or (w.lastPoll i) := by
  simp only [lastPoll, signal, Array.toList_push, List.reverse_append, List.reverse_cons,
    List.reverse_nil, List.nil_append, List.singleton_append, List.findSome?_cons]
  cases s.pollOf i <;> rfl

def waker (w : World) (i : Nat) : Option Nat := w.streams[i]?.bind Stream.waker

def Hears (w : World) (i t : Nat) : Prop := w.waker i = some t ∨ w.schedule.Awake t

def Gone (w : World) (i : Nat) : Prop := ∃ s, w.streams[i]? = some s ∧ s.dropped = true

theorem waker_eq_some {w : World} {i t : Nat} :
    w.waker i = some t ↔ ∃ s, w.streams[i]? = some s ∧ s.waker = some t :=
  Option.bind_eq_some_iff

/-- Drivers are as they were, streams that still have a task to wake too, dropped streams stay
dropped, and the schedule owes at least as much. -/
structure KeepsDrivers (w w' : World) : Prop where
  drivers : w'.drivers = w.drivers
  streams : w.streams.size ≤ w'.streams.size
  waker : ∀ (i : Nat) s' t, w'.streams[i]? = some s' → s'.waker = some t →
    ∃ s, w.streams[i]? = some s ∧ s.waker = some t ∧ s'.items = s.items ∧ s'.closed = s.closed
  hears : ∀ i t, w.waker i = some t → w.schedule.state t ≠ .ended → w'.Hears i t
  gone : ∀ i, w.Gone i → w'.Gone i
  polls : ∀ i, w'.lastPoll i = w.lastPoll i
  schedule : w.schedule.Follows w'.schedule
  coherent : ∀ us, w.schedule.Coherent us → w'.schedule.Coherent us

variable {w w' w'' : World}

theorem KeepsDrivers.of_streams (hd : w'.drivers = w.drivers) (hs : w'.streams = w.streams)
    (hp : ∀ i, w'.lastPoll i = w.lastPoll i) (hf : w.schedule.Follows w'.schedule)
    (hc : ∀ us, w.schedule.Coherent us → w'.schedule.Coherent us) : w.KeepsDrivers w' where
  drivers := hd
  streams := Nat.le_of_eq (by rw [hs])
  waker := fun i s t h hw => ⟨s, hs ▸ h, hw, rfl, rfl⟩
  hears := fun i t hw _ => .inl (by rw [← hw, World.waker, hs, World.waker])
  gone := fun i hg => by rwa [Gone, hs]
  polls := hp
  schedule := hf
  coherent := hc

theorem KeepsDrivers.refl (w : World) : w.KeepsDrivers w :=
  .of_streams rfl rfl (fun _ => rfl) (.refl _) fun _ => id

theorem KeepsDrivers.of_eq (hd : w'.drivers = w.drivers) (hs : w'.streams = w.streams)
    (ht : w'.trace = w.trace) (hsch : w'.schedule = w.schedule) : w.KeepsDrivers w' :=
  .of_streams hd hs (fun i => by rw [lastPoll, ht, lastPoll]) (hsch ▸ .refl _) fun _ h => hsch ▸ h

theorem KeepsDrivers.trans (h : w.KeepsDrivers w') (h' : w'.KeepsDrivers w'') :
    w.KeepsDrivers w'' where
  drivers := h'.drivers.trans h.drivers
  streams := Nat.le_trans h.streams h'.streams
  waker := by
    intro i s'' t hs'' hw''
    obtain ⟨s', hs', hw', hi', hc'⟩ := h'.waker i s'' t hs'' hw''
    obtain ⟨s, hs, hw, hi, hc⟩ := h.waker i s' t hs' hw'
    exact ⟨s, hs, hw, hi'.trans hi, hc'.trans hc⟩
  hears := by
    intro i t hw hs
    rcases h.hears i t hw hs with hw' | ha
    · exact h'.hears i t hw' fun he => hs (h.schedule.ended t he)
    · exact .inr (h'.schedule.awake t ha)
  gone := fun i hg => h'.gone i (h.gone i hg)
  polls := fun i => (h'.polls i).trans (h.polls i)
  schedule := h.schedule.trans h'.schedule
  coherent := fun us hc => h'.coherent us (h.coherent us hc)

theorem KeepsDrivers.signal {s : Signal} (hs : ∀ i, s.pollOf i = none) :
    w.KeepsDrivers (w.signal s) :=
  .of_streams rfl rfl (fun i => by rw [lastPoll_signal, hs, Option.none_or]) (.refl _) fun _ => id

theorem KeepsDrivers.reschedule {s : Schedule} (hf : w.schedule.Follows s)
    (hc : ∀ us, w.schedule.Coherent us → s.Coherent us) : w.KeepsDrivers { w with schedule := s } :=
  .of_streams rfl rfl (fun _ => rfl) hf hc

theorem KeepsDrivers.wake (w : World) (t : Nat) : w.KeepsDrivers (w.wake t) :=
  .reschedule (.wake _ t) fun _ h => h.wake t

theorem KeepsDrivers.audit (w : World) (d : Demand) (is : List Nat) :
    w.KeepsDrivers (w.audit d is).1 := by
  rw [audit_eq]
  exact .of_eq rfl rfl rfl rfl

theorem streams_dropStream (w : World) (i j : Nat) : (w.dropStream i).streams[j]? =
    w.streams[j]?.map fun s => if i = j then { s with dropped := true } else s := by
  change (w.streams.modify i _)[j]? = _
  rw [Array.getElem?_modify]
  by_cases hj : i = j
  · simp [hj]
  · simp [hj]

theorem gone_dropStream {i : Nat} (hi : i < w.streams.size) : (w.dropStream i).Gone i := by
  refine ⟨{ w.streams[i] with dropped := true }, ?_, rfl⟩
  rw [streams_dropStream, Array.getElem?_eq_getElem hi, Option.map_some, if_pos rfl]

theorem KeepsDrivers.dropStream (w : World) (i : Nat) : w.KeepsDrivers (w.dropStream i) := by
  have hget (j : Nat) := w.streams_dropStream i j
  refine ⟨rfl, ?_, ?_, ?_, ?_, ?_, .refl _, fun _ => id⟩
  · simp [World.dropStream, World.signal]
  · intro j s' t hs' hw
    obtain ⟨s, hs, rfl⟩ := Option.map_eq_some_iff.mp ((hget j).symm.trans hs')
    refine ⟨s, hs, ?_⟩
    by_cases hj : i = j
    · rw [if_pos hj] at hw ⊢
      exact ⟨hw, rfl, rfl⟩
    · rw [if_neg hj] at hw ⊢
      exact ⟨hw, rfl, rfl⟩
  · intro j t hw _
    obtain ⟨s, hs, hw⟩ := waker_eq_some.mp hw
    refine .inl (waker_eq_some.mpr ⟨_, (hget j).trans (congrArg _ hs), ?_⟩)
    by_cases hj : i = j
    · simpa only [if_pos hj] using hw
    · simpa only [if_neg hj] using hw
  · intro j hg
    obtain ⟨s, hs, hd⟩ := hg
    refine ⟨_, (hget j).trans (congrArg _ hs), ?_⟩
    by_cases hj : i = j
    · simp only [if_pos hj]
    · simpa only [if_neg hj] using hd
  · intro j
    exact (lastPoll_signal _ _ j).trans (Option.none_or ..)

theorem KeepsDrivers.addStream (w : World) (items : List Item) (closed : Bool) :
    w.KeepsDrivers (w.addStream items closed) where
  drivers := rfl
  streams := by simp [World.addStream]
  waker := by
    intro i s' t hs' hw
    rw [World.addStream, Array.getElem?_push] at hs'
    split at hs'
    · obtain rfl := Option.some.inj hs'
      simp at hw
    · exact ⟨s', hs', hw, rfl, rfl⟩
  hears := by
    intro i t hw _
    obtain ⟨s, hs, hw⟩ := waker_eq_some.mp hw
    have hlt := (Array.getElem?_eq_some_iff.mp hs).1
    refine .inl (waker_eq_some.mpr ⟨s, ?_, hw⟩)
    rw [World.addStream, Array.getElem?_push, if_neg (by omega)]
    exact hs
  gone := by
    intro i hg
    obtain ⟨s, hs, hd⟩ := hg
    have hlt := (Array.getElem?_eq_some_iff.mp hs).1
    refine ⟨s, ?_, hd⟩
    rw [World.addStream, Array.getElem?_push, if_neg (by omega)]
    exact hs
  polls := fun _ => rfl
  schedule := .refl _
  coherent := fun _ => id

theorem gone_setStream {i j : Nat} {s s' : Stream} (hs : w.streams[i]? = some s)
    (hd : s.dropped = true → s'.dropped = true) (hg : w.Gone j)
    (hw : w'.streams = w.streams.setIfInBounds i s') : w'.Gone j := by
  obtain ⟨v, hv, hvd⟩ := hg
  rw [Gone, hw, Array.getElem?_setIfInBounds]
  by_cases hj : i = j
  · subst hj
    obtain rfl := Option.some.inj (hs.symm.trans hv)
    rw [if_pos rfl, if_pos (Array.getElem?_eq_some_iff.mp hs).1]
    exact ⟨s', rfl, hd hvd⟩
  · rw [if_neg hj]
    exact ⟨v, hv, hvd⟩

theorem KeepsDrivers.push {i : Nat} {s : Stream} {r : Schedule} (hs : w.streams[i]? = some s)
    (items : List Item) (close : Bool) (hf : w.schedule.Follows r)
    (hc : ∀ us, w.schedule.Coherent us → r.Coherent us)
    (hr : ∀ t, s.waker = some t → w.schedule.state t ≠ .ended → r.Awake t) :
    w.KeepsDrivers { w with
      streams := w.streams.setIfInBounds i (s.push items close).2, schedule := r } where
  drivers := rfl
  streams := by simp
  waker := by
    intro j s' t hs' hw
    rw [Array.getElem?_setIfInBounds] at hs'
    split at hs'
    · split at hs'
      · obtain rfl := Option.some.inj hs'
        simp [Stream.push] at hw
      · simp at hs'
    · exact ⟨s', hs', hw, rfl, rfl⟩
  hears := by
    intro j t hw hne
    obtain ⟨s', hs', hw⟩ := waker_eq_some.mp hw
    by_cases hj : i = j
    · subst hj
      obtain rfl := Option.some.inj (hs.symm.trans hs')
      exact .inr (hr t hw hne)
    · refine .inl (waker_eq_some.mpr ⟨s', ?_, hw⟩)
      rw [Array.getElem?_setIfInBounds, if_neg hj]
      exact hs'
  gone := by
    intro j hg
    refine gone_setStream hs ?_ hg rfl
    exact id
  polls := fun _ => rfl
  schedule := hf
  coherent := hc

theorem Change.keeps (h : w.Change w') : w.KeepsDrivers w' := by
  cases h with
  | stream items closed => exact .addStream w items closed
  | ticker i period =>
    exact .of_streams rfl rfl (fun _ => rfl) (.spawn_ticker _ _) fun _ h => h.spawn _
  | dropStream i => exact .dropStream w i
  | _ => exact .of_eq rfl rfl rfl rfl

end World

def Frame.Plain : Frame → Prop
  | .task _ | .polling _ => False
  | .driver _ (.opening _) | .driver _ .polling | .driver _ .delivering | .driver _ .concluding =>
    False
  | _ => True

def Call.Plain : Call → Prop
  | .run _ | .spawn _ | .wakeDriver _ | .poll _ => False
  | .subscribe source _ | .attach source _ =>
    match source.origin with
    | .stream _ _ => False
    | _ => True
  | _ => True

def Control.Plain : Control → Prop
  | .calling c => c.Plain
  | _ => True

def Part.Plain : Part → Prop
  | .drivers | .polls | .tasks | .turns => False
  | _ => True

namespace Machine

/-- `m'` comes of a section that keeps `w` and ran above the frames `rest`. -/
structure KeepsDrivers (rest : List Frame) (w : World) (m' : Machine) : Prop where
  keeps : w.KeepsDrivers m'.world
  stack : m'.stack = rest ∨ ∃ f, f.Plain ∧ m'.stack = f :: rest
  control : m'.control.Plain

variable {m : Machine} {w : World}

theorem KeepsDrivers.of_keeps {rest : List Frame} {w' : World} {m' : Machine}
    (hw : w.KeepsDrivers w') (h : KeepsDrivers rest w' m') : KeepsDrivers rest w m' :=
  ⟨hw.trans h.keeps, h.stack, h.control⟩

theorem answer_keepsDrivers (m : Machine) (r : Reply) : KeepsDrivers m.stack m.world (m.answer r) :=
  ⟨.refl _, .inl rfl, trivial⟩

theorem unwind_keepsDrivers (m : Machine) (why : Panic) :
    KeepsDrivers m.stack m.world (m.unwind why) :=
  ⟨.refl _, .inl rfl, trivial⟩

theorem call_keepsDrivers (m : Machine) {f : Frame} {c : Call} (hf : f.Plain) (hc : c.Plain) :
    KeepsDrivers m.stack m.world (m.call f c) :=
  ⟨.refl _, .inr ⟨f, hf, rfl⟩, hc⟩

theorem tail_keepsDrivers (m : Machine) {c : Call} (hc : c.Plain) :
    KeepsDrivers m.stack m.world (m.tail c) :=
  ⟨.refl _, .inl rfl, hc⟩

theorem move_keepsDrivers {Out F : Type} (m : Machine) (hw : m.world.KeepsDrivers w)
    {out : Out → Call} {g : F → Frame} (ho : ∀ o, (out o).Plain) (hg : ∀ f, (g f).Plain)
    (mv : Move Out F) : KeepsDrivers m.stack m.world (m.move w out g mv) := by
  cases mv with
  | answer r => exact ⟨hw, .inl rfl, trivial⟩
  | call o f => exact ⟨hw, .inr ⟨g f, hg f, rfl⟩, ho o⟩

theorem sinkCall_plain (i : Nat) (o : Sink.Out Link) : (sinkCall i o).Plain := by
  cases o <;> trivial

theorem assignCall_plain (rule : WriteRule) (o : Assign.Out Link Nat) :
    (assignCall rule o).Plain := by
  cases o <;> trivial

theorem sequenceCall_plain (i : Nat) (o : Sequence.Out Outlet) : (sequenceCall i o).Plain := by
  cases o with
  | handOver dest live => cases live <;> trivial
  | _ => trivial

theorem subjectCall_plain (i : Nat) (o : Subject.Out Outlet) : (subjectCall i o).Plain := by
  cases o with
  | handOver dest entry => cases entry <;> trivial
  | _ => trivial

theorem tickerCall_plain (i : Nat) (o : Ticker.Out) : (tickerCall i o).Plain := by
  cases o <;> trivial

theorem moveClock_keeps (m : Machine) (now : Nat) : m.world.KeepsDrivers (m.moveClock now).world :=
  .reschedule (.moveTo _ now) fun _ h => h.moveTo now

theorem Effect.keepsDrivers {p : Part} {m' : Machine} (h : Effect m p m') (hp : p.Plain) :
    KeepsDrivers m.stack m.world m' := by
  cases h with
  | driver | poll | spawn | turn | turned => exact hp.elim
  | sink i =>
    refine move_keepsDrivers m ?_ (sinkCall_plain i) (fun _ => by trivial) _
    exact .of_eq rfl rfl rfl rfl
  | assign i rule =>
    refine move_keepsDrivers m ?_ (assignCall_plain rule) (fun _ => by trivial) _
    exact .of_eq rfl rfl rfl rfl
  | sequence n =>
    refine move_keepsDrivers m ?_ (sequenceCall_plain n) (fun _ => by trivial) _
    exact .of_eq rfl rfl rfl rfl
  | subject n =>
    refine move_keepsDrivers m ?_ (subjectCall_plain n) (fun _ => by trivial) _
    exact .of_eq rfl rfl rfl rfl
  | ticker n =>
    refine move_keepsDrivers m ?_ (tickerCall_plain n) (fun _ => by trivial) _
    exact .of_eq rfl rfl rfl rfl
  | answer r => exact answer_keepsDrivers m r
  | unwind why => exact unwind_keepsDrivers m why
  | stuck => exact ⟨.refl _, .inl rfl, trivial⟩
  | request | cancel => exact tail_keepsDrivers m trivial
  | custom | resumes | cancels | lastUse | resume | settle | advanceClock | jumpClock =>
    exact call_keepsDrivers m trivial trivial
  | ask q => exact ⟨.signal fun _ => rfl, .inr ⟨.asked q, trivial, rfl⟩, trivial⟩
  | asked q => exact ⟨.refl _, .inr ⟨.asked q, trivial, rfl⟩, trivial⟩
  | keep | store | written | attached | drop | closed =>
    exact ⟨.of_eq rfl rfl rfl rfl, .inl rfl, trivial⟩
  | set t => exact ⟨.of_eq rfl rfl rfl rfl, .inr ⟨.setting t, trivial, rfl⟩, trivial⟩
  | close h => exact ⟨.of_eq rfl rfl rfl rfl, .inr ⟨.closing h, trivial, rfl⟩, trivial⟩
  | advance =>
    refine ⟨World.KeepsDrivers.trans ?_ (.signal fun _ => rfl), .inl rfl, trivial⟩
    exact .of_eq rfl rfl rfl rfl
  | push hs hw items close =>
    exact ⟨.push hs items close (.refl _) (fun _ => id) (by simp [hw]), .inl rfl, trivial⟩
  | pushWaking hs hw items close =>
    refine ⟨.push hs items close (.wake _ _) (fun _ h => h.wake _) fun u hu hne => ?_, .inl rfl,
      trivial⟩
    obtain rfl := Option.some.inj (hw.symm.trans hu)
    exact Schedule.awake_wake hne
  | wake t => exact ⟨.wake _ t, .inl rfl, trivial⟩
  | setTimer due t =>
    have h := Schedule.Follows.refl m.world.schedule
    have hf : m.world.schedule.Follows (m.world.schedule.setTimer due t) :=
      ⟨h.job, h.driver, h.awake, h.ended, h.yielded⟩
    exact ⟨.reschedule hf fun _ h => h.congr rfl fun _ => rfl, .inl rfl, trivial⟩
  | stop now =>
    exact .of_keeps (moveClock_keeps m now) (call_keepsDrivers (m.moveClock now) trivial trivial)
  | arrive now => exact .of_keeps (moveClock_keeps m now) (answer_keepsDrivers (m.moveClock now) _)
  | jump now =>
    exact .of_keeps (moveClock_keeps m now) (tail_keepsDrivers (m.moveClock now) trivial)

end Machine
end Sluice
