import Sluice.Proofs.Audits.Naturality
import Sluice.Proofs.Machine.Runs

/-!
# Other audits on the same links

`reaudit` puts other audits on every link, outlet and source of a machine, by one
rule for all of them, and gives the machine other reports. Whatever the rule is, a
step that is no request does not notice: it makes of the changed machine what it
makes of the machine itself.
-/

namespace Sluice

def Link.reaudit (l : Link) (f : List Nat → List Nat) : Link := { l with audits := f l.audits }

def Outlet.reaudit (o : Outlet) (f : List Nat → List Nat) : Outlet :=
  { o with audits := f o.audits }

def Source.reaudit (s : Source) (f : List Nat → List Nat) : Source :=
  { s with audits := f s.audits }

def Subscriber.reaudit (s : Subscriber) (f : List Nat → List Nat) : Subscriber :=
  match s with
  | sink s => .sink (s.map (·.reaudit f))
  | assign s rule => .assign (s.map (·.reaudit f)) rule
  | custom => .custom

def StreamTask.reaudit (t : StreamTask) (f : List Nat → List Nat) : StreamTask :=
  { t with driver := t.driver.map (·.reaudit f) }

def Question.reaudit (q : Question) (f : List Nat → List Nat) : Question :=
  match q with
  | subscription i link => .subscription i (link.reaudit f)
  | q => q

def Signal.reaudit (s : Signal) (f : List Nat → List Nat) : Signal :=
  match s with
  | asked q => .asked (q.reaudit f)
  | s => s

def Call.reaudit (c : Call) (f : List Nat → List Nat) : Call :=
  match c with
  | ask q => .ask (q.reaudit f)
  | tell i msg => .tell i (msg.map (·.reaudit f))
  | subscribe source i => .subscribe (source.reaudit f) i
  | attach source i => .attach (source.reaudit f) i
  | request link d => .request (link.reaudit f) d
  | cancel link => .cancel (link.reaudit f)
  | c => c

def Frame.reaudit (x : Frame) (f : List Nat → List Nat) : Frame :=
  match x with
  | asked q => .asked (q.reaudit f)
  | sequence i x => .sequence i (x.map (·.reaudit f))
  | subject i x => .subject i (x.map (·.reaudit f))
  | driver i x => .driver i (x.map (·.reaudit f))
  | x => x

def Outcome.reaudit (o : Outcome) (f : List Nat → List Nat) : Outcome :=
  match o with
  | asked q => .asked (q.reaudit f)
  | o => o

def Control.reaudit (k : Control) (f : List Nat → List Nat) : Control :=
  match k with
  | calling c => .calling (c.reaudit f)
  | idle o => .idle (o.reaudit f)
  | k => k

def World.reaudit (w : World) (f : List Nat → List Nat) (rs : Array Audit.Report) : World :=
  { w with
    subscribers := w.subscribers.map (·.reaudit f)
    sequences := w.sequences.map (·.map (·.reaudit f))
    subjects := w.subjects.map (·.map (·.reaudit f))
    manuals := w.manuals.map (·.map (·.reaudit f))
    drivers := w.drivers.map (·.reaudit f)
    reports := rs
    trace := w.trace.map (·.reaudit f) }

def Machine.reaudit (m : Machine) (f : List Nat → List Nat) (rs : Array Audit.Report) :
    Machine where
  world := m.world.reaudit f rs
  stack := m.stack.map (·.reaudit f)
  control := m.control.reaudit f

variable (f : List Nat → List Nat) (rs : Array Audit.Report)

theorem Subscriber.status_reaudit (s : Subscriber) : (s.reaudit f).status = s.status := by
  cases s with
  | sink s => exact s.lifecycle.status_map _
  | assign s rule => exact s.lifecycle.status_map _
  | custom => rfl

theorem Frame.subscribers_reaudit (x : Frame) : (x.reaudit f).subscribers = x.subscribers := by
  cases x with
  | sequence i x => cases x <;> rfl
  | subject i x => cases x <;> rfl
  | driver i x => cases x <;> rfl
  | _ => rfl

theorem map_modify_comm {α β : Type} (g : α → β) (xs : Array α) (i : Nat) (h : α → α) (h' : β → β)
    (hh : ∀ x, g (h x) = h' (g x)) : (xs.modify i h).map g = (xs.map g).modify i h' := by
  apply Array.ext_getElem?
  intro j
  simp only [Array.getElem?_map, Array.getElem?_modify]
  split
  · cases xs[j]? <;> simp [hh]
  · rfl

namespace World

variable (w : World)

theorem signal_reaudit (s : Signal) :
    (w.reaudit f rs).signal (s.reaudit f) = (w.signal s).reaudit f rs := by
  simp only [signal, reaudit, Array.map_push]

theorem setSubscriber_reaudit (i : Nat) (s : Subscriber) :
    (w.reaudit f rs).setSubscriber i (s.reaudit f) = (w.setSubscriber i s).reaudit f rs := by
  simp only [setSubscriber, reaudit, Array.map_setIfInBounds]

theorem setSequence_reaudit (i : Nat) (s : Sequence Outlet) :
    (w.reaudit f rs).setSequence i (s.map (·.reaudit f)) =
      (w.setSequence i s).reaudit f rs := by
  simp only [setSequence, reaudit, Array.map_setIfInBounds]

theorem setSubject_reaudit (i : Nat) (s : Subject Outlet) :
    (w.reaudit f rs).setSubject i (s.map (·.reaudit f)) = (w.setSubject i s).reaudit f rs := by
  simp only [setSubject, reaudit, Array.map_setIfInBounds]

theorem setDriver_reaudit (i : Nat) (s : Driver Outlet) :
    (w.reaudit f rs).setDriver i (s.map (·.reaudit f)) = (w.setDriver i s).reaudit f rs := by
  simp only [setDriver, reaudit]
  rw [map_modify_comm (fun t : StreamTask => t.reaudit f) w.drivers i
    (fun t => { t with driver := s }) (fun t => { t with driver := s.map (·.reaudit f) })
    fun _ => rfl]

theorem dropStream_reaudit (i : Nat) :
    (w.reaudit f rs).dropStream i = (w.dropStream i).reaudit f rs :=
  signal_reaudit f rs
    { w with streams := w.streams.modify i fun s => { s with dropped := true } } (.dropped i)

theorem referred_reaudit (i : Nat) : (w.reaudit f rs).referred i = w.referred i := by
  simp only [referred, reaudit, Array.any_map, Function.comp_def, Sequence.map, Subject.map,
    Subject.Entry.map, StreamTask.reaudit, Driver.map, Option.any_map, List.any_map, Outlet.reaudit]

end World

namespace Machine

variable (m : Machine)

theorem alive_reaudit (i : Nat) : (m.reaudit f rs).alive i = m.alive i := by
  simp only [alive, reaudit, World.referred_reaudit, List.any_map, Function.comp_def,
    Frame.subscribers_reaudit]

theorem getElem?_subscribers_reaudit (i : Nat) : (m.reaudit f rs).world.subscribers[i]? =
    m.world.subscribers[i]?.map (·.reaudit f) := Array.getElem?_map

theorem getElem?_sequences_reaudit (i : Nat) : (m.reaudit f rs).world.sequences[i]? =
    m.world.sequences[i]?.map (·.map (·.reaudit f)) := Array.getElem?_map

theorem getElem?_subjects_reaudit (i : Nat) : (m.reaudit f rs).world.subjects[i]? =
    m.world.subjects[i]?.map (·.map (·.reaudit f)) := Array.getElem?_map

theorem getElem?_drivers_reaudit (i : Nat) : (m.reaudit f rs).world.drivers[i]? =
    m.world.drivers[i]?.map (·.reaudit f) := Array.getElem?_map

theorem terminated_reaudit (i : Nat) : (m.reaudit f rs).terminated i = m.terminated i := by
  simp only [terminated, alive_reaudit, getElem?_subscribers_reaudit, Option.all_map,
    Subscriber.status_reaudit]

theorem isUsing_reaudit (h : Nat) (x : Frame) : isUsing h (x.reaudit f) = isUsing h x := by
  cases x <;> rfl

theorem isDeciding_reaudit (i : Nat) (x : Frame) :
    isDeciding i (x.reaudit f) = isDeciding i x := by
  cases x <;> rfl

theorem move_reaudit {Out F : Type} (w : World) {out : Out → Call} {g : F → Frame} {o : Out → Out}
    {h : F → F} (ho : ∀ x, out (o x) = (out x).reaudit f) (hg : ∀ x, g (h x) = (g x).reaudit f)
    (mv : Move Out F) :
    (m.reaudit f rs).move (w.reaudit f rs) out g (mv.map o h) =
      (m.move w out g mv).reaudit f rs := by
  cases mv with
  | answer r => rfl
  | call out frame => simp only [Move.map, move, ho, hg, reaudit, List.map_cons, Control.reaudit]

theorem sinkSection_reaudit (i : Nat) (r : Sink Link × Move (Sink.Out Link) Sink.Frame) :
    (m.reaudit f rs).sinkSection i (Sink.onLinks (·.reaudit f) r) =
      (m.sinkSection i r).reaudit f rs := by
  obtain ⟨s, mv⟩ := r
  have hw := World.setSubscriber_reaudit f rs m.world i (.sink s)
  have ho (x : Sink.Out Link) :
      sinkCall i (Sink.Out.map (·.reaudit f) x) = (sinkCall i x).reaudit f := by cases x <;> rfl
  exact (congrArg (fun w => (m.reaudit f rs).move w _ _ _) hw).trans
    (move_reaudit f rs m _ ho (fun _ => rfl) mv)

theorem assignSection_reaudit (i : Nat) (rule : WriteRule)
    (r : Assign Link Nat × Move (Assign.Out Link Nat) (Assign.Frame Nat)) :
    (m.reaudit f rs).assignSection i rule (Assign.onLinks (·.reaudit f) r) =
      (m.assignSection i rule r).reaudit f rs := by
  obtain ⟨s, mv⟩ := r
  have hw := World.setSubscriber_reaudit f rs m.world i (.assign s rule)
  have ho (x : Assign.Out Link Nat) :
      assignCall rule (Assign.Out.map (·.reaudit f) x) = (assignCall rule x).reaudit f := by
    cases x <;> rfl
  exact (congrArg (fun w => (m.reaudit f rs).move w _ _ _) hw).trans
    (move_reaudit f rs m _ ho (fun _ => rfl) mv)

theorem sequenceSection_reaudit (i : Nat)
    (r : Sequence Outlet × Move (Sequence.Out Outlet) (Sequence.Frame Outlet)) :
    (m.reaudit f rs).sequenceSection i (Sequence.onOutlets (·.reaudit f) r) =
      (m.sequenceSection i r).reaudit f rs := by
  obtain ⟨s, mv⟩ := r
  have hw := World.setSequence_reaudit f rs m.world i s
  have ho (x : Sequence.Out Outlet) :
      sequenceCall i (Sequence.Out.map (·.reaudit f) x) = (sequenceCall i x).reaudit f := by
    cases x <;> rfl
  exact (congrArg (fun w => (m.reaudit f rs).move w _ _ _) hw).trans
    (move_reaudit f rs m _ ho (fun _ => rfl) mv)

theorem subjectSection_reaudit (i : Nat)
    (r : Subject Outlet × Move (Subject.Out Outlet) (Subject.Frame Outlet)) :
    (m.reaudit f rs).subjectSection i (Subject.onOutlets (·.reaudit f) r) =
      (m.subjectSection i r).reaudit f rs := by
  obtain ⟨s, mv⟩ := r
  have hw := World.setSubject_reaudit f rs m.world i s
  have ho (x : Subject.Out Outlet) :
      subjectCall i (Subject.Out.map (·.reaudit f) x) = (subjectCall i x).reaudit f := by
    cases x with
    | handOver dest entry => cases entry <;> rfl
    | _ => rfl
  exact (congrArg (fun w => (m.reaudit f rs).move w _ _ _) hw).trans
    (move_reaudit f rs m _ ho (fun _ => rfl) mv)

theorem driverSection_reaudit (i : Nat)
    (r : Driver Outlet × Move (Driver.Out Outlet) (Driver.Frame Outlet)) :
    (m.reaudit f rs).driverSection i (Driver.onOutlets (·.reaudit f) r) =
      (m.driverSection i r).reaudit f rs := by
  obtain ⟨s, mv⟩ := r
  have hw := World.setDriver_reaudit f rs m.world i s
  have ho (x : Driver.Out Outlet) :
      driverCall i (Driver.Out.map (·.reaudit f) x) = (driverCall i x).reaudit f := by
    cases x <;> rfl
  exact (congrArg (fun w => (m.reaudit f rs).move w _ _ _) hw).trans
    (move_reaudit f rs m _ ho (fun _ => rfl) mv)

theorem tickerSection_reaudit (i : Nat) (r : Ticker × Move Ticker.Out Ticker.Frame) :
    (m.reaudit f rs).tickerSection i r = (m.tickerSection i r).reaudit f rs := by
  obtain ⟨s, mv⟩ := r
  cases mv with
  | answer r => rfl
  | call o fr => cases o <;> rfl

theorem ask_reaudit (q : Question) :
    (m.reaudit f rs).ask (q.reaudit f) = (m.ask q).reaudit f rs := by
  have hw := World.signal_reaudit f rs m.world (.asked q)
  exact congrArg (fun w => Machine.mk w _ _) hw

theorem tell_reaudit (i : Nat) (msg : Message Link) :
    (m.reaudit f rs).tell i (msg.map (·.reaudit f)) = (m.tell i msg).reaudit f rs := by
  have hd : (m.reaudit f rs).stack.any (isDeciding i) = m.stack.any (isDeciding i) := by
    simp only [reaudit, List.any_map, Function.comp_def, isDeciding_reaudit]
  unfold tell
  rw [getElem?_subscribers_reaudit, hd]
  cases m.world.subscribers[i]? with
  | none => rfl
  | some s =>
    cases s with
    | custom =>
      cases msg <;> rfl
    | assign s rule =>
      have he := Assign.enter_map (fun l : Link => l.reaudit f) s msg
      simp only [Option.map_some, Subscriber.reaudit]
      rw [he]
      exact assignSection_reaudit f rs m i rule (s.enter msg)
    | sink s =>
      have he := Sink.enter_map (fun l : Link => l.reaudit f) s msg
      simp only [Option.map_some, Subscriber.reaudit]
      rw [he]
      generalize s.enter msg = r
      have hsec := sinkSection_reaudit f rs m i r
      obtain ⟨s', mv⟩ := r
      cases mv with
      | answer r => exact hsec
      | call o fr =>
        cases o with
        | predicate v =>
          by_cases ha : m.stack.any (isDeciding i)
          · simp only [Sink.onLinks, Prod.map, Move.map, Sink.Out.map, ha, if_true]
            rfl
          · simp only [Sink.onLinks, Prod.map, Move.map, Sink.Out.map, ha, Bool.false_eq_true,
              if_false]
            exact hsec
        | _ => exact hsec

theorem enterSequence_reaudit (i : Nat) (input : Sequence.In Outlet) :
    (m.reaudit f rs).enterSequence i (input.map (·.reaudit f)) =
      (m.enterSequence i input).reaudit f rs := by
  unfold enterSequence
  rw [getElem?_sequences_reaudit]
  cases m.world.sequences[i]? with
  | none => rfl
  | some s =>
    simp only [Option.map_some, Sequence.enter_map]
    exact sequenceSection_reaudit f rs m i (s.enter input)

theorem enterSubject_reaudit (i : Nat) (input : Subject.In Outlet) :
    (m.reaudit f rs).enterSubject i (input.map (·.reaudit f)) =
      (m.enterSubject i input).reaudit f rs := by
  unfold enterSubject
  rw [getElem?_subjects_reaudit]
  cases m.world.subjects[i]? with
  | none => rfl
  | some s =>
    simp only [Option.map_some, Subject.enter_map]
    exact subjectSection_reaudit f rs m i (s.enter input)

theorem enterDriver_reaudit (i : Nat) (input : Driver.In Outlet) :
    (m.reaudit f rs).enterDriver i (input.map (·.reaudit f)) =
      (m.enterDriver i input).reaudit f rs := by
  unfold enterDriver
  rw [getElem?_drivers_reaudit]
  cases m.world.drivers[i]? with
  | none => rfl
  | some t =>
    simp only [Option.map_some, StreamTask.reaudit, Driver.enter_map]
    exact driverSection_reaudit f rs m i (t.driver.enter input)

theorem enterTicker_reaudit (i : Nat) (input : Ticker.In) :
    (m.reaudit f rs).enterTicker i input = (m.enterTicker i input).reaudit f rs := by
  unfold enterTicker
  simp only [reaudit, World.reaudit]
  cases m.world.tickers[i]? with
  | none => rfl
  | some t => exact tickerSection_reaudit f rs m i (t.ticker.enter input)

theorem subscribe_reaudit (source : Source) (i : Nat) :
    (m.reaudit f rs).subscribe (source.reaudit f) i = (m.subscribe source i).reaudit f rs := by
  obtain ⟨audits, origin⟩ := source
  let dest : Outlet := ⟨audits, i⟩
  cases origin with
  | sequence k => exact enterSequence_reaudit f rs m k (.subscribe dest)
  | subject k => exact enterSubject_reaudit f rs m k (.subscribe dest)
  | manual k =>
    simp only [subscribe, Source.reaudit, reaudit, World.reaudit]
    rw [map_modify_comm (fun kept : List Outlet => kept.map (·.reaudit f)) m.world.manuals k
      (fun kept => kept ++ [dest]) (fun kept => kept ++ [dest.reaudit f])
      fun kept => List.map_append]
    rfl
  | stream k pace =>
    let fresh : StreamTask := ⟨{ pace := pace }, k, none⟩
    let w : World := { m.world with drivers := m.world.drivers.push fresh }
    have hw : { m.world.reaudit f rs with
          drivers := (m.world.drivers.map (·.reaudit f)).push (fresh.reaudit f) } =
        w.reaudit f rs := by
      simp only [w, World.reaudit, Array.map_push]
    have h := enterDriver_reaudit f rs { m with world := w } m.world.drivers.size
      (.subscribe dest)
    simp only [subscribe, Source.reaudit]
    refine Eq.trans ?_ h
    have hn : (m.reaudit f rs).world.drivers.size = m.world.drivers.size := Array.size_map
    rw [hn]
    exact congrArg (fun w => enterDriver ⟨w, m.stack.map (·.reaudit f), m.control.reaudit f⟩ _ _) hw

theorem requestTap_reaudit (d : Demand) (tap : Tap) :
    (m.reaudit f rs).requestTap d tap = (m.requestTap d tap).reaudit f rs := by
  cases tap with
  | inert => rfl
  | sequence i => exact enterSequence_reaudit f rs m i (.request d)
  | subject i entry => exact enterSubject_reaudit f rs m i (.request entry d)
  | driver i => exact enterDriver_reaudit f rs m i (.request d)
  | custom i => rfl

theorem cancelTap_reaudit (tap : Tap) :
    (m.reaudit f rs).cancelTap tap = (m.cancelTap tap).reaudit f rs := by
  cases tap with
  | inert => rfl
  | sequence i => exact enterSequence_reaudit f rs m i .cancel
  | subject i entry => exact enterSubject_reaudit f rs m i (.cancel entry)
  | driver i => exact enterDriver_reaudit f rs m i .cancel
  | custom i => rfl

theorem stack_any_isUsing_reaudit (h : Nat) :
    (m.reaudit f rs).stack.any (isUsing h) = m.stack.any (isUsing h) := by
  simp only [reaudit, List.any_map, Function.comp_def, isUsing_reaudit]

theorem useHandle_reaudit (h : Nat) (use : HandleUse) :
    (m.reaudit f rs).useHandle h use = (m.useHandle h use).reaudit f rs := by
  unfold useHandle
  simp only [reaudit, World.reaudit]
  cases m.world.handles[h]? with
  | none => rfl
  | some handle =>
    cases use with
    | resume n => cases n <;> rfl
    | cancel => rfl

theorem dropHandle_reaudit (h : Nat) :
    (m.reaudit f rs).dropHandle h = (m.dropHandle h).reaudit f rs := by
  have hh : (m.reaudit f rs).world.handles = m.world.handles := rfl
  unfold dropHandle
  rw [hh, stack_any_isUsing_reaudit]
  cases m.world.handles[h]? with
  | none => rfl
  | some handle =>
    simp only
    split <;> rfl

theorem resumeAlive_reaudit (i n : Nat) :
    (m.reaudit f rs).resumeAlive i n = (m.resumeAlive i n).reaudit f rs := by
  cases n with
  | zero => simp only [resumeAlive, alive_reaudit]; rfl
  | succ n => simp only [resumeAlive, alive_reaudit]; split <;> rfl

theorem advance_reaudit (i : Nat) :
    (m.reaudit f rs).advance i = (m.advance i).reaudit f rs := by
  have hf : (m.reaudit f rs).world.feeds = m.world.feeds := rfl
  unfold advance
  rw [hf]
  cases m.world.feeds[i]? with
  | none => rfl
  | some feed =>
    exact congrArg (fun w => Machine.mk w _ _) (World.signal_reaudit f rs
      { m.world with feeds := m.world.feeds.setIfInBounds i feed.next.2 } (.advanced i feed.next.1))

theorem poll_reaudit (d : Nat) : (m.reaudit f rs).poll d = (m.poll d).reaudit f rs := by
  have hs : (m.reaudit f rs).world.streams = m.world.streams := rfl
  unfold poll
  rw [getElem?_drivers_reaudit]
  cases m.world.drivers[d]? with
  | none => rfl
  | some t =>
    simp only [Option.map_some, StreamTask.reaudit, hs]
    cases m.world.streams[t.stream]? with
    | none => rfl
    | some s =>
      exact congrArg (fun w => Machine.mk w _ _) (World.signal_reaudit f rs
        { m.world with streams := m.world.streams.setIfInBounds t.stream (s.poll t.task).2 }
        (.polled t.stream (s.poll t.task).1))

theorem spawn_reaudit (d : Nat) : (m.reaudit f rs).spawn d = (m.spawn d).reaudit f rs := by
  simp only [spawn, reaudit, World.reaudit]
  rw [map_modify_comm (fun t : StreamTask => t.reaudit f) m.world.drivers d
    (fun t => { t with task := some m.world.schedule.tasks.size })
    (fun t => { t with task := some m.world.schedule.tasks.size }) fun _ => rfl]
  rfl

theorem wakeTask_reaudit (t : Option Nat) :
    (m.reaudit f rs).wakeTask t = (m.wakeTask t).reaudit f rs := by
  cases t <;> rfl

theorem push_reaudit (i : Nat) (items : List Item) (close : Bool) :
    (m.reaudit f rs).push i items close = (m.push i items close).reaudit f rs := by
  have hs : (m.reaudit f rs).world.streams = m.world.streams := rfl
  unfold push
  rw [hs]
  cases m.world.streams[i]? with
  | none => rfl
  | some s =>
    exact wakeTask_reaudit f rs { m with world := { m.world with
      streams := m.world.streams.setIfInBounds i (s.push items close).2 } } (s.push items close).1

theorem setTimer_reaudit (i due : Nat) :
    (m.reaudit f rs).setTimer i due = (m.setTimer i due).reaudit f rs := by
  have ht : (m.reaudit f rs).world.tickers = m.world.tickers := rfl
  unfold setTimer
  rw [ht]
  cases m.world.tickers[i]? <;> rfl

theorem run_reaudit (t : Nat) : (m.reaudit f rs).run t = (m.run t).reaudit f rs := by
  have hs : (m.reaudit f rs).world.schedule = m.world.schedule := rfl
  unfold run
  rw [hs]
  cases m.world.schedule.tasks[t]? with
  | none => rfl
  | some task =>
    let m' : Machine := { m with stack := .task t :: m.stack }
    obtain ⟨job, status⟩ := task
    cases job with
    | driver i => exact enterDriver_reaudit f rs m' i .run
    | ticker i => exact enterTicker_reaudit f rs m' i (.run m.world.schedule.now)

theorem turn_reaudit : (m.reaudit f rs).turn = m.turn.reaudit f rs := by
  have hs : (m.reaudit f rs).world.schedule = m.world.schedule := rfl
  unfold turn
  simp only [hs]
  cases m.world.schedule.start? <;> rfl

theorem settle_reaudit : (m.reaudit f rs).settle = m.settle.reaudit f rs := by
  have hs : (m.reaudit f rs).world.schedule = m.world.schedule := rfl
  unfold settle
  rw [hs]
  split <;> rfl

theorem advanceTo_reaudit (deadline : Nat) :
    (m.reaudit f rs).advanceTo deadline = (m.advanceTo deadline).reaudit f rs := by
  have hs : (m.reaudit f rs).world.schedule = m.world.schedule := rfl
  unfold advanceTo
  simp only [hs]
  cases m.world.schedule.timers with
  | nil => rfl
  | cons timer rest => simp only; split <;> rfl

end Machine
end Sluice
