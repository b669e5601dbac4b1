import Sluice.Proofs.Audits.Reaudit
import Sluice.Proofs.Audits.Reports

/-!
# Steps under other audits

Only a request reads the audits of a link, and all it does with them is to record
itself in reports. Every other step commutes with a change of the audits; a request
does as long as no report raises, up to the reports.
-/

namespace Sluice

variable (f : List Nat → List Nat) (rs : Array Audit.Report)

namespace World

variable (w : World)

theorem dropJob_reaudit (j : Job) :
    Machine.dropJob (w.reaudit f rs) j = (Machine.dropJob w j).reaudit f rs := by
  cases j with
  | driver i =>
    have hd : (w.reaudit f rs).drivers[i]? = w.drivers[i]?.map (·.reaudit f) :=
      Array.getElem?_map
    unfold Machine.dropJob
    simp only [hd]
    cases w.drivers[i]? with
    | none => rfl
    | some t =>
      have hs := setDriver_reaudit f rs w i t.driver.stop
      exact (congrArg (World.dropStream · t.stream) hs).trans
        (dropStream_reaudit f rs (w.setDriver i t.driver.stop) t.stream)
  | ticker i =>
    have ht : (w.reaudit f rs).tickers = w.tickers := rfl
    unfold Machine.dropJob
    simp only [ht]
    cases w.tickers[i]? <;> rfl

theorem endTask_reaudit (t : Nat) :
    Machine.endTask (w.reaudit f rs) t = (Machine.endTask w t).reaudit f rs := by
  have hs : (w.reaudit f rs).schedule = w.schedule := rfl
  simp only [Machine.endTask, hs]
  cases (w.schedule.stop t .ended).tasks[t]? with
  | none => rfl
  | some task => exact dropJob_reaudit f rs { w with schedule := w.schedule.stop t .ended } task.job

end World

namespace Machine

variable (m : Machine)

theorem proceedSink_reaudit (i : Nat) (x : Sink.Frame) (r : Reply) :
    (m.reaudit f rs).proceedSink i x r = (m.proceedSink i x r).reaudit f rs := by
  unfold proceedSink
  rw [getElem?_subscribers_reaudit]
  cases m.world.subscribers[i]? with
  | none => rfl
  | some s =>
    cases s with
    | sink s =>
      simp only [Option.map_some, Subscriber.reaudit, Sink.proceed_map]
      exact sinkSection_reaudit f rs m i (s.proceed r x)
    | assign s rule => rfl
    | custom => rfl

theorem proceedAssign_reaudit (i : Nat) (x : Assign.Frame Nat) :
    (m.reaudit f rs).proceedAssign i x = (m.proceedAssign i x).reaudit f rs := by
  unfold proceedAssign
  rw [getElem?_subscribers_reaudit]
  cases m.world.subscribers[i]? with
  | none => rfl
  | some s =>
    cases s with
    | sink s => rfl
    | assign s rule =>
      simp only [Option.map_some, Subscriber.reaudit, Assign.proceed_map]
      exact assignSection_reaudit f rs m i rule (s.proceed x)
    | custom => rfl

theorem proceedSequence_reaudit (i : Nat) (x : Sequence.Frame Outlet) (r : Reply) :
    (m.reaudit f rs).proceedSequence i (x.map (·.reaudit f)) r =
      (m.proceedSequence i x r).reaudit f rs := by
  unfold proceedSequence
  rw [getElem?_sequences_reaudit]
  cases m.world.sequences[i]? with
  | none => rfl
  | some s =>
    simp only [Option.map_some, Sequence.proceed_map]
    exact sequenceSection_reaudit f rs m i (s.proceed r x)

theorem proceedSubject_reaudit (i : Nat) (x : Subject.Frame Outlet) (r : Reply) :
    (m.reaudit f rs).proceedSubject i (x.map (·.reaudit f)) r =
      (m.proceedSubject i x r).reaudit f rs := by
  unfold proceedSubject
  rw [getElem?_subjects_reaudit]
  cases m.world.subjects[i]? with
  | none => rfl
  | some s =>
    simp only [Option.map_some, Subject.proceed_map]
    exact subjectSection_reaudit f rs m i (s.proceed r x)

theorem proceedDriver_reaudit (i : Nat) (x : Driver.Frame Outlet) (r : Reply) :
    (m.reaudit f rs).proceedDriver i (x.map (·.reaudit f)) r =
      (m.proceedDriver i x r).reaudit f rs := by
  unfold proceedDriver
  rw [getElem?_drivers_reaudit]
  cases m.world.drivers[i]? with
  | none => rfl
  | some t =>
    have hs := driverSection_reaudit f rs m i (t.driver.proceed r x)
    simp only [Option.map_some, StreamTask.reaudit, Driver.proceed_map, hs]
    generalize m.driverSection i (t.driver.proceed r x) = m'
    have hd : { m'.reaudit f rs with world := (m'.reaudit f rs).world.dropStream t.stream } =
        Machine.reaudit { m' with world := m'.world.dropStream t.stream } f rs :=
      congrArg (fun w => Machine.mk w _ _) (World.dropStream_reaudit f rs m'.world t.stream)
    cases x with
    | opening dest =>
      simp only [Driver.Frame.map, Driver.map]
      cases t.driver.cancelled
      · rfl
      · exact hd
    | _ => rfl

theorem proceedTicker_reaudit (i : Nat) (x : Ticker.Frame) (r : Reply) :
    (m.reaudit f rs).proceedTicker i x r = (m.proceedTicker i x r).reaudit f rs := by
  have ht : (m.reaudit f rs).world.tickers = m.world.tickers := rfl
  unfold proceedTicker
  rw [ht]
  cases m.world.tickers[i]? with
  | none => rfl
  | some t => exact tickerSection_reaudit f rs m i (t.ticker.proceed r x)

theorem stopTask_reaudit (t : Nat) (p : Pause) :
    (m.reaudit f rs).stopTask t p = (m.stopTask t p).reaudit f rs := by
  cases p with
  | ended => exact congrArg (fun w => Machine.mk w _ _) (World.endTask_reaudit f rs m.world t)
  | _ => rfl

theorem lastUse_reaudit (h : Nat) : (m.reaudit f rs).lastUse h = m.lastUse h := by
  have hh : (m.reaudit f rs).world.handles = m.world.handles := rfl
  simp only [lastUse, hh, stack_any_isUsing_reaudit]

theorem proceed_reaudit (r : Reply) (x : Frame) :
    (m.reaudit f rs).proceed r (x.reaudit f) = (m.proceed r x).reaudit f rs := by
  cases x with
  | sink i x => exact proceedSink_reaudit f rs m i x r
  | assign i x => exact proceedAssign_reaudit f rs m i x
  | sequence i x => exact proceedSequence_reaudit f rs m i x r
  | subject i x => exact proceedSubject_reaudit f rs m i x r
  | driver i x => exact proceedDriver_reaudit f rs m i x r
  | ticker i x => exact proceedTicker_reaudit f rs m i x r
  | handle h left =>
    cases left with
    | zero =>
      simp only [proceed, Frame.reaudit, lastUse_reaudit]
      cases m.lastUse h <;> rfl
    | succ n => exact useHandle_reaudit f rs m h (.resume (n + 1))
  | resumer i left =>
    cases left with
    | zero => rfl
    | succ n => exact resumeAlive_reaudit f rs m i (n + 1)
  | task t => exact stopTask_reaudit f rs m t r.paused
  | turning => exact turn_reaudit f rs m
  | settling => exact settle_reaudit f rs m
  | advancing deadline => exact advanceTo_reaudit f rs m deadline
  | _ => rfl

theorem unwound_reaudit (why : Panic) (x : Frame) :
    (m.reaudit f rs).unwound why (x.reaudit f) = (m.unwound why x).reaudit f rs := by
  cases x with
  | driver i x =>
    cases x with
    | opening dest =>
      simp only [unwound, Frame.reaudit, Driver.Frame.map, getElem?_drivers_reaudit]
      cases m.world.drivers[i]? with
      | none => rfl
      | some t =>
        have hs := World.setDriver_reaudit f rs m.world i t.driver.stop
        have hd := (congrArg (World.dropStream · t.stream) hs).trans
          (World.dropStream_reaudit f rs (m.world.setDriver i t.driver.stop) t.stream)
        exact congrArg (fun w => Machine.mk w _ _) hd
    | _ => rfl
  | task t => exact congrArg (fun w => Machine.mk w _ _) (World.endTask_reaudit f rs m.world t)
  | handle h left =>
    simp only [unwound, Frame.reaudit, lastUse_reaudit]
    cases m.lastUse h <;> rfl
  | _ => rfl

theorem enter_reaudit {c : Call} (hc : ∀ link d, c ≠ .request link d) :
    (m.reaudit f rs).enter (c.reaudit f) = (m.enter c).reaudit f rs := by
  cases c with
  | request link d => exact absurd rfl (hc link d)
  | ask q => exact ask_reaudit f rs m q
  | tell i msg => exact tell_reaudit f rs m i msg
  | subscribe source i => exact subscribe_reaudit f rs m source i
  | cancel link => exact cancelTap_reaudit f rs m link.tap
  | send i v => exact enterSubject_reaudit f rs m i (.send v)
  | complete i c => exact enterSubject_reaudit f rs m i (.complete c)
  | write t rule v => cases rule <;> rfl
  | useHandle h use => exact useHandle_reaudit f rs m h use
  | dropHandle h => exact dropHandle_reaudit f rs m h
  | resumeAlive i n => exact resumeAlive_reaudit f rs m i n
  | inspect i => simp only [enter, Call.reaudit, terminated_reaudit]; rfl
  | advance i => exact advance_reaudit f rs m i
  | poll d => exact poll_reaudit f rs m d
  | spawn d => exact spawn_reaudit f rs m d
  | wakeDriver d =>
    simp only [enter, Call.reaudit, getElem?_drivers_reaudit]
    cases m.world.drivers[d]? with
    | none => rfl
    | some t => exact wakeTask_reaudit f rs m t.task
  | push i items close => exact push_reaudit f rs m i items close
  | setTimer i due => exact setTimer_reaudit f rs m i due
  | wakeTicker i => exact wakeTask_reaudit f rs m (m.world.tickers[i]?.map TickerTask.task)
  | abort i => exact enterTicker_reaudit f rs m i .abort
  | run t => exact run_reaudit f rs m t
  | turn => exact turn_reaudit f rs m
  | settle => exact settle_reaudit f rs m
  | _ => rfl

theorem step_reaudit (hc : ∀ link d, m.control ≠ .calling (.request link d)) :
    (m.reaudit f rs).step = m.step.reaudit f rs := by
  obtain ⟨w, stack, control⟩ := m
  cases control with
  | calling c => exact enter_reaudit f rs _ fun link d h => hc link d (congrArg Control.calling h)
  | answering r =>
    cases stack with
    | nil => rfl
    | cons x rest => exact proceed_reaudit f rs ⟨w, rest, .answering r⟩ r x
  | unwinding why =>
    cases stack with
    | nil => rfl
    | cons x rest => exact unwound_reaudit f rs ⟨w, rest, .unwinding why⟩ why x
  | idle o => rfl
  | stuck => rfl

def withReports (rs : Array Audit.Report) : Machine :=
  { m with world := { m.world with reports := rs } }

theorem request_of_passed (link : Link) (d : Demand)
    (hr : (Audit.record m.world.auditClock d m.world.reports link.audits).2 = none) :
    m.request link d =
      (m.withReports (Audit.record m.world.auditClock d m.world.reports link.audits).1).requestTap
        d link.tap := by
  unfold request
  rw [m.world.audit_eq d link.audits, hr]
  rfl

theorem request_reaudit (link : Link) (d : Demand)
    (hm : (Audit.record m.world.auditClock d m.world.reports link.audits).2 = none)
    (hf : (Audit.record m.world.auditClock d rs (f link.audits)).2 = none) :
    (m.reaudit f rs).request (link.reaudit f) d =
      (m.request link d).reaudit f
        (Audit.record m.world.auditClock d rs (f link.audits)).1 := by
  have hl := request_of_passed (m.reaudit f rs) (link.reaudit f) d hf
  rw [hl, request_of_passed m link d hm]
  exact requestTap_reaudit f (Audit.record m.world.auditClock d rs (f link.audits)).1
    (m.withReports (Audit.record m.world.auditClock d m.world.reports link.audits).1) d link.tap

end Machine
end Sluice
