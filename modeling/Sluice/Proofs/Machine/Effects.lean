import Sluice.Proofs.Audits.Reports
import Sluice.Proofs.Machine.Runs

/-!
# What sections come to

A section of a machine lets one component run, or works on one part of the world itself.
`Effect` lists the ends that a section can have. Whoever has to know what no section does, or
what only the sections about one part do, goes through that list and opens no section.
-/

namespace Sluice

inductive Part
  | subscribers
  | sequences
  | subjects
  | manuals
  | drivers
  | tickers
  | targets
  | handles
  | polls
  | tasks
  | turns
  | rest

namespace Machine

/-- `m'` comes of a section about `p` that began in `m`. -/
inductive Effect (m : Machine) : Part → Machine → Prop
  | answer {p : Part} (r : Reply) : Effect m p (m.answer r)
  | unwind {p : Part} (why : Panic) : Effect m p (m.unwind why)
  -- A component runs, or the environment in its place.
  | sink (i : Nat) (r : Sink Link × Move (Sink.Out Link) Sink.Frame) :
      Effect m .subscribers (m.sinkSection i r)
  | assign (i : Nat) (rule : WriteRule)
      (r : Assign Link Nat × Move (Assign.Out Link Nat) (Assign.Frame Nat)) :
      Effect m .subscribers (m.assignSection i rule r)
  | stuck : Effect m .subscribers { m with control := .stuck }
  | custom (i : Nat) (q : Question) : Effect m .subscribers (m.call (.custom i) (.ask q))
  | sequence (n : Nat) (r : Sequence Outlet × Move (Sequence.Out Outlet) (Sequence.Frame Outlet)) :
      Effect m .sequences (m.sequenceSection n r)
  | subject (n : Nat) (r : Subject Outlet × Move (Subject.Out Outlet) (Subject.Frame Outlet)) :
      Effect m .subjects (m.subjectSection n r)
  | keep (n : Nat) (dest : Outlet) : Effect m .manuals
      { m with
        world := { m.world with manuals := m.world.manuals.modify n fun kept => kept ++ [dest] }
        control := .answering .done }
  | driver (d : Nat) (r : Driver Outlet × Move (Driver.Out Outlet) (Driver.Frame Outlet)) :
      Effect m .drivers (m.driverSection d r)
  | ticker (n : Nat) (r : Ticker × Move Ticker.Out Ticker.Frame) :
      Effect m .tickers (m.tickerSection n r)
  | ask (q : Question) : Effect m .rest (m.ask q)
  | asked (q : Question) (r : Reply) :
      Effect m .rest { m with stack := .asked q :: m.stack, control := .idle (.returned r) }
  | request (n : Nat) (d : Demand) : Effect m .rest (m.tail (.ask (.request n d)))
  | cancel (n : Nat) : Effect m .rest (m.tail (.ask (.cancel n)))
  -- A target is written.
  | store (t : Nat) (v : Value) (c : Cell) : Effect m .targets
      { m with world := m.world.modifyTarget t (·.store v c), control := .answering .done }
  | set (t : Nat) (v : Value) (id : Nat) : Effect m .targets
      { m with
        world := m.world.modifyTarget t (·.store v .first)
        stack := .setting t :: m.stack
        control := .calling (.ask (.setter id v)) }
  | written (t : Nat) : Effect m .targets
      { m with world := m.world.modifyTarget t Target.countUp, control := .answering .done }
  -- A handle comes, is used, and goes.
  | attached (i : Nat) : Effect m .handles
      { m with
        world := { m.world with handles := m.world.handles.push { subscriber := i } }
        control := .answering (.handle m.world.handles.size) }
  | resumes (h n s : Nat) : Effect m .handles (m.call (.handle h n) (.tell s .resume))
  | cancels (h s : Nat) : Effect m .handles (m.call (.handle h 0) (.tell s .cancel))
  | drop (h : Nat) : Effect m .handles
      { m with world := m.world.setHandle h .dropped, control := .answering .done }
  | close (h s : Nat) : Effect m .handles
      (call { m with world := m.world.setHandle h .dropped } (.closing h) (.tell s .cancel))
  | lastUse (h s : Nat) : Effect m .handles (m.call (.closing h) (.tell s .cancel))
  | closed (h : Nat) : Effect m .handles
      { m with world := m.world.setHandle h .closed, control := .answering .done }
  | resume (s n : Nat) : Effect m .rest (m.call (.resumer s n) (.tell s .resume))
  -- An iterator is read, and streams are fed and polled.
  | advance (n : Nat) (feeds : Array Feed) (v : Option Value) : Effect m .rest
      { m with
        world := { m.world with feeds := feeds }.signal (.advanced n v)
        control := .answering (.item v) }
  | push {n : Nat} {s : Stream} (hs : m.world.streams[n]? = some s) (hw : s.waker = none)
      (items : List Item) (close : Bool) : Effect m .rest
      { m with
        world := { m.world with
          streams := m.world.streams.setIfInBounds n (s.push items close).2 }
        control := .answering .done }
  | pushWaking {n t : Nat} {s : Stream} (hs : m.world.streams[n]? = some s)
      (hw : s.waker = some t) (items : List Item) (close : Bool) : Effect m .rest
      { m with
        world := World.wake { m.world with
          streams := m.world.streams.setIfInBounds n (s.push items close).2 } t
        control := .answering .done }
  | poll (n : Nat) (streams : Array Stream) (p : Poll) : Effect m .polls
      (call { m with world := { m.world with streams := streams }.signal (.polled n p) }
        (.polling p) (.ask (.poll n)))
  -- Tasks are started, woken and run, and time passes.
  | spawn (d : Nat) : Effect m .tasks (m.spawn d)
  | wake (t : Nat) : Effect m .rest { m with world := m.world.wake t, control := .answering .done }
  | setTimer (due t : Nat) : Effect m .rest
      { m with
        world := { m.world with schedule := m.world.schedule.setTimer due t }
        control := .answering .done }
  | turn {t : Nat} {s : Schedule} (hs : m.world.schedule.start? = some (t, s)) : Effect m .turns
      (call { m with world := { m.world with schedule := s } } .turning (.run t))
  | turned : Effect m .turns
      { m with
        world := { m.world with schedule := m.world.schedule.wakeYielded }
        control := .answering .done }
  | settle : Effect m .rest (m.call .settling .turn)
  | advanceClock (deadline : Nat) : Effect m .rest (m.call (.advancing deadline) .settle)
  | jumpClock (ms : Nat) : Effect m .rest (m.call (.jumping ms) .settle)
  | stop (now deadline : Nat) : Effect m .rest
      (call (m.moveClock now) (.advancing deadline) .settle)
  | arrive (now : Nat) : Effect m .rest (answer (m.moveClock now) .done)
  | jump (now : Nat) : Effect m .rest (tail (m.moveClock now) .settle)

variable (m : Machine)

theorem move_world {Out F : Type} (w : World) (out : Out → Call) (frame : F → Frame)
    (mv : Move Out F) : (m.move w out frame mv).world = w := by
  cases mv <;> rfl

theorem tell_effect (i : Nat) (msg : Message Link) : Effect m .subscribers (m.tell i msg) := by
  unfold tell
  split
  · split
    · split
      · exact .stuck
      · exact .sink i _
    · exact .sink i _
  · exact .assign i _ _
  · split
    · exact .custom i _
    · exact .answer _
  · exact .answer _

theorem enterSequence_effect (n : Nat) (input : Sequence.In Outlet) :
    Effect m .sequences (m.enterSequence n input) := by
  unfold enterSequence
  split
  · exact .sequence n _
  · exact .answer _

theorem enterSubject_effect (n : Nat) (input : Subject.In Outlet) :
    Effect m .subjects (m.enterSubject n input) := by
  unfold enterSubject
  split
  · exact .subject n _
  · exact .answer _

theorem enterDriver_effect (d : Nat) (input : Driver.In Outlet) :
    Effect m .drivers (m.enterDriver d input) := by
  unfold enterDriver
  split
  · exact .driver d _
  · exact .answer _

theorem enterTicker_effect (n : Nat) (input : Ticker.In) :
    Effect m .tickers (m.enterTicker n input) := by
  unfold enterTicker
  split
  · exact .ticker n _
  · exact .answer _

end Machine

def Tap.part : Tap → Part
  | inert | custom _ => .rest
  | sequence _ => .sequences
  | subject _ _ => .subjects
  | driver _ => .drivers

def Origin.part : Origin → Part
  | sequence _ => .sequences
  | subject _ => .subjects
  | manual _ => .manuals
  | stream _ _ => .drivers

namespace Machine

variable (m : Machine)

theorem requestTap_effect (d : Demand) (τ : Tap) : Effect m τ.part (m.requestTap d τ) := by
  cases τ with
  | inert => exact .answer _
  | sequence n => exact enterSequence_effect m n _
  | subject n e => exact enterSubject_effect m n _
  | driver n => exact enterDriver_effect m n _
  | custom n => exact .request n d

theorem cancelTap_effect (τ : Tap) : Effect m τ.part (m.cancelTap τ) := by
  cases τ with
  | inert => exact .answer _
  | sequence n => exact enterSequence_effect m n _
  | subject n e => exact enterSubject_effect m n _
  | driver n => exact enterDriver_effect m n _
  | custom n => exact .cancel n

theorem request_effect (link : Link) (d : Demand) : ∃ rs,
    Effect { m with world := { m.world with reports := rs } } link.tap.part (m.request link d) := by
  unfold request
  rw [World.audit_eq]
  refine ⟨(Audit.record m.world.auditClock d m.world.reports link.audits).1, ?_⟩
  cases (Audit.record m.world.auditClock d m.world.reports link.audits).2 with
  | some v => exact .unwind (.violation v)
  | none => exact requestTap_effect _ d link.tap

theorem subscribe_effect (source : Source) (i : Nat) : ∃ ds,
    Effect { m with world := { m.world with drivers := ds } } source.origin.part
      (m.subscribe source i) := by
  obtain ⟨audits, origin⟩ := source
  cases origin with
  | sequence n => exact ⟨m.world.drivers, enterSequence_effect m n _⟩
  | subject n => exact ⟨m.world.drivers, enterSubject_effect m n _⟩
  | manual n => exact ⟨m.world.drivers, .keep n _⟩
  | stream n pace => exact ⟨_, enterDriver_effect _ _ _⟩

theorem write_effect (t : Nat) (v : Value) (rule : WriteRule) :
    Effect m .targets (m.write t v rule) := by
  cases rule with
  | cell c => exact .store t v c
  | setter id => exact .set t v id

theorem useHandle_effect (h : Nat) (use : HandleUse) : Effect m .handles (m.useHandle h use) := by
  unfold useHandle
  split
  · exact .resumes h _ _
  · exact .cancels h _
  · exact .answer _

theorem dropHandle_effect (h : Nat) : Effect m .handles (m.dropHandle h) := by
  unfold dropHandle
  split
  · dsimp only
    split
    · exact .drop h
    · exact .close h _
  · exact .answer _

theorem resumeAlive_effect (s n : Nat) : Effect m .rest (m.resumeAlive s n) := by
  unfold resumeAlive
  split
  · exact .answer _
  · split
    · exact .resume s _
    · exact .answer _

theorem advance_effect (n : Nat) : Effect m .rest (m.advance n) := by
  unfold advance
  split
  · exact .advance n _ _
  · exact .answer _

theorem poll_effect (d : Nat) : Effect m .polls (m.poll d) := by
  unfold poll
  split
  · split
    · exact .poll _ _ _
    · exact .answer _
  · exact .answer _

theorem wakeTask_effect (t : Option Nat) : Effect m .rest (m.wakeTask t) := by
  cases t with
  | none => exact .answer _
  | some t => exact .wake t

theorem push_effect (n : Nat) (items : List Item) (close : Bool) :
    Effect m .rest (m.push n items close) := by
  unfold push
  split
  · next s hs =>
    cases hw : s.waker with
    | none =>
      have h := Effect.push hs hw items close
      simp only [Stream.push, hw] at h ⊢
      exact h
    | some t =>
      have h := Effect.pushWaking hs hw items close
      simp only [Stream.push, hw] at h ⊢
      exact h
  · exact .answer _

theorem setTimer_effect (n due : Nat) : Effect m .rest (m.setTimer n due) := by
  unfold setTimer
  split
  · exact .setTimer due _
  · exact .answer _

theorem turn_effect : Effect m .turns m.turn := by
  unfold turn
  dsimp only
  split
  · next hs => exact .turn hs
  · exact .turned

theorem settle_effect : Effect m .rest m.settle := by
  unfold settle
  split
  · exact .answer _
  · exact .settle

theorem advanceTo_effect (deadline : Nat) : Effect m .rest (m.advanceTo deadline) := by
  unfold advanceTo
  dsimp only
  split
  · split
    · exact .stop _ deadline
    · exact .arrive deadline
  · exact .arrive deadline

end Machine

/-- What the section is about that a call begins with, unless the call prepares something first. -/
def Call.part : Call → Option Part
  | subscribe _ _ | attach _ _ | request _ _ | run _ => none
  | tell _ _ => some .subscribers
  | cancel link => some link.tap.part
  | send _ _ | complete _ _ => some .subjects
  | write _ _ _ => some .targets
  | useHandle _ _ | dropHandle _ => some .handles
  | poll _ => some .polls
  | spawn _ => some .tasks
  | turn => some .turns
  | abort _ => some .tickers
  | _ => some .rest

/-- What the section is about that follows the reply to a frame, unless it ends a task or may drop
a stream. -/
def Frame.part : Frame → Option Part
  | driver _ _ | task _ => none
  | sink _ _ | assign _ _ | custom _ => some .subscribers
  | sequence _ _ => some .sequences
  | subject _ _ => some .subjects
  | ticker _ _ => some .tickers
  | setting _ => some .targets
  | attaching _ | handle _ _ | closing _ => some .handles
  | turning => some .turns
  | _ => some .rest

namespace Machine

theorem enter_effect (m : Machine) {c : Call} {p : Part} (hp : c.part = some p) :
    Effect m p (m.enter c) := by
  cases c with
  | subscribe source i => cases hp
  | attach source i => cases hp
  | request link d => cases hp
  | run t => cases hp
  | ask q => cases hp; exact .ask q
  | tell i msg => cases hp; exact tell_effect m i msg
  | cancel link => cases hp; exact cancelTap_effect m link.tap
  | send n v => cases hp; exact enterSubject_effect m n _
  | complete n c => cases hp; exact enterSubject_effect m n _
  | write t rule v => cases hp; exact write_effect m t v rule
  | useHandle h use => cases hp; exact useHandle_effect m h use
  | dropHandle h => cases hp; exact dropHandle_effect m h
  | resumeAlive s n => cases hp; exact resumeAlive_effect m s n
  | inspect s => cases hp; exact .answer _
  | advance n => cases hp; exact advance_effect m n
  | poll d => cases hp; exact poll_effect m d
  | spawn d => cases hp; exact .spawn d
  | wakeDriver d => cases hp; exact wakeTask_effect m _
  | push n items close => cases hp; exact push_effect m n items close
  | setTimer n due => cases hp; exact setTimer_effect m n due
  | wakeTicker n => cases hp; exact wakeTask_effect m _
  | abort n => cases hp; exact enterTicker_effect m n _
  | fail why => cases hp; exact .unwind why
  | turn => cases hp; exact turn_effect m
  | settle => cases hp; exact settle_effect m
  | advanceClock ms => cases hp; exact .advanceClock _
  | jumpClock ms => cases hp; exact .jumpClock ms

theorem proceed_effect (m : Machine) (r : Reply) {f : Frame} {p : Part} (hp : f.part = some p) :
    Effect m p (m.proceed r f) := by
  cases f with
  | driver d f => cases hp
  | task t => cases hp
  | asked q => cases hp; exact .asked q r
  | sink i f =>
    cases hp
    simp only [proceed, proceedSink]
    split
    · exact .sink i _
    · exact .answer _
  | assign i f =>
    cases hp
    simp only [proceed, proceedAssign]
    split
    · exact .assign i _ _
    · exact .answer _
  | custom i => exact .answer r
  | sequence n f =>
    cases hp
    simp only [proceed, proceedSequence]
    split
    · exact .sequence n _
    · exact .answer _
  | subject n f =>
    cases hp
    simp only [proceed, proceedSubject]
    split
    · exact .subject n _
    · exact .answer _
  | ticker n f =>
    cases hp
    simp only [proceed, proceedTicker]
    split
    · exact .ticker n _
    · exact .answer _
  | setting t => cases hp; exact .written t
  | polling q => exact .answer _
  | attaching i => cases hp; exact .attached i
  | handle h n =>
    cases hp
    cases n with
    | succ n => exact useHandle_effect m h _
    | zero =>
      simp only [proceed]
      split
      · exact .lastUse h _
      · exact .answer _
  | closing h => cases hp; exact .closed h
  | rethrow why => exact .unwind why
  | resumer s n =>
    cases hp
    cases n with
    | zero => exact .answer _
    | succ n => exact resumeAlive_effect m s (n + 1)
  | turning => cases hp; exact turn_effect m
  | settling => cases hp; exact settle_effect m
  | advancing deadline => cases hp; exact advanceTo_effect m deadline
  | jumping ms => cases hp; exact .jump _

end Machine
end Sluice
