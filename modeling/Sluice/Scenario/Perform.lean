import Sluice.Scenario.Stage

/-!
# Performing steps

A step is answered at once or by a call of the machine. What a step makes is in
place before its call starts, but a handle gets its name only when the call
that attaches it has returned.
-/

namespace Sluice.Scenario

inductive Action
  | answer (a : Answer)
  | call (c : Call) (f : Finish)

namespace Stage

def addSubscriber (s : Stage) (sub : Subscriber) (part : Part) : Nat × Stage :=
  (s.machine.world.subscribers.size,
    { s.setWorld (s.machine.world.addSubscriber sub) with subscribers := s.subscribers.push part })

def addSetter (s : Stage) (name : String) : WriteSpec Step → WriteRule × Stage
  | .cell c => (.cell c, s)
  | .setter script =>
    let part : Part := { name := name, script := script }
    (.setter s.setters.size, { s with setters := s.setters.push part })

def addAssign (s : Stage) (name : String) (target : Nat) (write : WriteSpec Step)
    (mode : Assign.Mode) : Nat × Stage :=
  let (rule, s) := s.addSetter name write
  s.addSubscriber (.assign { mode := mode, target := some target } rule) { name := name }

def addRecorder (s : Stage) (name : String) (script : Script Step) : Nat × Stage :=
  (s.recorders.size, { s with recorders := s.recorders.push { name := name, script := script } })

def addStream (s : Stage) (spec : StreamSpec Step) : Nat × Stage :=
  let i := s.machine.world.streams.size
  let w := s.machine.world.addStream (spec.items.map ScriptedItem.item) spec.closed
  let part : StreamPart := { name := spec.name, steps := spec.items.map ScriptedItem.steps }
  (i, { (s.setWorld w).bind spec.name (.stream i) with streams := s.streams.push part })

/-- Makes a source, inner parts first, and says whether a failure can come out of it. -/
def makeSource (s : Stage) : SourceSpec Step → Stage × Except Answer (Source × Bool)
  | .sequence name feed =>
    let i := s.machine.world.sequences.size
    ({ s.setWorld (s.machine.world.addSequence feed) with sequences := s.sequences.push name },
      .ok (⟨[], .sequence i⟩, false))
  | .subject name =>
    match s.find? name with
    | some (.subject i fallible) => (s, .ok (⟨[], .subject i⟩, fallible))
    | _ => (s, .error (.refused .missing))
  | .manual name =>
    match s.find? name with
    | some (.manual i fallible) => (s, .ok (⟨[], .manual i⟩, fallible))
    | _ => (s, .error (.refused .missing))
  | .audited name limits inner =>
    match s.makeSource inner with
    | (s, .ok (source, fallible)) =>
      let i := s.machine.world.reports.size
      ((s.setWorld (s.machine.world.addReport limits)).bind name (.report i),
        .ok ({ source with audits := i :: source.audits }, fallible))
    | failed => failed
  | .stream spec =>
    let (i, s) := s.addStream spec
    if spec.hasRuntime then (s, .ok (⟨[], .stream i spec.pace⟩, spec.fallible))
    else (s.setWorld (s.machine.world.dropStream i), .error .noRuntime)

/-- A source that is not subscribed to takes its stream with it. -/
def discard (s : Stage) (source : Source) : Stage :=
  match source.origin with
  | .stream i _ => s.setWorld (s.machine.world.dropStream i)
  | _ => s

def outlet? (s : Stage) (name : String) : Option (Outlet × Bool) :=
  match s.find? name with
  | some (.sink i fallible) | some (.custom i fallible) => some (⟨[], i⟩, fallible)
  | some (.assign i) => some (⟨[], i⟩, false)
  | some (.manual i fallible) =>
    (s.machine.world.manuals[i]?.bind List.getLast?).map fun dest => (dest, fallible)
  | _ => none

def subscriber? (s : Stage) (name : String) : Option (Nat × Bool) :=
  match s.find? name with
  | some (.sink i fallible) | some (.custom i fallible) => some (i, fallible)
  | some (.assign i) => some (i, false)
  | _ => none

def link? (s : Stage) (name : String) (index : Option Nat) : Option Link :=
  match s.find? name with
  | some (.custom i _) =>
    match index with
    | some n => (s.links i)[n]?
    | none => (s.links i).getLast?
  | _ => none

def target? (s : Stage) (name : String) : Option Nat :=
  match s.find? name with
  | some (.target i) => some i
  | _ => none

def missing : Action := .answer (.refused .missing)

def refuseFailure (fallible : Bool) (c : Ending) (act : Action) : Action :=
  if fallible || c.isFinished then act else .answer (.refused .infallible)

def attachSink (s : Stage) (name : String) (spec : SourceSpec Step) (script : Script Step) :
    Stage × Action :=
  match s.makeSource spec with
  | (s, .error a) => (s, .answer a)
  | (s, .ok (source, _)) =>
    let (i, s) := s.addSubscriber (.sink {}) { name := name, script := script }
    (s, .call (.attach source i) (.attached name))

def attachAssign (s : Stage) (name : String) (spec : SourceSpec Step) (target : String)
    (write : WriteSpec Step) (mode : Assign.Mode) : Stage × Action :=
  match s.target? target with
  | none => (s, missing)
  | some t =>
    match s.makeSource spec with
    | (s, .error a) => (s, .answer a)
    | (s, .ok (source, true)) => (s.discard source, .answer (.refused .fallible))
    | (s, .ok (source, false)) =>
      let (i, s) := s.addAssign name t write mode
      (s, .call (.attach source i) (.attached name))

def subscribe (s : Stage) (of : String) (spec : SourceSpec Step) : Stage × Action :=
  match s.subscriber? of with
  | none => (s, missing)
  | some (i, takes) =>
    match s.makeSource spec with
    | (s, .error a) => (s, .answer a)
    | (s, .ok (source, fallible)) =>
      if takes == fallible then (s, .call (.subscribe source i) .nothing)
      else (s.discard source, .answer (.refused .mismatch))

def drop (s : Stage) (of : String) : Stage × Action :=
  match s.find? of with
  | none => (s, .answer (.flag false))
  | some (.handle h) => (s.forget of, .call (.dropHandle h) .yes)
  | some (.sink i _) | some (.assign i) =>
    ((s.forget of).setWorld (s.machine.world.disown i), .answer (.flag true))
  | some (.manual i _) =>
    ((s.forget of).setWorld (s.machine.world.dropManual i), .answer (.flag true))
  | some _ => (s.forget of, .answer (.flag true))

def perform (s : Stage) : Step → Stage × Action
  | .subject name fallible =>
    let i := s.machine.world.subjects.size
    ((s.setWorld s.machine.world.addSubject).bind name (.subject i fallible), .answer .nothing)
  | .manual name fallible =>
    let i := s.machine.world.manuals.size
    ((s.setWorld s.machine.world.addManual).bind name (.manual i fallible), .answer .nothing)
  | .custom name fallible script =>
    let (i, s) := s.addSubscriber .custom { name := name, script := script }
    (s.bind name (.custom i fallible), .answer .nothing)
  | .target name cells =>
    let i := s.machine.world.targets.size
    ((s.setWorld (s.machine.world.addTarget cells)).bind name (.target i), .answer .nothing)
  | .sink name fallible script =>
    let (i, s) := s.addSubscriber (.sink {}) { name := name, script := script }
    ((s.setWorld (s.machine.world.own i)).bind name (.sink i fallible), .answer .nothing)
  | .assign name target write mode =>
    match s.target? target with
    | none => (s, missing)
    | some t =>
      let (i, s) := s.addAssign name t write mode
      ((s.setWorld (s.machine.world.own i)).bind name (.assign i), .answer .nothing)
  | .attachSink name source script => s.attachSink name source script
  | .attachAssign name source target write mode => s.attachAssign name source target write mode
  | .drop of => s.drop of
  | .resumer of name =>
    match s.find? of with
    | some (.handle h) =>
      match s.machine.world.handles[h]? with
      | some handle => (s.bind name (.resumer handle.subscriber), .answer .nothing)
      | none => (s, missing)
    | _ => (s, missing)
  | .cloneResumer of name =>
    match s.find? of with
    | some (.resumer i) => (s.bind name (.resumer i), .answer .nothing)
    | _ => (s, missing)
  | .ticker of name period =>
    match s.find? of with
    | some (.resumer i) =>
      let t := s.machine.world.tickers.size
      ((s.setWorld (s.machine.world.addTicker i period)).bind name (.ticker t), .answer .nothing)
    | _ => (s, missing)
  | .subscribe of source => s.subscribe of source
  | .send of v =>
    match s.find? of with
    | some (.subject i _) => (s, .call (.send i v) .count)
    | _ => (s, missing)
  | .complete of c =>
    match s.find? of with
    | some (.subject i fallible) => (s, refuseFailure fallible c (.call (.complete i c) .nothing))
    | _ => (s, missing)
  | .give of name script =>
    match s.outlet? of with
    | some (dest, _) =>
      let (i, s) := s.addRecorder name script
      (s, .call (Machine.handOver dest (.custom i)) .nothing)
    | none => (s, missing)
  | .receive of v =>
    match s.outlet? of with
    | some (dest, _) => (s, .call (.tell dest.subscriber (.value v)) .demand)
    | none => (s, missing)
  | .finish of c =>
    match s.outlet? of with
    | some (dest, takes) =>
      (s, refuseFailure takes c (.call (.tell dest.subscriber (.completion c)) .nothing))
    | none => (s, missing)
  | .request of d index =>
    match s.link? of index with
    | some link => (s, .call (.request link d) .nothing)
    | none => (s, missing)
  | .cancelSubscription of index =>
    match s.link? of index with
    | some link => (s, .call (.cancel link) .nothing)
    | none => (s, missing)
  | .resume of =>
    match s.find? of with
    | some (.handle h) => (s, .call (.useHandle h (.resume 1)) .nothing)
    | some (.resumer i) => (s, .call (.resumeAlive i 1) .flag)
    | some (.sink i _) | some (.assign i) => (s, .call (.tell i .resume) .nothing)
    | _ => (s, missing)
  | .cancel of =>
    match s.find? of with
    | some (.handle h) => (s, .call (.useHandle h .cancel) .nothing)
    | some (.sink i _) | some (.assign i) => (s, .call (.tell i .cancel) .nothing)
    | _ => (s, missing)
  | .resumeTimes of times =>
    match s.find? of with
    | some (.handle h) => (s, .call (.useHandle h (.resume times)) .nothing)
    | _ => (s, missing)
  | .resumeThreads of threads times =>
    match s.find? of with
    | some (.handle h) =>
      match s.machine.world.handles[h]? with
      | some handle => (s, .call (.resumeAlive handle.subscriber (threads * times)) .nothing)
      | none => (s, missing)
    | some (.resumer i) => (s, .call (.resumeAlive i (threads * times)) .nothing)
    | _ => (s, missing)
  | .write of name write v =>
    match s.target? of with
    | some t =>
      let (rule, s) := s.addSetter name write
      (s, .call (.write t rule v) .nothing)
    | none => (s, missing)
  | .push of items close =>
    match s.find? of with
    | some (.stream i) =>
      let s := { s with streams := s.streams.modify i fun part =>
        { part with steps := part.steps ++ items.map ScriptedItem.steps } }
      (s, .call (.push i (items.map ScriptedItem.item) close) .nothing)
    | _ => (s, missing)
  | .abort of =>
    match s.find? of with
    | some (.ticker i) => (s, .call (.abort i) .nothing)
    | _ => (s, missing)
  | .state of =>
    match (s.find? of).bind s.view? with
    | some v => (s, .answer (.view v))
    | none => (s, missing)
  | .snapshot => (s, .answer (.snapshot s.snapshot))
  | .debug of =>
    match (s.find? of).bind (debugText? s.machine s.targetKind) with
    | some t => (s, .answer (.text t))
    | none => (s, missing)
  | .settle => (s, .call .settle .nothing)
  | .turn => (s, .call .turn .nothing)
  | .advance ms => (s, .call (.advanceClock ms) .nothing)
  | .jump ms => (s, .call (.jumpClock ms) .nothing)

def finish (s : Stage) (r : Reply) : Finish → Stage × Answer
  | .nothing => (s, .nothing)
  | .demand => (s, .demand r.granted)
  | .count => (s, match r with | .count n => .count n | _ => .nothing)
  | .flag => (s, .flag r.holds)
  | .yes => (s, .flag true)
  | .attached name =>
    match r with
    | .handle h =>
      match s.machine.world.handles[h]? with
      | some handle => (s.bind name (.handle h), .text (statusOf s.machine handle.subscriber).text)
      | none => (s, .nothing)
    | _ => (s, .nothing)

end Stage
end Sluice.Scenario
