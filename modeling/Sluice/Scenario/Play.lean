import Sluice.Scenario.Perform

/-!
# Playing a scenario

The stage takes turns with its machine. When a question is open, its scene is
played: the scene's steps one after the other, then the answer of its script. A
panic takes the scenes of all calls that it ends off the stage.
-/

namespace Sluice.Scenario

namespace Stage

def closeWith (part : Part) (r : Reply) : Close :=
  if part.script.raisesAt part.calls then .raise part.calls else .reply r

def stepBeats (steps : List Step) : List Beat := steps.map .step

def counted (part : Part) (r : Reply) : Scene × Part :=
  ({ beats := stepBeats (part.script.stepsOf part.calls), close := closeWith part r },
    { part with calls := part.calls + 1 })

def plain (beats : List Beat) : Scene := { beats := beats, close := .reply .done }

def countedScene (parts : Array Part) (i : Nat) (verdict : Part → Reply) : Scene × Array Part :=
  match parts[i]? with
  | some part =>
    let (scene, part) := counted part (verdict part)
    (scene, parts.setIfInBounds i part)
  | none => (plain [], parts)

def scene (s : Stage) : Question → Scene × Stage
  | .predicate i _ =>
    let (scene, parts) := countedScene s.subscribers i fun p => .pull (p.script.pullAt p.calls)
    (scene, { s with subscribers := parts })
  | .value i _ =>
    let (scene, parts) := countedScene s.subscribers i fun p => .demand (p.script.demandAt p.calls)
    (scene, { s with subscribers := parts })
  | .setter i _ =>
    let (scene, parts) := countedScene s.setters i fun _ => .done
    (scene, { s with setters := parts })
  | .request i _ =>
    let (scene, parts) := countedScene s.recorders i fun _ => .done
    (scene, { s with recorders := parts })
  | .cancel i =>
    match s.recorders[i]? with
    | some part => (plain (stepBeats part.script.onCancel), s)
    | none => (plain [], s)
  | .handler i _ | .completion i _ =>
    match s.subscribers[i]? with
    | some part => (plain (stepBeats part.script.onDone), s)
    | none => (plain [], s)
  | .subscription i link =>
    match s.subscribers[i]? with
    | some part =>
      (plain (part.script.initial.map (.request link) ++ stepBeats part.script.onSubscription),
        { s with subscribers := s.subscribers.setIfInBounds i (part.keep link) })
    | none => (plain [], s)
  | .poll i =>
    match s.streams[i]? with
    | some part =>
      (plain (stepBeats (part.steps.headD [])),
        { s with streams := s.streams.setIfInBounds i { part with steps := part.steps.tail } })
    | none => (plain [], s)

def prune (s : Stage) (depth : Nat) : Stage :=
  { s with scenes := s.scenes.drop (s.scenes.length - depth) }

def depth (s : Stage) : Nat := s.machine.stack.countP Frame.isAsked

def openScene (s : Stage) (q : Question) : Stage :=
  let (scene, s) := (s.prune (s.depth - 1)).scene q
  { s with scenes := scene :: s.scenes, machine := s.machine.attend }

def close (s : Stage) (a : Answer) : Stage :=
  { s with pending := none, events := #[], results := s.results.push ⟨a, s.events⟩ }

def takeReply (s : Stage) (r : Reply) : Stage :=
  let s := s.prune s.depth
  let s := { s with machine := s.machine.attend }
  match s.scenes with
  | [] =>
    match s.pending with
    | some f =>
      let (s, a) := s.finish r f
      s.close a
    | none => s
  | scene :: rest =>
    match scene.pending with
    | some p =>
      let (s, a) := finish { s with scenes := { scene with pending := none } :: rest } r p.finish
      match p.word with
      | some word => s.record (.did word a)
      | none => s
    | none => s

def takePanic (s : Stage) (why : Panic) : Stage :=
  close { s with scenes := [], machine := s.machine.attend } (.panicked (panicText why))

def nextStep (s : Stage) : Stage :=
  match s.steps with
  | [] => s
  | step :: rest =>
    match perform { s with steps := rest } step with
    | (s, .answer a) => s.report.close a
    | (s, .call c f) => { s.report with pending := some f, machine := s.machine.invoke c }

def nextBeat (s : Stage) (scene : Scene) (rest : List Scene) : Stage :=
  match scene.beats with
  | [] =>
    match scene.close with
    | .reply r => { s with scenes := rest, machine := s.machine.reply r }
    | .raise call => { s with scenes := rest, machine := s.machine.raise (.raised call) }
  | .request link d :: beats =>
    { s with
      scenes := { scene with beats := beats, pending := some ⟨none, .nothing⟩ } :: rest
      machine := s.machine.invoke (.request link d) }
  | .step step :: beats =>
    match perform { s with scenes := { scene with beats := beats } :: rest } step with
    | (s, .answer a) => s.report.record (.did step.word a)
    | (s, .call c f) =>
      { s.report with
        scenes := { scene with beats := beats, pending := some ⟨some step.word, f⟩ } :: rest
        machine := s.machine.invoke c }

def tick (s : Stage) : Stage :=
  match s.machine.control with
  | .idle .start =>
    match s.scenes with
    | [] => s.nextStep
    | scene :: rest => s.nextBeat scene rest
  | .idle (.asked q) => s.openScene q
  | .idle (.returned r) => s.takeReply r
  | .idle (.panicked why) => s.takePanic why
  | .stuck => s
  | _ => report { s with machine := s.machine.step }

def isOver (s : Stage) : Bool :=
  match s.machine.control with
  | .idle .start => s.steps.isEmpty && s.scenes.isEmpty
  | _ => false

def isStuck (s : Stage) : Bool :=
  match s.machine.control with
  | .stuck => true
  | _ => false

def play : Nat → Stage → Stage
  | 0, s => s
  | fuel + 1, s => if s.isOver || s.isStuck then s else play fuel s.tick

end Stage

def results? (fuel : Nat) (targetKind : String) (steps : List Step) : Option (Array Result) :=
  let s := Stage.play fuel { targetKind := targetKind, steps := steps }
  if s.isOver then some s.results else none

end Sluice.Scenario
