import Sluice.Machine.Step
import Sluice.Proofs.Schedule

/-!
# Runs of a machine

While it is the environment's turn, the environment starts any call that is open
to it, runs any task that is queued, ends the question that is open, or changes
the world by new members and by letting go of old ones. Between two such turns
the machine takes its own steps. Tasks may thus run in any order and at any
moment, from inside other calls too.

A section, which is what a component does between two calls that leave it, is
atomic: the environment gets no turn within one. What another thread does between
two instructions of a section, such as a request between a driver's check of its
demand and its wait, is outside the model.
-/

namespace Sluice

/-- A stream belongs to one publisher, which starts one driver for it. -/
def Source.Fresh (source : Source) (w : World) : Prop :=
  match source.origin with
  | .stream i _ => i < w.streams.size ∧ ∀ (d : Nat) x, w.drivers[d]? = some x → x.stream ≠ i
  | _ => True

/-- The calls that the environment may start. The others are made by components only. -/
def Call.Public (w : World) : Call → Prop
  | .subscribe source _ | .attach source _ => source.Fresh w
  | .ask _ | .advance _ | .poll _ | .spawn _ | .wakeDriver _ | .setTimer _ _ | .wakeTicker _
  | .fail _ | .run _ => False
  | _ => True

inductive Subscriber.Fresh : Subscriber → Prop
  | sink : Fresh (.sink {})
  | assign (mode : Assign.Mode) (target : Nat) (rule : WriteRule) :
      Fresh (.assign { mode := mode, target := some target } rule)
  | custom : Fresh .custom

inductive World.Change (w : World) : World → Prop
  | subscriber {s : Subscriber} (hs : s.Fresh) : Change w (w.addSubscriber s)
  | sequence (feed : Feed) : Change w (w.addSequence feed)
  | subject : Change w w.addSubject
  | manual : Change w w.addManual
  | stream (items : List Item) (closed : Bool) : Change w (w.addStream items closed)
  | report (limits : Audit.Limits) : Change w (w.addReport limits)
  | target (t : Target) : Change w (w.addTarget t)
  | ticker (subscriber period : Nat) : Change w (w.addTicker subscriber period)
  | own (subscriber : Nat) : Change w (w.own subscriber)
  | disown (subscriber : Nat) : Change w (w.disown subscriber)
  | dropManual (i : Nat) : Change w (w.dropManual i)
  | dropStream (i : Nat) : Change w (w.dropStream i)

namespace Machine

def Idle (m : Machine) : Prop := ∃ o, m.control = .idle o

/-- No panic is on its way through the stack. -/
def Calm (m : Machine) : Prop :=
  match m.control with
  | .unwinding _ => False
  | _ => True

instance : DecidablePred Calm := fun m => by unfold Calm; split <;> infer_instance

def begin (m : Machine) (t : Nat) : Machine :=
  { m with
    world := { m.world with schedule := m.world.schedule.take t }
    control := .calling (.run t) }

inductive Next (m : Machine) : Machine → Prop
  | step : Next m m.step
  | attend (hm : m.Idle) : Next m m.attend
  | invoke {c : Call} (hm : m.Idle) (hc : c.Public m.world) : Next m (m.invoke c)
  | begin {t : Nat} (hm : m.Idle) (ht : t ∈ m.world.schedule.ready) : Next m (m.begin t)
  | reply (hm : m.Idle) (r : Reply) : Next m (m.reply r)
  | raise (hm : m.Idle) (why : Panic) : Next m (m.raise why)
  | change {w : World} (hm : m.Idle) (hw : m.world.Change w) : Next m { m with world := w }

/-- The machines that a run from the empty one comes to, as long as all of them are allowed. -/
inductive Reached (may : Machine → Prop) : Machine → Prop
  | start : Reached may {}
  | next {m m' : Machine} (h : Reached may m) (hn : m.Next m') (hm : may m') : Reached may m'

theorem Reached.invariant {m : Machine} {may P : Machine → Prop} (h : Reached may m) (start : P {})
    (next : ∀ {m m' : Machine}, P m → m.Next m' → may m' → P m') : P m := by
  induction h with
  | start => exact start
  | next _ hn hm ih => exact next ih hn hm

def steps (m : Machine) : Nat → Machine
  | 0 => m
  | n + 1 => (m.steps n).step

theorem steps_add (m : Machine) (a b : Nat) : m.steps (a + b) = (m.steps a).steps b := by
  induction b with
  | zero => rfl
  | succ b ih => exact congrArg step ih

theorem Reached.steps {m : Machine} {may : Machine → Prop} (h : Reached may m) (n : Nat)
    (hm : ∀ k < n, may (m.steps (k + 1))) : Reached may (m.steps n) := by
  induction n with
  | zero => exact h
  | succ n ih => exact .next (ih fun k hk => hm k (by omega)) .step (hm n (by omega))

end Machine
end Sluice
