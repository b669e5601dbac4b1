import Sluice.Proofs.Machine.Runs

/-!
# Runs as lists of acts

A run is determined by what is done in it: the machine's own steps, what the
environment does in its turns, and the moments at which the clock of the audits moves.
Two machines that are put through the same acts can be compared moment by moment.
-/

namespace Sluice

inductive Edit
  | subscriber (s : Subscriber)
  | sequence (feed : Feed)
  | subject
  | manual
  | stream (items : List Item) (closed : Bool)
  | report (limits : Audit.Limits)
  | target (t : Target)
  | ticker (subscriber period : Nat)
  | own (subscriber : Nat)
  | disown (subscriber : Nat)
  | dropManual (i : Nat)
  | dropStream (i : Nat)

def World.edit (w : World) : Edit → World
  | .subscriber s => w.addSubscriber s
  | .sequence feed => w.addSequence feed
  | .subject => w.addSubject
  | .manual => w.addManual
  | .stream items closed => w.addStream items closed
  | .report limits => w.addReport limits
  | .target t => w.addTarget t
  | .ticker subscriber period => w.addTicker subscriber period
  | .own subscriber => w.own subscriber
  | .disown subscriber => w.disown subscriber
  | .dropManual i => w.dropManual i
  | .dropStream i => w.dropStream i

def Edit.Permitted : Edit → Prop
  | subscriber s => s.Fresh
  | _ => True

inductive Act
  | step
  | attend
  | invoke (c : Call)
  | begin (t : Nat)
  | reply (r : Reply)
  | raise (why : Panic)
  | edit (e : Edit)
  | clock (now : Duration)

namespace Machine

def act (m : Machine) : Act → Machine
  | .step => m.step
  | .attend => m.attend
  | .invoke c => m.invoke c
  | .begin t => m.begin t
  | .reply r => m.reply r
  | .raise why => m.raise why
  | .edit e => { m with world := m.world.edit e }
  | .clock now => { m with world := { m.world with auditClock := now } }

def perform (m : Machine) (acts : List Act) : Machine := acts.foldl act m

end Machine

namespace Act

/-- The machine steps, and the clock of the audits moves, at any moment; the environment acts in
its turns. -/
def Permitted (m : Machine) : Act → Prop
  | step | clock _ => True
  | attend | reply _ | raise _ => m.Idle
  | invoke c => m.Idle ∧ c.Public m.world
  | begin t => m.Idle ∧ t ∈ m.world.schedule.ready
  | edit e => m.Idle ∧ e.Permitted

def Throughout (P : Machine → Act → Prop) : Machine → List Act → Prop
  | _, [] => True
  | m, a :: acts => P m a ∧ Throughout P (m.act a) acts

instance {P : Machine → Act → Prop} [∀ m a, Decidable (P m a)] :
    ∀ m acts, Decidable (Throughout P m acts)
  | _, [] => .isTrue trivial
  | m, a :: acts =>
    have := instDecidableThroughout (P := P) (m.act a) acts
    inferInstanceAs (Decidable (P m a ∧ Throughout P (m.act a) acts))

theorem Throughout.append {P : Machine → Act → Prop} {m : Machine} {acts more : List Act}
    (h : Throughout P m acts) (h' : Throughout P (m.perform acts) more) :
    Throughout P m (acts ++ more) := by
  induction acts generalizing m with
  | nil => exact h'
  | cons a acts ih => exact ⟨h.1, ih h.2 h'⟩

theorem Throughout.split {P : Machine → Act → Prop} {m : Machine} {acts more : List Act}
    (h : Throughout P m (acts ++ more)) :
    Throughout P m acts ∧ Throughout P (m.perform acts) more := by
  induction acts generalizing m with
  | nil => exact ⟨trivial, h⟩
  | cons a acts ih =>
    obtain ⟨hacts, hmore⟩ := ih h.2
    exact ⟨⟨h.1, hacts⟩, hmore⟩

end Act

theorem World.Change.edit {w w' : World} (h : w.Change w') :
    ∃ e : Edit, e.Permitted ∧ w.edit e = w' := by
  cases h with
  | @subscriber s hs => exact ⟨.subscriber s, hs, rfl⟩
  | sequence feed => exact ⟨.sequence feed, trivial, rfl⟩
  | subject => exact ⟨.subject, trivial, rfl⟩
  | manual => exact ⟨.manual, trivial, rfl⟩
  | stream items closed => exact ⟨.stream items closed, trivial, rfl⟩
  | report limits => exact ⟨.report limits, trivial, rfl⟩
  | target t => exact ⟨.target t, trivial, rfl⟩
  | ticker i p => exact ⟨.ticker i p, trivial, rfl⟩
  | own i => exact ⟨.own i, trivial, rfl⟩
  | disown i => exact ⟨.disown i, trivial, rfl⟩
  | dropManual i => exact ⟨.dropManual i, trivial, rfl⟩
  | dropStream i => exact ⟨.dropStream i, trivial, rfl⟩

theorem Machine.Next.act {m m' : Machine} (h : m.Next m') :
    ∃ a : Act, a.Permitted m ∧ m.act a = m' := by
  cases h with
  | step => exact ⟨.step, trivial, rfl⟩
  | attend hm => exact ⟨.attend, hm, rfl⟩
  | @invoke c hm hc => exact ⟨.invoke c, ⟨hm, hc⟩, rfl⟩
  | @begin t hm ht => exact ⟨.begin t, ⟨hm, ht⟩, rfl⟩
  | reply hm r => exact ⟨.reply r, hm, rfl⟩
  | raise hm why => exact ⟨.raise why, hm, rfl⟩
  | change hm hw =>
    obtain ⟨e, he, rfl⟩ := hw.edit
    exact ⟨.edit e, ⟨hm, he⟩, rfl⟩

theorem Machine.Reached.acts {m : Machine} {may : Machine → Prop} (h : Reached may m) :
    ∃ acts, Act.Throughout Act.Permitted {} acts ∧ perform {} acts = m := by
  induction h with
  | start => exact ⟨[], trivial, rfl⟩
  | next _ hn _ ih =>
    obtain ⟨acts, hp, rfl⟩ := ih
    obtain ⟨a, ha, rfl⟩ := hn.act
    exact ⟨acts ++ [a], hp.append ⟨ha, trivial⟩, List.foldl_append⟩

end Sluice
