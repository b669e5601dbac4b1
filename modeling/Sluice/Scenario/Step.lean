import Sluice.Scenario.Script

/-!
# Steps of a scenario

A step makes a named object, acts on one, looks at one, or lets tasks run. The
callbacks of a scenario run the same steps as the scenario itself.
-/

namespace Sluice.Scenario

inductive Step
  | subject (name : String) (fallible : Bool)
  | manual (name : String) (fallible : Bool)
  | custom (name : String) (fallible : Bool) (script : Script Step)
  | target (name : String) (cells : Target)
  | sink (name : String) (fallible : Bool) (script : Script Step)
  | assign (name : String) (target : String) (write : WriteSpec Step) (mode : Assign.Mode)
  | attachSink (name : String) (source : SourceSpec Step) (script : Script Step)
  | attachAssign (name : String) (source : SourceSpec Step) (target : String)
      (write : WriteSpec Step) (mode : Assign.Mode)
  | drop (of : String)
  | resumer (of name : String)
  | cloneResumer (of name : String)
  | ticker (of name : String) (period : Nat)
  | subscribe (of : String) (source : SourceSpec Step)
  | send (of : String) (v : Value)
  | complete (of : String) (c : Ending)
  | give (of name : String) (script : Script Step)
  | receive (of : String) (v : Value)
  | finish (of : String) (c : Ending)
  | request (of : String) (d : Demand) (index : Option Nat)
  | cancelSubscription (of : String) (index : Option Nat)
  | resume (of : String)
  | cancel (of : String)
  | resumeTimes (of : String) (times : Nat)
  | resumeThreads (of : String) (threads times : Nat)
  | write (of name : String) (write : WriteSpec Step) (v : Value)
  | push (of : String) (items : List (ScriptedItem Step)) (close : Bool)
  | abort (of : String)
  | state (of : String)
  | snapshot
  | debug (of : String)
  | settle
  | turn
  | advance (ms : Nat)
  | jump (ms : Nat)

def Step.word : Step → String
  | subject .. => "subject"
  | manual .. => "manual"
  | custom .. => "raw"
  | target .. => "target"
  | sink .. => "new_sink"
  | assign .. => "new_assign"
  | attachSink .. => "attach_sink"
  | attachAssign .. => "attach_assign"
  | drop .. => "drop"
  | resumer .. => "resumer"
  | cloneResumer .. => "clone_resumer"
  | ticker .. => "ticker"
  | subscribe .. => "subscribe"
  | send .. => "send"
  | complete .. => "complete"
  | give .. => "give"
  | receive .. => "receive"
  | finish .. => "finish"
  | request .. => "request"
  | cancelSubscription .. => "cancel_subscription"
  | resume .. => "resume"
  | cancel .. => "cancel"
  | resumeTimes .. => "resume_times"
  | resumeThreads .. => "resume_threads"
  | write .. => "write"
  | push .. => "push"
  | abort .. => "abort"
  | state .. => "state"
  | snapshot => "snap"
  | debug .. => "debug"
  | settle => "settle"
  | turn => "turn"
  | advance .. => "advance"
  | jump .. => "jump"

end Sluice.Scenario
