import Sluice.Machine.Proceed

/-!
# Steps of a machine

One step enters a call, passes a reply to the frame on top of the stack, or
takes a frame off the stack of a call that panicked. While it is the
environment's turn nothing happens.
-/

namespace Sluice

namespace Machine

def step (m : Machine) : Machine :=
  match m.control with
  | .calling c => m.enter c
  | .answering r =>
    match m.stack with
    | [] => { m with control := .idle (.returned r) }
    | f :: rest => proceed { m with stack := rest } r f
  | .unwinding why =>
    match m.stack with
    | [] => { m with control := .idle (.panicked why) }
    | f :: rest => unwound { m with stack := rest } why f
  | .idle _ | .stuck => m

def attend (m : Machine) : Machine := { m with control := .idle .start }

def invoke (m : Machine) (c : Call) : Machine := { m with control := .calling c }

def reply (m : Machine) (r : Reply) : Machine :=
  match m.stack with
  | .asked _ :: rest => { m with stack := rest, control := .answering r }
  | _ => m

def raise (m : Machine) (why : Panic) : Machine :=
  match m.stack with
  | .asked _ :: rest => { m with stack := rest, control := .unwinding why }
  | _ => m

end Machine
end Sluice
