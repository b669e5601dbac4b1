import Sluice.Proofs.Audits.Reports
import Sluice.Proofs.Driver.Ledger
import Sluice.Proofs.Machine.Runs
import Sluice.Proofs.Subject

/-!
# Who holds whom

The roll of a world is what the life of a subscriber depends on: how far its
subscription has got, which publishers and handles hold it, and who owns it. The
outline of a machine adds to that the frames and the call that have a change of the
roll in store. Everything else about a machine is of no account here.
-/

namespace Sluice

/-- How far a subscriber's subscription has got, and the target that it holds. -/
structure Standing where
  lifecycle : Lifecycle Link
  target : Option Nat

structure SubjectRoll where
  entries : Array (Option Nat) := #[]
  registered : List Nat := []
  completed : Bool := false

structure DriverRoll where
  subscriber : Option Nat
  cancelled : Bool
  ended : Bool
  stream : Nat

structure Roll where
  subscribers : Array Standing
  sequences : Array (Option Nat)
  subjects : Array SubjectRoll
  drivers : Array DriverRoll
  manuals : Array (List Nat)
  handles : Array Handle

structure Outline where
  roll : Roll
  /-- The frames that have a change of the roll in store. -/
  bonds : List Frame
  control : Control

def Subscriber.standing : Subscriber → Standing
  | sink s => ⟨s.lifecycle, none⟩
  | assign s _ => ⟨s.lifecycle, s.target⟩
  | custom => ⟨.awaiting, none⟩

def Sequence.held (q : Sequence Outlet) : Option Nat := q.subscriber.map (·.subscriber)

def Subject.Entry.held (e : Subject.Entry Outlet) : Option Nat := e.subscriber.map (·.subscriber)

def Subject.roll (s : Subject Outlet) : SubjectRoll :=
  ⟨s.entries.map Entry.held, s.registered, s.completion.isSome⟩

def StreamTask.roll (t : StreamTask) : DriverRoll where
  subscriber := t.driver.subscriber.map (·.subscriber)
  cancelled := t.driver.cancelled
  ended := t.driver.phase == .ended
  stream := t.stream

def World.roll (w : World) : Roll where
  subscribers := w.subscribers.map Subscriber.standing
  sequences := w.sequences.map Sequence.held
  subjects := w.subjects.map Subject.roll
  drivers := w.drivers.map StreamTask.roll
  manuals := w.manuals.map (·.map Outlet.subscriber)
  handles := w.handles

def Frame.binds : Frame → Bool
  | sequence _ (.opening _) | sequence _ (.refusing _) | subject _ (.refusing _ _)
  | subject _ (.completing _ _ _) | driver _ (.opening _) | driver _ .concluding
  | handle _ _ | closing _ => true
  | _ => false

def Call.commits? : Call → Option Nat
  | .subscribe _ i | .attach _ i | .tell i (.subscription _) | .tell i (.completion _) => some i
  | _ => none

def Control.commits? : Control → Option Nat
  | calling c => c.commits?
  | _ => none

namespace Machine

def bonds (m : Machine) : List Frame := m.stack.filter Frame.binds

def outline (m : Machine) : Outline := ⟨m.world.roll, m.bonds, m.control⟩

end Machine

def Standing.hear (s : Standing) : Message Link → Standing × Option Link
  | .subscription link =>
    match s.lifecycle.accept? link with
    | some held => ({ s with lifecycle := held }, none)
    | none => (s, some link)
  | .completion _ => (⟨.terminal, none⟩, none)
  | .cancel =>
    match s.lifecycle.release with
    | (some link, state) => (⟨state, none⟩, some link)
    | (none, _) => (s, none)
  | .value _ | .resume => (s, none)

namespace SubjectRoll

def enlist (s : SubjectRoll) (i : Nat) : SubjectRoll :=
  { s with entries := s.entries.push (some i), registered := s.registered ++ [s.entries.size] }

def detach (s : SubjectRoll) (e : Nat) : SubjectRoll :=
  { s with entries := s.entries.setIfInBounds e none }

def release (s : SubjectRoll) (e : Nat) : SubjectRoll :=
  if s.entries[e]?.join.isSome then { s.detach e with registered := s.registered.erase e } else s

def close (s : SubjectRoll) : SubjectRoll := { s with registered := [], completed := true }

end SubjectRoll

namespace DriverRoll

def cancel (x : DriverRoll) : DriverRoll := { x with cancelled := true }
def stop (x : DriverRoll) : DriverRoll := { x with subscriber := none, ended := true }

end DriverRoll

namespace Roll

def setSubscriber (l : Roll) (i : Nat) (s : Standing) : Roll :=
  { l with subscribers := l.subscribers.setIfInBounds i s }

def setSequence (l : Roll) (n : Nat) (held : Option Nat) : Roll :=
  { l with sequences := l.sequences.setIfInBounds n held }

def setSubject (l : Roll) (n : Nat) (s : SubjectRoll) : Roll :=
  { l with subjects := l.subjects.setIfInBounds n s }

def setDriver (l : Roll) (d : Nat) (x : DriverRoll) : Roll :=
  { l with drivers := l.drivers.setIfInBounds d x }

def setHandle (l : Roll) (h : Nat) (state : HandleState) : Roll :=
  { l with handles := l.handles.modify h fun x => { x with state := state } }

def release (l : Roll) : Tap → Roll
  | .sequence n => l.setSequence n none
  | .subject n e =>
    match l.subjects[n]? with
    | some s => l.setSubject n (s.release e)
    | none => l
  | .driver d =>
    match l.drivers[d]? with
    | some x => l.setDriver d x.cancel
    | none => l
  | .inert | .custom _ => l

end Roll

theorem modify_eq_setIfInBounds {α : Type} {xs : Array α} {n : Nat} {x : α} (hx : xs[n]? = some x)
    (f : α → α) : xs.modify n f = xs.setIfInBounds n (f x) := by
  apply Array.ext_getElem?
  intro j
  rw [Array.getElem?_modify, Array.getElem?_setIfInBounds]
  by_cases hj : n = j
  · subst hj
    rw [if_pos rfl, if_pos rfl, if_pos (Array.getElem?_eq_some_iff.mp hx).1, hx, Option.map_some]
  · rw [if_neg hj, if_neg hj]

theorem map_setIfInBounds_same {α β : Type} {xs : Array α} {n : Nat} {x y : α} {f : α → β}
    (hx : xs[n]? = some x) (hy : f y = f x) : (xs.setIfInBounds n y).map f = xs.map f := by
  rw [Array.map_setIfInBounds, hy]
  apply Array.ext_getElem?
  intro j
  rw [Array.getElem?_setIfInBounds]
  by_cases hj : n = j
  · subst hj
    rw [if_pos rfl, if_pos (by simpa using (Array.getElem?_eq_some_iff.mp hx).1),
      Array.getElem?_map, hx, Option.map_some]
  · rw [if_neg hj]

theorem StreamTask.roll_eq {x : StreamTask} {s : Driver Outlet}
    (hs : s.subscriber = x.driver.subscriber) (hc : s.cancelled = x.driver.cancelled)
    (he : s.phase = .ended ↔ x.driver.phase = .ended) :
    StreamTask.roll { x with driver := s } = x.roll := by
  have hended : (s.phase == .ended) = (x.driver.phase == .ended) := by
    rw [Bool.eq_iff_iff, beq_iff_eq, beq_iff_eq]
    exact he
  simp only [StreamTask.roll, hs, hc, hended]

namespace World

variable {w : World} {n : Nat}

theorem roll_subscriber {s : Subscriber} (h : w.subscribers[n]? = some s) :
    w.roll.subscribers[n]? = some s.standing := by
  rw [roll, Array.getElem?_map, h, Option.map_some]

theorem roll_sequence {q : Sequence Outlet} (h : w.sequences[n]? = some q) :
    w.roll.sequences[n]? = some q.held := by
  rw [roll, Array.getElem?_map, h, Option.map_some]

theorem roll_subject {s : Subject Outlet} (h : w.subjects[n]? = some s) :
    w.roll.subjects[n]? = some s.roll := by
  rw [roll, Array.getElem?_map, h, Option.map_some]

theorem roll_driver {x : StreamTask} (h : w.drivers[n]? = some x) :
    w.roll.drivers[n]? = some x.roll := by
  rw [roll, Array.getElem?_map, h, Option.map_some]

theorem roll_setSubscriber (w : World) (i : Nat) (s : Subscriber) :
    (w.setSubscriber i s).roll = w.roll.setSubscriber i s.standing := by
  rw [roll, setSubscriber, Array.map_setIfInBounds]
  rfl

theorem roll_setSequence (w : World) (n : Nat) (q : Sequence Outlet) :
    (w.setSequence n q).roll = w.roll.setSequence n q.held := by
  rw [roll, setSequence, Array.map_setIfInBounds]
  rfl

theorem roll_setSubject (w : World) (n : Nat) (s : Subject Outlet) :
    (w.setSubject n s).roll = w.roll.setSubject n s.roll := by
  rw [roll, setSubject, Array.map_setIfInBounds]
  rfl

theorem roll_setDriver {x : StreamTask} (hx : w.drivers[n]? = some x) (s : Driver Outlet) :
    (w.setDriver n s).roll = w.roll.setDriver n (StreamTask.roll { x with driver := s }) := by
  rw [roll, setDriver, modify_eq_setIfInBounds hx, Array.map_setIfInBounds]
  rfl

theorem roll_keepSubscriber {s t : Subscriber} (hs : w.subscribers[n]? = some s)
    (ht : t.standing = s.standing) : (w.setSubscriber n t).roll = w.roll := by
  rw [roll, roll, setSubscriber, map_setIfInBounds_same hs ht]

theorem roll_keepSequence {q r : Sequence Outlet} (hq : w.sequences[n]? = some q)
    (hr : r.held = q.held) : (w.setSequence n r).roll = w.roll := by
  rw [roll, roll, setSequence, map_setIfInBounds_same hq hr]

theorem roll_keepSubject {s t : Subject Outlet} (hs : w.subjects[n]? = some s)
    (ht : t.roll = s.roll) : (w.setSubject n t).roll = w.roll := by
  rw [roll, roll, setSubject, map_setIfInBounds_same hs ht]

theorem roll_keepDriver {x : StreamTask} {s : Driver Outlet} (hx : w.drivers[n]? = some x)
    (hs : StreamTask.roll { x with driver := s } = x.roll) : (w.setDriver n s).roll = w.roll := by
  rw [roll, roll, setDriver, modify_eq_setIfInBounds hx, map_setIfInBounds_same hx hs]

theorem roll_audit (w : World) (d : Demand) (is : List Nat) : (w.audit d is).1.roll = w.roll := by
  rw [audit_eq]
  rfl

end World

namespace Machine

/-- `m'` has the roll `l` and the bonds `b`, and commits nobody. -/
structure KeepsRoll (l : Roll) (b : List Frame) (m' : Machine) : Prop where
  roll : m'.world.roll = l
  bonds : m'.bonds = b
  control : m'.control.commits? = none

variable {m m' : Machine} {w : World} {l : Roll} {b : List Frame}

theorem answer_keepsRoll (m : Machine) (r : Reply) : KeepsRoll m.world.roll m.bonds (m.answer r) :=
  ⟨rfl, rfl, rfl⟩

theorem tail_keepsRoll (m : Machine) {c : Call} (hc : c.commits? = none) :
    KeepsRoll m.world.roll m.bonds (m.tail c) :=
  ⟨rfl, rfl, hc⟩

theorem call_keepsRoll (m : Machine) {f : Frame} {c : Call} (hf : f.binds = false)
    (hc : c.commits? = none) : KeepsRoll m.world.roll m.bonds (m.call f c) :=
  ⟨rfl, List.filter_cons_of_neg (by simp [hf]), hc⟩

/-- A section that ends with a call leaves a frame that binds nothing and commits nobody. -/
def EndsOffRoll {Out F : Type} (out : Out → Call) (frame : F → Frame) : Move Out F → Prop
  | .answer _ => True
  | .call o f => (out o).commits? = none ∧ (frame f).binds = false

theorem move_keepsRoll {Out F : Type} (m : Machine) (hw : w.roll = l) {out : Out → Call}
    {frame : F → Frame} {mv : Move Out F} (h : EndsOffRoll out frame mv) :
    KeepsRoll l m.bonds (m.move w out frame mv) := by
  cases mv with
  | answer r => exact ⟨hw, rfl, rfl⟩
  | call o f => exact ⟨hw, List.filter_cons_of_neg (by simp [h.2]), h.1⟩

def SequenceKeepsRoll (n : Nat) (q : Sequence Outlet)
    (r : Sequence Outlet × Move (Sequence.Out Outlet) (Sequence.Frame Outlet)) : Prop :=
  r.1.subscriber = q.subscriber ∧ EndsOffRoll (sequenceCall n) (.sequence n) r.2

theorem drain_keepsRoll (n : Nat) (q : Sequence Outlet) : SequenceKeepsRoll n q q.drain := by
  unfold Sequence.drain
  split
  · split
    · exact ⟨rfl, rfl, rfl⟩
    · exact ⟨rfl, rfl, rfl⟩
  · exact ⟨rfl, trivial⟩

theorem onRequest_keepsRoll (n : Nat) (q : Sequence Outlet) (d : Demand) :
    SequenceKeepsRoll n q (q.onRequest d) := by
  simp only [Sequence.onRequest]
  split
  · exact ⟨rfl, trivial⟩
  · split
    · exact ⟨rfl, trivial⟩
    · exact drain_keepsRoll n _

theorem onDelivered_keepsRoll (n : Nat) (q : Sequence Outlet) (d : Demand) :
    SequenceKeepsRoll n q (q.onDelivered d) := by
  simp only [Sequence.onDelivered]
  split
  · exact ⟨rfl, rfl, rfl⟩
  · exact drain_keepsRoll n _

theorem drawn_keepsRoll (n : Nat) (q : Sequence Outlet) (dest : Outlet) (r : Reply) :
    SequenceKeepsRoll n q (q.proceed r (.drawing dest)) := by
  simp only [Sequence.proceed]
  split
  · exact ⟨rfl, rfl, rfl⟩
  · exact ⟨rfl, trivial⟩

theorem sequenceSection_keepsRoll {n : Nat} {q : Sequence Outlet}
    (hq : m.world.sequences[n]? = some q)
    {r : Sequence Outlet × Move (Sequence.Out Outlet) (Sequence.Frame Outlet)}
    (h : SequenceKeepsRoll n q r) : KeepsRoll m.world.roll m.bonds (m.sequenceSection n r) :=
  move_keepsRoll m (World.roll_keepSequence hq (by rw [Sequence.held, h.1, Sequence.held])) h.2

end Machine

namespace Subject

variable {s : Subject Outlet} {e : Nat} {x : Entry Outlet}

theorem roll_setEntry (s : Subject Outlet) (e : Nat) (x : Entry Outlet) :
    (s.setEntry e x).roll = { s.roll with entries := s.roll.entries.setIfInBounds e x.held } := by
  rw [roll, setEntry, Array.map_setIfInBounds]
  rfl

theorem roll_keepEntry {y : Entry Outlet} (hx : s.entries[e]? = some x)
    (hy : y.subscriber = x.subscriber) : (s.setEntry e y).roll = s.roll := by
  rw [roll, roll, setEntry, map_setIfInBounds_same hx (by rw [Entry.held, hy, Entry.held])]

theorem roll_onRequest (s : Subject Outlet) (e : Nat) (d : Demand) :
    (s.onRequest e d).roll = s.roll := by
  unfold onRequest
  split
  · next x hx =>
    split
    · exact roll_keepEntry hx rfl
    · rfl
  · rfl

theorem roll_grant (s : Subject Outlet) (e : Nat) (d : Demand) : (s.grant e d).roll = s.roll := by
  unfold grant
  split
  · next x hx => exact roll_keepEntry hx rfl
  · rfl

end Subject

namespace Machine

variable {m : Machine}

theorem subjectSection_keepsRoll {n : Nat} {s : Subject Outlet} (hs : m.world.subjects[n]? = some s)
    {r : Subject Outlet × Move (Subject.Out Outlet) (Subject.Frame Outlet)} (hr : r.1.roll = s.roll)
    (h : EndsOffRoll (subjectCall n) (.subject n) r.2) :
    KeepsRoll m.world.roll m.bonds (m.subjectSection n r) :=
  move_keepsRoll m (World.roll_keepSubject hs hr) h

theorem broadcast_keepsRoll {n : Nat} {s t : Subject Outlet} (hs : m.world.subjects[n]? = some s)
    (ht : t.roll = s.roll) (v : Value) (sent : Nat) (ws : List Nat) :
    KeepsRoll m.world.roll m.bonds (m.subjectSection n (t.broadcast v sent ws)) := by
  have hb := Subject.broadcasts t v sent ws
  generalize t.broadcast v sent ws = r at hb ⊢
  obtain ⟨u, mv⟩ := r
  cases hb with
  | exhausted => exact subjectSection_keepsRoll hs ht trivial
  | @deliver _ _ e dest d left _ _ hi =>
    have hkeep : (t.setEntry e ⟨some dest, left⟩).roll = t.roll := Subject.roll_keepEntry hi rfl
    exact subjectSection_keepsRoll hs (hkeep.trans ht) ⟨rfl, rfl⟩

structure DriverKeepsRoll (d : Nat) (s : Driver Outlet)
    (r : Driver Outlet × Move (Driver.Out Outlet) (Driver.Frame Outlet)) : Prop where
  subscriber : r.1.subscriber = s.subscriber
  cancelled : r.1.cancelled = s.cancelled
  ended : r.1.phase = .ended ↔ s.phase = .ended
  move : EndsOffRoll (driverCall d) (.driver d) r.2

theorem driverSection_keepsRoll {d : Nat} {x : StreamTask} (hx : m.world.drivers[d]? = some x)
    {r : Driver Outlet × Move (Driver.Out Outlet) (Driver.Frame Outlet)}
    (h : DriverKeepsRoll d x.driver r) : KeepsRoll m.world.roll m.bonds (m.driverSection d r) :=
  move_keepsRoll m (World.roll_keepDriver hx (StreamTask.roll_eq h.subscriber h.cancelled h.ended))
    h.move

theorem notify_keepsRoll (d : Nat) (s : Driver Outlet) : DriverKeepsRoll d s s.notify := by
  unfold Driver.notify
  split
  · exact ⟨rfl, rfl, .rfl, rfl, rfl⟩
  · exact ⟨rfl, rfl, .rfl, trivial⟩

theorem driver_onRequest_keepsRoll (d : Nat) (s : Driver Outlet) (dem : Demand) :
    DriverKeepsRoll d s (s.onRequest dem) := by
  unfold Driver.onRequest
  split
  · exact ⟨rfl, rfl, .rfl, trivial⟩
  · obtain ⟨hs, hc, he, hm⟩ := notify_keepsRoll d { s with demand := s.demand + dem }
    exact ⟨hs, hc, he, hm⟩

end Machine
end Sluice
