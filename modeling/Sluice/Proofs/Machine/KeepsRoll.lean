import Sluice.Proofs.Machine.Effects
import Sluice.Proofs.Machine.Roll

/-!
# Sections that leave the roll alone

Most sections neither change the roll nor leave a frame or a call that has a change of
it in store.
-/

namespace Sluice

def Part.OffRoll : Part → Prop
  | subscribers | sequences | subjects | manuals | drivers | handles => False
  | _ => True

namespace Machine

variable {m m' : Machine} {l : Roll} {b : List Frame} {i : Nat}

theorem tickerSection_keepsRoll (m : Machine) (i : Nat)
    (r : Ticker × Move Ticker.Out Ticker.Frame) :
    KeepsRoll m.world.roll m.bonds (m.tickerSection i r) := by
  obtain ⟨s, mv⟩ := r
  have hw : (m.world.setTicker i s).roll = m.world.roll := rfl
  cases mv with
  | answer r => exact ⟨hw, rfl, rfl⟩
  | call o f => cases o <;> exact ⟨hw, rfl, rfl⟩

theorem spawn_keepsRoll (m : Machine) (d : Nat) : KeepsRoll m.world.roll m.bonds (m.spawn d) := by
  refine ⟨?_, rfl, rfl⟩
  simp only [Machine.spawn, World.roll]
  congr 1
  apply Array.ext_getElem?
  intro e
  rw [Array.getElem?_map, Array.getElem?_map, Array.getElem?_modify]
  split
  · rw [Option.map_map]
    rfl
  · rfl

theorem Effect.keepsRoll {p : Part} (h : Effect m p m') (hp : p.OffRoll) :
    KeepsRoll m.world.roll m.bonds m' := by
  cases h with
  | sink | assign | stuck | custom | sequence | subject | keep | driver => exact hp.elim
  | attached | resumes | cancels | drop | close | lastUse | closed => exact hp.elim
  | ticker n r => exact tickerSection_keepsRoll m n r
  | spawn d => exact spawn_keepsRoll m d
  | _ => exact ⟨rfl, rfl, rfl⟩

theorem requestTap_keepsRoll (m : Machine) (d : Demand) (tap : Tap) :
    KeepsRoll m.world.roll m.bonds (m.requestTap d tap) := by
  cases tap with
  | inert => exact answer_keepsRoll m _
  | sequence n =>
    simp only [requestTap, enterSequence]
    split
    · next q hq => exact sequenceSection_keepsRoll hq (onRequest_keepsRoll n q d)
    · exact answer_keepsRoll m _
  | subject n e =>
    simp only [requestTap, enterSubject]
    split
    · next s hs => exact subjectSection_keepsRoll hs (Subject.roll_onRequest s e d) trivial
    · exact answer_keepsRoll m _
  | driver n =>
    simp only [requestTap, enterDriver]
    split
    · next x hx => exact driverSection_keepsRoll hx (driver_onRequest_keepsRoll n x.driver d)
    · exact answer_keepsRoll m _
  | custom n => exact tail_keepsRoll m rfl

theorem request_keepsRoll (m : Machine) (link : Link) (d : Demand) :
    KeepsRoll m.world.roll m.bonds (m.request link d) := by
  have hroll := m.world.roll_audit d link.audits
  unfold Machine.request
  split
  · next w v hw =>
    rw [hw] at hroll
    exact ⟨hroll, rfl, rfl⟩
  · next w hw =>
    rw [hw] at hroll
    rw [← hroll]
    exact requestTap_keepsRoll { m with world := w } d link.tap

theorem send_keepsRoll (m : Machine) (n : Nat) (v : Value) :
    KeepsRoll m.world.roll m.bonds (m.enterSubject n (.send v)) := by
  unfold enterSubject
  split
  · next s hs =>
    simp only [Subject.enter]
    split
    · exact subjectSection_keepsRoll hs rfl trivial
    · exact broadcast_keepsRoll hs rfl v 0 s.registered
  · exact answer_keepsRoll m _

theorem proceedSink_keepsRoll (m : Machine) (i : Nat) (f : Sink.Frame) (r : Reply) :
    KeepsRoll m.world.roll m.bonds (m.proceedSink i f r) := by
  unfold proceedSink
  split
  · next s hs => cases f <;> exact ⟨World.roll_keepSubscriber hs rfl, rfl, rfl⟩
  · exact answer_keepsRoll m _

theorem proceedAssign_keepsRoll (m : Machine) (i : Nat) (f : Assign.Frame Nat) :
    KeepsRoll m.world.roll m.bonds (m.proceedAssign i f) := by
  unfold proceedAssign
  split
  · next s rule hs => cases f <;> exact ⟨World.roll_keepSubscriber hs rfl, rfl, rfl⟩
  · exact answer_keepsRoll m _

end Machine
end Sluice
