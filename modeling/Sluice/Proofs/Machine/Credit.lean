import Mathlib.Logic.Function.Basic
import Sluice.Proofs.Driver.Ledger
import Sluice.Proofs.Machine.Roll
import Sluice.Proofs.Machine.Subscribers
import Sluice.Proofs.Machine.Wakeups
import Sluice.Proofs.Sequence

/-!
# Credit

What a subscriber may still be sent stands as credit at its publisher's end of the
subscription. Requests, and what deliveries return, add to it; each delivery takes a
unit away. A driver that waits for its stream has a unit in hand, which is still
credit of its subscriber.
-/

namespace Sluice

deriving instance DecidableEq for Tap

namespace Demand

/-- The size of a demand as a number. The one without a bound counts for more than any other. -/
def tally : Demand → Nat
  | upTo n => n.toNat
  | unlimited => UInt64.size

variable {a b : Demand}

theorem tally_add_le (a b : Demand) : (a + b).tally ≤ a.tally + b.tally := by
  cases a with
  | unlimited => exact Nat.le_add_right ..
  | upTo m =>
    cases b with
    | unlimited => exact Nat.le_add_left ..
    | upTo n =>
      change (add (upTo m) (upTo n)).tally ≤ m.toNat + n.toNat
      by_cases h : m.toNat + n.toNat < UInt64.size
      · simp only [add, if_pos h, tally, UInt64.toNat_add]
        exact Nat.mod_le ..
      · simp only [add, if_neg h, tally]
        omega

theorem tally_takeOne? (h : a.takeOne? = some b) (ha : a.tally ≤ 1) : b.tally + 1 ≤ a.tally := by
  cases a with
  | unlimited => exact absurd ha (by decide)
  | upTo n =>
    have hn := (amount_takeOne? h).1
    cases b with
    | unlimited => exact absurd ((add_top _).symm.trans hn.symm) (ENat.natCast_ne_top n.toNat).symm
    | upTo k =>
      simp only [amount, tally] at hn ⊢
      have hsucc : n.toNat = 1 + k.toNat := by exact_mod_cast hn
      omega

end Demand

/-- The one who is served at a tap, and how many values it may still be sent. -/
structure Credit where
  holder : Option Nat
  units : Nat

def Sequence.credit (q : Sequence Outlet) : Credit := ⟨q.held, q.demand.tally⟩

def Subject.Entry.credit (x : Subject.Entry Outlet) : Credit := ⟨x.held, x.demand.tally⟩

def Driver.credit (s : Driver Outlet) : Credit :=
  ⟨s.subscriber.map (·.subscriber), s.demand.tally + s.unitsHeld⟩

namespace Sequence

variable {q : Sequence Outlet}

def taken : Move (Out Outlet) (Frame Outlet) → Nat
  | .call _ (.drawing _) | .call _ (.delivering _) => 1
  | _ => 0

theorem drain_taken (hq : q.demand.tally ≤ 1) :
    q.drain.1.demand.tally + taken q.drain.2 ≤ q.demand.tally := by
  have h := drained q
  generalize q.drain = r at h ⊢
  obtain ⟨t, mv⟩ := r
  cases h with
  | stop _ ht =>
    subst ht
    exact Nat.le_refl _
  | deliver _ hd _ ht =>
    subst ht
    exact Demand.tally_takeOne? hd hq
  | draw _ hd _ ht =>
    subst ht
    exact Demand.tally_takeOne? hd hq

theorem onRequest_taken {d : Demand} (hq : q.demand.tally + d.tally ≤ 1) :
    (q.onRequest d).1.demand.tally + taken (q.onRequest d).2 ≤ q.demand.tally + d.tally := by
  have hsum := Demand.tally_add_le q.demand d
  simp only [onRequest]
  split
  · exact Nat.le_add_right ..
  · split
    · exact hsum
    · have h := drain_taken (q := { q with demand := q.demand + d, emitting := true })
        (hsum.trans hq)
      exact h.trans hsum

theorem onDelivered_taken {d : Demand} (hq : q.demand.tally + d.tally ≤ 1) :
    (q.onDelivered d).1.demand.tally + taken (q.onDelivered d).2 ≤ q.demand.tally + d.tally := by
  have hsum := Demand.tally_add_le q.demand d
  simp only [onDelivered]
  split
  · exact hsum
  · have h := drain_taken (q := { q with demand := q.demand + d }) (hsum.trans hq)
    exact h.trans hsum

theorem onPeeked_taken {v : Option Value} (hq : q.demand.tally ≤ 1) :
    (q.onPeeked v).1.demand.tally + taken (q.onPeeked v).2 ≤ q.demand.tally := by
  cases v with
  | some v => exact drain_taken (q := { q with ahead := some v }) hq
  | none =>
    simp only [onPeeked]
    split <;> exact Nat.le_refl _

end Sequence

namespace Driver

variable {s t : Driver Outlet}

theorem unitsHeld_le (s : Driver Outlet) : s.unitsHeld ≤ 1 := by
  unfold unitsHeld
  split <;> omega

theorem unitsHeld_of_phase (h : s.phase ≠ .polling) : s.unitsHeld = 0 :=
  if_neg fun hp => h hp.1

theorem unitsHeld_of_polling (hp : s.phase = .polling) (hw : s.waiter ≠ .absent) :
    s.unitsHeld = 1 :=
  if_pos ⟨hp, hw⟩

theorem stop_units (s : Driver Outlet) : s.stop.credit.units ≤ s.credit.units := by
  have h : s.stop.unitsHeld = 0 := unitsHeld_of_phase (by simp [stop])
  simp only [credit, h]
  exact Nat.le_add_right ..

theorem notify_units (s : Driver Outlet) : s.notify.1.credit.units = s.credit.units := by
  unfold notify Wakeup.notify credit unitsHeld waiter
  cases s.wakeup.waiter <;> simp

theorem onRequest_units (s : Driver Outlet) (d : Demand) :
    (s.onRequest d).1.credit.units ≤ s.credit.units + d.tally := by
  unfold onRequest
  split
  · exact Nat.le_add_right ..
  · rw [notify_units]
    have hsum := Demand.tally_add_le s.demand d
    have hheld : unitsHeld { s with demand := s.demand + d } = s.unitsHeld := rfl
    simp only [credit, hheld]
    omega

theorem onCancel_units (s : Driver Outlet) : s.onCancel.1.credit.units = s.credit.units := by
  unfold onCancel
  split
  · rfl
  · exact notify_units { s with cancelled := true }

theorem select_units (s : Driver Outlet) :
    s.select.1.credit.units ≤ s.demand.tally + 1 := by
  have h := select_selected s
  generalize s.select = r at h ⊢
  obtain ⟨t, mv⟩ := r
  dsimp only at h ⊢
  have hheld := unitsHeld_le t
  cases h with
  | ended _ hp hd =>
    simp only [credit, hd]
    omega
  | poll _ hk =>
    simp only [credit, hk.demand]
    omega

theorem seek_units (hs : s.demand.tally ≤ 1) : s.seek.1.credit.units ≤ s.demand.tally := by
  have h := seek_sought s
  generalize s.seek = r at h ⊢
  obtain ⟨t, mv⟩ := r
  dsimp only at h ⊢
  cases h with
  | ended _ ht =>
    subst ht
    have hheld : s.stop.unitsHeld = 0 := unitsHeld_of_phase (by simp [stop])
    simp only [credit, hheld]
    exact Nat.le_refl _
  | parked hp hk =>
    have hheld : t.unitsHeld = 0 := unitsHeld_of_phase (by simp [hp])
    simp only [credit, hk.demand, hheld]
    exact Nat.le_refl _
  | poll hd _ hk =>
    have htake := Demand.tally_takeOne? hd hs
    have hheld := unitsHeld_le t
    simp only [credit, hk.demand]
    omega

theorem onRun_units (hs : s.credit.units ≤ 1) : s.onRun.1.credit.units ≤ s.credit.units := by
  have hdem : s.demand.tally ≤ s.credit.units := Nat.le_add_right ..
  unfold onRun
  cases hp : s.phase with
  | unstarted => exact Nat.le_refl _
  | ended => exact Nat.le_refl _
  | seeking => exact (seek_units (hdem.trans hs)).trans hdem
  | parked =>
    dsimp only
    split
    · next w _ => exact (seek_units (s := { s with wakeup := w }) (hdem.trans hs)).trans hdem
    · exact Nat.le_refl _
  | polling =>
    dsimp only
    split
    · next w hw =>
      -- Only a waiter can be notified, so the unit is in hand.
      have hwait : s.waiter ≠ .absent := by
        intro habs
        unfold waiter at habs
        simp [Wakeup.consume?, habs] at hw
      have hone := unitsHeld_of_polling hp hwait
      have hunits : s.credit.units = s.demand.tally + 1 := congrArg (s.demand.tally + ·) hone
      split
      · exact (stop_units { s with wakeup := w }).trans (hunits ▸ by
          have := unitsHeld_le { s with wakeup := w }
          simp only [credit]
          omega)
      · rw [hunits]
        exact select_units { s with wakeup := w }
    · exact Nat.le_refl _

theorem onPolled_units (p : Poll) (hp : s.phase = .polling) (hw : s.waiter ≠ .absent) :
    (s.onPolled p).1.credit.units ≤ s.credit.units ∧
      ∀ dest v, (s.onPolled p).2 = .call (.deliver dest v) .delivering →
        (s.onPolled p).1.credit.units + 1 ≤ s.credit.units := by
  have hunits : s.credit.units = s.demand.tally + 1 :=
    congrArg (s.demand.tally + ·) (unitsHeld_of_polling hp hw)
  have hspent : (credit { s with wakeup := s.wakeup.forget }).units = s.demand.tally :=
    congrArg (s.demand.tally + ·) (if_neg fun h => h.2 rfl)
  have hstop : (credit (stop { s with wakeup := s.wakeup.forget })).units ≤ s.demand.tally :=
    (stop_units _).trans_eq hspent
  have hle {n : Nat} (h : n ≤ s.demand.tally) : n ≤ s.credit.units := by omega
  cases p with
  | pending => exact ⟨Nat.le_refl _, by simp [onPolled]⟩
  | value v =>
    simp only [onPolled]
    split
    · exact ⟨hle hspent.le, fun _ _ _ => hunits ▸ Nat.succ_le_succ hspent.le⟩
    · exact ⟨hle hstop, by simp [finish]⟩
  | failure e =>
    simp only [onPolled]
    split
    · exact ⟨hle hspent.le, by simp⟩
    · exact ⟨hle hstop, by simp [finish]⟩
  | closed =>
    simp only [onPolled]
    split
    · exact ⟨hle hspent.le, by simp⟩
    · exact ⟨hle hstop, by simp [finish]⟩

theorem onDelivered_units {d : Demand} (hs : s.credit.units + d.tally ≤ 1) :
    (s.onDelivered d).1.credit.units ≤ s.credit.units + d.tally := by
  have hsum := Demand.tally_add_le s.demand d
  have hdem : s.demand.tally ≤ s.credit.units := Nat.le_add_right ..
  simp only [onDelivered]
  split
  · have hheld : unitsHeld { s with
        demand := s.demand + d, delivered := s.delivered + 1, phase := .seeking } = 0 :=
      unitsHeld_of_phase (by simp)
    simp only [credit, hheld]
    omega
  · have h := seek_units (s := { s with demand := s.demand + d, delivered := s.delivered + 1 })
      (by dsimp only; omega)
    dsimp only at h
    omega

theorem onOpened_units (s : Driver Outlet) : s.onOpened.1.credit.units ≤ s.credit.units := by
  unfold onOpened
  split
  · exact stop_units s
  · have hheld : unitsHeld { s with phase := .seeking } = 0 := unitsHeld_of_phase (by simp)
    simp only [credit, hheld]
    exact Nat.le_add_right ..

end Driver

namespace World

variable {w w' : World} {n d : Nat} {τ : Tap}

def credit? (w : World) : Tap → Option Credit
  | .inert | .custom _ => none
  | .sequence n => w.sequences[n]?.map Sequence.credit
  | .subject n e => (w.subjects[n]?.bind fun s => s.entries[e]?).map Subject.Entry.credit
  | .driver d => w.drivers[d]?.map fun x => x.driver.credit

def holder? (w : World) (τ : Tap) : Option Nat := (w.credit? τ).bind Credit.holder

def units (w : World) (τ : Tap) : Nat := (w.credit? τ).elim 0 Credit.units

theorem units_of_eq {c : Credit} (h : w.credit? τ = some c) : w.units τ = c.units := by
  rw [units, h]
  rfl

theorem holder?_of_eq {c : Credit} (h : w.credit? τ = some c) : w.holder? τ = c.holder := by
  rw [holder?, h]
  rfl

theorem credit?_sequence {q : Sequence Outlet} (hq : w.sequences[n]? = some q) :
    w.credit? (.sequence n) = some q.credit := by
  rw [credit?, hq]
  rfl

theorem credit?_subject {s : Subject Outlet} {e : Nat} {x : Subject.Entry Outlet}
    (hs : w.subjects[n]? = some s) (hx : s.entries[e]? = some x) :
    w.credit? (.subject n e) = some x.credit := by
  rw [credit?, hs, Option.bind_some, hx]
  rfl

theorem credit?_driver {x : StreamTask} (hx : w.drivers[d]? = some x) :
    w.credit? (.driver d) = some x.driver.credit := by
  rw [credit?, hx]
  rfl

theorem credit?_setSequence {q : Sequence Outlet} (hq : w.sequences[n]? = some q)
    (r : Sequence Outlet) :
    (w.setSequence n r).credit? = Function.update w.credit? (.sequence n) (some r.credit) := by
  funext τ
  cases τ with
  | sequence k =>
    simp only [credit?, setSequence, Array.getElem?_setIfInBounds]
    by_cases hk : n = k
    · subst hk
      simp [lt_size_of_getElem? hq]
    · rw [if_neg hk, Function.update_of_ne (by simpa using Ne.symm hk)]
      rfl
  | _ => rfl

theorem credit?_setDriver {x : StreamTask} (hx : w.drivers[d]? = some x) (s : Driver Outlet) :
    (w.setDriver d s).credit? = Function.update w.credit? (.driver d) (some s.credit) := by
  funext τ
  cases τ with
  | driver e =>
    simp only [credit?, drivers_setDriver hx]
    by_cases he : e = d
    · subst he
      simp
    · rw [if_neg he, Function.update_of_ne (by simpa using he)]
      rfl
  | _ => rfl

theorem credit?_setEntry {s t : Subject Outlet} {e : Nat} {x y : Subject.Entry Outlet}
    (hs : w.subjects[n]? = some s) (hx : s.entries[e]? = some x)
    (ht : t.entries = s.entries.setIfInBounds e y) :
    (w.setSubject n t).credit? = Function.update w.credit? (.subject n e) (some y.credit) := by
  funext τ
  cases τ with
  | subject k f =>
    simp only [credit?, setSubject, Array.getElem?_setIfInBounds]
    by_cases hk : n = k
    · subst hk
      rw [if_pos rfl, if_pos (lt_size_of_getElem? hs), Option.bind_some, ht,
        Array.getElem?_setIfInBounds]
      by_cases hf : e = f
      · subst hf
        simp [lt_size_of_getElem? hx]
      · rw [if_neg hf, Function.update_of_ne (by simpa using Ne.symm hf)]
        simp only [credit?, hs, Option.bind_some]
    · rw [if_neg hk, Function.update_of_ne (by simpa using fun h _ => hk h.symm)]
      rfl
  | _ => rfl

theorem credit?_setSubject {s t : Subject Outlet} (hs : w.subjects[n]? = some s)
    (ht : t.entries = s.entries) : (w.setSubject n t).credit? = w.credit? := by
  funext τ
  cases τ with
  | subject k f =>
    simp only [credit?, setSubject, Array.getElem?_setIfInBounds]
    by_cases hk : n = k
    · subst hk
      rw [if_pos rfl, if_pos (lt_size_of_getElem? hs), hs, Option.bind_some, Option.bind_some, ht]
    · rw [if_neg hk]
  | _ => rfl

end World
end Sluice
