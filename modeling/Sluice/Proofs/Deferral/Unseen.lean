import Sluice.Proofs.Deferral.Driver
import Sluice.Proofs.Deferral.Sequence
import Sluice.Proofs.Deferral.Subject
import Sluice.Proofs.Subject.Delivery

/-!
# Requesting inside a receive equals returning the demand

Whatever requests are kept back, in whichever receives, and whatever else goes on:
the publishers make the same calls and give the same answers, in the same order.
The same values are delivered, the same completion comes at the same point, and the
iterator or the stream is asked as often. What is left of the demand is the same as
well, up to what is still owed while a chosen receive is under way.
-/

namespace Sluice

namespace Desk

variable {S In Out F : Type}

/-- How a session with requests kept back compares with the session without. -/
structure Unseen (Short : Demand → S → S → Prop) (owed : Option Demand)
    (s t : Session S In Out F) : Prop where
  frames : t.frames = s.frames
  shown : t.log.filterMap Entry.shown? = s.log.filterMap Entry.shown?
  short : Short (owed.getD .zero) s.state t.state

theorem Steady.unseen {k : Desk S In F} {c : Component S In Out F}
    {may : Session S In Out F → Turn In → Prop} {s₀ : S} {Short : Demand → S → S → Prop}
    (hk : k.Steady c may s₀ Short) (pick : Nat → Bool) {xs : List (Turn In)}
    {s : Session S In Out F} (hs : Session.Takes c may (.start s₀) xs s) :
    ∃ t, Session.Takes c may (.start s₀) (k.defer c pick (.start s₀) none xs).1 t ∧
      Unseen Short (k.defer c pick (.start s₀) none xs).2 s t := by
  obtain ⟨t, ht, hb⟩ := hk.defer_takes pick hs hk.start
  exact ⟨t, ht, hb.frames, hb.shown, hb.short⟩

end Desk

/-- In every session of a sequence, of a subject and of a driver, and for every choice of receives,
a subscriber that returns what it would have requested in them gets the same from its publisher. -/
theorem requests_returned_unseen {ρ : Type} (pick : Nat → Bool) :
    (∀ {xs : List (Turn (Sequence.In ρ))} {s : Sequence.Play ρ},
      Session.Takes Sequence.component Sequence.Unpanicked (.start {}) xs s →
      ∃ t, Session.Takes Sequence.component Sequence.Unpanicked (.start {})
          (Sequence.desk.defer Sequence.component pick (.start {}) none xs).1 t ∧
        Desk.Unseen Sequence.Short
          (Sequence.desk.defer Sequence.component pick (.start {}) none xs).2 s t) ∧
    (∀ {e : Nat} {xs : List (Turn (Subject.In ρ))} {s : Subject.Play ρ},
      Session.Takes Subject.component (Subject.Patient e) (.start {}) xs s →
      ∃ t, Session.Takes Subject.component (Subject.Patient e) (.start {})
          ((Subject.desk e).defer Subject.component pick (.start {}) none xs).1 t ∧
        Desk.Unseen (Subject.Short e)
          ((Subject.desk e).defer Subject.component pick (.start {}) none xs).2 s t) ∧
    (∀ {pace : Driver.Pace} {xs : List (Turn (Driver.In ρ))} {s : Driver.Play ρ},
      Session.Takes Driver.component Driver.Steadily (.start { pace := pace }) xs s →
      ∃ t, Session.Takes Driver.component Driver.Steadily (.start { pace := pace })
          (Driver.desk.defer Driver.component pick (.start { pace := pace }) none xs).1 t ∧
        Desk.Unseen Driver.Short
          (Driver.desk.defer Driver.component pick (.start { pace := pace }) none xs).2 s t) :=
  ⟨Sequence.steady.unseen pick, fun {e} => (Subject.steady e).unseen pick,
    fun {pace} => (Driver.steady pace).unseen pick⟩

/-- The requests of one receive leave the 64-bit range; in the next one a cancellation follows. -/
def overflowing : List (Turn (Sequence.In Nat)) :=
  [.enter (.subscribe 0), .reply (.item (some 1)), .enter (.request .one), .enter (.request .one),
    .enter (.request (.upTo 18446744073709551615)), .reply (.demand .one), .reply (.item (some 2)),
    .enter (.request .one), .enter .cancel, .reply (.demand .one), .reply .done]

def withdrawing : List (Turn (Subject.In Nat)) :=
  [.enter (.subscribe 0), .enter (.request 0 .one), .reply .done, .enter (.send 5),
    .enter (.request 0 (.upTo 2)), .enter (.cancel 0), .reply (.demand .one)]

def refilling : List (Turn (Driver.In Nat)) :=
  [.enter (.subscribe 0), .enter (.request .one), .reply .done, .reply .done, .enter .run,
    .reply (.poll (.value 7)), .enter (.request .one), .reply (.demand .one)]

theorem requests_returned_unseen_overflowing :
    (∃ s t, Session.Takes Sequence.component Sequence.Unpanicked (.start {}) overflowing s ∧
      Session.Takes Sequence.component Sequence.Unpanicked (.start {})
        [.enter (.subscribe 0), .reply (.item (some 1)), .enter (.request .one),
          .reply (.demand .unlimited), .reply (.item (some 2)), .enter .cancel,
          .reply (.demand (.upTo 2)), .reply .done] t ∧
      Desk.Unseen Sequence.Short none s t ∧ s.state.demand = .unlimited) ∧
    (∃ s t, Session.Takes Subject.component (Subject.Patient 0) (.start {}) withdrawing s ∧
      Session.Takes Subject.component (Subject.Patient 0) (.start {})
        [.enter (.subscribe 0), .enter (.request 0 .one), .reply .done, .enter (.send 5),
          .enter (.cancel 0), .reply (.demand (.upTo 3))] t ∧
      Desk.Unseen (Subject.Short 0) none s t ∧ s.state.unspent 0 = .upTo 3) ∧
    (∃ s t, Session.Takes Driver.component Driver.Steadily (.start { pace := .standard })
        refilling s ∧
      Session.Takes Driver.component Driver.Steadily (.start { pace := .standard })
        [.enter (.subscribe 0), .enter (.request .one), .reply .done, .reply .done, .enter .run,
          .reply (.poll (.value 7)), .reply (.demand (.upTo 2))] t ∧
      Desk.Unseen Driver.Short none s t ∧ s.state.demand = .one) := by
  obtain ⟨sequences, subjects, drivers⟩ := requests_returned_unseen (ρ := Nat) fun _ => true
  refine ⟨?_, ?_, ?_⟩
  · obtain ⟨s, hs, hd⟩ : ∃ s, Session.play? Sequence.component (.start {}) overflowing = some s ∧
        s.state.demand = .unlimited := ⟨_, rfl, rfl⟩
    have calm : ∀ x ∈ overflowing, ∀ p, Sequence.Unpanicked p x := by
      simp [overflowing, Sequence.Unpanicked]
    have hs := Session.Takes.of_play calm hs
    obtain ⟨t, ht, hu⟩ := sequences hs
    exact ⟨s, t, hs, ht, hu, hd⟩
  · have idle : Subject.Patient 0 (Session.start {} : Subject.Play Nat) (.enter (.send 5)) := by
      rintro ⟨f, hf, -⟩
      cases hf
    obtain ⟨s, hs, hd⟩ : ∃ s, Session.Takes Subject.component (Subject.Patient 0) (.start {})
        withdrawing s ∧ s.state.unspent 0 = .upTo 3 :=
      ⟨_, .cons trivial rfl <| .cons trivial rfl <| .cons trivial rfl <| .cons idle rfl <|
        .cons trivial rfl <| .cons trivial rfl <| .cons trivial rfl <| .nil _, rfl⟩
    obtain ⟨t, ht, hu⟩ := subjects hs
    exact ⟨s, t, hs, ht, hu, hd⟩
  · have idle : ∀ f ∈ ([] : List (Driver.Frame Nat)), f.isRunning = false := by simp
    obtain ⟨s, hs, hd⟩ : ∃ s, Session.Takes Driver.component Driver.Steadily
        (.start { pace := .standard }) refilling s ∧ s.state.demand = .one :=
      ⟨_, .cons trivial rfl <| .cons trivial rfl <| .cons trivial rfl <| .cons trivial rfl <|
        .cons idle rfl <| .cons trivial rfl <| .cons trivial rfl <| .cons trivial rfl <| .nil _,
        rfl⟩
    obtain ⟨t, ht, hu⟩ := drivers hs
    exact ⟨s, t, hs, ht, hu, hd⟩

end Sluice
