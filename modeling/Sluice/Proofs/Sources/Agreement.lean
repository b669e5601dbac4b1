import Sluice.Proofs.Sources.Sequence
import Sluice.Proofs.Sources.Stream

/-!
# Sequences and streams agree

A sequence and a stream over the same values show a sink the same ones, however
often it refuses and is resumed. They differ in how they find out about the end:
a sequence looks ahead, while a stream has to be polled once more, for which the
sink must have asked.
-/

namespace Sluice

namespace World

def Concluded (w : World) (i : Nat) : Prop :=
  w.subscribers[i]?.map Subscriber.status = some .terminal ∧ w.handled i = [.finished]

def Unconcluded (w : World) (i : Nat) : Prop :=
  w.subscribers[i]?.map Subscriber.status = some .subscribed ∧ w.handled i = []

theorem Concluded.not_unconcluded {w : World} {i : Nat} (h : w.Concluded i) :
    ¬ w.Unconcluded i := by
  intro hu
  have hs := h.1.symm.trans hu.1
  simp at hs

end World

namespace Machine

variable {verdict : Nat → Bool} {xs : List Value} {k : Nat} {p : Driver.Pace} {w w' : World}

structure Agree (verdict : Nat → Bool) (xs : List Value) (k : Nat) (w w' : World) : Prop where
  shown : w.shown 0 = w'.shown 0
  order : w.shown 0 <+: xs
  halts : Halts verdict xs.length k (w.shown 0).length
  concluded : w.Concluded 0 ↔ refusals verdict (xs.length - 1) ≤ k
  unconcluded : w.Unconcluded 0 ↔ k < refusals verdict (xs.length - 1)
  concluded' : w'.Concluded 0 ↔ refusals verdict xs.length ≤ k
  unconcluded' : w'.Unconcluded 0 ↔ k < refusals verdict xs.length

/-- What a source can come to: the values shown are the first ones, and the sink is concluded if
the refusals that count, those among the first `n`, are few enough. -/
structure Settled (verdict : Nat → Bool) (xs : List Value) (k n : Nat) (w : World) : Prop where
  order : w.shown 0 <+: xs
  halts : Halts verdict xs.length k (w.shown 0).length
  outcome : w.Concluded 0 ∧ refusals verdict n ≤ k ∨ w.Unconcluded 0 ∧ k < refusals verdict n

variable {n : Nat} {ys left : List Value}

theorem Settled.of_refused (hx : xs = ys ++ left) (hs : w.shown 0 = ys) (hw : w.Unconcluded 0)
    (hlast : refusals verdict (ys.length - 1) ≤ k) (hk : refusals verdict ys.length = k + 1)
    (hn : ys.length ≤ n) : Settled verdict xs k n w where
  order := hs.symm ▸ ⟨left, hx.symm⟩
  halts := by
    rw [hs]
    exact ⟨by simp [hx], hlast, fun _ => by omega⟩
  outcome := by
    have hm : refusals verdict ys.length ≤ refusals verdict n := refusals_mono hn
    exact .inr ⟨hw, by omega⟩

theorem Settled.of_shown (hs : w.shown 0 = xs) (hw : w.Concluded 0) (hle : xs.length - 1 ≤ n)
    (hn : refusals verdict n ≤ k) : Settled verdict xs k n w where
  order := hs.symm ▸ List.prefix_rfl
  halts := by
    rw [hs]
    exact ⟨le_rfl, (refusals_mono hle).trans hn, fun hlt => absurd hlt (lt_irrefl _)⟩
  outcome := .inl ⟨hw, hn⟩

theorem SequenceRests.settled {hs : Array Handle} (h : SequenceRests verdict xs k hs w) :
    Settled verdict xs k (xs.length - 1) w := by
  cases h with
  | @paused ys left v t hx ht hlast hk =>
    have hlen : xs.length = ys.length + (left.length + 1) := by simp [hx]
    exact .of_refused hx ht.shown ⟨rfl, ht.handled⟩ hlast hk (by omega)
  | ended ht hlast => exact .of_shown ht.shown ⟨rfl, ht.handled⟩ le_rfl hlast

theorem StreamRests.settled (h : StreamRests verdict xs p k w) :
    Settled verdict xs k xs.length w := by
  cases h with
  | @parked ys left t c hx ht hlast hk =>
    have hlen : xs.length = ys.length + left.length := by simp [hx]
    exact .of_refused hx ht.shown ⟨rfl, ht.handled⟩ hlast hk (by omega)
  | ended ht hk => exact .of_shown ht.shown ⟨rfl, ht.handled⟩ (Nat.sub_le _ 1) hk

theorem Settled.concluded_iff (h : Settled verdict xs k n w) :
    w.Concluded 0 ↔ refusals verdict n ≤ k := by
  rcases h.outcome with ⟨hw, hn⟩ | ⟨hw, hn⟩
  · exact iff_of_true hw hn
  · exact iff_of_false (fun hc => hc.not_unconcluded hw) hn.not_ge

theorem Settled.unconcluded_iff (h : Settled verdict xs k n w) :
    w.Unconcluded 0 ↔ k < refusals verdict n := by
  rcases h.outcome with ⟨hw, hn⟩ | ⟨hw, hn⟩
  · exact iff_of_false hw.not_unconcluded hn.not_gt
  · exact iff_of_true hw hn

theorem Settled.shown_eq {n' : Nat} (h : Settled verdict xs k n w)
    (h' : Settled verdict xs k n' w') : w.shown 0 = w'.shown 0 := by
  rw [List.prefix_iff_eq_take.mp h.order, List.prefix_iff_eq_take.mp h'.order,
    h.halts.unique h'.halts]

theorem Settled.agree (h : Settled verdict xs k (xs.length - 1) w)
    (h' : Settled verdict xs k xs.length w') : Agree verdict xs k w w' :=
  ⟨h.shown_eq h', h.order, h.halts, h.concluded_iff, h.unconcluded_iff, h'.concluded_iff,
    h'.unconcluded_iff⟩

/-- The one outcome of a list of calls. -/
def ComesTo (verdict : Nat → Bool) (m : Machine) (cs : List Call) (m' : Machine) : Prop :=
  ∀ m'', Plays verdict m cs m'' ↔ m'' = m'

theorem Plays.comesTo {m m' : Machine} {cs : List Call} (h : Plays verdict m cs m') :
    ComesTo verdict m cs m' := by
  intro m''
  constructor
  · exact fun h' => h'.unique h
  · rintro rfl
    exact h

theorem sequence_comesTo (verdict : Nat → Bool) (xs : List Value) (k : Nat) :
    ∃ m, ComesTo verdict (sequenceStage xs)
      (.attach ⟨[], .sequence 0⟩ 0 :: List.replicate k (.useHandle 0 (.resume 1))) m ∧
      Settled verdict xs k (xs.length - 1) m.world := by
  obtain ⟨w, r, hw, hl⟩ := sequence_attach verdict xs
  obtain ⟨w', r', hw', hp⟩ := hw.resumes r k
  rw [Nat.zero_add] at hw'
  exact ⟨_, (Plays.cons hl ⟨rfl, r, rfl⟩ hp).comesTo, hw'.settled⟩

theorem stream_comesTo (verdict : Nat → Bool) (xs : List Value) (p : Driver.Pace) (k : Nat) :
    ∃ m, ComesTo verdict (streamStage xs) (.attach ⟨[], .stream 0 p⟩ 0 :: .settle ::
      (List.replicate k [.useHandle 0 (.resume 1), .settle]).flatten) m ∧
      Settled verdict xs k xs.length m.world := by
  obtain ⟨w, hw, hl⟩ := launched_settle verdict p xs (.handle 0)
  obtain ⟨w', r', hw', hp⟩ := hw.resumes .done k
  rw [Nat.zero_add] at hw'
  have ha : Plays verdict (streamStage xs) _ _ :=
    .cons (stream_attach xs) ⟨rfl, _, rfl⟩ (.cons hl ⟨rfl, _, rfl⟩ hp)
  exact ⟨_, ha.comesTo, hw'.settled⟩

/-- A sink that decides by `verdict` is attached to a sequence over `xs` and resumed `k` times. An
equal one is attached to a stream that has `xs` ready and then ends, at any pace; all tasks run
until they are idle after the attaching and after each of `k` resumes. -/
theorem sources_agree (xs : List Value) (verdict : Nat → Bool) (p : Driver.Pace) (k : Nat) :
    ∃ m m' : Machine,
      ComesTo verdict (sequenceStage xs)
        (.attach ⟨[], .sequence 0⟩ 0 :: List.replicate k (.useHandle 0 (.resume 1))) m ∧
      ComesTo verdict (streamStage xs) (.attach ⟨[], .stream 0 p⟩ 0 :: .settle ::
        (List.replicate k [.useHandle 0 (.resume 1), .settle]).flatten) m' ∧
      Agree verdict xs k m.world m'.world := by
  obtain ⟨m, hm, hs⟩ := sequence_comesTo verdict xs k
  obtain ⟨m', hm', hs'⟩ := stream_comesTo verdict xs p k
  exact ⟨m, m', hm, hm', hs.agree hs'⟩

end Machine
end Sluice
