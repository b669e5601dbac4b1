import Sluice.Proofs.Machine.PublisherCredit

/-!
# Sections of sequences

A sequence spends a unit of its subscriber's credit when it takes a value for it, be it
from its iterator or from what was read ahead. The credit of a sequence that was never
subscribed to cannot grow.
-/

namespace Sluice

inductive Sequence.Sends (who : Option Outlet) :
    Move (Sequence.Out Outlet) (Sequence.Frame Outlet) → Prop
  | answer {r : Reply} : Sends who (.answer r)
  | deliver {dest : Outlet} {v : Value} (h : who = some dest) :
      Sends who (.call (.deliver dest v) (.delivering dest))
  | draw {dest : Outlet} (h : who = some dest) : Sends who (.call .advance (.drawing dest))
  | peek : Sends who (.call .advance .peeking)
  | conclude {dest : Outlet} : Sends who (.call (.conclude dest) (.passing dest))

namespace Sequence

def Frame.spends? : Frame Outlet → Option Nat
  | .drawing dest | .delivering dest => some dest.subscriber
  | _ => none

def spends? : Move (Out Outlet) (Frame Outlet) → Option Nat
  | .call _ f => f.spends?
  | .answer _ => none

theorem taken_of_spends? {mv : Move (Out Outlet) (Frame Outlet)} {k : Nat}
    (h : spends? mv = some k) : taken mv = 1 := by
  cases mv with
  | answer r => cases h
  | call o f =>
    cases f with
    | drawing dest => rfl
    | delivering dest => rfl
    | _ => cases h

theorem Sends.who_of_spends? {who : Option Outlet} {mv : Move (Out Outlet) (Frame Outlet)} {k : Nat}
    (h : Sends who mv) (hk : spends? mv = some k) :
    ∃ dest, who = some dest ∧ dest.subscriber = k := by
  cases h with
  | deliver hd => exact ⟨_, hd, Option.some.inj hk⟩
  | draw hd => exact ⟨_, hd, Option.some.inj hk⟩
  | _ => cases hk

theorem drain_sends (q : Sequence Outlet) : Sends q.subscriber q.drain.2 := by
  have h := drained q
  generalize q.drain = r at h ⊢
  obtain ⟨t, mv⟩ := r
  cases h with
  | stop => exact .answer
  | deliver hs => exact .deliver hs
  | draw hs => exact .draw hs

theorem drain_subscriber (q : Sequence Outlet) : q.drain.1.subscriber = q.subscriber := by
  have h := drained q
  generalize q.drain = r at h ⊢
  obtain ⟨t, mv⟩ := r
  cases h with
  | stop _ ht => rw [ht]
  | deliver _ _ _ ht => rw [ht]
  | draw _ _ _ ht => rw [ht]

theorem onRequest_sends (q : Sequence Outlet) (d : Demand) :
    Sends q.subscriber (q.onRequest d).2 := by
  simp only [onRequest]
  split
  · exact .answer
  · split
    · exact .answer
    · exact drain_sends { q with demand := q.demand + d, emitting := true }

theorem onDelivered_sends (q : Sequence Outlet) (d : Demand) :
    Sends q.subscriber (q.onDelivered d).2 := by
  simp only [onDelivered]
  split
  · exact .peek
  · exact drain_sends { q with demand := q.demand + d }

theorem onPeeked_sends (q : Sequence Outlet) (v : Option Value) :
    Sends q.subscriber (q.onPeeked v).2 := by
  cases v with
  | some v => exact drain_sends { q with ahead := some v }
  | none =>
    simp only [onPeeked]
    split
    · exact .conclude
    · exact .answer

theorem onPeeked_subscriber (q : Sequence Outlet) (v : Option Value) :
    (q.onPeeked v).1.subscriber = q.subscriber ∨ (q.onPeeked v).1.subscriber = none := by
  cases v with
  | some v => exact .inl (drain_subscriber { q with ahead := some v })
  | none =>
    simp only [onPeeked]
    split
    · exact .inr rfl
    · exact .inl rfl

end Sequence

theorem World.spent?_sequence (w : World) (n : Nat) (f : Sequence.Frame Outlet) :
    w.spent? (.sequence n f) = f.spends?.map fun k => (.sequence n, k) := by
  cases f <;> rfl

theorem World.SetsCredit.sequence {w : World} {n : Nat} {rest : List Frame} {q q' : Sequence Outlet}
    (hq : w.sequences[n]? = some q)
    (hheld : q'.subscriber = q.subscriber ∨ q'.subscriber = none)
    (hfresh : ¬w.Read n → q'.demand.tally ≤ q.demand.tally) :
    w.SetsCredit rest (.sequence n) q'.credit (w.setSequence n q') :=
  have hc := World.credit?_sequence hq
  { credit := World.credit?_setSequence hq q'
    subscribers := rfl
    read := fun _ => id
    holder := fun _ k hk => World.holder?_of_eq hc ▸ held_of_kept hheld hk
    unread := fun _ k _ _ hk => World.holder?_of_eq hc ▸ held_of_kept hheld hk
    fresh := fun hn => (hfresh hn).trans_eq (World.units_of_eq hc).symm
    polling := by simp
    delivering := by simp }

namespace Machine

variable {m : Machine} {i n : Nat} {rest : List Frame} {failed : Prop}

theorem Ordered.read_of_held (h : m.Ordered i) {q : Sequence Outlet} {k : Nat}
    (hq : m.world.sequences[n]? = some q) (hk : q.held = some k) : m.world.Read n := by
  by_contra hn
  have hnone := (h.fresh n hn).1
  rw [World.holder?_of_eq (World.credit?_sequence hq)] at hnone
  exact absurd (hnone.symm.trans hk) (by simp)

theorem Rationed.sequence {q q' : Sequence Outlet} {who : Option Outlet} {a : Nat}
    {mv : Move (Sequence.Out Outlet) (Sequence.Frame Outlet)} (h : m.Rationed failed i)
    (hl : m.Leaves i rest) (hq : m.world.sequences[n]? = some q) (hmv : Sequence.Sends who mv)
    (hheld : q'.subscriber = q.subscriber ∨ q'.subscriber = none)
    (hfresh : ¬m.world.Read n → q'.demand.tally ≤ q.demand.tally)
    (hwho : ∀ dest, who = some dest →
      m.world.Read n ∧ ∀ k, q.held = some k → k = dest.subscriber)
    (hinp : ∀ τ, (if τ = .sequence n then a else 0) + m.world.loads i τ rest ≤ m.carried i τ)
    (hflow : m.world.purse i (.sequence n) + a ≤ 1 →
      q'.credit.share i + (if Sequence.spends? mv = some i then 1 else 0) ≤
        m.world.purse i (.sequence n) + a) :
    (sequenceSection { m with stack := rest } n (q', mv)).Rationed failed i := by
  have ht : m.world.SetsCredit rest (.sequence n) q'.credit (m.world.setSequence n q') :=
    .sequence hq hheld hfresh
  have hown (k : Nat) (hk : Sequence.spends? mv = some k) :
      m.world.Known (.sequence n) ∧ ∀ j, m.world.holder? (.sequence n) = some j → j = k := by
    obtain ⟨dest, hd, rfl⟩ := hmv.who_of_spends? hk
    rw [World.holder?_of_eq (World.credit?_sequence hq)]
    exact hwho dest hd
  have hleft (f : Sequence.Frame Outlet) (hf : ∀ dest, f ≠ .opening dest) :
      ∀ g ∈ some (Frame.sequence n f), ¬g.Guarded i ∧
        (m.world.setSequence n q').spent? g = f.spends?.map fun k => (.sequence n, k) := by
    rintro g ⟨⟩
    refine ⟨fun hg => ?_, World.spent?_sequence _ n f⟩
    cases f with
    | opening dest => exact hf dest rfl
    | _ => exact hg
  cases hmv with
  | answer =>
    exact h.gives (g := none) hl ht (by simp) hown (.offCredit .answer (by simp)) a hinp hflow
  | @deliver dest =>
    exact h.gives hl ht (hleft (.delivering dest) (by simp)) hown (.value rfl rfl) a hinp hflow
  | @draw dest =>
    exact h.gives hl ht (hleft (.drawing dest) (by simp)) hown
      (.offCredit (.call trivial) (by simp [Frame.delivers])) a hinp hflow
  | peek =>
    exact h.gives hl ht (hleft .peeking (by simp)) hown
      (.offCredit (.call trivial) (by simp [Frame.delivers])) a hinp hflow
  | @conclude dest =>
    exact h.gives hl ht (hleft (.passing dest) (by simp)) hown
      (.offCredit (.call trivial) (by simp [Frame.delivers])) a hinp hflow

theorem Rationed.sequence_own {q q' : Sequence Outlet} {a : Nat}
    {mv : Move (Sequence.Out Outlet) (Sequence.Frame Outlet)} (h : m.Rationed failed i)
    (hl : m.Leaves i rest) (hq : m.world.sequences[n]? = some q)
    (hmv : Sequence.Sends q.subscriber mv)
    (hheld : q'.subscriber = q.subscriber ∨ q'.subscriber = none)
    (hfresh : ¬m.world.Read n → q'.demand.tally ≤ q.demand.tally)
    (hinp : ∀ τ, (if τ = .sequence n then a else 0) + m.world.loads i τ rest ≤ m.carried i τ)
    (hunits : q.held = some i → q.demand.tally + a ≤ 1 →
      q'.demand.tally + Sequence.taken mv ≤ q.demand.tally + a) :
    (sequenceSection { m with stack := rest } n (q', mv)).Rationed failed i := by
  refine h.sequence hl hq hmv hheld hfresh (fun dest hd => ?_) hinp fun hone => ?_
  · have hheld : q.held = some dest.subscriber := by rw [Sequence.held, hd, Option.map_some]
    exact ⟨h.read_of_held hq hheld, fun k hk => Option.some.inj (hk.symm.trans hheld)⟩
  · refine World.purse_flow (World.credit?_sequence hq) (fun k => held_of_kept hheld)
      (fun k hk => ?_) (fun hi hle => ?_) hone
    · obtain ⟨dest, hd, rfl⟩ := hmv.who_of_spends? hk
      exact congrArg (Option.map Outlet.subscriber) hd
    · refine (Nat.add_le_add (q'.credit.share_le i) ?_).trans (hunits hi hle)
      split
      · next hsp => exact (Sequence.taken_of_spends? hsp).ge
      · exact Nat.zero_le _

theorem Rationed.request_sequence {link : Link} {d : Demand} (h : m.Rationed failed i)
    (hc : m.control = .calling (.request link d)) (ht : link.tap = .sequence n) :
    (m.enterSequence n (.request d)).Rationed failed i := by
  have hl := h.leaves_calling hc (by simp)
  unfold enterSequence
  split
  · next q hq =>
    obtain ⟨a, hinp, hd⟩ := h.requested hc
    rw [ht] at hinp hd
    have hfresh (hn : ¬m.world.Read n) : q.onRequest d = (q, .answer .done) := by
      have hnone : q.held = none :=
        (World.holder?_of_eq (World.credit?_sequence hq)).symm.trans (h.fresh n hn).1
      rw [Sequence.onRequest, Option.map_eq_none_iff.mp hnone]
      rfl
    refine h.sequence_own hl hq (q.onRequest_sends d) (.inl (onRequest_keepsRoll n q d).1) ?_ hinp
      ?_
    · intro hn
      change (q.onRequest d).1.demand.tally ≤ q.demand.tally
      rw [hfresh hn]
    · intro hi hone
      obtain rfl := hd ((World.holder?_of_eq (World.credit?_sequence hq)).trans hi)
      exact Sequence.onRequest_taken hone
  · exact h.keepsCredit hl (answer_keepsCredit m _) (loads_le_calling hc)

theorem Rationed.cancel_sequence {link : Link} (h : m.Rationed failed i)
    (hc : m.control = .calling (.cancel link)) : (m.enterSequence n .cancel).Rationed failed i := by
  have hl := h.leaves_calling hc (by simp)
  unfold enterSequence
  split
  · next q hq =>
    exact h.sequence_own (a := 0) hl hq .answer (.inr rfl) (fun _ => Nat.le_refl _)
      (fun τ => by simpa using loads_le_calling hc τ) fun _ _ => Nat.le_refl _
  · exact h.keepsCredit hl (answer_keepsCredit m _) (loads_le_calling hc)

theorem Rationed.proceed_sequence {r : Reply} {f : Sequence.Frame Outlet} (h : m.Rationed failed i)
    (hc : m.control = .answering r) (hs : m.stack = .sequence n f :: rest)
    (hf : ∀ dest, f ≠ .opening dest) :
    (proceedSequence { m with stack := rest } n f r).Rationed failed i := by
  have hl := h.leaves_popped hs (by simp)
  have hkept := h.kept (.sequence n f) (hs ▸ List.mem_cons_self)
  have hnothing (τ : Tap) :
      (if τ = .sequence n then 0 else 0) + m.world.loads i τ rest ≤ m.carried i τ := by
    simpa using loads_le_carried hs τ
  unfold proceedSequence
  split
  · next q hq =>
    cases f with
    | opening dest => exact absurd rfl (hf dest)
    | refusing dest =>
      exact h.sequence_own (a := 0) hl hq .conclude (.inl rfl) (fun _ => Nat.le_refl _)
        hnothing fun _ _ => Nat.le_refl _
    | passing dest =>
      exact h.sequence_own (a := 0) hl hq .answer (.inl rfl) (fun _ => Nat.le_refl _)
        hnothing fun _ _ => Nat.le_refl _
    | peeking =>
      refine h.sequence_own (a := 0) hl hq (q.onPeeked_sends r.item?)
        (q.onPeeked_subscriber r.item?) ?_ hnothing fun _ hone => Sequence.onPeeked_taken hone
      intro hn
      have hzero : q.demand.tally = 0 :=
        (World.units_of_eq (World.credit?_sequence hq)).symm.trans (h.fresh n hn).2
      have hle := Sequence.onPeeked_taken (q := q) (v := r.item?) (by omega)
      change (q.onPeeked r.item?).1.demand.tally ≤ q.demand.tally
      omega
    | drawing dest =>
      obtain ⟨hread, hdest⟩ := hkept (.sequence n) dest.subscriber rfl
      rw [World.holder?_of_eq (World.credit?_sequence hq)] at hdest
      have hinp := brought_back (i := i) hc hs (m.world.spent?_sequence n (.drawing dest))
      have hwho (dest' : Outlet) (hd : some dest = some dest') : m.world.Read n ∧
          ∀ k, q.held = some k → k = dest'.subscriber := by
        obtain rfl := Option.some.inj hd
        exact ⟨hread, hdest⟩
      have hpurse : m.world.purse i (.sequence n) = q.credit.share i :=
        World.purse_of_eq (World.credit?_sequence hq)
      cases hv : r.item? with
      | some v =>
        simp only [Sequence.proceed, hv]
        refine h.sequence hl hq (.deliver rfl) (.inl rfl) (fun _ => Nat.le_refl _) hwho hinp
          fun _ => ?_
        rw [hpurse]
        simp [Sequence.spends?, Sequence.Frame.spends?, Frame.delivers]
      | none =>
        simp only [Sequence.proceed, hv]
        refine h.sequence hl hq .answer (.inl rfl) (fun _ => Nat.le_refl _) hwho hinp fun _ => ?_
        exact hpurse.ge.trans (Nat.le_add_right ..)
    | delivering dest =>
      obtain ⟨hread, hdest⟩ := hkept (.sequence n) dest.subscriber rfl
      rw [World.holder?_of_eq (World.credit?_sequence hq)] at hdest
      have hinp := brought_back (i := i) hc hs (m.world.spent?_sequence n (.delivering dest))
      have hsub : (q.onDelivered r.granted).1.subscriber = q.subscriber :=
        (onDelivered_keepsRoll n q r.granted).1
      refine h.sequence_own hl hq (q.onDelivered_sends r.granted) (.inl hsub)
        (fun hn => absurd hread hn) hinp fun hi hone => ?_
      obtain rfl := hdest i hi
      simp only [if_true, Frame.delivers] at hone ⊢
      exact Sequence.onDelivered_taken hone
  · exact h.keepsCredit hl (answer_keepsCredit { m with stack := rest } _) (loads_le_carried hs)

end Machine
end Sluice
