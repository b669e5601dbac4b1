import Sluice.Proofs.Machine.Subscribers

/-!
# What becomes of a subscriber

From one move to the next a subscriber stays as it is or goes through one section
of its own. What every section keeps, and holds of new subscribers, holds of all
subscribers in every run.
-/

namespace Sluice

namespace Subscriber

inductive Becomes : Subscriber → Subscriber → Prop
  | same (s : Subscriber) : Becomes s s
  | sinkTold (s : Sink Link) (msg : Message Link) : Becomes (.sink s) (.sink (s.enter msg).1)
  | sinkResumed (s : Sink Link) (r : Reply) (f : Sink.Frame) :
      Becomes (.sink s) (.sink (s.proceed r f).1)
  | assignTold (s : Assign Link Nat) (rule : WriteRule) (msg : Message Link) :
      Becomes (.assign s rule) (.assign (s.enter msg).1 rule)
  | assignResumed (s : Assign Link Nat) (rule : WriteRule) (f : Assign.Frame Nat) :
      Becomes (.assign s rule) (.assign (s.proceed f).1 rule)

end Subscriber

namespace Machine

open Subscriber (Becomes)

variable {m m' : Machine} {subs subs' : Array Subscriber} {i : Nat} {s s' : Subscriber}

/-- Place by place, the subscribers of the second table come of those in the first. -/
def Become (subs subs' : Array Subscriber) : Prop :=
  ∀ i : Nat, Option.Rel Becomes subs[i]? subs'[i]?

theorem Become.of_eq (h : subs' = subs) : Become subs subs' := by
  intro i
  rw [h]
  cases subs[i]? with
  | none => exact .none
  | some s => exact .some (.same s)

theorem Become.set (hs : subs[i]? = some s) (h : s.Becomes s') :
    Become subs (subs.setIfInBounds i s') := by
  intro j
  by_cases hj : i = j
  · subst hj
    rw [Array.getElem?_setIfInBounds, if_pos rfl, if_pos (lt_size_of_getElem? hs), hs]
    exact .some h
  · rw [Array.getElem?_setIfInBounds, if_neg hj]
    exact Become.of_eq rfl j

theorem Become.stays (h : Become subs subs') (hs : subs[i]? = some s) :
    ∃ s', subs'[i]? = some s' ∧ s.Becomes s' := by
  have hi := h i
  rw [hs] at hi
  generalize subs'[i]? = x at hi
  cases hi with
  | some hb => exact ⟨_, rfl, hb⟩

theorem Become.comes (h : Become subs subs') (hs : subs'[i]? = some s') :
    ∃ s, subs[i]? = some s ∧ s.Becomes s' := by
  have hi := h i
  rw [hs] at hi
  generalize subs[i]? = x at hi
  cases hi with
  | some hb => exact ⟨_, rfl, hb⟩

theorem sinkSection_subscribers (m : Machine) (i : Nat)
    (r : Sink Link × Move (Sink.Out Link) Sink.Frame) :
    (m.sinkSection i r).world.subscribers = m.world.subscribers.setIfInBounds i (.sink r.1) := by
  obtain ⟨s, mv⟩ := r
  cases mv <;> rfl

theorem assignSection_subscribers (m : Machine) (i : Nat) (rule : WriteRule)
    (r : Assign Link Nat × Move (Assign.Out Link Nat) (Assign.Frame Nat)) :
    (m.assignSection i rule r).world.subscribers =
      m.world.subscribers.setIfInBounds i (.assign r.1 rule) := by
  obtain ⟨s, mv⟩ := r
  cases mv <;> rfl

theorem tell_become (m : Machine) (i : Nat) (msg : Message Link) :
    Become m.world.subscribers (m.tell i msg).world.subscribers := by
  cases hs : m.world.subscribers[i]? with
  | none =>
    refine .of_eq ?_
    simp only [tell, hs]
    rfl
  | some s =>
    cases s with
    | sink s =>
      have told := Become.set hs (.sinkTold s msg)
      unfold tell
      rw [hs]
      dsimp only
      split
      · rename_i t v f ht
        split
        · exact .of_eq rfl
        · rw [sinkSection_subscribers]
          exact (congrArg Prod.fst ht) ▸ told
      · rw [sinkSection_subscribers]
        exact told
    | assign s rule =>
      rw [tell_assign hs, assignSection_subscribers]
      exact .set hs (.assignTold s rule msg)
    | custom =>
      refine .of_eq ?_
      simp only [tell, hs]
      cases customQuestion i msg <;> rfl

theorem proceedSink_become (m : Machine) (i : Nat) (f : Sink.Frame) (r : Reply) :
    Become m.world.subscribers (m.proceedSink i f r).world.subscribers := by
  unfold proceedSink
  split
  · rename_i s hs
    rw [sinkSection_subscribers]
    exact .set hs (.sinkResumed s r f)
  · exact .of_eq rfl

theorem proceedAssign_become (m : Machine) (i : Nat) (f : Assign.Frame Nat) :
    Become m.world.subscribers (m.proceedAssign i f).world.subscribers := by
  unfold proceedAssign
  split
  · rename_i s rule hs
    rw [assignSection_subscribers]
    exact .set hs (.assignResumed s rule f)
  · exact .of_eq rfl

theorem step_become (m : Machine) : Become m.world.subscribers m.step.world.subscribers := by
  unfold step
  cases hc : m.control with
  | calling c =>
    by_cases ht : ∃ i msg, c = .tell i msg
    · obtain ⟨i, msg, rfl⟩ := ht
      exact tell_become m i msg
    · exact .of_eq (enter_aloof m fun i msg h => ht ⟨i, msg, h⟩).subscribers
  | answering r =>
    cases hs : m.stack with
    | nil => exact .of_eq rfl
    | cons f rest =>
      by_cases hf : f.Foreign
      · exact .of_eq (proceed_aloof { m with stack := rest } r hf).subscribers
      · cases f with
        | sink i f => exact proceedSink_become { m with stack := rest } i f r
        | assign i f => exact proceedAssign_become { m with stack := rest } i f
        | _ => exact absurd trivial hf
  | unwinding why =>
    cases hs : m.stack with
    | nil => exact .of_eq rfl
    | cons f rest => exact .of_eq (unwound_aloof { m with stack := rest } why f).subscribers
  | idle o => exact .of_eq rfl
  | stuck => exact .of_eq rfl

inductive Grow (subs : Array Subscriber) : Array Subscriber → Prop
  | become {subs' : Array Subscriber} (h : Become subs subs') : Grow subs subs'
  | add {s : Subscriber} (hs : s.Fresh) : Grow subs (subs.push s)

theorem Next.grow (h : m.Next m') : Grow m.world.subscribers m'.world.subscribers := by
  cases h with
  | step => exact .become (step_become m)
  | attend => exact .become (.of_eq rfl)
  | invoke => exact .become (.of_eq rfl)
  | begin => exact .become (.of_eq rfl)
  | reply _ r =>
    unfold Machine.reply
    split <;> exact .become (.of_eq rfl)
  | raise _ why =>
    unfold Machine.raise
    split <;> exact .become (.of_eq rfl)
  | change _ hw =>
    cases hw with
    | subscriber hs => exact .add hs
    | _ => exact .become (.of_eq rfl)

theorem Next.stays (h : m.Next m') (hs : m.world.subscribers[i]? = some s) :
    ∃ s', m'.world.subscribers[i]? = some s' ∧ s.Becomes s' := by
  have hg := h.grow
  generalize m'.world.subscribers = subs' at hg ⊢
  cases hg with
  | become hb => exact hb.stays hs
  | add _ =>
    refine ⟨s, ?_, .same s⟩
    rw [Array.getElem?_push, if_neg (Nat.ne_of_lt (lt_size_of_getElem? hs)), hs]

theorem Next.comes (h : m.Next m') (hs : m'.world.subscribers[i]? = some s') :
    (∃ s, m.world.subscribers[i]? = some s ∧ s.Becomes s') ∨ s'.Fresh := by
  have hg := h.grow
  generalize m'.world.subscribers = subs' at hg hs
  cases hg with
  | become hb => exact .inl (hb.comes hs)
  | @add x hx =>
    rw [Array.getElem?_push] at hs
    split at hs
    · obtain rfl := Option.some.inj hs
      exact .inr hx
    · exact .inl ⟨s', hs, .same s'⟩

theorem Reached.members {P : Subscriber → Prop} {may : Machine → Prop} (h : Reached may m)
    (fresh : ∀ s, s.Fresh → P s) (becomes : ∀ s s', s.Becomes s' → P s → P s')
    (hs : m.world.subscribers[i]? = some s) : P s := by
  refine h.invariant (P := fun m => ∀ (i : Nat) s, m.world.subscribers[i]? = some s → P s)
    (by simp) ?_ i s hs
  intro m m' hm hn _ i s' hs'
  rcases hn.comes hs' with ⟨s, hs, hb⟩ | hf
  · exact becomes s s' hb (hm i s hs)
  · exact fresh s' hf

theorem Next.seated (h : m.Next m') (hm : m.Seated) : m'.Seated := by
  cases h.moved hm with
  | aloof ha => exact ha.seated
  | added ha => exact ha.seated
  | message => exact (tell_sectioned ..).seated
  | sink => exact (proceedSink_sectioned ..).seated
  | assign => exact (proceedAssign_sectioned ..).seated

theorem Reached.seated {may : Machine → Prop} (h : Reached may m) : m.Seated :=
  h.invariant (P := Seated) (by simp [Seated]) fun hm hn _ => hn.seated hm

end Machine
end Sluice
