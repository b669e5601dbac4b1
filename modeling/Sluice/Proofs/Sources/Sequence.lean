import Mathlib
import Sluice.Proofs.Sources.Verdicts

/-!
# A sink on a sequence

Between two calls the sequence either holds the value that the next resume will
bring, or it has come to its end. One lemma follows the delivery loop from one
delivery on, by induction on what the iterator has left.
-/

namespace Sluice.Machine

variable {verdict : Nat → Bool} {xs : List Value} {k : Nat}

def sequenceWorld (s : Sink Link) (q : Sequence Outlet) (left : List Value) (hs : Array Handle)
    (t : Array Signal) : World where
  subscribers := #[.sink s]
  sequences := #[q]
  feeds := #[.items (left.map some)]
  handles := hs
  trace := t

inductive SequenceRests (verdict : Nat → Bool) (xs : List Value) (k : Nat) (hs : Array Handle) :
    World → Prop
  | paused {ys left : List Value} {v : Value} {t : Array Signal} (hx : xs = ys ++ v :: left)
      (ht : Heard t ys []) (hlast : refusals verdict (ys.length - 1) ≤ k)
      (hk : refusals verdict ys.length = k + 1) :
      SequenceRests verdict xs k hs (sequenceWorld ⟨.subscribed ⟨[], .sequence 0⟩, false, true⟩
        ⟨some ⟨[], 0⟩, .zero, false, some v⟩ left hs t)
  | ended {q : Sequence Outlet} {t : Array Signal} {p : Bool} (ht : Heard t xs [.finished])
      (hlast : refusals verdict (xs.length - 1) ≤ k) :
      SequenceRests verdict xs k hs (sequenceWorld ⟨.terminal, p, false⟩ q [] hs t)

def delivering (v : Value) (left : List Value) (fs : List Frame) (hs : Array Handle)
    (t : Array Signal) : Machine where
  world := sequenceWorld ⟨.subscribed ⟨[], .sequence 0⟩, true, true⟩
    ⟨some ⟨[], 0⟩, .zero, true, none⟩ left hs t
  stack := .sequence 0 (.delivering ⟨[], 0⟩) :: fs
  control := .calling (.tell 0 (.value v))

def decided (v : Value) (more : Bool) (left : List Value) (fs : List Frame) (hs : Array Handle)
    (t : Array Signal) : Machine where
  world := sequenceWorld ⟨.subscribed ⟨[], .sequence 0⟩, true, true⟩
    ⟨some ⟨[], 0⟩, .zero, true, none⟩ left hs (t.push (.asked (.predicate 0 v)))
  stack := .sink 0 .deciding :: .sequence 0 (.delivering ⟨[], 0⟩) :: fs
  control := .answering (.pull more)

theorem delivering_leads {fs : List Frame} {t : Array Signal} {ys : List Value}
    (hf : fs.any (isDeciding 0) = false) (ht : Heard t ys []) (v : Value) (left : List Value)
    (hs : Array Handle) :
    Leads verdict (delivering v left fs hs t)
      (decided v (verdict ys.length) left fs hs t) := by
  have htell : (delivering v left fs hs t).respond verdict =
      { world := (delivering v left fs hs t).world
        stack := .sink 0 .deciding :: (delivering v left fs hs t).stack
        control := .calling (.ask (.predicate 0 v)) } := by
    change (if fs.any (isDeciding 0) = true then _ else _) = _
    rw [hf]
    rfl
  have hlen : (decided v true left fs hs t).world.shown 0 = ys ++ [v] := (ht.predicate v).shown
  have hreply : respond verdict _ = _ :=
    respond_predicate (decided v true left fs hs t).world (decided v true left fs hs t).stack 0 v
  rw [hlen, List.length_append] at hreply
  refine .cons ?_
  rw [htell]
  exact .cons (.cons ⟨0, hreply⟩)

theorem decided_true_cons (v v' : Value) (left : List Value) (fs : List Frame) (hs : Array Handle)
    (t : Array Signal) :
    Leads verdict (decided v true (v' :: left) fs hs t) (delivering v' left fs hs
      ((t.push (.asked (.predicate 0 v))).push (.advanced 0 (some v')))) :=
  ⟨4, by cbv⟩

theorem decided_false_cons (v v' : Value) (left : List Value) (fs : List Frame) (hs : Array Handle)
    (t : Array Signal) :
    Leads verdict (decided v false (v' :: left) fs hs t)
      { world := sequenceWorld ⟨.subscribed ⟨[], .sequence 0⟩, false, true⟩
          ⟨some ⟨[], 0⟩, .zero, false, some v'⟩ left hs
          ((t.push (.asked (.predicate 0 v))).push (.advanced 0 (some v')))
        stack := fs
        control := .answering .done } :=
  ⟨4, by cbv⟩

def concluding (l : Lifecycle Link) (p : Bool) (q : Sequence Outlet) (fs : List Frame)
    (hs : Array Handle) (t : Array Signal) : Machine where
  world := sequenceWorld ⟨l, p, true⟩ q [] hs t
  stack := .sequence 0 (.passing ⟨[], 0⟩) :: fs
  control := .calling (.tell 0 (.completion .finished))

theorem concluding_leads (link : Link) (p : Bool) (q : Sequence Outlet) (fs : List Frame)
    (hs : Array Handle) (t : Array Signal) :
    Leads verdict (concluding (.subscribed link) p q fs hs t)
      { world := sequenceWorld ⟨.terminal, p, false⟩ q [] hs
          (t.push (.asked (.handler 0 .finished)))
        stack := fs
        control := .answering .done } :=
  ⟨5, by cbv⟩

theorem decided_nil (v : Value) (more : Bool) (fs : List Frame) (hs : Array Handle)
    (t : Array Signal) :
    Leads verdict (decided v more [] fs hs t)
      (concluding (.subscribed ⟨[], .sequence 0⟩) more
        ⟨none, .zero + if more then .one else .zero, false, none⟩ fs hs
        ((t.push (.asked (.predicate 0 v))).push (.advanced 0 none))) :=
  ⟨4, by cases more <;> cbv⟩

theorem delivering_rests {v : Value} {left : List Value} {fs : List Frame} {hs : Array Handle}
    {t : Array Signal} {ys : List Value} (hf : fs.any (isDeciding 0) = false)
    (hx : xs = ys ++ v :: left) (ht : Heard t ys []) (hk : refusals verdict ys.length = k) :
    ∃ w, SequenceRests verdict xs k hs w ∧
      Leads verdict (delivering v left fs hs t) ⟨w, fs, .answering .done⟩ := by
  induction left generalizing v t ys with
  | nil =>
    -- The sequence has looked ahead and concludes, even if the last value was refused.
    have hd := (delivering_leads hf ht v [] hs).trans (decided_nil v (verdict ys.length) fs hs t)
    refine ⟨_, .ended ?_ ?_, hd.trans (concluding_leads _ _ _ fs hs _)⟩
    · exact hx ▸ ((ht.predicate v).push rfl rfl).handler .finished
    · simp [hx, hk]
  | cons v' left ih =>
    have hd : Leads verdict _ _ := delivering_leads hf ht v (v' :: left) hs
    have ht' := (ht.predicate v).push (s := .advanced 0 (some v')) rfl rfl
    have hx' : xs = (ys ++ [v]) ++ v' :: left := by simp [hx]
    have hr : refusals verdict (ys.length + 1) = _ := refusals_succ ys.length
    cases hv : verdict ys.length with
    | false =>
      rw [hv] at hd hr
      refine ⟨_, .paused hx' ht' ?_ ?_, hd.trans (decided_false_cons v v' left fs hs t)⟩
      · simp [hk]
      · simp [hr, hk]
    | true =>
      rw [hv] at hd hr
      obtain ⟨w, hw, hl⟩ := ih hx' ht' (by simp [hr, hk])
      exact ⟨w, hw, hd.trans ((decided_true_cons v v' left fs hs t).trans hl)⟩

def sequenceStage (xs : List Value) : Machine where
  world := (World.addSubscriber {} (.sink {})).addSequence (.items (xs.map some))

theorem sequence_attach (verdict : Nat → Bool) (xs : List Value) :
    ∃ w r, SequenceRests verdict xs 0 #[{ subscriber := 0 }] w ∧
      Leads verdict ((sequenceStage xs).invoke (.attach ⟨[], .sequence 0⟩ 0))
        ⟨w, [], .idle (.returned r)⟩ := by
  cases xs with
  | nil =>
    have hc : Leads verdict ((sequenceStage []).invoke (.attach ⟨[], .sequence 0⟩ 0))
        (concluding (.subscribed ⟨[], .inert⟩) true {} [.attaching 0] #[] #[.advanced 0 none]) :=
      ⟨8, by cbv⟩
    have ht : Heard #[.advanced 0 none, .asked (.handler 0 .finished)] [] [.finished] := ⟨rfl, rfl⟩
    exact ⟨_, .handle 0, .ended ht (Nat.zero_le _),
      hc.trans ((concluding_leads _ true {} _ _ _).trans ⟨2, by cbv⟩)⟩
  | cons v left =>
    let fs : List Frame := [.sink 0 .passing, .sequence 0 (.passing ⟨[], 0⟩), .attaching 0]
    have hd : Leads verdict ((sequenceStage (v :: left)).invoke (.attach ⟨[], .sequence 0⟩ 0))
        (delivering v left fs #[] #[.advanced 0 (some v)]) := ⟨6, by cbv⟩
    have ht : Heard #[.advanced 0 (some v)] [] [] := ⟨rfl, rfl⟩
    have hf : fs.any (isDeciding 0) = false := rfl
    obtain ⟨w, hw, hl⟩ := delivering_rests hf (List.nil_append (v :: left)).symm ht rfl
    have hd' := hd.trans hl
    cases hw with
    | paused hx ht hlast hk =>
      exact ⟨_, .handle 0, .paused hx ht hlast hk, hd'.trans ⟨4, by cbv⟩⟩
    | ended ht hlast => exact ⟨_, .handle 0, .ended ht hlast, hd'.trans ⟨4, by cbv⟩⟩

theorem SequenceRests.resume {w : World} (h : SequenceRests verdict xs k #[{ subscriber := 0 }] w)
    (r : Reply) :
    ∃ w' r', SequenceRests verdict xs (k + 1) #[{ subscriber := 0 }] w' ∧
      Leads verdict (invoke ⟨w, [], .idle (.returned r)⟩ (.useHandle 0 (.resume 1)))
        ⟨w', [], .idle (.returned r')⟩ := by
  cases h with
  | @paused ys left v t hx ht hlast hk =>
    let fs : List Frame := [.sink 0 .passing, .handle 0 0]
    have hf : fs.any (isDeciding 0) = false := rfl
    have hd : Leads verdict (invoke ⟨sequenceWorld ⟨.subscribed ⟨[], .sequence 0⟩, false, true⟩
        ⟨some ⟨[], 0⟩, .zero, false, some v⟩ left #[{ subscriber := 0 }] t, [],
          .idle (.returned r)⟩ (.useHandle 0 (.resume 1)))
        (delivering v left fs #[{ subscriber := 0 }] t) := ⟨3, by cbv⟩
    obtain ⟨w, hw, hl⟩ := delivering_rests hf hx ht hk
    have hd' := hd.trans hl
    cases hw with
    | paused hx ht hlast hk => exact ⟨_, .done, .paused hx ht hlast hk, hd'.trans ⟨3, by cbv⟩⟩
    | ended ht hlast => exact ⟨_, .done, .ended ht hlast, hd'.trans ⟨3, by cbv⟩⟩
  | ended ht hlast => exact ⟨_, .done, .ended ht (Nat.le_succ_of_le hlast), ⟨4, by cbv⟩⟩

theorem SequenceRests.resumes {w : World} (h : SequenceRests verdict xs k #[{ subscriber := 0 }] w)
    (r : Reply) (n : Nat) :
    ∃ w' r', SequenceRests verdict xs (k + n) #[{ subscriber := 0 }] w' ∧
      Plays verdict ⟨w, [], .idle (.returned r)⟩ (List.replicate n (.useHandle 0 (.resume 1)))
        ⟨w', [], .idle (.returned r')⟩ := by
  induction n generalizing w k r with
  | zero => exact ⟨w, r, h, .nil _⟩
  | succ n ih =>
    obtain ⟨w', r', hw, hl⟩ := h.resume r
    obtain ⟨w'', r'', hw', hp⟩ := ih hw r'
    exact ⟨w'', r'', Nat.add_right_comm k 1 n ▸ hw', .cons hl ⟨rfl, r', rfl⟩ hp⟩

end Sluice.Machine
