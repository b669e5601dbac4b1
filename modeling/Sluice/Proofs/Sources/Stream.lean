import Mathlib
import Sluice.Proofs.Sources.Verdicts

/-!
# A sink on a stream

When all tasks are idle the driver is parked without demand, or it has ended. One
lemma follows its task from one poll on, by induction on what the stream has left;
whether the driver yields after a delivery makes a detour and no difference.
-/

namespace Sluice.Machine

variable {verdict : Nat → Bool} {xs : List Value} {k : Nat} {p : Driver.Pace}

def streamWorld (s : Sink Link) (d : Driver Outlet) (left : List Value) (gone : Bool)
    (sch : Schedule) (t : Array Signal) : World where
  subscribers := #[.sink s]
  streams := #[{ items := left.map .value, closed := true, dropped := gone }]
  drivers := #[{ driver := d, stream := 0, task := some 0 }]
  schedule := sch
  handles := #[{ subscriber := 0 }]
  trace := t

def oneTask (s : TaskState) (ready : List Nat) : Schedule where
  tasks := #[{ job := .driver 0, state := s }]
  ready := ready

def liveDriver (p : Driver.Pace) (d : Demand) (w : Driver.Waiter) (phase : Driver.Phase) (c : Nat) :
    Driver Outlet where
  pace := p
  subscriber := some ⟨[], 0⟩
  demand := d
  wakeup := { waiter := w }
  phase := phase
  delivered := c

inductive StreamRests (verdict : Nat → Bool) (xs : List Value) (p : Driver.Pace) (k : Nat) :
    World → Prop
  | parked {ys left : List Value} {t : Array Signal} {c : Nat} (hx : xs = ys ++ left)
      (ht : Heard t ys []) (hlast : refusals verdict (ys.length - 1) ≤ k)
      (hk : refusals verdict ys.length = k + 1) :
      StreamRests verdict xs p k (streamWorld ⟨.subscribed ⟨[], .driver 0⟩, false, true⟩
        (liveDriver p .zero .registered .parked c) left false (oneTask .idle []) t)
  | ended {d : Driver Outlet} {t : Array Signal} {b : Bool} (ht : Heard t xs [.finished])
      (hk : refusals verdict xs.length ≤ k) :
      StreamRests verdict xs p k
        (streamWorld ⟨.terminal, b, false⟩ d [] true (oneTask .ended []) t)

def settlingTask : List Frame := [.task 0, .turning, .settling]

def polling (p : Driver.Pace) (c : Nat) (left : List Value) (t : Array Signal) : Machine where
  world := streamWorld ⟨.subscribed ⟨[], .driver 0⟩, true, true⟩
    (liveDriver p .zero .registered .polling c) left false (oneTask .running []) t
  stack := .driver 0 .polling :: settlingTask
  control := .calling (.poll 0)

def heardOf (v : Value) (t : Array Signal) : Array Signal :=
  ((t.push (.polled 0 (.value v))).push (.asked (.poll 0))).push (.asked (.predicate 0 v))

def judged (p : Driver.Pace) (c : Nat) (v : Value) (more : Bool) (left : List Value)
    (t : Array Signal) : Machine where
  world := streamWorld ⟨.subscribed ⟨[], .driver 0⟩, true, true⟩
    (liveDriver p .zero .absent .polling c) left false (oneTask .running []) (heardOf v t)
  stack := .sink 0 .deciding :: .driver 0 .delivering :: settlingTask
  control := .answering (.pull more)

theorem polling_judged {t : Array Signal} {ys : List Value} (ht : Heard t ys []) (c : Nat)
    (v : Value) (left : List Value) :
    Leads verdict (polling p c (v :: left) t) (judged p c v (verdict ys.length) left t) := by
  have hlen : (judged p c v true left t).world.shown 0 = ys ++ [v] :=
    (((ht.push rfl rfl).push rfl rfl).predicate v).shown
  have hreply : respond verdict _ = _ :=
    respond_predicate (judged p c v true left t).world (judged p c v true left t).stack 0 v
  rw [hlen, List.length_append] at hreply
  have hask : Leads verdict (polling p c (v :: left) t) ⟨(judged p c v true left t).world,
      .asked (.predicate 0 v) :: (judged p c v true left t).stack,
      .idle (.asked (.predicate 0 v))⟩ :=
    ⟨7, by cbv⟩
  exact hask.trans ⟨1, hreply⟩

def returned (p : Driver.Pace) (c : Nat) (more : Bool) (left : List Value) (t : Array Signal) :
    Machine where
  world := streamWorld ⟨.subscribed ⟨[], .driver 0⟩, more, true⟩
    (liveDriver p .zero .absent .polling c) left false (oneTask .running []) t
  stack := .driver 0 .delivering :: settlingTask
  control := .answering (.demand (if more then .one else .zero))

theorem judged_returned (c : Nat) (v : Value) (more : Bool) (left : List Value)
    (t : Array Signal) :
    Leads verdict (judged p c v more left t) (returned p c more left (heardOf v t)) :=
  ⟨1, by cases more <;> cbv⟩

theorem returned_true (c : Nat) (left : List Value) (t : Array Signal) :
    Leads verdict (returned p c true left t) (polling p (c + 1) left t) := by
  refine .cons ?_
  change Leads verdict (driverSection _ 0 (if (c + 1) % p.burst = 0 then _ else _)) _
  by_cases hy : (c + 1) % p.burst = 0
  · rw [if_pos hy]
    exact ⟨5, by cbv⟩
  · rw [if_neg hy]
    exact ⟨0, by cbv⟩

theorem returned_false (c : Nat) (left : List Value) (t : Array Signal) :
    Leads verdict (returned p c false left t)
      ⟨streamWorld ⟨.subscribed ⟨[], .driver 0⟩, false, true⟩
        (liveDriver p .zero .registered .parked (c + 1)) left false (oneTask .idle []) t, [],
        .idle (.returned .done)⟩ := by
  refine .cons ?_
  change Leads verdict (driverSection _ 0 (if (c + 1) % p.burst = 0 then _ else _)) _
  by_cases hy : (c + 1) % p.burst = 0
  · rw [if_pos hy]
    exact ⟨10, by cbv⟩
  · rw [if_neg hy]
    exact ⟨5, by cbv⟩

theorem closed_ended (c : Nat) (t : Array Signal) :
    ∃ d, Leads verdict (polling p c [] t) ⟨streamWorld ⟨.terminal, true, false⟩ d [] true
      (oneTask .ended []) ((((t.push (.polled 0 .closed)).push (.asked (.poll 0))).push
        (.asked (.handler 0 .finished))).push (.dropped 0)), [], .idle (.returned .done)⟩ :=
  ⟨{ liveDriver p .zero .absent .ended c with subscriber := none }, 14, by cbv⟩

theorem polling_rests {c : Nat} {left : List Value} {t : Array Signal} {ys : List Value}
    (hx : xs = ys ++ left) (ht : Heard t ys []) (hlast : refusals verdict (ys.length - 1) ≤ k)
    (hk : refusals verdict ys.length = k) :
    ∃ w, StreamRests verdict xs p k w ∧
      Leads verdict (polling p c left t) ⟨w, [], .idle (.returned .done)⟩ := by
  induction left generalizing c t ys with
  | nil =>
    -- The end is found by a poll, for which there is demand only after an accepted value.
    obtain rfl : xs = ys := by simpa using hx
    obtain ⟨d, hd⟩ := closed_ended (p := p) c t
    refine ⟨_, .ended ?_ hk.le, hd⟩
    exact (((ht.push rfl rfl).push rfl rfl).handler .finished).push rfl rfl
  | cons v left ih =>
    have hd := (polling_judged (p := p) ht c v left).trans
      (judged_returned c v (verdict ys.length) left t)
    have ht' : Heard (heardOf v t) (ys ++ [v]) [] :=
      ((ht.push rfl rfl).push rfl rfl).predicate v
    have hx' : xs = (ys ++ [v]) ++ left := by simp [hx]
    have hr : refusals verdict (ys.length + 1) = _ := refusals_succ ys.length
    cases hv : verdict ys.length with
    | false =>
      rw [hv] at hd hr
      refine ⟨_, .parked hx' ht' ?_ ?_, hd.trans (returned_false c left _)⟩
      · simp [hk]
      · simp [hr, hk]
    | true =>
      rw [hv] at hd hr
      obtain ⟨w, hw, hl⟩ := ih hx' ht' (by simp [hk]) (by simp [hr, hk])
      exact ⟨w, hw, hd.trans ((returned_true c left _).trans hl)⟩

def streamStage (xs : List Value) : Machine where
  world := (World.addSubscriber {} (.sink {})).addStream (xs.map .value) true

def launchedWorld (p : Driver.Pace) (xs : List Value) : World :=
  streamWorld ⟨.subscribed ⟨[], .driver 0⟩, true, true⟩
    { liveDriver p .one .absent .seeking 0 with wakeup := { permit := true } } xs false
    (oneTask .queued [0]) #[]

theorem stream_attach (xs : List Value) :
    Leads verdict ((streamStage xs).invoke (.attach ⟨[], .stream 0 p⟩ 0))
      ⟨launchedWorld p xs, [], .idle (.returned (.handle 0))⟩ :=
  ⟨10, by cbv⟩

theorem launched_settle (verdict : Nat → Bool) (p : Driver.Pace) (xs : List Value) (r : Reply) :
    ∃ w, StreamRests verdict xs p 0 w ∧
      Leads verdict (invoke ⟨launchedWorld p xs, [], .idle (.returned r)⟩ .settle)
        ⟨w, [], .idle (.returned .done)⟩ := by
  have hx : xs = [] ++ xs := rfl
  obtain ⟨w, hw, hl⟩ := polling_rests (p := p) (c := 0) hx Heard.empty (Nat.le_refl _) rfl
  have hp : Leads verdict (invoke ⟨launchedWorld p xs, [], .idle (.returned r)⟩ .settle)
    (polling p 0 xs #[]) := ⟨3, by cbv⟩
  exact ⟨w, hw, hp.trans hl⟩

def wokenWorld (p : Driver.Pace) (c : Nat) (left : List Value) (t : Array Signal) : World :=
  streamWorld ⟨.subscribed ⟨[], .driver 0⟩, true, true⟩ (liveDriver p .one .notified .parked c) left
    false (oneTask .queued [0]) t

theorem StreamRests.resume {w : World} (h : StreamRests verdict xs p k w) (r : Reply) :
    ∃ woken w', StreamRests verdict xs p (k + 1) w' ∧
      Leads verdict (invoke ⟨w, [], .idle (.returned r)⟩ (.useHandle 0 (.resume 1)))
        ⟨woken, [], .idle (.returned .done)⟩ ∧
      Leads verdict (invoke ⟨woken, [], .idle (.returned .done)⟩ .settle)
        ⟨w', [], .idle (.returned .done)⟩ := by
  cases h with
  | @parked ys left t c hx ht hlast hk =>
    obtain ⟨w, hw, hl⟩ := polling_rests (p := p) (c := c) hx ht (Nat.le_succ_of_le hlast) hk
    have hp : Leads verdict (invoke ⟨wokenWorld p c left t, [], .idle (.returned .done)⟩ .settle)
      (polling p c left t) := ⟨3, by cbv⟩
    exact ⟨wokenWorld p c left t, w, hw, ⟨8, by cbv⟩, hp.trans hl⟩
  | ended ht hk => exact ⟨_, _, .ended ht (Nat.le_succ_of_le hk), ⟨4, by cbv⟩, ⟨2, by cbv⟩⟩

theorem StreamRests.resumes {w : World} (h : StreamRests verdict xs p k w) (r : Reply) (n : Nat) :
    ∃ w' r', StreamRests verdict xs p (k + n) w' ∧ Plays verdict ⟨w, [], .idle (.returned r)⟩
      (List.replicate n [.useHandle 0 (.resume 1), .settle]).flatten
      ⟨w', [], .idle (.returned r')⟩ := by
  induction n generalizing w k r with
  | zero => exact ⟨w, r, h, .nil _⟩
  | succ n ih =>
    obtain ⟨woken, w', hw, hr, hs⟩ := h.resume r
    obtain ⟨last, r', hlast, hp⟩ := ih hw .done
    exact ⟨last, r', Nat.add_right_comm k 1 n ▸ hlast,
      .cons hr ⟨rfl, .done, rfl⟩ (.cons hs ⟨rfl, .done, rfl⟩ hp)⟩

end Sluice.Machine
