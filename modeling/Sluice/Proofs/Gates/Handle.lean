import Mathlib
import Sluice.Proofs.Gates.Instances
import Sluice.Proofs.Gates.Sequence
import Sluice.Proofs.Sources.Sequence

/-!
# A sink on a sequence, under orders

A sink is attached to a sequence, and is then resumed and cancelled from outside. Its
predicate is asked about the values up to the refusal that no resume made up for. When
the values come to an end in this way the handler is told, and otherwise it is not.
-/

namespace Sluice.Gate

open Conduct

/-- Of `n` values, as many are shown as it takes to refuse `k + 1` of them, or else all. -/
def reach (R : Nat → Bool) (n k : Nat) : Nat :=
  ((List.range n).filter fun i => !R i)[k]?.elim n (· + 1)

variable {R : Nat → Bool} {n k j : Nat}

theorem refusals_of_getElem? (h : ((List.range n).filter fun i => !R i)[k]? = some j) :
    j < n ∧ R j = false ∧ refusals R j = k := by
  induction n with
  | zero => simp at h
  | succ n ih =>
    rw [List.range_succ, List.filter_append, List.getElem?_append] at h
    split at h
    next =>
      obtain ⟨hj, hr⟩ := ih h
      exact ⟨Nat.lt_succ_of_lt hj, hr⟩
    next hlt =>
      cases hr : R n with
      | true => simp [hr] at h
      | false =>
        simp only [hr, Bool.not_false, List.filter_cons_of_pos, List.filter_nil,
          List.getElem?_singleton, Option.ite_none_right_eq_some, Option.some.injEq] at h
        obtain ⟨hk, rfl⟩ := h
        refine ⟨Nat.lt_succ_self n, hr, ?_⟩
        rw [refusals, List.countP_eq_length_filter]
        omega

theorem reach_halts (R : Nat → Bool) (n k : Nat) : Halts R n k (reach R n k) := by
  unfold reach
  cases h : ((List.range n).filter fun i => !R i)[k]? with
  | none =>
    have hle : refusals R n ≤ k := by
      rw [refusals, List.countP_eq_length_filter]
      exact List.getElem?_eq_none_iff.mp h
    exact ⟨le_rfl, (refusals_mono (Nat.sub_le n 1)).trans hle, fun hlt => absurd hlt (lt_irrefl n)⟩
  | some j =>
    obtain ⟨hj, hr, hk⟩ := refusals_of_getElem? h
    refine ⟨hj, hk.le, fun _ => ?_⟩
    simp [refusals_succ, hr, hk]

inductive Reaches (R : Nat → Bool) (xs : List Value) (k : Nat) : Place → List Value → Prop
  | waiting {us left : List Value} {v : Value} (hx : xs = us ++ v :: left)
      (hlast : refusals R (us.length - 1) ≤ k) (hk : refusals R us.length = k + 1) :
      Reaches R xs k (.waiting v (.items (left.map some))) us
  | ended (hlast : refusals R (xs.length - 1) ≤ k) : Reaches R xs k .ended xs

variable {xs us left : List Value} {v : Value} {x : Place}

theorem Reaches.length_eq (h : Reaches R xs k x us) : us.length = reach R xs.length k := by
  have hr : Halts R xs.length k us.length := by
    cases h with
    | waiting hx hlast hk => exact ⟨by simp [hx], hlast, fun _ => by omega⟩
    | ended hlast => exact ⟨le_rfl, hlast, fun hlt => absurd hlt (lt_irrefl _)⟩
  exact hr.unique (reach_halts R xs.length k)

theorem Reaches.eq_take (h : Reaches R xs k x us) : us = xs.take (reach R xs.length k) := by
  rw [← h.length_eq]
  cases h with
  | waiting hx => rw [hx, List.take_left]
  | ended => rw [List.take_length]

theorem Reaches.ended_iff (h : Reaches R xs k x us) :
    x = .ended ↔ reach R xs.length k = xs.length := by
  rw [← h.length_eq]
  cases h with
  | waiting hx => simp [hx]
  | ended => simp

theorem Reaches.ne_awaiting (h : Reaches R xs k x us) (feed : Feed) : x ≠ .awaiting feed := by
  rintro rfl
  nomatch h

theorem exists_course (hx : xs = us ++ v :: left) (hk : refusals R us.length = k) :
    ∃ x ws, Course R v (.items (left.map some)) us x ws ∧ Reaches R xs k x ws := by
  induction left generalizing v us with
  | nil =>
    subst hx
    exact ⟨.ended, us ++ [v], .finish rfl, .ended (by simp [hk])⟩
  | cons v' left ih =>
    have hx' : xs = (us ++ [v]) ++ v' :: left := by simp [hx]
    have hs : refusals R (us.length + 1) = _ := refusals_succ us.length
    cases hr : R us.length with
    | false =>
      refine ⟨_, _, .hold rfl hr, .waiting hx' (by simp [hk]) ?_⟩
      simpa [hr, hk] using hs
    | true =>
      obtain ⟨x, ws, hc, hw⟩ := ih hx' (by simpa [hr, hk] using hs)
      exact ⟨x, ws, .pass rfl hr hc, hw⟩

inductive Order
  | resume (via : Route)
  | cancel
deriving DecidableEq

def Order.call : Order → Call
  | resume via => via.resume
  | cancel => .useHandle 0 .cancel

/-- How often the sink is resumed before it is cancelled. -/
def resumes (orders : List Order) : Nat := (orders.takeWhile (· ≠ .cancel)).length

theorem resumes_cons (via : Route) (orders : List Order) :
    resumes (.resume via :: orders) = resumes orders + 1 := by
  simp [resumes]

def Order.frame : Order → Frame
  | resume .resumer => .resumer 0 0
  | _ => .handle 0 0

def Order.pull : Order → Pull
  | resume _ => .resume
  | cancel => .cancel

/-- The predicate decides by position, and resumes the sink before it does. -/
abbrev insistent (R : Nat → Bool) (routes : Nat → List Route) : Conduct :=
  deciding R fun n => (routes n).map Route.resume

variable {c : Conduct} {q : Sequence Outlet} {feed : Feed}
  {s : Subscriber} {log : List Question} {p : Performance} {o : Outcome} {y : Site}

abbrev attached : Array Handle := #[{ subscriber := 0 }]

theorem takes_order (order : Order) :
    c.Takes ⟨sequenceBase q feed attached [], s, [], .calling order.call, log⟩
      ⟨sequenceBase q feed attached [], s, [order.frame], .calling order.pull.call, log⟩ := by
  rintro rs p ⟨ts, t, rfl⟩
  match order with
  | .resume .handle => exact ⟨_, ⟨ts, t, rfl⟩, 1, by cbv⟩
  | .resume .resumer => exact ⟨_, ⟨ts, t, rfl⟩, 1, by cbv⟩
  | .cancel => exact ⟨_, ⟨ts, t, rfl⟩, 1, by cbv⟩

theorem order_returns (order : Order) {rs : List Reaction}
    (hp : Site.At ⟨sequenceBase q feed attached [], s, [order.frame], .answering .done, log⟩ rs p) :
    ∃ r p', Site.At ⟨sequenceBase q feed attached [], s, [], .idle (.returned r), log⟩ rs p' ∧
      c.Leads p p' := by
  obtain ⟨ts, t, rfl⟩ := hp
  match order with
  | .resume .handle => exact ⟨_, _, ⟨ts, t, rfl⟩, 2, by cbv⟩
  | .resume .resumer => exact ⟨_, _, ⟨ts, t, rfl⟩, 2, by cbv⟩
  | .cancel => exact ⟨_, _, ⟨ts, t, rfl⟩, 2, by cbv⟩

def told (x : Place) (us : List Value) : List Question := us.map sink.ask ++ x.closing sink

def Obeys (R : Nat → Bool) (x : Place) (log : List Question) (p : Performance) : Prop :=
  ∃ y r, Stands sink R attached [] [] log x y ∧
    Site.At { y with control := .idle (.returned r) } [] p

theorem Obeys.rests (h : Obeys R x log p) : p.Rests := by
  obtain ⟨y, r, hy, ts, t, rfl⟩ := h
  cases hy <;> exact ⟨rfl, rfl, r, rfl⟩

theorem Obeys.log_eq (h : Obeys R x log p) : p.log = log := by
  obtain ⟨y, r, hy, ts, t, rfl⟩ := h
  cases hy <;> rfl

theorem Stands.under {g : Gate} {hs : Array Handle} {own : List Nat} {fs : List Frame}
    (hy : Stands g R hs own fs log x y) (fs' : List Frame) :
    Stands g R hs own fs' log x { y with stack := fs' } := by
  cases hy with
  | awaiting feed => exact .awaiting feed
  | waiting v feed hR => exact .waiting v feed hR
  | ended q feed r => exact .ended q feed r

theorem Obeys.order {x' : Place} {log' : List Question} (h : Obeys R x log p) (order : Order)
    (ht : ∀ y, Stands sink R attached [] [order.frame] log x y → ∃ y',
      Stands sink R attached [] [order.frame] log' x' y' ∧
        c.Takes (y.calling order.pull.call) y') :
    ∃ p', Obeys R x' log' p' ∧ c.Leads (p.invoke order.call) p' := by
  obtain ⟨y, r, hy, ts, t, rfl⟩ := h
  obtain ⟨y', hy', ht⟩ := ht _ (hy.under [order.frame])
  have hcall : c.Takes (y.calling order.call)
      (Site.calling { y with stack := [order.frame] } order.pull.call) := by
    cases hy <;> exact takes_order order
  obtain ⟨p₁, hp₁, hl₁⟩ := hcall.trans ht [] _ ⟨ts, t, rfl⟩
  have hret : ∃ r p', Site.At { y' with stack := [], control := .idle (.returned r) } [] p' ∧
      c.Leads p₁ p' := by
    cases hy' <;> exact order_returns order hp₁
  obtain ⟨r', p₂, hp₂, hl₂⟩ := hret
  exact ⟨p₂, ⟨_, r', hy'.under [], hp₂⟩, hl₁.trans hl₂⟩

theorem values_of_told (x : Place) (us : List Value) : values (told x us) = us :=
  values_told (sink_regular (fun _ => true) fun _ => []) [] us x

section

variable (R) (routes : Nat → List Route)

theorem attach_obeys (xs : List Value) :
    ∃ x us p, Reaches R xs 0 x us ∧ Obeys R x (told x us) p ∧
      (insistent R routes).Leads (Performance.invoke ⟨Machine.sequenceStage xs, [], []⟩
        (.attach ⟨[], .sequence 0⟩ 0)) p := by
  have hg : sink.Lets (insistent R routes) R OneHandle := sink_lets R routes
  have hattach : (insistent R routes).Takes ⟨sequenceBase {} (.items (xs.map some)) #[] [],
      sink.fresh, [], .calling (.attach ⟨[], .sequence 0⟩ 0), []⟩
      ⟨sequenceBase {} (.items (xs.map some)) #[] [], sink.fresh, [.attaching 0],
        .calling (.subscribe ⟨[], .sequence 0⟩ 0), []⟩ := by
    rintro rs p ⟨ts, t, rfl⟩
    exact ⟨_, ⟨ts, t, rfl⟩, 1, by cbv⟩
  -- The handle is there only when the attaching is done.
  have hreturn {x : Place} {us : List Value} {y : Site} (hr : Reaches R xs 0 x us)
      (hy : Stands sink R #[] [] [.attaching 0] (told x us) x y)
      (ht : (insistent R routes).Takes ⟨sequenceBase {} (.items (xs.map some)) #[] [],
        sink.fresh, [], .calling (.attach ⟨[], .sequence 0⟩ 0), []⟩ y) :
      ∃ x us p, Reaches R xs 0 x us ∧ Obeys R x (told x us) p ∧
        (insistent R routes).Leads (Performance.invoke ⟨Machine.sequenceStage xs, [], []⟩
          (.attach ⟨[], .sequence 0⟩ 0)) p := by
    obtain ⟨p, ⟨ts, t, rfl⟩, hl⟩ := ht [] _ ⟨#[], #[], rfl⟩
    cases hy with
    | awaiting feed => cases hr
    | waiting v feed hR =>
      exact ⟨_, us, _, hr, ⟨_, .handle 0, .waiting v feed hR, ts, t, rfl⟩, hl.trans ⟨2, by cbv⟩⟩
    | ended q feed r =>
      exact ⟨_, us, _, hr, ⟨_, .handle 0, .ended q feed r, ts, t, rfl⟩, hl.trans ⟨2, by cbv⟩⟩
  cases xs with
  | nil =>
    exact hreturn (.ended (Nat.zero_le 0)) (.ended {} (.items []) true)
      (hattach.trans (takes_refused hg.toRegular rfl))
  | cons v left =>
    obtain ⟨x, us, hc, hr⟩ := exists_course (R := R) (List.nil_append (v :: left)).symm rfl
    have hund : (Pull.subscribe.frames sink ++ [Frame.attaching 0]).any
        (Machine.isDeciding 0) = false := rfl
    obtain ⟨us, y, rfl, hy, ht⟩ := hc.takes hg (fun _ _ => .inl rfl) hund (rfl : values [] = [])
    obtain ⟨y', hy', ht'⟩ := hy.returns hg.toRegular hc.ne_awaiting
    exact hreturn hr hy' (hattach.trans ((takes_opened hg.toRegular rfl).trans (ht.trans ht')))

end

section

variable (routes : Nat → List Route)

theorem Obeys.ended (h : Obeys R .ended log p) (order : Order) :
    ∃ p', Obeys R .ended log p' ∧ (insistent R routes).Leads (p.invoke order.call) p' := by
  have hg : sink.Regular (insistent R routes) := sink_regular R _
  refine h.order order fun y hy => ?_
  cases hy with
  | ended q feed r =>
    cases order with
    | resume via => exact ⟨_, .ended q feed r, hg.resume_idle (.inr (.inr ⟨r, rfl⟩)) _ _ _⟩
    | cancel => exact ⟨_, .ended q feed r, hg.cancel_idle (.inr ⟨r, rfl⟩) _ _ _⟩

theorem Obeys.cancel (h : Obeys R x log p) (hx : ∀ feed, x ≠ .awaiting feed) :
    ∃ p', Obeys R .ended log p' ∧ (insistent R routes).Leads (p.invoke Order.cancel.call) p' := by
  have hg : sink.Regular (insistent R routes) := sink_regular R _
  cases x with
  | awaiting feed => exact absurd rfl (hx feed)
  | waiting v feed =>
    refine h.order .cancel fun y hy => ?_
    cases hy with
    | waiting _ _ hR => exact ⟨_, .ended _ feed false, takes_cancelled hg⟩
  | ended => exact h.ended routes .cancel

theorem Obeys.resume (h : Obeys R x (told x us) p) (hr : Reaches R xs k x us) (via : Route) :
    ∃ x' us' p', Reaches R xs (k + 1) x' us' ∧ Obeys R x' (told x' us') p' ∧
      (insistent R routes).Leads (p.invoke (Order.resume via).call) p' := by
  have hg : sink.Lets (insistent R routes) R OneHandle := sink_lets R routes
  cases hr with
  | @waiting us left v hx hlast hk =>
    obtain ⟨x', ws, hc, hr'⟩ := exists_course (R := R) hx hk
    have hmoves (y : Site)
        (hy : Stands sink R attached [] [(Order.resume via).frame]
          (told (.waiting v (.items (left.map some))) us) (.waiting v (.items (left.map some))) y) :
        ∃ y', Stands sink R attached [] [(Order.resume via).frame] (told x' ws) x' y' ∧
          (insistent R routes).Takes (y.calling (Order.resume via).pull.call) y' := by
      have hund : (Pull.resume.frames sink ++ [(Order.resume via).frame]).any
          (Machine.isDeciding 0) = false := by
        cases via <;> rfl
      obtain ⟨us', y', rfl, hy', ht⟩ := hc.takes hg (fun _ _ => .inr rfl) hund
        (values_of_told (.waiting v (.items (left.map some))) us)
      obtain ⟨y'', hy'', ht'⟩ := hy'.returns hg.toRegular hc.ne_awaiting
      refine ⟨y'', ?_, (hy.starts hg rfl).trans (ht.trans ht')⟩
      simpa [told, Place.closing] using hy''
    obtain ⟨p', hp', hl⟩ := h.order (.resume via) hmoves
    exact ⟨x', ws, p', hr', hp', hl⟩
  | ended hlast =>
    obtain ⟨p', hp', hl⟩ := h.ended routes (.resume via)
    exact ⟨.ended, xs, p', .ended (Nat.le_succ_of_le hlast), hp', hl⟩

theorem Obeys.plays_ended (h : Obeys R .ended log p) (orders : List Order) :
    ∃ p', Obeys R .ended log p' ∧
      (insistent R routes).Plays p (orders.map Order.call) p' := by
  induction orders generalizing p with
  | nil => exact ⟨p, h, .nil p⟩
  | cons order orders ih =>
    obtain ⟨p₁, h₁, hl⟩ := h.ended routes order
    obtain ⟨p₂, h₂, hp⟩ := ih h₁
    exact ⟨p₂, h₂, .cons hl h₁.rests hp⟩

end

def account (R : Nat → Bool) (xs : List Value) (k : Nat) : List Question :=
  (xs.take (reach R xs.length k)).map (.predicate 0) ++
    if reach R xs.length k = xs.length then [.handler 0 .finished] else []

theorem Reaches.told_eq (h : Reaches R xs k x us) : told x us = account R xs k := by
  rw [told, account, ← h.eq_take]
  congr 1
  by_cases hx : x = .ended
  · rw [hx, if_pos (h.ended_iff.mp hx)]
    rfl
  · rw [if_neg (mt h.ended_iff.mpr hx)]
    cases x with
    | ended => exact absurd rfl hx
    | _ => rfl

theorem Obeys.status (h : Obeys R x log p) (hx : ∀ feed, x ≠ .awaiting feed) :
    p.machine.world.subscribers[0]?.map Subscriber.status = some .terminal ∧ x = .ended ∨
    p.machine.world.subscribers[0]?.map Subscriber.status = some .subscribed ∧ x ≠ .ended := by
  obtain ⟨y, r, hy, ts, t, rfl⟩ := h
  cases hy with
  | awaiting feed => exact absurd rfl (hx feed)
  | waiting => exact .inr ⟨rfl, by simp⟩
  | ended => exact .inl ⟨rfl, rfl⟩

/-- What has become of the sink after some orders, `k` of them resumes that came before the first
cancel. -/
structure Obeyed (R : Nat → Bool) (xs : List Value) (k : Nat) (cancelled : Prop)
    (p : Performance) : Prop where
  log : p.log = account R xs k
  terminal : p.machine.world.subscribers[0]?.map Subscriber.status = some .terminal ↔
    reach R xs.length k = xs.length ∨ cancelled
  subscribed : p.machine.world.subscribers[0]?.map Subscriber.status = some .subscribed ↔
    ¬ (reach R xs.length k = xs.length ∨ cancelled)

theorem Obeys.plays (routes : Nat → List Route) (h : Obeys R x (told x us) p)
    (hr : Reaches R xs k x us) (orders : List Order) :
    ∃ p', Obeyed R xs (k + resumes orders) (.cancel ∈ orders) p' ∧
      (insistent R routes).Plays p (orders.map Order.call) p' := by
  induction orders generalizing x us k p with
  | nil =>
    refine ⟨p, ⟨?_, ?_, ?_⟩, .nil p⟩
    · exact h.log_eq.trans hr.told_eq
    all_goals
      obtain ⟨hs, hx⟩ | ⟨hs, hx⟩ := h.status hr.ne_awaiting <;>
        simp [hs, resumes, ← hr.ended_iff, hx]
  | cons order orders ih =>
    cases order with
    | resume via =>
      obtain ⟨x', us', p₁, hr₁, h₁, hl⟩ := h.resume routes hr via
      obtain ⟨p₂, h₂, hp⟩ := ih h₁ hr₁
      have hk : k + resumes (.resume via :: orders) = k + 1 + resumes orders := by
        rw [resumes_cons]
        omega
      have hc : Order.cancel ∈ .resume via :: orders ↔ .cancel ∈ orders := by simp
      refine ⟨p₂, ?_, .cons hl h₁.rests hp⟩
      rw [hk, propext hc]
      exact h₂
    | cancel =>
      obtain ⟨p₁, h₁, hl⟩ := h.cancel routes hr.ne_awaiting
      obtain ⟨p₂, h₂, hp⟩ := h₁.plays_ended routes orders
      refine ⟨p₂, ⟨?_, ?_, ?_⟩, .cons hl h₁.rests hp⟩
      · exact h₂.log_eq.trans hr.told_eq
      all_goals
        obtain ⟨hs, -⟩ | ⟨-, hx⟩ := h₂.status (by simp)
        · simp [hs]
        · exact absurd rfl hx

/-- A sink that decides by `R` is attached to a sequence over `xs` and given orders, through its
handle or through a resumer. Whatever resumes the predicate makes itself, the orders come to one
thing. -/
theorem sink_on_sequence (xs : List Value) (R : Nat → Bool) (routes : Nat → List Route)
    (orders : List Order) :
    ∃ p, Obeyed R xs (resumes orders) (.cancel ∈ orders) p ∧
      ∀ p', (insistent R routes).Plays ⟨Machine.sequenceStage xs, [], []⟩
        (.attach ⟨[], .sequence 0⟩ 0 :: orders.map Order.call) p' ↔ p' = p := by
  obtain ⟨x, us, p₁, hr, h₁, hl⟩ := attach_obeys R routes xs
  obtain ⟨p₂, h₂, hp⟩ := h₁.plays routes hr orders
  have hplays : (insistent R routes).Plays ⟨Machine.sequenceStage xs, [], []⟩
      (.attach ⟨[], .sequence 0⟩ 0 :: orders.map Order.call) p₂ := .cons hl h₁.rests hp
  refine ⟨p₂, Nat.zero_add (resumes orders) ▸ h₂, fun p' => ⟨fun h => h.unique hplays, ?_⟩⟩
  rintro rfl
  exact hplays

end Sluice.Gate
