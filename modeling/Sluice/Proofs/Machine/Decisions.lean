import Sluice.Proofs.Machine.Pulls
import Sluice.Proofs.Machine.OutlineStep

/-!
# Values and verdicts

A value that reaches a sink has cost the one unit that the sink is worth, so that nothing
else can be on its way to it until the predicate has returned. The verdict decides
whether the delivery brings the unit back.
-/

namespace Sluice

namespace World

variable {w : World} {i : Nat} {τ τ₀ : Tap} {f : Frame} {stack : List Frame}

theorem loads_of_spent (h : w.spent? f = some (τ, i)) :
    w.loads i τ (f :: stack) = w.loads i τ stack + 1 :=
  List.countP_cons_of_pos (by simpa using h)

theorem loads_of_not_spent (h : w.spent? f ≠ some (τ, i)) :
    w.loads i τ (f :: stack) = w.loads i τ stack :=
  List.countP_cons_of_neg (by simpa using h)

theorem loads_tail_le (w : World) (i : Nat) (τ : Tap) (stack : List Frame) :
    w.loads i τ stack.tail ≤ w.loads i τ stack := by
  cases stack with
  | nil => exact Nat.le_refl _
  | cons f rest =>
    have hcons := w.loads_cons i τ f rest
    rw [List.tail_cons]
    omega

/-- Each run of the predicate stands above a unit that is on its way. -/
theorem Nested.deciding_le (hn : w.Nested i stack)
    (hz : ∀ τ, τ ≠ τ₀ → w.loads i τ stack.tail = 0) :
    stack.countP (Machine.isDeciding i) ≤ w.loads i τ₀ stack.tail := by
  induction stack with
  | nil => exact Nat.le_refl _
  | cons f rest ih =>
    rw [List.tail_cons] at hz ⊢
    have hle := ih hn.2 fun τ hτ => Nat.le_zero.mp (hz τ hτ ▸ w.loads_tail_le i τ rest)
    by_cases hf : f = .sink i .deciding
    · obtain ⟨g, hg, -, τ, hτ⟩ := hn.1.mp hf
      cases rest with
      | nil => cases hg
      | cons g' rest =>
        obtain rfl := Option.some.inj hg
        have hsame : τ = τ₀ := by
          by_contra hne
          have hnone := hz τ hne
          rw [loads_of_spent hτ] at hnone
          omega
        subst hsame
        rw [List.tail_cons] at hle
        rw [List.countP_cons_of_pos (by simp [hf, Machine.isDeciding]), loads_of_spent hτ]
        omega
    · have hnot : ¬Machine.isDeciding i f = true := by
        intro hd
        unfold Machine.isDeciding at hd
        split at hd
        · next j => exact hf (by rw [beq_iff_eq.mp hd])
        · cases hd
      rw [List.countP_cons_of_neg hnot]
      exact hle.trans (w.loads_tail_le i τ₀ rest)

end World

namespace Machine

variable {m : Machine} {i j : Nat} {rest stack : List Frame} {k : Control} {s : Sink Link}
  {failed : Prop}

theorem Rationed.worth_zero {τ τ₁ : Tap} (h : m.Rationed failed i) (h₁ : 1 ≤ m.worth i τ₁)
    (hτ : τ ≠ τ₁) : m.worth i τ = 0 := by
  obtain ⟨τ₀, hz, -, -⟩ := h.ration
  have hsame : τ₁ = τ₀ := by
    by_contra hne
    rw [hz τ₁ hne] at h₁
    omega
  exact hz τ (hsame ▸ hτ)

theorem Rationed.allowance_eq_one (h : m.Rationed failed i) (τ₁ : Tap) (h₁ : 1 ≤ m.worth i τ₁) :
    m.world.allowance i = 1 := by
  obtain ⟨τ₀, hz, hall, -⟩ := h.ration
  have hle := m.world.allowance_le i
  by_cases hτ : τ₁ = τ₀
  · subst hτ
    omega
  · rw [hz τ₁ hτ] at h₁
    omega

theorem Rationed.nothing_else {f : Frame} {τ₁ : Tap} (h : m.Rationed failed i)
    (hsp : m.world.spent? f = some (τ₁, i))
    (hc : ∀ τ, m.world.loads i τ (f :: stack) ≤ m.carried i τ) :
    1 ≤ m.worth i τ₁ ∧ ∀ τ, m.world.purse i τ = 0 ∧ m.world.loads i τ stack = 0 := by
  have hload : m.world.loads i τ₁ (f :: stack) = m.world.loads i τ₁ stack + 1 :=
    World.loads_of_spent hsp
  have hc₁ := hc τ₁
  have hworth : 1 ≤ m.worth i τ₁ := by
    unfold worth
    omega
  refine ⟨hworth, fun τ => ?_⟩
  by_cases hτ : τ = τ₁
  · subst hτ
    have hone := h.worth_le τ
    unfold worth at hone
    omega
  · have hzero := h.worth_zero hworth hτ
    have htail : m.world.loads i τ stack ≤ m.world.loads i τ (f :: stack) :=
      m.world.loads_tail_le i τ (f :: stack)
    have hcτ := hc τ
    unfold worth at hzero
    omega

theorem loads_tail_le_carried (m : Machine) (i : Nat) (τ : Tap) :
    m.world.loads i τ m.stack.tail ≤ m.carried i τ := by
  cases hs : m.stack with
  | nil => exact Nat.zero_le _
  | cons f rest => exact loads_le_carried hs τ

theorem Rationed.deciding_le (h : m.Rationed failed i) : m.stack.countP (isDeciding i) ≤ 1 := by
  obtain ⟨τ₀, hz, -, -⟩ := h.ration
  have hone := h.worth_le τ₀
  have hcar := loads_tail_le_carried m i τ₀
  have hle := h.nested.deciding_le fun τ hτ => by
    have hzero := hz τ hτ
    have hcar := loads_tail_le_carried m i τ
    unfold worth at hzero
    omega
  unfold worth at hone
  omega

theorem Rationed.restack (h : m.Rationed failed i)
    (hmem : ∀ f ∈ stack, f ∈ m.stack ∨ f = .sink i .deciding)
    (ho : Offers ⟨m.world, stack, k⟩ i) (hn : m.world.Nested i stack)
    (ht : Told ⟨m.world, stack, k⟩ i)
    (hle : ∀ τ, carried ⟨m.world, stack, k⟩ i τ ≤ m.carried i τ) :
    Rationed ⟨m.world, stack, k⟩ failed i := by
  refine h.of_worth_le ⟨h.fresh, fun f hf τ j hsp => ?_, h.links, ho, hn, ht, fun n dest hf => ?_⟩
    (fun τ => Nat.add_le_add_left (hle τ) _) (fun _ => id) (.inl (Nat.le_refl _))
  · rcases hmem f hf with hold | rfl
    · exact h.kept f hold τ j hsp
    · cases hsp
  · rcases hmem _ hf with hold | hnew
    · exact h.settled n dest hold
    · cases hnew

theorem Rationed.served {v : Value} (h : m.Rationed failed i)
    (hc : m.control = .calling (.tell i (.value v))) : ∃ f rest τ, m.stack = f :: rest ∧
      f.delivers = true ∧ m.world.spent? f = some (τ, i) := by
  have ht := h.told
  rw [Told, hc] at ht
  obtain ⟨f, hf, hd, τ, hτ⟩ := ht.mp ⟨v, rfl⟩
  cases hs : m.stack with
  | nil => simp [hs] at hf
  | cons g rest =>
    rw [hs] at hf
    obtain rfl := Option.some.inj hf
    exact ⟨g, rest, τ, rfl, hd, hτ⟩

theorem carried_value {v : Value} (hc : m.control = .calling (.tell i (.value v))) (τ : Tap) :
    m.carried i τ = m.world.loads i τ m.stack := by
  simp [carried, hc]

theorem Rationed.not_deciding {v : Value} (h : m.Rationed failed i)
    (hc : m.control = .calling (.tell i (.value v))) : m.stack.any (isDeciding i) = false := by
  obtain ⟨f, rest, τ₁, hs, -, hsp⟩ := h.served hc
  have hnothing := (h.nothing_else hsp fun τ => (hs ▸ carried_value hc τ).ge).2
  have hn := h.nested
  rw [hs] at hn ⊢
  have hnone : (f :: rest).countP (isDeciding i) = 0 :=
    Nat.le_zero.mp ((hnothing τ₁).2 ▸ hn.deciding_le fun τ _ => (hnothing τ).2)
  rw [List.any_eq_false]
  exact fun g hg => List.countP_eq_zero.mp hnone g hg

theorem Rationed.allowance_of_value {v : Value} (h : m.Rationed failed i)
    (hc : m.control = .calling (.tell i (.value v))) : m.world.allowance i = 1 := by
  obtain ⟨f, rest, τ₁, hs, -, hsp⟩ := h.served hc
  exact h.allowance_eq_one τ₁ (h.nothing_else hsp fun τ => (hs ▸ carried_value hc τ).ge).1

theorem Rationed.told_value {v : Value} (h : m.Rationed failed i)
    (hc : m.control = .calling (.tell i (.value v)))
    (hs : m.world.subscribers[i]? = some (.sink s)) : (m.tell i (.value v)).Rationed failed i := by
  obtain ⟨f, rest, τ₁, hstack, hd, hsp⟩ := h.served hc
  have hsame : m.world.setSubscriber i (.sink s) = m.world := setSubscriber_same hs
  have hcar (τ : Tap) := carried_value hc τ
  simp only [tell, hs, Sink.enter, Sink.onValue]
  cases hlink : s.lifecycle.link? with
  | some link =>
    dsimp only
    rw [h.not_deciding hc]
    simp only [sinkSection, move, hsame, Bool.false_eq_true, if_false]
    refine h.restack ?_ trivial ⟨⟨fun _ => ⟨f, by simp [hstack], hd, τ₁, hsp⟩, fun _ => rfl⟩,
      h.nested⟩ ?_ fun τ => ?_
    · intro g hg
      rcases List.mem_cons.mp hg with rfl | hg
      · exact .inr rfl
      · exact .inl hg
    · refine told_calling (by simp [sinkCall]) ?_
      rintro g ⟨⟩
      exact World.not_serves rfl
    · rw [hcar]
      exact (World.loads_of_not_spent (by simp [World.spent?])).le
  | none =>
    simp only [sinkSection, move, hsame]
    refine h.restack (fun g hg => .inl hg) trivial h.nested trivial fun τ => ?_
    rw [hcar, carried, hstack]
    dsimp only
    split
    · next hboth =>
      rw [World.loads_of_spent hboth.2]
      exact (Nat.zero_add _).le.trans (Nat.le_succ _)
    · exact Nat.le_refl _

theorem Ordered.below (h : m.Ordered i) (hs : m.stack = .sink i .deciding :: rest) :
    ∃ f rest' τ, rest = f :: rest' ∧ f.delivers = true ∧ m.world.spent? f = some (τ, i) := by
  have hn := h.nested
  rw [hs] at hn
  obtain ⟨f, hf, hd, τ, hsp⟩ := hn.1.mp rfl
  cases rest with
  | nil => cases hf
  | cons g rest' =>
    obtain rfl := Option.some.inj hf
    exact ⟨g, rest', τ, rfl, hd, hsp⟩

theorem Rationed.allowance_of_deciding (h : m.Rationed failed i)
    (hs : m.stack = .sink i .deciding :: rest) : m.world.allowance i = 1 := by
  obtain ⟨f, rest', τ, rfl, -, hsp⟩ := h.below hs
  exact h.allowance_eq_one τ (h.nothing_else hsp (loads_le_carried hs)).1

theorem Rationed.verdict (h : m.Rationed failed i) (r : Reply)
    (hs : m.stack = .sink i .deciding :: rest) (hsink : m.world.subscribers[i]? = some (.sink s)) :
    (sinkSection { m with stack := rest } i (s.proceed r .deciding)).Rationed failed i := by
  obtain ⟨f, rest', τ₁, rfl, hd, hsp⟩ := h.below hs
  have hn := h.nested
  rw [hs] at hn
  have hcar := loads_le_carried (i := i) hs
  obtain ⟨hworth, hnothing⟩ := h.nothing_else hsp hcar
  -- The reply reaches the delivery before anything else happens.
  let d : Demand := if r.pulls then .one else .zero
  have hcar' (τ : Tap) : carried ⟨m.world, f :: rest', .answering (.demand d)⟩ i τ =
      if τ = τ₁ then d.tally else 0 := by
    simp only [carried, hd, hsp, true_and, Option.some.injEq, Prod.mk.injEq, and_true,
      Reply.granted, eq_comm (a := τ), (hnothing τ).2]
    split
    · rfl
    · next hne => exact (World.loads_of_not_spent (by simpa [hsp] using hne)).trans (hnothing τ).2
  have hd_le : d.tally ≤ 1 := by
    change (if r.pulls then Demand.one else .zero).tally ≤ 1
    split <;> decide
  have h₁ : Rationed ⟨m.world, f :: rest', .answering (.demand d)⟩ failed i := by
    refine h.restack (fun g hg => .inl (hs ▸ .tail _ hg)) trivial hn.2 trivial fun τ => ?_
    rw [hcar']
    split
    · next he =>
      subst he
      have hload : m.world.loads i τ (f :: rest') = m.world.loads i τ rest' + 1 :=
        World.loads_of_spent hsp
      have hcarτ := hcar τ
      omega
    · exact Nat.zero_le _
  refine h₁.with_taps (w := m.world.setSubscriber i (.sink { s with pending := r.pulls }))
    (fun _ => .rfl) (fun _ => id) (fun _ => rfl) (fun _ => rfl) (fun j link hl => ?_) ?_
  · rw [link?_setSubscriber _ hsink] at hl
    split at hl
    · next he => exact he ▸ (link?_of_subscriber hsink).trans hl
    · exact hl
  · change m.world.allowance i ≤ _ ∨ _
    rw [allowance_setSubscriber hsink]
    have hpos := (allowance_of_sink hsink).symm.trans (h.allowance_of_deciding hs)
    cases hl : s.lifecycle with
    | awaiting => simp [Sink.allowance, hl] at hpos
    | terminal => exact .inl (m.world.allowance_le i)
    | subscribed link =>
      cases hp : r.pulls with
      | true => exact .inl (m.world.allowance_le i)
      | false =>
        refine .inr ⟨fun hf => ?_, fun τ => ?_⟩
        · rw [(h.spent hf).2] at hworth
          omega
        · have hnone : d.tally = 0 := by
            change (if r.pulls then Demand.one else .zero).tally = 0
            rw [hp]
            rfl
          change m.world.purse i τ + _ = 0
          rw [hcar', hnone, (hnothing τ).1, ite_self]

theorem Rationed.tell_own {msg : Message Link} (h : m.Rationed failed i)
    (hc : m.control = .calling (.tell i msg)) (hne : ∀ v, msg ≠ .value v)
    (hs : m.world.subscribers[i]? = some (.sink s)) : (m.tell i msg).Rationed failed i := by
  have hl : m.Leaves i m.stack :=
    h.leaves_calling hc fun v he => hne v (Call.tell.inj he).2
  have hload := loads_le_calling (i := i) hc
  have hpredicate (v : Value) (f : Sink.Frame) : (s.enter msg).2 ≠ .call (.predicate v) f :=
    fun he => (Sink.enter_predicate he).elim hne
  rw [tell_sink hs hpredicate]
  cases msg with
  | value v => exact absurd rfl (hne v)
  | subscription link =>
    simp only [Sink.enter, Sink.onSubscription]
    cases hstate : s.lifecycle with
    | awaiting =>
      exact h.pulls hl hs (by rw [Sink.allowance, hstate]) rfl rfl hload
    | subscribed held =>
      exact h.rests (p := (s, .call (.cancel link) .passing)) hl hs (fun _ => id) (Nat.le_refl _)
        (by simp [sinkCall, Call.OffCredit]) hload
    | terminal =>
      exact h.rests (p := (s, .call (.cancel link) .passing)) hl hs (fun _ => id) (Nat.le_refl _)
        (by simp [sinkCall, Call.OffCredit]) hload
  | completion c =>
    have hend : (s.onCompletion c).1.lifecycle = .terminal := by
      unfold Sink.onCompletion Lifecycle.terminate
      cases s.lifecycle <;> cases s.handler <;> rfl
    refine h.rests hl hs ?_ ?_ ?_ hload
    · intro link hlink
      rw [Sink.enter, hend] at hlink
      cases hlink
    · have hone : (s.onCompletion c).1.allowance = 1 := by rw [Sink.allowance, hend]
      exact s.allowance_le.trans_eq hone.symm
    · intro o f hmv
      simp only [Sink.enter, Sink.onCompletion] at hmv
      split at hmv
      · obtain ⟨rfl, rfl⟩ := Move.call.inj hmv
        exact ⟨trivial, by simp⟩
      · cases hmv
  | resume =>
    simp only [Sink.enter, Sink.onResume]
    have hstill : (m.sinkSection i (s, .answer .done)).Rationed failed i :=
      h.rests (p := (s, .answer .done)) hl hs (fun _ => id) (Nat.le_refl _) (by simp) hload
    cases hstate : s.lifecycle with
    | awaiting => exact hstill
    | terminal => exact hstill
    | subscribed link =>
      simp only [Lifecycle.link?]
      cases hp : s.pending with
      | true => exact hstill
      | false => exact h.pulls hl hs (by simp [Sink.allowance, hstate, hp]) rfl rfl hload
  | cancel =>
    simp only [Sink.enter, Sink.onCancel]
    have hstill : (m.sinkSection i (s, .answer .done)).Rationed failed i :=
      h.rests (p := (s, .answer .done)) hl hs (fun _ => id) (Nat.le_refl _) (by simp) hload
    cases hstate : s.lifecycle with
    | awaiting => exact hstill
    | terminal => exact hstill
    | subscribed link =>
      simp only [Lifecycle.release]
      exact h.rests (p := ({ s with lifecycle := .terminal }, .call (.cancel link) .releasing))
        hl hs (by simp [Lifecycle.link?]) s.allowance_le (by simp [sinkCall, Call.OffCredit]) hload

theorem Rationed.tell {msg : Message Link} (h : m.Rationed failed i) (hk : m.world.SinkAt i)
    (hc : m.control = .calling (.tell j msg)) : (m.tell j msg).Rationed failed i := by
  by_cases hj : j = i
  · subst hj
    cases hs : m.world.subscribers[j]? with
    | none =>
      have htell : m.tell j msg = m.answer .done := by simp [Machine.tell, hs]
      rw [htell]
      refine h.keepsCredit (h.leaves_calling hc ?_) (answer_keepsCredit m _) (loads_le_calling hc)
      rintro v he
      obtain ⟨-, rfl⟩ := Call.tell.inj he
      have hone := h.allowance_of_value hc
      simp [World.allowance, hs] at hone
    | some sub =>
      obtain ⟨s, rfl⟩ := hk sub hs
      by_cases hv : ∃ v, msg = .value v
      · obtain ⟨v, rfl⟩ := hv
        exact h.told_value hc hs
      · exact h.tell_own hc (fun v he => hv ⟨v, he⟩) hs
  · exact h.tell_other hj hc

theorem Rationed.proceed_sink {f : Sink.Frame} (h : m.Rationed failed i) (hk : m.world.SinkAt i)
    (r : Reply) (hs : m.stack = .sink j f :: rest) :
    (proceedSink { m with stack := rest } j f r).Rationed failed i := by
  have hload := loads_le_carried (i := i) hs
  unfold proceedSink
  by_cases hd : j = i ∧ f = .deciding
  · obtain ⟨rfl, rfl⟩ := hd
    split
    · next s hsub => exact h.verdict r hs hsub
    · next hsub =>
      have hone := h.allowance_of_deciding hs
      cases hnone : m.world.subscribers[j]? with
      | none => simp [World.allowance, hnone] at hone
      | some sub =>
        obtain ⟨s, rfl⟩ := hk sub hnone
        exact absurd hnone (hsub s)
  · have hl := h.leaves_popped hs (by simpa using hd)
    split
    · next s hsub =>
      by_cases hj : j = i
      · subst hj
        cases f with
        | deciding => exact absurd ⟨rfl, rfl⟩ hd
        | passing =>
          exact h.rests hl hsub (fun _ => id) (Nat.le_refl _) (by simp [Sink.proceed]) hload
        | releasing =>
          exact h.rests hl hsub (fun _ => id) (Nat.le_refl _) (by simp [Sink.proceed]) hload
      · refine h.other_sink hl hj hsub (fun link hlink => .inl ?_) (fun link d g hreq => ?_) hload
        · cases f <;> exact hlink
        · cases f <;> cases hreq
    · exact h.keepsCredit hl (answer_keepsCredit { m with stack := rest } _) hload

theorem Rationed.proceed_assign {f : Assign.Frame Nat} (h : m.Rationed failed i)
    (hk : m.world.SinkAt i) (hs : m.stack = .assign j f :: rest) :
    (proceedAssign { m with stack := rest } j f).Rationed failed i := by
  have hload := loads_le_carried (i := i) hs
  have hl := h.leaves_popped hs (by simp)
  unfold proceedAssign
  split
  · next s rule hsub =>
    have hj : j ≠ i := by
      rintro rfl
      obtain ⟨t, ht⟩ := hk _ hsub
      cases ht
    refine h.other_assign hl hj hsub (fun link hlink => .inl ?_) (fun link d g hreq => ?_) hload
    · cases f <;> exact hlink
    · cases f <;> cases hreq
  · exact h.keepsCredit hl (answer_keepsCredit { m with stack := rest } _) hload

theorem Rationed.unwind {f : Frame} {why : Panic} (h : m.Rationed failed i)
    (hs : m.stack = f :: rest) :
    Rationed ⟨m.world, rest, .unwinding why⟩ failed i := by
  have hn := h.nested
  rw [hs] at hn
  exact h.restack (fun g hg => .inl (hs ▸ .tail _ hg)) trivial hn.2 trivial (loads_le_carried hs)

end Machine
end Sluice
