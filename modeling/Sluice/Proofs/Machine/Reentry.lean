import Sluice.Proofs.Machine.Subscribing

/-!
# Predicates are not entered twice

A sink that gets its values from publishers of the library alone is not given a value
while its predicate runs, whatever the predicate and the other callbacks do, panics
included: each call that they may make leaves the machine rationed.
-/

namespace Sluice

theorem World.same_audit (w : World) (d : Demand) (is : List Nat) :
    w.KeepsCredit (w.audit d is).1 ∧ (w.audit d is).1.trace = w.trace := by
  rw [audit_eq]
  exact ⟨⟨rfl, rfl, fun _ => id⟩, rfl⟩

/-- The environment gives sink `i` no value itself, does not use the sink's subscription or hand
it on, and subscribes to each sequence once. -/
def Call.Respects (w : World) (i : Nat) : Call → Prop
  | .tell j (.value _) => j ≠ i
  | .tell j (.subscription link) => j ≠ i → w.Apart i link.tap
  | .request link _ => w.holder? link.tap ≠ some i
  | .subscribe source _ | .attach source _ => ∀ n, source.origin = .sequence n → ¬w.Read n
  | _ => True

namespace Machine

variable {m m' : Machine} {i : Nat} {rest : List Frame} {failed : Prop}

theorem Rationed.request {link : Link} {d : Demand} (h : m.Rationed failed i)
    (hc : m.control = .calling (.request link d)) (hm : (m.request link d).Sound) :
    (m.request link d).Rationed failed i := by
  have hw := m.world.same_audit d link.audits
  unfold Machine.request at hm ⊢
  generalize m.world.audit d link.audits = p at hm hw ⊢
  obtain ⟨w, found⟩ := p
  obtain ⟨hsame, htrace⟩ := hw
  have h₁ : Rationed { m with world := w } failed i := h.with_world hsame fun n hn => by
    rwa [World.Read, htrace] at hn
  have hl := h₁.leaves_calling hc (by simp)
  have hload := loads_le_calling (m := { m with world := w }) (i := i) hc
  cases found with
  | some v => exact h₁.keepsCredit hl (.unwind (.refl w)) hload
  | none =>
    dsimp only at hm ⊢
    cases ht : link.tap with
    | inert => exact h₁.keepsCredit hl (answer_keepsCredit _ _) hload
    | sequence n => exact h₁.request_sequence hc ht
    | subject n e => exact h₁.request_subject hc ht
    | driver e =>
      rw [ht] at hm
      exact h₁.request_driver hc ht hm
    | custom n => exact h₁.keepsCredit hl (.tail (.refl w) trivial) hload

theorem Rationed.cancel {link : Link} (h : m.Rationed failed i)
    (hc : m.control = .calling (.cancel link)) (hm : (m.cancelTap link.tap).Sound) :
    (m.cancelTap link.tap).Rationed failed i := by
  have hl := h.leaves_calling hc (by simp)
  have hload := loads_le_calling (i := i) hc
  cases ht : link.tap with
  | inert => exact h.keepsCredit hl (answer_keepsCredit m _) hload
  | sequence n => exact h.cancel_sequence hc
  | subject n e => exact h.cancel_subject hc
  | driver e =>
    rw [ht] at hm
    exact h.cancel_driver hc hm
  | custom n => exact h.keepsCredit hl (.tail (.refl _) trivial) hload

theorem Rationed.enter {c : Call} (h : m.Rationed failed i) (hk : m.world.SinkAt i) (hm : m.Sound)
    (hc : m.control = .calling c) (hm' : (m.enter c).Sound) :
    (m.enter c).Rationed failed i ∨ (m.enter c).Opens failed i := by
  by_cases hp : c.Peripheral
  · have hne (v : Value) : c ≠ .tell i (.value v) := by
      rintro rfl
      exact hp
    exact .inl (h.keepsCredit (h.leaves_calling hc hne) (enter_keepsCredit m hp)
      (loads_le_calling hc))
  · cases c with
    | tell j msg => exact .inl (h.tell hk hc)
    | subscribe source j => exact h.subscribe hm hc
    | attach source j => exact .inl (h.attach hc)
    | request link d => exact .inl (h.request hc hm')
    | cancel link => exact .inl (h.cancel hc hm')
    | send n v => exact .inl (h.send hc)
    | complete n c => exact .inl (h.complete hc)
    | run t => exact .inl (h.run hc hm')
    | _ => exact absurd trivial hp

theorem Rationed.proceed {f : Frame} {r : Reply} (h : m.Rationed failed i) (hk : m.world.SinkAt i)
    (hm : m.Sound) (hc : m.control = .answering r) (hs : m.stack = f :: rest)
    (hm' : (Machine.proceed { m with stack := rest } r f).Sound) :
    (Machine.proceed { m with stack := rest } r f).Rationed failed i := by
  have hload := loads_le_carried (i := i) hs
  by_cases hf : f.OffCredit ∧ ∀ t, f ≠ .task t
  · have hne : f ≠ .sink i .deciding := by
      rintro rfl
      exact hf.1
    exact h.keepsCredit (h.leaves_popped hs hne)
      (proceed_keepsCredit { m with stack := rest } r hf.1 hf.2) hload
  · cases f with
    | sink j f => exact h.proceed_sink hk _ hs
    | assign j f => exact h.proceed_assign hk hs
    | sequence n f =>
      refine h.proceed_sequence hc hs fun dest hd => ?_
      subst hd
      exact h.settled n dest (hs ▸ List.mem_cons_self)
    | subject n f => exact h.proceed_subject hc hs
    | driver d f => exact h.proceed_driver hm hc hs hm'
    | task t =>
      simp only [Machine.proceed, stopTask] at hm' ⊢
      cases hp : r.paused with
      | ended =>
        rw [hp] at hm'
        exact h.end_task hs hm'
      | _ =>
        exact h.keepsCredit (h.leaves_popped hs (by simp)) (.answer ⟨rfl, rfl, fun _ => id⟩) hload
    | _ => exact absurd ⟨trivial, by simp⟩ hf

theorem Rationed.unwound {f : Frame} {why : Panic} (h : m.Rationed failed i)
    (hs : m.stack = f :: rest) (hm' : (Machine.unwound { m with stack := rest } why f).Sound) :
    (Machine.unwound { m with stack := rest } why f).Rationed failed i := by
  have hload := loads_le_carried (i := i) hs
  cases f with
  | closing n =>
    exact h.keepsCredit (h.leaves_popped hs (by simp)) (.unwind ⟨rfl, rfl, fun _ => id⟩) hload
  | task t => exact h.end_task hs hm'
  | handle n k =>
    have hl := h.leaves_popped hs (by simp)
    simp only [Machine.unwound]
    split
    · next j _ =>
      -- The panic waits below the cancellation until that is over.
      have h₁ : Rationed ⟨m.world, .rethrow why :: rest, .unwinding why⟩ failed i :=
        h.keepsCredit hl (.rethrow (.refl _)) hload
      refine h₁.keepsCredit ⟨fun _ => id, h₁.nested, fun g hg => ?_⟩
        (.call (.refl _) trivial trivial) fun τ => Nat.le_refl _
      obtain rfl := Option.some.inj hg
      exact World.not_serves rfl
    · exact h.keepsCredit hl (.unwind (.refl _)) hload
  | driver d f =>
    cases f with
    | opening dest =>
      simp only [Machine.unwound] at hm' ⊢
      cases hx : m.world.drivers[d]? with
      | none => exact h.unwind hs
      | some x =>
        rw [hx] at hm'
        have hfall : .driver d .delivering ∉ rest := fun hf => by
          have hself := World.setDriver_self (s := x.driver.stop) hx
          exact absurd (hm'.polling hself hf) (by simp [Driver.stop])
        have hl := h.leaves_popped hs (by simp)
        have hstop := h.driver_stopped (k := .unwinding why) hl hx hfall .unwind hload
        exact hstop.with_world (keepsCredit_dropStream _ x.stream) fun n => read_dropStream
    | _ => exact h.unwind hs
  | _ => exact h.unwind hs

theorem Rationed.step (h : m.Rationed failed i) (hk : m.world.SinkAt i) (hm : m.Sound)
    (hm' : m.step.Sound) : m.step.Rationed failed i ∨ m.step.Opens failed i := by
  unfold Machine.step at hm' ⊢
  have hempty (hs : m.stack = []) : m.Leaves i [] := by
    refine ⟨by simp, trivial, by simp⟩
  have hnone (τ : Tap) : m.world.loads i τ [] ≤ m.carried i τ := Nat.zero_le _
  cases hc : m.control with
  | calling c =>
    rw [hc] at hm'
    exact h.enter hk hm hc hm'
  | answering r =>
    simp only [hc] at hm' ⊢
    cases hs : m.stack with
    | nil => exact .inl (h.keepsCredit (hempty hs) (.wait (.refl _)) hnone)
    | cons f rest =>
      rw [hs] at hm'
      exact .inl (h.proceed hk hm hc hs hm')
  | unwinding why =>
    simp only [hc] at hm' ⊢
    cases hs : m.stack with
    | nil => exact .inl (h.keepsCredit (hempty hs) (.wait (.refl _)) hnone)
    | cons f rest =>
      rw [hs] at hm'
      exact .inl (h.unwound hs hm')
  | idle o => exact .inl h
  | stuck => exact .inl h

theorem Rationed.change {w : World} (h : m.Rationed failed i) (hw : m.world.Change w) :
    Rationed { m with world := w } failed i := by
  have hsame {w : World} (hs : m.world.KeepsCredit w) (ht : w.trace = m.world.trace) :
      Rationed { m with world := w } failed i := h.with_world hs fun n hn => by
    rwa [World.Read, ht] at hn
  cases hw with
  | @subscriber s hs =>
    have hget (j : Nat) : (m.world.addSubscriber s).subscribers[j]? =
        if j = m.world.subscribers.size then some s else m.world.subscribers[j]? :=
      Array.getElem?_push
    refine h.with_taps (fun _ => .rfl) (fun _ => id) (fun _ => rfl) (fun _ => rfl)
      (fun j link hlink => ?_) (.inl ?_)
    · rw [World.link?, hget] at hlink
      split at hlink
      · cases hs <;> cases hlink
      · exact hlink
    · rw [World.allowance, World.allowance, hget]
      by_cases hi : i = m.world.subscribers.size
      · simp [hi]
      · rw [if_neg hi]
  | sequence feed =>
    have hget (n : Nat) : (m.world.addSequence feed).sequences[n]? =
        if n = m.world.sequences.size then some {} else m.world.sequences[n]? :=
      Array.getElem?_push
    have hnew (τ : Tap) : (m.world.addSequence feed).credit? τ = m.world.credit? τ ∨
        m.world.credit? τ = none ∧ (m.world.addSequence feed).credit? τ = some ⟨none, 0⟩ := by
      cases τ with
      | sequence n =>
        rw [World.credit?, World.credit?, hget]
        split
        · next hn =>
          subst hn
          exact .inr ⟨by simp, rfl⟩
        · exact .inl rfl
      | _ => exact .inl rfl
    refine h.with_taps (fun _ => .rfl) (fun τ => ?_) (fun τ => ?_) (fun τ => ?_)
      (fun _ _ => id) (.inl (Nat.le_refl _))
    · rcases hnew τ with he | ⟨ho, -⟩
      · rw [he]
        exact id
      · simp [ho]
    · rcases hnew τ with he | ⟨ho, he⟩
      · rw [World.holder?, he, World.holder?]
      · rw [World.holder?, he, World.holder?, ho]
        rfl
    · rcases hnew τ with he | ⟨ho, he⟩
      · rw [World.units, he, World.units]
      · rw [World.units, he, World.units, ho]
        rfl
  | subject =>
    have hcredit : m.world.addSubject.credit? = m.world.credit? := by
      funext τ
      cases τ with
      | subject n e =>
        simp only [World.credit?, World.addSubject, Array.getElem?_push]
        split
        · next hn => simp [hn]
        · rfl
      | _ => rfl
    exact hsame ⟨rfl, hcredit, fun _ => id⟩ rfl
  | dropStream k => exact h.with_world (keepsCredit_dropStream _ k) fun n => read_dropStream
  | _ => exact hsame ⟨rfl, rfl, fun _ => id⟩ rfl

theorem Rationed.invoke {c : Call} (h : m.Rationed failed i) (hi : m.Idle) (hseat : m.Seated)
    (hr : c.Respects m.world i) : (m.invoke c).Rationed failed i := by
  have hl := h.leaves_idle hi
  have hgo (ho : (m.invoke c).Offers i) (hv : ∀ v, c ≠ .tell i (.value v)) :
      (m.invoke c).Rationed failed i := by
    refine h.steady (g := none) hl rfl (fun _ => id) (fun _ _ _ => .inl) (fun _ => id)
      (Nat.le_refl _) rfl (by simp) ho (told_calling hv hl.clear) (fun link d _ f stack hs => ?_)
      (by simp) (loads_le_idle hi)
    -- The environment has no turn on top of the sink.
    have hs' : m.stack = .sink i f :: stack := hs
    exact hseat hi (.sink i f) (by simp [hs'])
  by_cases hd : c.OffCredit
  · exact h.keepsCredit hl (.tail (.refl _) hd) (loads_le_idle hi)
  · cases c with
    | tell j msg =>
      cases msg with
      | value v =>
        refine hgo trivial fun v' he => ?_
        obtain ⟨rfl, -⟩ := Call.tell.inj he
        exact hr rfl
      | subscription link => exact hgo hr (by simp)
      | _ => exact absurd trivial hd
    | subscribe source j => exact hgo hr (by simp)
    | attach source j => exact hgo hr (by simp)
    | request link d => exact hgo (.inr hr) (by simp)
    | _ => exact absurd trivial hd

theorem Rationed.next (h : m.Rationed failed i) (hn : m.Next m') (hk : m.world.SinkAt i)
    (hm : m.Sound) (hm' : m'.Sound) (hseat : m.Seated)
    (hr : ∀ c, m.Idle → m' = m.invoke c → c.Respects m.world i) :
    m'.Rationed failed i ∨ m'.Opens failed i := by
  cases hn with
  | step => exact h.step hk hm hm'
  | attend hi => exact .inl (h.keepsCredit (h.leaves_idle hi) (.wait (.refl _)) (loads_le_idle hi))
  | @invoke c hi hc => exact .inl (h.invoke hi hseat (hr c hi rfl))
  | begin hi ht =>
    exact .inl (h.keepsCredit (h.leaves_idle hi) (.tail ⟨rfl, rfl, fun _ => id⟩ trivial)
      (loads_le_idle hi))
  | reply hi r =>
    unfold Machine.reply
    split
    · next q rest hs =>
      exact .inl (h.keepsCredit (h.leaves_popped hs (by simp)) (.answer (.refl _))
        (loads_le_carried hs))
    · exact .inl h
  | raise hi why =>
    unfold Machine.raise
    split
    · next q rest hs =>
      exact .inl (h.keepsCredit (h.leaves_popped hs (by simp)) (.unwind (.refl _))
        (loads_le_carried hs))
    · exact .inl h
  | change hi hw => exact .inl (h.change hw)

/-- The machines that a run comes to in which sink `i` gets its values from publishers of the
library alone. -/
inductive Supplied (i : Nat) : Machine → Prop
  | start : Supplied i {}
  | next {m m' : Machine} (h : Supplied i m) (hn : m.Next m')
      (hr : ∀ c, m.Idle → m' = m.invoke c → c.Respects m.world i) : Supplied i m'

theorem Supplied.other (h : Supplied i m) (hn : m.Next m')
    (hc : ∀ c, m.Idle → m'.control ≠ .calling c) : Supplied i m' :=
  h.next hn fun c hi he => absurd (congrArg control he) (hc c hi)

theorem Supplied.steps (h : Supplied i m) (n : Nat) : Supplied i (m.steps n) := by
  induction n with
  | zero => exact h
  | succ n ih =>
    refine ih.other .step fun c hi => ?_
    obtain ⟨o, ho⟩ := hi
    change (m.steps n).step.control ≠ .calling c
    simp [Machine.step, ho]

theorem Supplied.reply (h : Supplied i m) (hi : m.Idle) (r : Reply) : Supplied i (m.reply r) := by
  refine h.other (.reply hi r) fun c _ => ?_
  obtain ⟨o, ho⟩ := hi
  unfold Machine.reply
  split <;> simp [ho]

theorem Supplied.invoke {c : Call} (h : Supplied i m) (hi : m.Idle) (hc : c.Public m.world)
    (hr : c.Respects m.world i) : Supplied i (m.invoke c) := by
  refine h.next (.invoke hi hc) fun c' _ he => ?_
  obtain rfl := Control.calling.inj (congrArg control he)
  exact hr

theorem Supplied.reached (h : Supplied i m) : Reached (fun _ => True) m := by
  induction h with
  | start => exact .start
  | next _ hn _ ih => exact ih.next hn trivial

theorem rationed_empty (i : Nat) : Rationed {} False i := by
  have hholder (τ : Tap) : World.holder? {} τ = none := by cases τ <;> rfl
  have hunits (τ : Tap) : World.units {} τ = 0 := by cases τ <;> rfl
  have hworth (τ : Tap) : worth {} i τ = 0 := by
    rw [worth, World.purse, hholder]
    rfl
  refine ⟨⟨fun n _ => ⟨hholder _, hunits _⟩, by simp, ?_, trivial, trivial, by simp [Told],
    by simp⟩, ⟨.inert, fun τ _ => hworth τ, (hworth _).trans_le (Nat.zero_le _), ?_⟩, False.elim⟩
  · simp [World.link?]
  · simp [World.link?]

theorem Next.sinkAt (hn : m.Next m') (hk : m'.world.SinkAt i) : m.world.SinkAt i := by
  intro sub hsub
  obtain ⟨sub', hsub', hb⟩ := hn.stays hsub
  obtain ⟨s', rfl⟩ := hk sub' hsub'
  generalize hs : Subscriber.sink s' = sub' at hb
  cases hb with
  | same => exact ⟨s', hs.symm⟩
  | sinkTold s => exact ⟨s, rfl⟩
  | sinkResumed s => exact ⟨s, rfl⟩
  | assignTold => cases hs
  | assignResumed => cases hs

theorem Supplied.rationed_next (h : Supplied i m) (hn : m.Next m')
    (hr : ∀ c, m.Idle → m' = m.invoke c → c.Respects m.world i) (hk : m'.world.SinkAt i)
    (hm : m.Rationed failed i ∨ m.Opens failed i) : m'.Rationed failed i ∨ m'.Opens failed i := by
  rcases hm with hm | hm
  · exact hm.next hn (hn.sinkAt hk) h.reached.sound (h.reached.sound.next hn) h.reached.seated hr
  · cases hn with
    | step => exact hm.step
    | attend hi => exact absurd hi hm.not_idle
    | invoke hi => exact absurd hi hm.not_idle
    | begin hi => exact absurd hi hm.not_idle
    | reply hi => exact absurd hi hm.not_idle
    | raise hi => exact absurd hi hm.not_idle
    | change hi => exact absurd hi hm.not_idle

theorem Supplied.rationed (h : Supplied i m) (hk : m.world.SinkAt i) :
    m.Rationed False i ∨ m.Opens False i := by
  induction h with
  | start => exact .inl (rationed_empty i)
  | next h hn hr ih => exact h.rationed_next hn hr hk (ih (hn.sinkAt hk))

/-- No value gets to a sink while its predicate runs: the predicate is on the stack at most once,
and no message to the sink ends in a second acquisition of the mutex that is held meanwhile. -/
theorem predicate_not_reentered {s : Sink Link} (h : Supplied i m)
    (hs : m.world.subscribers[i]? = some (.sink s)) :
    m.stack.countP (isDeciding i) ≤ 1 ∧
      (∀ v, m.control = .calling (.tell i (.value v)) → m.stack.any (isDeciding i) = false) ∧
      ∀ msg, m.control = .calling (.tell i msg) → m.step.control ≠ .stuck := by
  have hk : m.world.SinkAt i := fun sub hsub => ⟨s, Option.some.inj (hsub.symm.trans hs)⟩
  rcases h.rationed hk with h | h
  · refine ⟨h.deciding_le, fun v => h.not_deciding, fun msg hc => ?_⟩
    simp only [Machine.step, hc, Machine.enter, Machine.tell, hs]
    split
    · next s' v f he =>
      obtain ⟨v', rfl⟩ := Sink.enter_predicate (congrArg Prod.snd he)
      rw [h.not_deciding hc]
      simp [sinkSection, move]
    · generalize s.enter msg = p
      obtain ⟨s', mv⟩ := p
      cases mv <;> simp [sinkSection, move]
  · exact ⟨h.deciding_le, fun v hc => absurd hc h.not_told, fun msg hc => absurd hc h.not_told⟩

/-- The predicate of a sink runs on a value that a subject delivers. -/
def decidingOnSubject : Machine where
  world :=
    { subscribers := #[.sink ⟨.subscribed ⟨[], .subject 0 0⟩, true, true⟩]
      subjects := #[{ entries := #[⟨some ⟨[], 0⟩, .zero⟩], registered := [0] }]
      trace := #[.asked (.predicate 0 7)] }
  stack := [.asked (.predicate 0 7), .sink 0 .deciding, .subject 0 (.sending ⟨[], 0⟩ 0 7 [] 0)]
  control := .idle (.asked (.predicate 0 7))

theorem decidingOnSubject_supplied : Supplied 0 decidingOnSubject := by
  have h : Supplied 0 {} := .start
  have h1 := h.other (.change ⟨_, rfl⟩ .subject) (by simp)
  have h2 := h1.other (.change ⟨_, rfl⟩ (.subscriber .sink)) (by simp)
  have h3 := (h2.invoke (c := .subscribe ⟨[], .subject 0⟩ 0) ⟨_, rfl⟩ trivial
    (by simp [Call.Respects])).steps 6
  exact (h3.invoke (c := .send 0 7) ⟨_, rfl⟩ trivial trivial).steps 4

/-- The predicate sends to the subject that delivers, then resumes its sink. Once it has returned,
the next value is delivered. -/
theorem predicate_not_reentered_by_send : ∃ m m' : Machine,
    m.control = .calling (.tell 0 .resume) ∧ m.stack.countP (isDeciding 0) = 1 ∧
      m.step.control ≠ .stuck ∧
    m'.control = .calling (.tell 0 (.value 9)) ∧ m'.stack.any (isDeciding 0) = false ∧
      m'.step.control = .calling (.ask (.predicate 0 9)) := by
  have h := decidingOnSubject_supplied
  have hsent := (h.invoke (c := .send 0 8) ⟨_, rfl⟩ trivial trivial).steps 3
  have hresumed := hsent.invoke (c := .tell 0 .resume) ⟨_, rfl⟩ trivial trivial
  have hidle := hresumed.steps 3
  have hdecided := (hidle.reply ⟨_, rfl⟩ (.pull true)).steps 4
  have hnext := (hdecided.invoke (c := .send 0 9) ⟨_, rfl⟩ trivial trivial).steps 1
  obtain ⟨-, -, hfree⟩ := predicate_not_reentered hresumed rfl
  obtain ⟨-, halone, -⟩ := predicate_not_reentered hnext rfl
  exact ⟨_, _, rfl, rfl, hfree _ rfl, rfl, halone 9 rfl, rfl⟩

end Machine
end Sluice
