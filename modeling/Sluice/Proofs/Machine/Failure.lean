import Sluice.Proofs.Machine.Parting
import Sluice.Proofs.Machine.Reentry

/-!
# Predicates that panic

A predicate that panics takes down the delivery it ran for. The unit that the value had
cost is gone, and the sink still counts a pull as outstanding: it asks for no other
value, and nobody owes it one. All that it may still do is to end.
-/

namespace Sluice

theorem Sink.enter_content {s : Sink Link} {msg : Message Link} (h : s.allowance = 1)
    (hne : ∀ v, msg ≠ .value v) :
    (∃ r, (s.enter msg).2 = .answer r) ∨ (∃ c f, (s.enter msg).2 = .call (.handler c) f) ∨
      ∃ link f, (s.enter msg).2 = .call (.cancel link) f := by
  obtain ⟨l, p, b⟩ := s
  cases msg with
  | value v => exact absurd rfl (hne v)
  | subscription link =>
    cases l with
    | awaiting => cases h
    | subscribed held => exact .inr (.inr ⟨link, .passing, rfl⟩)
    | terminal => exact .inr (.inr ⟨link, .passing, rfl⟩)
  | completion c =>
    cases l with
    | terminal => exact .inl ⟨.done, rfl⟩
    | _ =>
      cases b with
      | true => exact .inr (.inl ⟨c, .passing, rfl⟩)
      | false => exact .inl ⟨.done, rfl⟩
  | resume =>
    cases l with
    | subscribed held =>
      cases p with
      | true => exact .inl ⟨.done, rfl⟩
      | false => cases h
    | _ => exact .inl ⟨.done, rfl⟩
  | cancel =>
    cases l with
    | subscribed held => exact .inr (.inr ⟨held, .releasing, rfl⟩)
    | _ => exact .inl ⟨.done, rfl⟩

namespace Machine

variable {m m' m₀ : Machine} {i j : Nat} {rest : List Frame} {why : Panic} {failed : Prop}
  {msg : Message Link}

theorem Rationed.not_told_value (h : m.Rationed True i) (v : Value) :
    m.control ≠ .calling (.tell i (.value v)) := by
  intro hc
  obtain ⟨f, fs, τ, hs, -, hsp⟩ := h.served hc
  have hpos := (h.nothing_else hsp fun τ => (hs ▸ carried_value hc τ).ge).1
  rw [(h.spent trivial).2] at hpos
  omega

theorem Rationed.fails (h : m.Rationed failed i) (hc : m.control = .unwinding why)
    (hs : m.stack = .sink i .deciding :: rest) : m.step.control = .unwinding why ∧
      (∃ fs, m.step.step = ⟨m.world, fs, .unwinding why⟩) ∧ m.step.step.Rationed True i := by
  -- The panic leaves the predicate and then the delivery, whose unit is lost.
  obtain ⟨f, fs, τ, rfl, hd, hsp⟩ := h.below hs
  have hfirst : m.step = ⟨m.world, f :: fs, .unwinding why⟩ := by
    simp only [Machine.step, hc, hs, Machine.unwound, Machine.unwind]
  have hsecond : m.step.step = ⟨m.world, fs, .unwinding why⟩ := by
    rw [hfirst]
    cases f with
    | sequence n f => rfl
    | subject n f => rfl
    | driver d f =>
      cases f with
      | delivering => rfl
      | _ => cases hd
    | _ => cases hd
  have h₁ : Rationed ⟨m.world, f :: fs, .unwinding why⟩ failed i := h.unwind hs
  have h₂ : Rationed ⟨m.world, fs, .unwinding why⟩ failed i := h₁.unwind rfl
  have hworth (τ' : Tap) : worth ⟨m.world, fs, .unwinding why⟩ i τ' = 0 := by
    obtain ⟨hpurse, hload⟩ := (h.nothing_else hsp (loads_le_carried hs)).2 τ'
    exact Nat.add_eq_zero_iff.mpr ⟨hpurse, hload⟩
  rw [hsecond, hfirst]
  exact ⟨rfl, ⟨fs, rfl⟩, h₂.toOrdered, h₂.ration, fun _ => ⟨h.allowance_of_deciding hs, hworth⟩⟩

/-- The predicate of sink `i` has panicked, and its delivery is over. -/
structure Failed (m : Machine) (i : Nat) : Prop where
  supplied : Supplied i m
  sink : ∃ s, m.world.subscribers[i]? = some (.sink s)
  spent : m.Rationed True i ∨ m.Opens True i
  quiet : m.acting? = some i → ∃ c, m.control = .calling (.ask (.handler i c))

theorem Rationed.tell_quiet (h : m.Rationed True i) (hc : m.control = .calling (.tell j msg))
    (hsink : ∃ s, m.world.subscribers[i]? = some (.sink s))
    (ha : (m.tell j msg).acting? = some i) :
    ∃ c, (m.tell j msg).control = .calling (.ask (.handler i c)) := by
  obtain rfl : j = i := by
    rcases (tell_sectioned m j msg).acting with hn | hj
    · cases hn.symm.trans ha
    · exact Option.some.inj (hj.symm.trans ha)
  obtain ⟨s, hs⟩ := hsink
  have hone : s.allowance = 1 := (allowance_of_sink hs).symm.trans (h.spent trivial).1
  have hne (v : Value) : msg ≠ .value v := by
    rintro rfl
    exact h.not_told_value v hc
  have hcontent := Sink.enter_content hone hne
  have htell : m.tell j msg = m.sinkSection j (s.enter msg) :=
    tell_sink hs fun v f he => (Sink.enter_predicate he).elim hne
  rw [htell] at ha ⊢
  generalize s.enter msg = p at ha hcontent ⊢
  obtain ⟨s', mv⟩ := p
  rcases hcontent with ⟨r, rfl⟩ | ⟨c, f, rfl⟩ | ⟨link, f, rfl⟩
  · cases ha
  · exact ⟨c, rfl⟩
  · cases ha

theorem Failed.next (h : m.Failed i) (hn : m.Next m')
    (hr : ∀ c, m.Idle → m' = m.invoke c → c.Respects m.world i) : m'.Failed i := by
  obtain ⟨s, hs⟩ := h.sink
  obtain ⟨sub, hsub, hb⟩ := hn.stays hs
  obtain ⟨s', rfl⟩ : ∃ s', sub = .sink s' := by
    cases hb with
    | same => exact ⟨s, rfl⟩
    | sinkTold => exact ⟨_, rfl⟩
    | sinkResumed => exact ⟨_, rfl⟩
  have hk : m'.world.SinkAt i := fun sub hsub' => ⟨s', Option.some.inj (hsub'.symm.trans hsub)⟩
  refine ⟨h.supplied.next hn hr, ⟨s', hsub⟩, h.supplied.rationed_next hn hr hk h.spent,
    fun ha => ?_⟩
  have hnone {r : Reply} (hc : m'.control = .answering r) : m'.acting? = none := by
    simp [acting?, hc]
  cases hn.moved h.supplied.reached.seated with
  | aloof hx => cases hx.acting.symm.trans ha
  | added hx => cases hx.acting.symm.trans ha
  | message hc =>
    rcases h.spent with hx | hx
    · exact hx.tell_quiet hc h.sink ha
    · exact absurd hc hx.not_told
  | @sink j f fs r _ =>
    obtain ⟨r', hr'⟩ := proceedSink_answers { m with stack := fs } j f r
    cases (hnone hr').symm.trans ha
  | @assign j f fs _ =>
    obtain ⟨r', hr'⟩ := proceedAssign_answers { m with stack := fs } j f
    cases (hnone hr').symm.trans ha

theorem Failed.not_told_value (h : m.Failed i) (v : Value) :
    m.control ≠ .calling (.tell i (.value v)) := by
  rcases h.spent with hx | hx
  · exact hx.not_told_value v
  · exact hx.not_told

/-- `m'` comes of `m` while sink `i` gets its values from publishers of the library alone. -/
inductive StaysSupplied (i : Nat) (m : Machine) : Machine → Prop
  | refl : StaysSupplied i m m
  | next {m' m'' : Machine} (h : StaysSupplied i m m') (hn : m'.Next m'')
      (hr : ∀ c, m'.Idle → m'' = m'.invoke c → c.Respects m'.world i) : StaysSupplied i m m''

theorem StaysSupplied.supplied (hr : StaysSupplied i m m') (h : Supplied i m) : Supplied i m' := by
  induction hr with
  | refl => exact h
  | next _ hn hr ih => exact ih.next hn hr

theorem StaysSupplied.steps (h : StaysSupplied i m m') (n : Nat) :
    StaysSupplied i m (m'.steps n) := by
  induction n with
  | zero => exact h
  | succ n ih =>
    refine ih.next .step fun c hi he => ?_
    obtain ⟨o, ho⟩ := hi
    have hstep : (m'.steps n).step.control = .calling c := congrArg control he
    simp [Machine.step, ho] at hstep

theorem StaysSupplied.invoke {c : Call} (h : StaysSupplied i m m') (hi : m'.Idle)
    (hc : c.Public m'.world) (hr : c.Respects m'.world i) : StaysSupplied i m (m'.invoke c) := by
  refine h.next (.invoke hi hc) fun c' _ he => ?_
  obtain rfl := Control.calling.inj (congrArg control he)
  exact hr

theorem StaysSupplied.fails {s : Sink Link} (hr : StaysSupplied i m₀ m) (h : Supplied i m₀)
    (hi : m₀.world.subscribers[i]? = some (.sink s)) (hc : m₀.control = .unwinding why)
    (hs : m₀.stack = .sink i .deciding :: rest) : m.control = .unwinding why ∨ m.Failed i := by
  have hk : m₀.world.SinkAt i := fun sub hsub => ⟨s, Option.some.inj (hsub.symm.trans hi)⟩
  have hration : m₀.Rationed False i := by
    rcases h.rationed hk with hx | ⟨m₁, source, k, n, q, -, -, -, -, hx⟩
    · exact hx
    · cases hx <;> cases hc
  obtain ⟨hc₁, ⟨fs, hm₂⟩, hspent⟩ := hration.fails hc hs
  have hfailed : m₀.step.step.Failed i := by
    refine ⟨h.steps 2, ⟨s, ?_⟩, .inl hspent, ?_⟩
    · rw [hm₂]
      exact hi
    · rw [hm₂]
      simp [acting?]
  -- The environment has no turn before the delivery is over.
  have hcases : m = m₀ ∨ m = m₀.step ∨ m.Failed i := by
    induction hr with
    | refl => exact .inl rfl
    | next _ hn hr ih =>
      rcases ih with rfl | rfl | hf
      · exact .inr (.inl (hn.eq_step hc))
      · obtain rfl := hn.eq_step hc₁
        exact .inr (.inr hfailed)
      · exact .inr (.inr (hf.next hn hr))
  rcases hcases with rfl | rfl | hf
  · exact .inl hc
  · exact .inl hc₁
  · exact .inr hf

/-- After its predicate has panicked, a sink is given no value any more, its predicate does not run
and it requests nothing, whatever happens. If it is cancelled or its handle dropped while it is
subscribed, it cancels its subscription, and it does so once and for good. -/
theorem panicked_predicate_is_last {s₀ : Sink Link} (h : Supplied i m₀)
    (hi : m₀.world.subscribers[i]? = some (.sink s₀)) (hc : m₀.control = .unwinding why)
    (hs : m₀.stack = .sink i .deciding :: rest) (hr : StaysSupplied i m₀ m) :
    (∀ v, m.control ≠ .calling (.tell i (.value v)) ∧
      m.control ≠ .calling (.ask (.predicate i v))) ∧
    (∀ link d f fs, m.control = .calling (.request link d) → m.stack ≠ .sink i f :: fs) ∧
    (∀ s link, m.world.subscribers[i]? = some (.sink s) → s.lifecycle = .subscribed link →
      (m.control = .calling (.tell i .cancel) → m.step.Releases i link) ∧
      (m.Drops i → m.step.step.Releases i link)) ∧
    ∀ link, m.Releases i link → m.Parts i link := by
  have hnone {o : Control} (ho : ∀ why, o ≠ .unwinding why) (hne : m.Failed i → m.control ≠ o) :
      m.control ≠ o := by
    rcases hr.fails h hi hc hs with hw | hf
    · exact fun he => ho why (he.symm.trans hw)
    · exact hne hf
  refine ⟨fun v => ⟨hnone (by simp) fun hf => hf.not_told_value v, hnone (by simp) ?_⟩,
    fun link d f fs hreq hstack => ?_, fun s link hsub hl => ⟨fun hcancel => ?_, fun hd => ?_⟩,
    fun link hrel => (hr.supplied h).reached.parts hrel⟩
  · intro hf hask
    obtain ⟨c, he⟩ := hf.quiet (by simp [acting?, hask])
    cases hask.symm.trans he
  · refine hnone (by simp) (fun hf hreq => ?_) hreq
    obtain ⟨c, he⟩ := hf.quiet (by simp [acting?, hreq, hstack])
    cases hreq.symm.trans he
  · exact cancel_releases hcancel hsub hl
  · obtain ⟨hcancel, hsubs⟩ := hd.step
    exact cancel_releases hcancel (hsubs ▸ hsub) hl

/-- The predicate panics on a value of a subject. The sink is then resumed in vain, the subject
sends another value that nobody gets, and the sink is cancelled. -/
theorem panicked_predicate_is_last_on_subject : ∃ m₀ m : Machine,
    decidingOnSubject.Next m₀ ∧ m₀.control = .unwinding (.raised 0) ∧ StaysSupplied 0 m₀ m ∧
      m.world.trace.toList = [.asked (.predicate 0 7)] ∧
      m.world.subjects[0]?.map Subject.registered = some [0] ∧
      m.control = .calling (.tell 0 .cancel) ∧ m.step.Releases 0 ⟨[], .subject 0 0⟩ ∧
      m.step.IsTerminal 0 ∧ m.step.step.world.subjects[0]?.map Subject.registered = some [] := by
  have h : Supplied 0 (decidingOnSubject.raise (.raised 0)) :=
    decidingOnSubject_supplied.other (.raise ⟨_, rfl⟩ _) (by simp [raise, decidingOnSubject])
  have hfell := (StaysSupplied.refl (i := 0) (m := decidingOnSubject.raise (.raised 0))).steps 3
  have hresumed := (hfell.invoke (c := .tell 0 .resume) ⟨_, rfl⟩ trivial trivial).steps 2
  have hsent := (hresumed.invoke (c := .send 0 8) ⟨_, rfl⟩ trivial trivial).steps 2
  have hcancel := hsent.invoke (c := .tell 0 .cancel) ⟨_, rfl⟩ trivial trivial
  obtain ⟨-, -, hends, -⟩ := panicked_predicate_is_last h rfl rfl rfl hcancel
  have hreleases := (hends _ _ rfl rfl).1 rfl
  obtain ⟨-, -, -, hparts⟩ := panicked_predicate_is_last h rfl rfl rfl (hcancel.steps 1)
  obtain ⟨hterminal, -, hunlisted⟩ := hparts _ hreleases
  exact ⟨_, _, .raise ⟨_, rfl⟩ (.raised 0), rfl, hcancel, rfl, rfl, rfl, hreleases, hterminal,
    hunlisted 0 0 rfl⟩

end Machine
end Sluice
