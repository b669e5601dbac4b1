import Sluice.Proofs.Machine.Dropped
import Sluice.Proofs.Subject.Live

/-!
# Completions and panics

A completion empties the registry before it calls anybody. When one of the handlers panics, those
whose turn is still to come are left behind: each of them holds its subscription, and the subject
does not know it any more. As long as no handler panics ahead of somebody, a completion that is over
has reached everyone.
-/

namespace Sluice.Subject

variable {ρ : Type}

/-- The environment is proper, but any callback may panic. -/
def Falling (p : Play ρ) : Turn (In ρ) → Prop
  | .raise => True
  | x => Proper p x

/-- The callbacks may panic, but a completion handler only when nobody is left to be completed. -/
def Sparing (p : Play ρ) (x : Turn (In ρ)) : Prop :=
  Falling p x ∧ (x = .raise → ∀ dest c rest fs, p.frames = .completing dest c rest :: fs →
    ∀ i ∈ rest, p.state.holds i = false)

section Panics

variable {p q : Play ρ} {fr : Frame ρ} {fs : List (Frame ρ)}

theorem Sound.unwind (h : Sound p) (hf : p.frames = fr :: fs) : Sound (p.unwind fs) where
  registry := h.registry.cons (by simp)
  nested := by
    have hn := h.nested
    rw [hf] at hn
    exact hn.2
  fits x hx := (h.fits x (hf ▸ List.mem_cons_of_mem fr hx)).aside (.refl p.state _)

theorem Accounts.unwind (h : Accounts p.state p.log) (fs : List (Frame ρ)) :
    Accounts (p.unwind fs).state (p.unwind fs).log :=
  h.turnover rfl (.refl p.state (endless_of_move fun _ _ _ he => nomatch he))

theorem Sound.invariant_falling {may : Play ρ → Turn (In ρ) → Prop} {P : Play ρ → Prop}
    (hq : Session.Reaches component may p q) (hm : ∀ t x, may t x → Falling t x) (hs : Sound p)
    (hp : P p)
    (step : ∀ {t : Play ρ} {x : Turn (In ρ)} {fs : List (Frame ρ)} {s : Subject ρ}
      {mv : Move (Out ρ) (Frame ρ)}, Sound t → P t → Turned t x fs s mv →
      P (t.advance x fs (s, mv)))
    (fall : ∀ {t : Play ρ} {fr : Frame ρ} {fs : List (Frame ρ)}, Sound t → P t → may t .raise →
      t.frames = fr :: fs → P (t.unwind fs)) : Sound q ∧ P q := by
  refine hq.invariant (P := fun t => Sound t ∧ P t) ⟨hs, hp⟩ ?_ ?_ ?_
  · intro t i ⟨ht, hpt⟩ hmay
    have hx := turned_enter (hm _ _ hmay)
    exact ⟨ht.turned hx, step ht hpt hx⟩
  · intro t fr fs r ⟨ht, hpt⟩ hmay hf
    have hx := turned_reply ht.nested (hm _ _ hmay) hf
    exact ⟨ht.turned hx, step ht hpt hx⟩
  · intro t fr fs ⟨ht, hpt⟩ hmay hf
    exact ⟨ht.unwind hf, fall ht hpt hmay hf⟩

theorem sound_falling (h : Session.Reaches component Falling (Session.start {}) p) :
    Sound p ∧ Accounts p.state p.log :=
  Sound.invariant_falling (P := fun p => Accounts p.state p.log) h (fun _ _ => id) .start .start
    (fun hs hp ht => hp.turnover rfl (ht.turnover hs)) fun _ hp _ _ => hp.unwind _

theorem Draining.unwind (h : Draining p) (hs : Sound p) (hm : Sparing p .raise)
    (hf : p.frames = fr :: fs) : Draining (p.unwind fs) := by
  intro hc i hi
  obtain ⟨dest, c, rest, hb, hmem⟩ := h hc i hi
  rw [hf] at hb
  cases fr with
  | passing => exact ⟨_, _, rest, hb, hmem⟩
  | refusing => exact ⟨_, _, rest, hb, hmem⟩
  | sending dest j v rest n =>
    exact absurd (hs.fits (.sending dest j v rest n) (by simp [hf])).1 hc
  | completing dest' c' rest' =>
    obtain ⟨-, -, rfl⟩ := Frame.completing.injEq .. ▸ (List.cons.inj hb).1
    cases hi.symm.trans (hm.2 rfl dest' c' rest' fs hf i hmem)

end Panics

/-- A subject that was completed with `c` when it had `n` entries. -/
structure Shut (c : Ending) (n : Nat) (q : Play ρ) : Prop where
  completion : q.state.completion = some c
  size : n ≤ q.state.entries.size
  accounts : Accounts q.state q.log

section Shut

variable {c : Ending} {n : Nat} {p q : Play ρ}

theorem Shut.begin (hs : Sound p) (ha : Accounts p.state p.log) (hf : p.frames = [])
    (ho : p.state.completion = none) :
    Sound (p.advance (.enter (.complete c)) [] (enter p.state (.complete c))) ∧
      Shut c p.state.entries.size
        (p.advance (.enter (.complete c)) [] (enter p.state (.complete c))) ∧
      Draining (p.advance (.enter (.complete c)) [] (enter p.state (.complete c))) := by
  have hconcludes := enter_complete ho c
  have ht := Turned.complete hf ho hconcludes
  have hturnover := ht.turnover hs
  exact ⟨hs.turned ht, ⟨hconcludes.completion, hturnover.size, ha.turnover rfl hturnover⟩,
    hconcludes.draining fun i hi => (hs.registry.member i).mpr ⟨ho, hi⟩⟩

theorem Shut.turned {x : Turn (In ρ)} {fs : List (Frame ρ)} {s : Subject ρ}
    {mv : Move (Out ρ) (Frame ρ)} (h : Shut c n p) (hs : Sound p) (ht : Turned p x fs s mv) :
    Shut c n (p.advance x fs (s, mv)) where
  completion := (ht.turnover hs).closed c h.completion
  size := h.size.trans (ht.turnover hs).size
  accounts := h.accounts.turnover rfl (ht.turnover hs)

theorem Shut.unwind (h : Shut c n p) (fs : List (Frame ρ)) : Shut c n (p.unwind fs) :=
  ⟨h.completion, h.size, h.accounts.unwind fs⟩

theorem Shut.cases (h : Shut c n q) {i : Nat} (hi : i < n) :
    Ended i c q.log ∨ Cancelled i q.log ∨ q.state.holds i = true := by
  obtain hh | hx | ⟨c', hx⟩ := h.accounts.present i (hi.trans_le h.size)
  · exact .inr (.inr hh)
  · exact .inr (.inl hx)
  · obtain ⟨-, -, hc⟩ := h.accounts.gone i c' hx
    obtain rfl : c = c' := Option.some.inj (h.completion.symm.trans hc)
    exact .inl hx

/-- The first completion of a subject with whatever panics before it and inside it. The subject is
closed from then on and has an empty registry; everyone who was registered is completed, or
cancelled, or is held by a subscription that the subject does not know any more. When the completion
is over nobody is left like that, unless a completion handler has panicked ahead of somebody whose
turn was still to come. -/
theorem completion_strands_nobody {p q : Play ρ}
    (h : Session.Reaches component Falling (Session.start {}) p) (hf : p.frames = [])
    (ho : p.state.completion = none) {begun : Play ρ}
    (hb : p.take? component (.enter (.complete c)) = some begun)
    (hq : Session.Reaches component Falling begun q) :
    (q.state.completion = some c ∧ q.state.registered = [] ∧
      ∀ i ∈ p.state.registered,
        Ended i c q.log ∨ Cancelled i q.log ∨ q.state.holds i = true) ∧
    (Session.Reaches component Sparing begun q → broadcasting q.frames = [] →
      (∀ i, q.state.holds i = false) ∧
      ∀ i ∈ p.state.registered, Ended i c q.log ∨ Cancelled i q.log) := by
  obtain ⟨hs, ha⟩ := sound_falling h
  obtain rfl : p.advance (.enter (.complete c)) [] (enter p.state (.complete c)) = begun := by
    rw [← hf]
    exact Option.some.inj hb
  obtain ⟨hbegun, hshut, hdrain⟩ := Shut.begin hs ha hf ho (c := c)
  obtain ⟨hsq, hshutq⟩ := Sound.invariant_falling (P := Shut c p.state.entries.size) hq
    (fun _ _ => id) hbegun hshut (fun hs hp ht => hp.turned hs ht) fun _ hp _ _ => hp.unwind _
  have hcases (i : Nat) (hi : i ∈ p.state.registered) :=
    hshutq.cases (hs.registry.lt_size hi)
  refine ⟨⟨hshutq.completion, ?_, hcases⟩, fun hspared hover => ?_⟩
  · refine List.eq_nil_iff_forall_not_mem.mpr fun i hi => ?_
    cases hshutq.completion.symm.trans ((hsq.registry.member i).mp hi).1
  · obtain ⟨-, hdrained⟩ := Sound.invariant_falling (P := Draining) hspared
      (fun _ _ hx => hx.1) hbegun hdrain (fun hs hp ht => hp.turned hs ht)
      fun hs hp hm hf => hp.unwind hs hm hf
    have hnone := hdrained.nobody (by simp [hshutq.completion]) hover
    refine ⟨hnone, fun i hi => ?_⟩
    obtain hx | hx | hx := hcases i hi
    · exact .inl hx
    · exact .inr hx
    · cases (hnone i).symm.trans hx

/-- The first subscriber panics when it receives a value, and the second, which is the last to be
completed, when it is completed. -/
theorem completion_strands_nobody_amid_panics : ∃ p q : Play Nat,
    Session.Reaches component Falling (Session.start {}) p ∧
      p.state.registered = [0, 1] ∧ q.frames = [] ∧
      q.log.head?.map Sluice.Entry.turn = some .raise ∧ q.state.registered = [] ∧
      (∀ i, q.state.holds i = false) ∧
      ∀ i ∈ [0, 1], Ended i .finished q.log ∨ Cancelled i q.log := by
  have h0 : Session.Reaches component Falling (Session.start {} : Play Nat) _ := .refl
  have h1 := h0.turn (x := .enter (.subscribe 10)) (by trivial) rfl
  have h2 := h1.turn (x := .enter (.request 0 .one)) (by exact Nat.lt_of_sub_eq_succ rfl) rfl
  have h3 := h2.turn (x := .reply .done) (by rfl) rfl
  have h4 := h3.turn (x := .enter (.subscribe 11)) (by trivial) rfl
  have h5 := h4.turn (x := .reply .done) (by rfl) rfl
  have h6 := h5.turn (x := .enter (.send 5)) (by rfl) rfl
  have hp := h6.turn (x := .raise) (by trivial) rfl
  have q0 {p : Play Nat} (_ : Session.Reaches component Falling (Session.start {}) p) :
      Session.Reaches component Sparing
        (p.advance (.enter (.complete .finished)) [] (enter p.state (.complete .finished))) _ :=
    .refl
  have q1 := (q0 hp).turn (x := .reply .done) ⟨by rfl, by simp⟩ rfl
  have hlast {dest : Nat} {c : Ending} {rest : List Nat} {fs : List (Frame Nat)}
      (h : [Frame.completing 11 .finished []] = .completing dest c rest :: fs) : rest = [] := by
    cases h
    rfl
  have hq := q1.turn (x := .raise)
    ⟨by trivial, fun _ dest c rest fs hf i hi => by cases hlast hf ▸ hi⟩ rfl
  obtain ⟨⟨-, hempty, -⟩, hspared⟩ := completion_strands_nobody hp rfl rfl rfl
    (hq.mono fun _ _ hx => hx.1)
  obtain ⟨hnobody, hall⟩ := hspared hq rfl
  exact ⟨_, _, hp, rfl, rfl, rfl, hempty, hnobody, hall⟩

end Shut
end Sluice.Subject

namespace Sluice.Machine

/-- Two sinks that are subscribed to a subject. -/
def sinksOnSubject : Machine where
  world :=
    { subscribers := #[.sink ⟨.subscribed ⟨[], .subject 0 0⟩, true, true⟩,
        .sink ⟨.subscribed ⟨[], .subject 0 1⟩, true, true⟩]
      subjects := #[{ entries := #[⟨some ⟨[], 0⟩, .one⟩, ⟨some ⟨[], 1⟩, .one⟩],
                      registered := [0, 1] }] }
  control := .idle (.returned .done)

theorem sinksOnSubject_reached : Reached (fun _ => True) sinksOnSubject := by
  have h : Reached (fun _ => True) {} := .start
  have h1 := h.next (.change ⟨_, rfl⟩ .subject) trivial
  have h2 := h1.next (.change ⟨_, rfl⟩ (.subscriber .sink)) trivial
  have h3 := h2.next (.change ⟨_, rfl⟩ (.subscriber .sink)) trivial
  have h4 := h3.next (.invoke (c := .subscribe ⟨[], .subject 0⟩ 0) ⟨_, rfl⟩ trivial) trivial
  have h5 := h4.steps 6 fun _ _ => trivial
  have h6 := h5.next (.invoke (c := .subscribe ⟨[], .subject 0⟩ 1) ⟨_, rfl⟩ trivial) trivial
  exact h6.steps 6 fun _ _ => trivial

/-- The subject is completed and the completion handler of the first sink panics. The second sink
stays subscribed with a subscription that the subject does not know any more: its handler has not
run, and another completion reaches nobody. -/
theorem second_subscriber_stranded : ∃ m : Machine, Reached (fun _ => True) sinksOnSubject ∧
    (sinksOnSubject.invoke (.complete 0 .finished)).Continues m ∧ m.stack = [] ∧
      m.control = .idle (.panicked (.raised 0)) ∧
      m.world.trace.toList = [.asked (.handler 0 .finished)] ∧
      m.world.subscribers[1]? = some (.sink ⟨.subscribed ⟨[], .subject 0 1⟩, true, true⟩) ∧
      m.world.subjects[0]?.map (fun s => (s.registered, s.holds 1)) = some ([], true) ∧
      ∀ c, (m.invoke (.complete 0 c)).step = ⟨m.world, [], .answering .done⟩ := by
  have h := (Continues.refl (sinksOnSubject.invoke (.complete 0 .finished))).steps 3
  have h' := (h.next (.raise ⟨_, rfl⟩ (.raised 0))).steps 3
  exact ⟨_, sinksOnSubject_reached, h', rfl, rfl, rfl, rfl, rfl, fun c => rfl⟩

end Sluice.Machine
