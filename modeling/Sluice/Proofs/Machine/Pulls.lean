import Sluice.Proofs.Machine.KeepsCredit

/-!
# Sections of subscribers

A sink asks for a value when it is subscribed and when it is resumed with no pull
outstanding, and then it has nothing else on its way. A verdict of its predicate gives
the unit back that the value had cost, or gives nothing back and ends the pull. What
other subscribers do concerns taps of their own.
-/

namespace Sluice

namespace Sink

variable {s : Sink Link} {msg : Message Link} {link : Link} {d : Demand} {f : Frame}

theorem enter_link (h : (s.enter msg).1.lifecycle.link? = some link) :
    s.lifecycle.link? = some link ∨ msg = .subscription link := by
  obtain ⟨l, p, b⟩ := s
  cases msg with
  | subscription link' =>
    cases l with
    | awaiting => exact .inr (congrArg _ (Option.some.inj h))
    | _ => exact .inl h
  | value v => cases l <;> exact .inl h
  | completion c => cases l <;> cases b <;> cases h
  | resume => cases l <;> cases p <;> exact .inl h
  | cancel => cases l <;> cases h

theorem enter_request (h : (s.enter msg).2 = .call (.request link d) f) :
    s.lifecycle.link? = some link ∨ msg = .subscription link := by
  obtain ⟨l, p, b⟩ := s
  cases msg with
  | subscription link' =>
    cases l with
    | awaiting => exact .inr (by cases h; rfl)
    | _ => cases h
  | value v => cases l <;> cases h
  | completion c => cases l <;> cases b <;> cases h
  | resume =>
    cases l with
    | subscribed link' =>
      cases p with
      | false => exact .inl (by cases h; rfl)
      | true => cases h
    | _ => cases h
  | cancel => cases l <;> cases h

end Sink

namespace Assign

variable {s : Assign Link Nat} {msg : Message Link} {link : Link} {d : Demand} {f : Frame Nat}

theorem enter_link (h : (s.enter msg).1.lifecycle.link? = some link) :
    s.lifecycle.link? = some link ∨ msg = .subscription link := by
  obtain ⟨m, t, l, p⟩ := s
  cases msg with
  | subscription link' =>
    cases l with
    | awaiting => exact .inr (congrArg _ (Option.some.inj h))
    | _ => exact .inl h
  | value v => cases l <;> cases t <;> exact .inl h
  | completion c => cases l <;> cases h
  | resume => cases m <;> cases l <;> cases p <;> exact .inl h
  | cancel => cases l <;> cases h

theorem enter_request (h : (s.enter msg).2 = .call (.request link d) f) :
    s.lifecycle.link? = some link ∨ msg = .subscription link := by
  obtain ⟨m, t, l, p⟩ := s
  cases msg with
  | subscription link' =>
    cases l with
    | awaiting => exact .inr (by cases h; rfl)
    | _ => cases h
  | value v => cases l <;> cases t <;> cases h
  | completion c => cases h
  | resume =>
    cases m with
    | allTheTime => cases h
    | thenStop =>
      cases l with
      | subscribed link' =>
        cases p with
        | false => exact .inl (by cases h; rfl)
        | true => cases h
      | _ => cases h
  | cancel => cases l <;> cases h

end Assign

namespace Frame

def Beside (i : Nat) : Frame → Prop
  | sink j _ => j ≠ i
  | assign _ _ => True
  | _ => False

variable {i : Nat} {f : Frame}

theorem Beside.spent? (h : f.Beside i) (w : World) : w.spent? f = none := by
  cases f with
  | sink j f => rfl
  | assign j f => rfl
  | _ => exact h.elim

theorem Beside.not_guarded (h : f.Beside i) : ¬f.Guarded i := by
  cases f with
  | sink j f =>
    cases f with
    | deciding => exact h
    | _ => exact id
  | assign j f => exact id
  | _ => exact h.elim

theorem Beside.ne_sink (h : f.Beside i) (g : Sink.Frame) : f ≠ .sink i g := by
  rintro rfl
  exact h rfl

end Frame

namespace Machine

variable {m : Machine} {i j : Nat} {rest : List Frame} {failed : Prop}

theorem link?_setSubscriber {w : World} {sub : Subscriber} (s : Subscriber)
    (hs : w.subscribers[j]? = some sub) (k : Nat) :
    (w.setSubscriber j s).link? k = if j = k then s.link? else w.link? k := by
  rw [World.link?, World.setSubscriber, Array.getElem?_setIfInBounds]
  by_cases hk : j = k
  · rw [if_pos hk, if_pos hk, if_pos (lt_size_of_getElem? hs)]
    rfl
  · rw [if_neg hk, if_neg hk]
    rfl

theorem link?_of_subscriber {w : World} {sub : Subscriber} (hs : w.subscribers[j]? = some sub) :
    w.link? j = sub.link? := by
  rw [World.link?, hs]
  rfl

/-- What a section of a subscriber other than sink `i` may come to. -/
inductive Bystands (w : World) (i : Nat) : Option Frame → Control → Prop
  | answer {r : Reply} : Bystands w i none (.answering r)
  | call {f : Frame} {c : Call} (hf : f.Beside i) (hc : c.OffCredit) :
      Bystands w i (some f) (.calling c)
  | request {f : Frame} {link : Link} {d : Demand} (hf : f.Beside i) (ha : w.Apart i link.tap) :
      Bystands w i (some f) (.calling (.request link d))

theorem Rationed.bystander {sub sub' : Subscriber} {g : Option Frame} {k : Control}
    (h : m.Rationed failed i) (hl : m.Leaves i rest) (hj : j ≠ i)
    (hs : m.world.subscribers[j]? = some sub)
    (hlink : ∀ link, sub'.link? = some link →
      sub.link? = some link ∨ m.world.Apart i link.tap)
    (hk : Bystands m.world i g k) (hc : ∀ τ, m.world.loads i τ rest ≤ m.carried i τ) :
    Rationed ⟨m.world.setSubscriber j sub', g.toList ++ rest, k⟩ failed i := by
  have hlinks (n : Nat) (link : Link) (_ : n ≠ i)
      (hn : (m.world.setSubscriber j sub').link? n = some link) :
      m.world.link? n = some link ∨ (m.world.setSubscriber j sub').Apart i link.tap := by
    rw [link?_setSubscriber sub' hs] at hn
    split at hn
    · next he => exact he ▸ link?_of_subscriber hs ▸ hlink link hn
    · exact .inl hn
  have hown (link : Link) (hn : (m.world.setSubscriber j sub').link? i = some link) :
      m.world.link? i = some link := by
    rwa [link?_setSubscriber sub' hs, if_neg hj] at hn
  have hallow : m.world.allowance i ≤ (m.world.setSubscriber j sub').allowance i := by
    rw [World.allowance, World.allowance, setSubscriber_ne _ _ (Ne.symm hj)]
  have hleft {f : Frame} (hf : f.Beside i) :
      ∀ g ∈ some f, ¬g.Guarded i ∧ (m.world.setSubscriber j sub').spent? g = none := by
    rintro g ⟨⟩
    exact ⟨hf.not_guarded, hf.spent? _⟩
  cases hk with
  | answer =>
    exact h.endsOffCredit (g := none) hl rfl (fun _ => id) hlinks hown hallow (by simp) .answer hc
  | call hf hcall =>
    exact h.endsOffCredit hl rfl (fun _ => id) hlinks hown hallow (hleft hf) (.call hcall) hc
  | @request f link d hf ha =>
    refine h.steady (g := some f) hl rfl (fun _ => id) hlinks hown hallow rfl (hleft hf) (.inr ha.2)
      (told_calling (by simp) ?_) ?_ (by simp) hc
    · rintro g ⟨⟩
      exact World.not_serves (hf.spent? _)
    · rintro link d - f' stack he
      exact hf.ne_sink f' (List.cons.inj he).1

theorem Rationed.other_sink {s : Sink Link} {p : Sink Link × Move (Sink.Out Link) Sink.Frame}
    (h : m.Rationed failed i) (hl : m.Leaves i rest) (hj : j ≠ i)
    (hs : m.world.subscribers[j]? = some (.sink s))
    (hlink : ∀ link, p.1.lifecycle.link? = some link →
      s.lifecycle.link? = some link ∨ m.world.Apart i link.tap)
    (hreq : ∀ link d f, p.2 = .call (.request link d) f → m.world.Apart i link.tap)
    (hc : ∀ τ, m.world.loads i τ rest ≤ m.carried i τ) :
    (sinkSection { m with stack := rest } j p).Rationed failed i := by
  obtain ⟨s', mv⟩ := p
  have hby {g : Option Frame} {k : Control} (hk : Bystands m.world i g k) :
      Rationed ⟨m.world.setSubscriber j (.sink s'), g.toList ++ rest, k⟩ failed i :=
    h.bystander hl hj hs hlink hk hc
  cases mv with
  | answer r => exact hby .answer
  | call o f =>
    cases o with
    | request link d => exact hby (.request (f := .sink j f) hj (hreq link d f rfl))
    | cancel link => exact hby (.call (f := .sink j f) (c := .cancel link) hj trivial)
    | predicate v => exact hby (.call (f := .sink j f) (c := .ask _) hj trivial)
    | handler c => exact hby (.call (f := .sink j f) (c := .ask _) hj trivial)

theorem Rationed.other_assign {s : Assign Link Nat} {rule : WriteRule}
    {p : Assign Link Nat × Move (Assign.Out Link Nat) (Assign.Frame Nat)}
    (h : m.Rationed failed i) (hl : m.Leaves i rest) (hj : j ≠ i)
    (hs : m.world.subscribers[j]? = some (.assign s rule))
    (hlink : ∀ link, p.1.lifecycle.link? = some link →
      s.lifecycle.link? = some link ∨ m.world.Apart i link.tap)
    (hreq : ∀ link d f, p.2 = .call (.request link d) f → m.world.Apart i link.tap)
    (hc : ∀ τ, m.world.loads i τ rest ≤ m.carried i τ) :
    (assignSection { m with stack := rest } j rule p).Rationed failed i := by
  obtain ⟨s', mv⟩ := p
  have hby {g : Option Frame} {k : Control} (hk : Bystands m.world i g k) :
      Rationed ⟨m.world.setSubscriber j (.assign s' rule), g.toList ++ rest, k⟩ failed i :=
    h.bystander hl hj hs hlink hk hc
  cases mv with
  | answer r => exact hby .answer
  | call o f =>
    cases o with
    | request link d => exact hby (.request (f := .assign j f) trivial (hreq link d f rfl))
    | cancel link => exact hby (.call (f := .assign j f) (c := .cancel link) trivial trivial)
    | write t v => exact hby (.call (f := .assign j f) (c := .write t rule v) trivial trivial)

theorem Ordered.apart_link {sub : Subscriber} {msg : Message Link} {link : Link}
    (h : m.Ordered i) (hj : j ≠ i) (hs : m.world.subscribers[j]? = some sub)
    (hc : m.control = .calling (.tell j msg))
    (hlink : sub.link? = some link ∨ msg = .subscription link) : m.world.Apart i link.tap := by
  rcases hlink with hlink | rfl
  · exact h.links j link hj ((link?_of_subscriber hs).trans hlink)
  · have ho := h.offers
    rw [Offers, hc] at ho
    exact ho hj

theorem Rationed.stuck (h : m.Rationed failed i) (hl : m.Leaves i m.stack)
    (hc : ∀ τ, m.world.loads i τ m.stack ≤ m.carried i τ) :
    Rationed { m with control := .stuck } failed i :=
  h.of_world (g := none) hl (.refl _) (by simp) .stuck hc

theorem Rationed.tell_other {msg : Message Link} (h : m.Rationed failed i) (hj : j ≠ i)
    (hc : m.control = .calling (.tell j msg)) : (m.tell j msg).Rationed failed i := by
  have hne (v : Value) : Call.tell j msg ≠ .tell i (.value v) := fun he =>
    hj (Call.tell.inj he).1
  have hl := h.leaves_calling hc hne
  have hload := loads_le_calling (i := i) hc
  unfold tell
  split
  · next s hs =>
    have hsink : (m.sinkSection j (s.enter msg)).Rationed failed i :=
      h.other_sink hl hj hs (fun link hlink => (Sink.enter_link hlink).imp id
          fun hm => h.apart_link hj hs hc (.inr hm))
        (fun link d f hreq => h.apart_link hj hs hc (Sink.enter_request hreq)) hload
    split
    · next t v f he =>
      split
      · exact h.stuck hl hload
      · rwa [he] at hsink
    · exact hsink
  · next s rule hs =>
    exact h.other_assign hl hj hs (fun link hlink => (Assign.enter_link hlink).imp id
        fun hm => h.apart_link hj hs hc (.inr hm))
      (fun link d f hreq => h.apart_link hj hs hc (Assign.enter_request hreq)) hload
  · split
    · exact h.keepsCredit hl (.call (.refl _) trivial trivial) hload
    · exact h.keepsCredit hl (answer_keepsCredit m _) hload
  · exact h.keepsCredit hl (answer_keepsCredit m _) hload

section Sink

variable {s s' : Sink Link}

theorem allowance_of_sink {w : World} (hs : w.subscribers[i]? = some (.sink s)) :
    w.allowance i = s.allowance := by
  rw [World.allowance, hs]

theorem allowance_setSubscriber {w : World} (hs : w.subscribers[i]? = some (.sink s)) :
    (w.setSubscriber i (.sink s')).allowance i = s'.allowance := by
  apply allowance_of_sink
  rw [World.setSubscriber, Array.getElem?_setIfInBounds, if_pos rfl,
    if_pos (lt_size_of_getElem? hs)]

theorem Rationed.rests {p : Sink Link × Move (Sink.Out Link) Sink.Frame} (h : m.Rationed failed i)
    (hl : m.Leaves i rest) (hs : m.world.subscribers[i]? = some (.sink s))
    (hlink : ∀ link, p.1.lifecycle.link? = some link → s.lifecycle.link? = some link)
    (hallow : s.allowance ≤ p.1.allowance)
    (hmv : ∀ o f, p.2 = .call o f → (sinkCall i o).OffCredit ∧ f ≠ .deciding)
    (hc : ∀ τ, m.world.loads i τ rest ≤ m.carried i τ) :
    (sinkSection { m with stack := rest } i p).Rationed failed i := by
  obtain ⟨s', mv⟩ := p
  have hlinks (n : Nat) (link : Link) (hn : n ≠ i)
      (hlink : (m.world.setSubscriber i (.sink s')).link? n = some link) :
      m.world.link? n = some link ∨
        (m.world.setSubscriber i (.sink s')).Apart i link.tap := by
    rw [link?_setSubscriber _ hs, if_neg hn.symm] at hlink
    exact .inl hlink
  have hown (link : Link) (hn : (m.world.setSubscriber i (.sink s')).link? i = some link) :
      m.world.link? i = some link := by
    rw [link?_setSubscriber _ hs, if_pos rfl] at hn
    exact (link?_of_subscriber hs).trans (hlink link hn)
  have hgain : m.world.allowance i ≤ (m.world.setSubscriber i (.sink s')).allowance i := by
    rwa [allowance_of_sink hs, allowance_setSubscriber hs]
  cases mv with
  | answer r =>
    exact h.endsOffCredit (g := none) hl rfl (fun _ => id) hlinks hown hgain (by simp) .answer hc
  | call o f =>
    obtain ⟨hoff, hf⟩ := hmv o f rfl
    refine h.endsOffCredit (g := some (.sink i f)) hl rfl (fun _ => id) hlinks hown hgain ?_
      (.call hoff) hc
    rintro g ⟨⟩
    refine ⟨fun hg => ?_, rfl⟩
    cases f with
    | deciding => exact hf rfl
    | _ => exact hg

theorem Rationed.pulls {link : Link} (h : m.Rationed failed i) (hl : m.Leaves i rest)
    (hs : m.world.subscribers[i]? = some (.sink s)) (hnone : s.allowance = 0)
    (hlink : s'.lifecycle = .subscribed link) (hone : s'.pending = true)
    (hc : ∀ τ, m.world.loads i τ rest ≤ m.carried i τ) :
    (sinkSection { m with stack := rest } i (s', .call (.request link .one) .passing)).Rationed
      failed i := by
  have hheld : (m.world.setSubscriber i (.sink s')).link? i = some link := by
    rw [link?_setSubscriber _ hs, if_pos rfl, Subscriber.link?, hlink]
    rfl
  have hzero (τ : Tap) : m.worth i τ = 0 := by
    obtain ⟨τ₀, hz, hle, -⟩ := h.ration
    rw [allowance_of_sink hs, hnone] at hle
    by_cases hτ : τ = τ₀
    · exact hτ ▸ Nat.le_zero.mp hle
    · exact hz τ hτ
  have hsec : Section i m.world rest (some (.sink i .passing))
      (sinkSection { m with stack := rest } i (s', .call (.request link .one) .passing)) :=
    { lasts := .of_credit (fun _ => id) rfl
      links := by
        intro n link' hn hl'
        refine .inl ?_
        rwa [sinkSection, move, link?_setSubscriber _ hs, if_neg hn.symm] at hl'
      stack := rfl
      left := by
        intro f hf
        obtain rfl := Option.some.inj hf
        exact ⟨id, fun τ j hsp => by cases hsp⟩
      offers := .inl ⟨_, _, rfl⟩
      told := by
        refine told_calling (by simp [sinkCall]) ?_
        rintro f ⟨⟩
        exact World.not_serves rfl }
  have hworth (τ : Tap) :
      (sinkSection { m with stack := rest } i (s', .call (.request link .one) .passing)).worth i τ =
        if link.tap = τ then 1 else 0 := by
    have hold := hzero τ
    have hload := hc τ
    have htop : (m.world.setSubscriber i (.sink s')).loads i τ (.sink i .passing :: rest) =
        m.world.loads i τ rest := List.countP_cons_of_neg (by simp [World.spent?])
    have hpurse : (m.world.setSubscriber i (.sink s')).purse i τ = m.world.purse i τ := rfl
    have hcarried : carried (sinkSection { m with stack := rest } i
        (s', .call (.request link .one) .passing)) i τ =
          (if i = i ∧ link.tap = τ then Demand.one.tally else 0) +
            (m.world.setSubscriber i (.sink s')).loads i τ (.sink i .passing :: rest) := rfl
    have htally : Demand.one.tally = 1 := rfl
    unfold worth at hold ⊢
    rw [hcarried, htop, htally]
    simp only [true_and]
    change m.world.purse i τ + _ = _
    omega
  refine ⟨hsec.ordered h.toOrdered hl fun f _ => World.spent?_congr rfl, ⟨link.tap,
    fun τ hτ => ?_, ?_, fun link' hl' => ?_⟩, fun hf => ?_⟩
  · rw [hworth, if_neg hτ.symm]
  · have hallow : s'.allowance = 1 := by
      rw [Sink.allowance, hlink, hone]
      rfl
    change _ ≤ (m.world.setSubscriber i (.sink s')).allowance i
    rw [hworth, if_pos rfl, allowance_setSubscriber hs, hallow]
  · exact congrArg Link.tap (Option.some.inj (hl'.symm.trans hheld))
  · -- A sink whose predicate has failed keeps its allowance.
    have hone := (allowance_of_sink hs).symm.trans (h.spent hf).1
    omega

end Sink

end Machine
end Sluice
