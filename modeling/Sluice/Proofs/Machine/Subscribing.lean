import Sluice.Proofs.Machine.Decisions
import Sluice.Proofs.Machine.DriverCredit
import Sluice.Proofs.Machine.SubjectCredit

/-!
# Subscriptions that are made

Every subscription gets a tap of its own, at which nothing has been asked for. A sequence
is read before it has its subscriber, with nothing else in between.
-/

namespace Sluice

namespace World

variable {w : World} {n : Nat}

theorem credit?_pushEntry {s t : Subject Outlet} (dest : Outlet) (hs : w.subjects[n]? = some s)
    (ht : t.entries = s.entries.push ⟨some dest, .zero⟩) :
    (w.setSubject n t).credit? =
      Function.update w.credit? (.subject n s.entries.size) (some ⟨some dest.subscriber, 0⟩) := by
  funext τ
  cases τ with
  | subject k e =>
    simp only [credit?, setSubject, Array.getElem?_setIfInBounds]
    by_cases hk : n = k
    · subst hk
      rw [if_pos rfl, if_pos (lt_size_of_getElem? hs), Option.bind_some, ht, Array.getElem?_push]
      by_cases he : e = s.entries.size
      · subst he
        simp only [if_pos, Function.update_self]
        rfl
      · rw [if_neg he, Function.update_of_ne (by simpa using he)]
        simp only [credit?, hs, Option.bind_some]
    · rw [if_neg hk, Function.update_of_ne (by simpa using fun h _ => hk h.symm)]
      rfl
  | _ => rfl

theorem credit?_pushDriver (w : World) (x : StreamTask) (s : Driver Outlet) :
    (setDriver { w with drivers := w.drivers.push x } w.drivers.size s).credit? =
      Function.update w.credit? (.driver w.drivers.size) (some s.credit) := by
  have hx : (w.drivers.push x)[w.drivers.size]? = some x := Array.getElem?_push_size
  rw [credit?_setDriver (w := { w with drivers := w.drivers.push x }) hx]
  funext τ
  by_cases hτ : τ = .driver w.drivers.size
  · subst hτ
    simp
  · rw [Function.update_of_ne hτ, Function.update_of_ne hτ]
    cases τ with
    | driver d =>
      simp only [credit?, Array.getElem?_push]
      rw [if_neg fun h => hτ (congrArg _ h)]
    | _ => rfl

theorem not_known_driver (w : World) : ¬w.Known (.driver w.drivers.size) := by
  simp [Known, credit?]

theorem not_known_entry {s : Subject Outlet} (hs : w.subjects[n]? = some s) :
    ¬w.Known (.subject n s.entries.size) := by
  simp [Known, credit?, hs]

end World

namespace Machine

variable {m m' : Machine} {i j n : Nat} {rest : List Frame} {dest : Outlet} {f : Frame}
  {source : Source} {failed : Prop}

theorem told_handOver {w : World} {τ : Tap} (hf : w.spent? f = none) :
    Told ⟨w, f :: rest, .calling (handOver dest τ)⟩ i := by
  refine told_calling (by simp [handOver]) ?_
  rintro g ⟨⟩
  exact World.not_serves hf

theorem Rationed.subscribed {w' : World} {τ₁ : Tap} (h : m.Rationed failed i) (hl : m.Leaves i rest)
    (hnew : ¬m.world.Known τ₁) (hseq : ∀ k, τ₁ = .sequence k → w'.Read k)
    (hu : w'.credit? =
      Function.update m.world.credit? τ₁ (some ⟨some dest.subscriber, 0⟩))
    (hsubs : w'.subscribers = m.world.subscribers) (hread : ∀ k, m.world.Read k → w'.Read k)
    (hdriver : ∀ d, τ₁ = .driver d → .driver d .delivering ∉ rest) (hf : ¬f.Guarded i)
    (hsp : w'.spent? f = none) (hc : ∀ τ, m.world.loads i τ rest ≤ m.carried i τ) :
    Rationed ⟨w', f :: rest, .calling (handOver dest τ₁)⟩ failed i := by
  have ht : m.world.SetsCredit rest τ₁ ⟨some dest.subscriber, 0⟩ w' :=
    { credit := hu
      subscribers := hsubs
      read := hread
      holder := fun hk => absurd hk hnew
      unread := fun k _ hk hn => absurd (hseq k hk) hn
      fresh := fun _ => Nat.zero_le _
      polling := fun _ _ _ hk => absurd hk hnew
      delivering := fun d hd hm => absurd hm (hdriver d hd) }
  have hknown : w'.Known τ₁ := by
    have hplace : (w'.credit? τ₁).isSome := by simp [hu]
    cases τ₁ with
    | sequence k => exact hseq k rfl
    | subject k e => exact hplace
    | driver d => exact hplace
    | _ => trivial
  have hoffers : Offers ⟨w', f :: rest, .calling (handOver dest τ₁)⟩ i := by
    intro hj
    refine ⟨hknown, ?_⟩
    rw [World.holder?_update hu, if_pos rfl]
    simpa using hj
  have hleft : ∀ g ∈ some f, ¬g.Guarded i ∧
      w'.spent? g = (none : Option Nat).map fun j => (τ₁, j) := by
    rintro g ⟨⟩
    exact ⟨hf, hsp⟩
  refine h.setsCredit hl ht rfl hleft (by simp) hoffers (told_handOver hsp) (by simp [handOver])
    (by simp) 0 (fun τ => by simpa using hc τ) fun _ => ?_
  have hzero : Credit.share ⟨some dest.subscriber, 0⟩ i = 0 := ite_self 0
  rw [hzero]
  exact Nat.zero_le _

theorem Rationed.put_off {w' : World} (h : m.Rationed failed i) (hl : m.Leaves i rest)
    (hu : w'.credit? = m.world.credit?) (hsubs : w'.subscribers = m.world.subscribers)
    (hread : ∀ k, m.world.Read k → w'.Read k) (hf : ¬f.Guarded i) (hsp : w'.spent? f = none)
    (hc : ∀ τ, m.world.loads i τ rest ≤ m.carried i τ) :
    Rationed ⟨w', f :: rest, .calling (handOver dest .inert)⟩ failed i := by
  have hlink (k : Nat) : w'.link? k = m.world.link? k := by rw [World.link?, hsubs, World.link?]
  have hallow : w'.allowance i = m.world.allowance i := by
    rw [World.allowance, hsubs, World.allowance]
  refine h.steady (g := some f) hl hu hread (fun k link _ hk => .inl (hlink k ▸ hk))
    (fun link hk => hlink i ▸ hk) hallow.ge rfl ?_ (fun _ => ⟨trivial, by simp [World.holder?,
      World.credit?]⟩) (told_handOver hsp) (by simp [handOver]) (by simp) hc
  intro g hg
  obtain rfl := Option.some.inj hg
  exact ⟨hf, hsp⟩

theorem Rationed.subscribe_subject (h : m.Rationed failed i)
    (hc : m.control = .calling (.subscribe source j)) :
    (m.enterSubject n (.subscribe dest)).Rationed failed i := by
  have hl := h.leaves_calling hc (by simp)
  have hload := loads_le_calling (i := i) hc
  unfold enterSubject
  split
  · next s hs =>
    simp only [Subject.enter, Subject.onSubscribe]
    split
    · exact h.put_off hl (World.credit?_setSubject hs rfl) rfl (fun _ => id) id rfl hload
    · have hu := World.credit?_pushEntry dest
        (t := { s with
          entries := s.entries.push ⟨some dest, .zero⟩
          registered := s.registered ++ [s.entries.size] }) hs rfl
      exact h.subscribed hl (World.not_known_entry hs) (by simp) hu rfl (fun _ => id) (by simp) id
        rfl hload
  · exact h.keepsCredit hl (answer_keepsCredit m _) hload

theorem Rationed.subscribe_stream {k : Nat} {pace : Driver.Pace} (h : m.Rationed failed i)
    (hm : m.Sound) (hc : m.control = .calling (.subscribe source j))
    (ho : source.origin = .stream k pace) : (m.subscribe source j).Rationed failed i := by
  have hl := h.leaves_calling hc (by simp)
  have hu := m.world.credit?_pushDriver { driver := { pace := pace }, stream := k }
    { pace := pace, subscriber := some ⟨source.audits, j⟩ }
  simp only [Machine.subscribe, ho, enterDriver, Array.getElem?_push_size]
  refine h.subscribed hl m.world.not_known_driver (by simp) hu rfl (fun _ => id) ?_ id rfl
    (loads_le_calling hc)
  rintro d he hd
  obtain ⟨x, hx, -⟩ := hm.delivering (hl.mem _ hd)
  obtain rfl := Tap.driver.inj he
  simp at hx

theorem Rationed.subscribe_manual {k : Nat} (h : m.Rationed failed i)
    (hc : m.control = .calling (.subscribe source j)) (ho : source.origin = .manual k) :
    (m.subscribe source j).Rationed failed i := by
  simp only [Machine.subscribe, ho]
  exact h.keepsCredit (h.leaves_calling hc (by simp)) (.answer ⟨rfl, rfl, fun _ => id⟩)
    (loads_le_calling hc)

theorem Rationed.attach (h : m.Rationed failed i) (hc : m.control = .calling (.attach source j)) :
    (m.call (.attaching j) (.subscribe source j)).Rationed failed i := by
  have ho := h.offers
  rw [Offers, hc] at ho
  refine h.steady (g := some (.attaching j)) (h.leaves_calling hc (by simp)) rfl (fun _ => id)
    (fun _ _ _ => .inl) (fun _ => id) (Nat.le_refl _) rfl ?_ ho ?_ (by simp [call]) (by simp [call])
    (loads_le_calling hc)
  · intro g hg
    obtain rfl := Option.some.inj hg
    exact ⟨id, rfl⟩
  · refine told_calling (by simp) ?_
    rintro g ⟨⟩
    exact World.not_serves rfl

/-- The iterator of sequence `n` is read for the first time, for the subscriber `dest`. The machine
was `m₀` when the subscription began. -/
inductive Opening (m₀ : Machine) (n : Nat) (dest : Outlet) : Machine → Prop
  | reads : Opening m₀ n dest
      ⟨m₀.world, .sequence n (.opening dest) :: m₀.stack, .calling (.advance n)⟩
  | read {w : World} {v : Option Value} (hw : m₀.world.KeepsCredit w)
      (hs : w.sequences = m₀.world.sequences) (hv : v ≠ none → w.Read n) :
      Opening m₀ n dest ⟨w, .sequence n (.opening dest) :: m₀.stack, .answering (.item v)⟩

def Opens (m : Machine) (failed : Prop) (i : Nat) : Prop :=
  ∃ m₀ source j n q, m₀.Rationed failed i ∧ m₀.control = .calling (.subscribe source j) ∧
    source.origin = .sequence n ∧ m₀.world.sequences[n]? = some q ∧
    Opening m₀ n ⟨source.audits, j⟩ m

theorem Rationed.subscribe_sequence (h : m.Rationed failed i)
    (hc : m.control = .calling (.subscribe source j)) (ho : source.origin = .sequence n) :
    (m.subscribe source j).Rationed failed i ∨ (m.subscribe source j).Opens failed i := by
  simp only [Machine.subscribe, ho, enterSequence]
  cases hq : m.world.sequences[n]? with
  | none =>
    exact .inl (h.keepsCredit (h.leaves_calling hc (by simp)) (answer_keepsCredit m _)
      (loads_le_calling hc))
  | some q =>
    have hsame : m.world.setSequence n q = m.world := by
      rw [World.setSequence, setIfInBounds_same hq]
    have hreads : m.sequenceSection n (q.enter (.subscribe ⟨source.audits, j⟩)) =
        ⟨m.world, .sequence n (.opening ⟨source.audits, j⟩) :: m.stack, .calling (.advance n)⟩ :=
      congrArg (Machine.mk · _ _) hsame
    refine .inr ⟨m, source, j, n, q, h, hc, ho, hq, ?_⟩
    dsimp only
    rw [hreads]
    exact .reads

theorem Opening.advance {m₀ : Machine} : Opening m₀ n dest
    (Machine.advance
      ⟨m₀.world, .sequence n (.opening dest) :: m₀.stack, .calling (.advance n)⟩ n) := by
  unfold Machine.advance
  split
  · next feed _ =>
    exact .read ⟨rfl, rfl, fun _ h => Array.mem_push_of_mem _ h⟩ rfl fun _ =>
      ⟨feed.next.1, Array.mem_push_self⟩
  · exact .read (.refl _) rfl (absurd rfl)

theorem Rationed.opened_sequence {m₀ : Machine} {w : World} {v : Option Value}
    {q : Sequence Outlet} (dest : Outlet) (h : m₀.Rationed failed i)
    (hc : m₀.control = .calling (.subscribe source dest.subscriber))
    (ho : source.origin = .sequence n) (hq : m₀.world.sequences[n]? = some q)
    (hw : m₀.world.KeepsCredit w) (hs : w.sequences = m₀.world.sequences) (hv : v ≠ none → w.Read n)
    (k : Control) :
    (proceedSequence ⟨w, m₀.stack, k⟩ n (.opening dest) (.item v)).Rationed failed i := by
  have hl := h.leaves_calling hc (by simp)
  have hload := loads_le_calling (i := i) hc
  have hoffers := h.offers
  rw [Offers, hc] at hoffers
  have hnew : ¬m₀.world.Read n := hoffers n ho
  have hq' : w.sequences[n]? = some q := hs ▸ hq
  simp only [proceedSequence, hq', Sequence.proceed, Reply.item?]
  cases v with
  | some v =>
    have hzero : q.demand.tally = 0 :=
      (World.units_of_eq (World.credit?_sequence hq)).symm.trans (h.fresh n hnew).2
    let q' : Sequence Outlet := { q with subscriber := some dest, ahead := some v }
    have hcredit : q'.credit = ⟨some dest.subscriber, 0⟩ := congrArg (Credit.mk _) hzero
    have hu := World.credit?_setSequence hq' q'
    rw [hw.credit, hcredit] at hu
    refine h.subscribed hl hnew (fun k hk => ?_) hu hw.subscribers hw.read (by simp) id rfl hload
    obtain rfl := Tap.sequence.inj hk
    exact hv (by simp)
  | none =>
    have hsame : w.setSequence n q = w := by rw [World.setSequence, setIfInBounds_same hq']
    simp only [Sequence.onOpened, sequenceSection, move, hsame]
    exact h.put_off hl hw.credit hw.subscribers hw.read id rfl hload

theorem Opens.step (h : m.Opens failed i) : m.step.Rationed failed i ∨ m.step.Opens failed i := by
  obtain ⟨m₀, source, j, n, q, h₀, hc, ho, hq, hm⟩ := h
  cases hm with
  | reads => exact .inr ⟨m₀, source, j, n, q, h₀, hc, ho, hq, .advance⟩
  | read hw hs hv =>
    exact .inl (h₀.opened_sequence ⟨source.audits, j⟩ hc ho hq hw hs hv _)

theorem Opens.not_idle (h : m.Opens failed i) : ¬m.Idle := by
  obtain ⟨m₀, source, j, n, q, -, -, -, -, hm⟩ := h
  rintro ⟨o, ho⟩
  cases hm <;> cases ho

theorem Opens.deciding_le (h : m.Opens failed i) : m.stack.countP (isDeciding i) ≤ 1 := by
  obtain ⟨m₀, source, j, n, q, h₀, -, -, -, hm⟩ := h
  have hle := h₀.deciding_le
  cases hm <;> rwa [List.countP_cons_of_neg (by simp [isDeciding])]

theorem Opens.not_told {msg : Message Link} (h : m.Opens failed i) :
    m.control ≠ .calling (.tell j msg) := by
  obtain ⟨m₀, source, j, n, q, -, -, -, -, hm⟩ := h
  cases hm <;> simp

theorem Rationed.subscribe (h : m.Rationed failed i) (hm : m.Sound)
    (hc : m.control = .calling (.subscribe source j)) :
    (m.subscribe source j).Rationed failed i ∨ (m.subscribe source j).Opens failed i := by
  cases ho : source.origin with
  | sequence n => exact h.subscribe_sequence hc ho
  | subject n =>
    simp only [Machine.subscribe, ho]
    exact .inl (h.subscribe_subject hc)
  | manual n => exact .inl (h.subscribe_manual hc ho)
  | stream n pace => exact .inl (h.subscribe_stream hm hc ho)

end Machine
end Sluice
