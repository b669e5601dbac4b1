import Sluice.Proofs.Ticking.Pace

/-!
# How a ticker ends

A ticker ends if it was aborted, if a tick found its subscriber terminated, or if a
panic came out of the resume that it called. Nothing else ends it.
-/

namespace Sluice

namespace Ticker

variable {s : Ticker}

theorem awaitTick_phase (s : Ticker) (due now : Nat) :
    (s.awaitTick due now).1.phase ≠ .ended := by
  unfold awaitTick
  split <;> exact Phase.noConfusion

/-- Two states of one ticker with nothing but sections of its task between them. -/
structure Kin (s s' : Ticker) : Prop where
  subscriber : s'.subscriber = s.subscriber
  period : s'.period = s.period
  aborted : s'.aborted = s.aborted

theorem awaitTick_kin (s : Ticker) (due now : Nat) : s.Kin (s.awaitTick due now).1 := by
  unfold awaitTick
  split <;> exact ⟨rfl, rfl, rfl⟩

theorem run_kin (s : Ticker) (now : Nat) : s.Kin (s.enter (.run now)).1 := by
  simp only [enter]
  split
  · exact ⟨rfl, rfl, rfl⟩
  · split
    · split
      · exact ⟨rfl, rfl, rfl⟩
      · exact s.awaitTick_kin _ now
    · exact s.awaitTick_kin _ now
    · exact ⟨rfl, rfl, rfl⟩

theorem proceed_kin (s : Ticker) (r : Reply) (f : Frame) : s.Kin (s.proceed r f).1 := by
  cases f with
  | timing | waking => exact ⟨rfl, rfl, rfl⟩
  | inspecting now =>
    simp only [proceed]
    split <;> exact ⟨rfl, rfl, rfl⟩
  | resuming now =>
    simp only [proceed]
    split
    · split
      · exact s.awaitTick_kin _ now
      · exact ⟨rfl, rfl, rfl⟩
    · exact ⟨rfl, rfl, rfl⟩

theorem run_ended {now : Nat} (h : (s.enter (.run now)).1.phase = .ended) :
    s.aborted = true ∨ s.phase = .ended := by
  simp only [enter] at h
  split at h
  · rename_i ha
    exact .inl ha
  · right
    split at h
    · split at h
      · exact h
      · exact absurd h (s.awaitTick_phase _ now)
    · exact absurd h (s.awaitTick_phase _ now)
    · assumption

theorem proceed_ended {r : Reply} {f : Frame} (h : (s.proceed r f).1.phase = .ended) :
    s.phase = .ended ∨ (∃ now, f = .inspecting now ∧ r.holds = true) ∨
      ∃ now, f = .resuming now ∧ (r.holds = true → s.phase = .unstarted) := by
  cases f with
  | timing | waking => exact .inl h
  | inspecting now =>
    simp only [proceed] at h
    split at h
    · rename_i hr
      exact .inr (.inl ⟨now, rfl, hr⟩)
    · exact .inl h
  | resuming now =>
    simp only [proceed] at h
    split at h
    · split at h
      · exact absurd h (s.awaitTick_phase _ now)
      · rename_i hw
        cases hp : s.phase with
        | waiting due => exact absurd hp (hw due)
        | unstarted => exact .inr (.inr ⟨now, rfl, fun _ => rfl⟩)
        | ended => exact .inl rfl
    · rename_i hr
      exact .inr (.inr ⟨now, rfl, fun h => absurd h hr⟩)

end Ticker

namespace Machine

def ticks (i : Nat) (m : Machine) : Bool :=
  match m.control, m.stack with
  | .calling (.inspect _), .ticker j (.inspecting _) :: _ => j == i
  | _, _ => false

def aborts (i : Nat) (m : Machine) : Bool :=
  match m.control with
  | .calling (.abort j) => j == i
  | _ => false

def interrupts (i : Nat) (m : Machine) : Bool :=
  match m.control, m.stack with
  | .unwinding _, .ticker j (.resuming _) :: _ => j == i
  | _, _ => false

/-- What ends ticker `i`, which resumes subscriber `s`. -/
def Dooms (i s : Nat) (m : Machine) : Prop :=
  m.aborts i = true ∨ m.ticks i = true ∧ m.terminated s = true ∨ m.interrupts i = true

inductive Doomed (i : Nat) (m : Machine) : Prop
  | found {now : Nat} {rest : List Frame} (hs : m.stack = .ticker i (.inspecting now) :: rest)
      (hc : m.control = .answering (.flag true))
  | broken {t : Nat} {rest : List Frame} {why : Panic} (hs : m.stack = .task t :: rest)
      (hj : m.world.schedule.job? t = some (.ticker i)) (hc : m.control = .unwinding why)

inductive Becomes (i : Nat) (m : Machine) (x : Ticker) : Ticker → Prop
  | same : Becomes i m x x
  | runs (now : Nat) : Becomes i m x (x.enter (.run now)).1
  | aborted (h : m.aborts i = true) : Becomes i m x { x with aborted := true }
  | replied {r : Reply} {f : Ticker.Frame} {rest : List Frame} (hc : m.control = .answering r)
      (hs : m.stack = .ticker i f :: rest) : Becomes i m x (x.proceed r f).1
  | finished (h : x.phase = .ended ∨ m.Doomed i) : Becomes i m x x.finish.1

variable {m m' : Machine} {rest : List Frame} {i s t : Nat} {x x' : TickerTask} {ms : List Machine}

theorem Deed.becomes (hd : Deed m m') (ho : m.Regular) (hx : m.world.tickers[i]? = some x) :
    ∃ x', m'.world.tickers[i]? = some x' ∧ x'.task = x.task ∧ Becomes i m x.ticker x'.ticker := by
  have kept (ht : m'.world.tickers = m.world.tickers) :
      ∃ x', m'.world.tickers[i]? = some x' ∧ x'.task = x.task ∧ Becomes i m x.ticker x'.ticker :=
    ⟨x, ht ▸ hx, rfl, .same⟩
  have set {w : World} {j : Nat} {y : Ticker} (hw : w.tickers = m.world.tickers)
      (hw' : m'.world = w.setTicker j y) (hy : j = i → Becomes i m x.ticker y) :
      ∃ x', m'.world.tickers[i]? = some x' ∧ x'.task = x.task ∧
        Becomes i m x.ticker x'.ticker := by
    rw [hw', World.getElem?_setTicker, hw, hx]
    refine ⟨_, rfl, ?_⟩
    split
    · rename_i hj
      exact ⟨rfl, hy hj⟩
    · exact ⟨rfl, .same⟩
  have self {j : Nat} {y : TickerTask} (hy : m.world.tickers[j]? = some y) (hj : j = i) :
      y = x := by
    subst hj
    exact Option.some.inj (hy.symm.trans hx)
  cases hd with
  | keepsTickers _ _ ht => exact kept ht.keeps.tickers
  | added _ s p =>
    refine ⟨x, ?_, rfl, .same⟩
    rw [World.getElem?_addTicker, if_neg, hx]
    exact Nat.ne_of_lt (lt_size_of_getElem? hx)
  | runs hc hj hy hf =>
    refine set rfl (tickerSection_world ..) fun hj => ?_
    obtain rfl := self hy hj
    exact .runs _
  | @aborts j y hc hy hf =>
    refine set rfl (tickerSection_world ..) fun hj => ?_
    obtain rfl := self hy hj
    exact .aborted (by simp [Machine.aborts, hc, hj])
  | serves _ _ _ hw => exact kept hw.tickers
  | fails | inspects | resumes | returns | rebounds | breaks => exact kept rfl
  | replies hc hs hy =>
    refine set rfl (tickerSection_world ..) fun hj => ?_
    obtain rfl := self hy hj
    exact .replied hc (hj ▸ hs)
  | @stops u j p rest hc hs hj hp =>
    cases p with
    | ended =>
      obtain ⟨y, hy, -⟩ := (ho.staffed.job u j).mp hj
      refine set (w := { m.world with schedule := m.world.schedule.stop u .ended }) rfl
        (endTask_ticker hj hy) fun hji => ?_
      obtain rfl := self hy hji
      obtain ⟨z, hz, hph⟩ := hp rfl
      obtain rfl := self hz hji
      exact .finished (.inl hph)
    | waiting | yielded => exact kept rfl
  | @ends u j rest why hc hs hj =>
    obtain ⟨y, hy, -⟩ := (ho.staffed.job u j).mp hj
    refine set (w := { m.world with schedule := m.world.schedule.stop u .ended }) rfl
      (endTask_ticker hj hy) fun hji => ?_
    obtain rfl := self hy hji
    exact .finished (.inr (.broken hs (hji ▸ hj) hc))

theorem Becomes.settings {y : Ticker} (h : Becomes i m x.ticker y) :
    y.subscriber = x.ticker.subscriber ∧ y.period = x.ticker.period := by
  cases h with
  | same | aborted | finished => exact ⟨rfl, rfl⟩
  | runs now => exact ⟨(Ticker.run_kin _ now).subscriber, (Ticker.run_kin _ now).period⟩
  | replied => exact ⟨(Ticker.proceed_kin _ _ _).subscriber, (Ticker.proceed_kin _ _ _).period⟩

theorem Becomes.aborts {y : Ticker} (h : Becomes i m x.ticker y) (hy : y.aborted = true) :
    x.ticker.aborted = true ∨ m.aborts i = true := by
  cases h with
  | same => exact .inl hy
  | runs now => exact .inl ((Ticker.run_kin _ now).aborted.symm.trans hy)
  | aborted ha => exact .inr ha
  | replied => exact .inl ((Ticker.proceed_kin _ _ _).aborted.symm.trans hy)
  | finished => exact .inl hy

theorem Becomes.ends {y : Ticker} (h : Becomes i m x.ticker y) (ho : m.Regular)
    (hx : m.world.tickers[i]? = some x) (hy : y.phase = .ended) :
    x.ticker.phase = .ended ∨ x.ticker.aborted = true ∨ m.Doomed i := by
  cases h with
  | same | aborted => exact .inl hy
  | runs now => exact (Ticker.run_ended hy).symm.imp_right .inl
  | @replied r f rest hc hs =>
    have hfits := ho.fits
    rw [hc, hs] at hfits
    rcases Ticker.proceed_ended hy with he | ⟨now, rfl, hr⟩ | ⟨now, rfl, hr⟩
    · exact .inl he
    · cases hfits.1 with
      | free _ hf => exact False.elim hf
      | inspected _ _ b =>
        obtain rfl : b = true := hr
        exact .inr (.inr (.found hs hc))
    · cases hfits.1 with
      | free _ hf => exact False.elim hf
      | resumed hm =>
        obtain ⟨z, hz, -, hph⟩ := hm
        obtain rfl := Option.some.inj (hx.symm.trans hz)
        exact absurd (hr rfl) hph
  | finished h => exact h.imp_right .inr

theorem dooms_found {now : Nat} (hx : m.world.tickers[i]? = some x)
    (hc : m.control = .calling (.inspect s)) (hs : m.stack = .ticker i (.inspecting now) :: rest)
    (hm : m.world.Begun i s) (ht : m.terminated s = true) : Dooms i x.ticker.subscriber m := by
  obtain ⟨y, hy, rfl, -⟩ := hm
  obtain rfl := Option.some.inj (hx.symm.trans hy)
  exact .inr (.inl ⟨by simp [ticks, hc, hs], ht⟩)

theorem Regular.dooms_broken {j u : Nat} {f : Ticker.Frame} {why : Panic} (ho : m.Regular)
    (hx : m.world.tickers[i]? = some x) (hp : 0 < x.ticker.period)
    (hc : m.control = .unwinding why) (hs : m.stack = .ticker j f :: .task u :: rest)
    (hj : m.world.schedule.job? u = some (.ticker i)) : Dooms i x.ticker.subscriber m := by
  -- A section panics only on a period of zero, so this panic came out of a resume.
  have hfits := ho.fits
  rw [hc, hs] at hfits
  have hji {g : Ticker.Frame} (hg : g ≠ .waking)
      (h : m.world.Fits (.frame (.ticker j g)) (.task u :: rest)) : j = i := by
    obtain ⟨v, _, hv, hvj, -⟩ := h.task hg
    cases hv
    cases hvj.symm.trans hj
    rfl
  cases hfits.1 with
  | free _ hf => exact False.elim hf
  | failed hm =>
    obtain rfl := hji Ticker.Frame.noConfusion hfits.2
    obtain ⟨y, hy, hp'⟩ := hm
    obtain rfl := Option.some.inj (hx.symm.trans hy)
    omega
  | broken hm now =>
    obtain rfl := hji Ticker.Frame.noConfusion hfits.2
    exact .inr (.inr (by simp [interrupts, hc, hs]))

/-- Before a ticker ends, a tick found its subscriber terminated or its resume panicked. -/
theorem Deed.doomed (hd : Deed m m') (ho : m.Regular) (hx : m.world.tickers[i]? = some x)
    (hp : 0 < x.ticker.period) (h : m'.Doomed i) : Dooms i x.ticker.subscriber m := by
  cases hd with
  | keepsTickers _ hf ht =>
    have hfree := ht.head hf
    cases h with
    | found hs hc => exact False.elim (hfree (.ticker i (.inspecting _)) (by rw [hs]; rfl))
    | broken hs hj hc =>
      obtain ⟨d, hd⟩ := hfree (.task _) (by rw [hs]; rfl)
      cases hj.symm.trans hd
  | added hm s p =>
    obtain ⟨o, hi⟩ := hm
    cases h with
    | found _ hc | broken _ _ hc => cases hi.symm.trans hc
  | runs hc hj hy hf =>
    cases h with
    | found hs hc => exact absurd (tickerSection_answers hc) ((Ticker.run_goes _ _).answer_ne true)
    | broken hs hj hc => exact False.elim (tickerSection_unwinds hc)
  | aborts => cases h with
    | found _ hc | broken _ _ hc => cases hc
  | serves => cases h with
    | found _ hc | broken _ _ hc => cases hc
  | fails hs hm why =>
    cases h with
    | found _ hc => cases hc
    | broken hs' _ _ => cases hs.symm.trans hs'
  | inspects hc hs hm =>
    cases h with
    | broken _ _ hc => cases hc
    | found hs' hc' =>
      cases hs.symm.trans hs'
      exact dooms_found hx hc hs hm (Reply.flag.inj (Control.answering.inj hc'))
  | resumes => cases h with
    | found _ hc | broken _ _ hc => cases hc
  | returns hs hm => cases h with
    | found hs' _ => cases hs'
    | broken _ _ hc => cases hc
  | rebounds hc hs hm => cases h with
    | found _ hc => cases hc
    | broken hs' _ _ => cases hs'
  | @replies j f r rest y hc hs hy =>
    cases h with
    | found hs' hc' =>
      by_cases hf : f = .waking
      · subst hf
        cases hc'
      · exact absurd (tickerSection_answers hc') ((ho.goes hc hs hy hf).answer_ne true)
    | broken hs' hj hc' => exact False.elim (tickerSection_unwinds hc')
  | @breaks j f rest why hc hs =>
    cases h with
    | found _ hc => cases hc
    | broken hs' hj _ => exact ho.dooms_broken hx hp hc (hs.trans (congrArg _ hs')) hj
  | stops => cases h with
    | found _ hc | broken _ _ hc => cases hc
  | ends => cases h with
    | found _ hc | broken _ _ hc => cases hc

structure Fated (i : Nat) (ms : List Machine) (m : Machine) (x : Ticker) : Prop where
  aborted : x.aborted = true → ∃ y ∈ ms, y.aborts i = true
  ended : x.phase = .ended → ∃ y ∈ ms, y.Dooms i x.subscriber
  doomed : m.Doomed i → ∃ y ∈ ms, y.Dooms i x.subscriber

theorem Deed.born (hd : Deed m m') (ho : m.Regular) (hx : m.world.tickers[i]? = none)
    (hx' : m'.world.tickers[i]? = some x') : x'.ticker.phase = .unstarted ∧
      x'.ticker.aborted = false ∧ m'.Idle := by
  have kept (ht : m'.world.tickers = m.world.tickers) : False := by
    rw [ht, hx] at hx'
    cases hx'
  have set {w : World} {j : Nat} {y : Ticker} (hw : w.tickers = m.world.tickers)
      (hw' : m'.world = w.setTicker j y) : False := by
    rw [hw', World.getElem?_setTicker, hw, hx] at hx'
    cases hx'
  have ended {u j : Nat} (hj : m.world.schedule.job? u = some (.ticker j))
      (hw' : m'.world = endTask m.world u) : False := by
    obtain ⟨y, hy, -⟩ := (ho.staffed.job u j).mp hj
    rw [endTask_ticker hj hy] at hw'
    exact set (w := { m.world with schedule := m.world.schedule.stop u .ended }) rfl hw'
  cases hd with
  | keepsTickers _ _ ht => exact (kept ht.keeps.tickers).elim
  | added hm s p =>
    rw [World.getElem?_addTicker] at hx'
    split at hx'
    · cases hx'
      exact ⟨rfl, rfl, hm⟩
    · cases hx.symm.trans hx'
  | runs | aborts | replies => exact (set rfl (tickerSection_world ..)).elim
  | serves _ _ _ hw => exact (kept hw.tickers).elim
  | fails | inspects | resumes | returns | rebounds | breaks => exact (kept rfl).elim
  | @stops u j p rest hc hs hj hp =>
    cases p with
    | ended => exact (ended hj rfl).elim
    | waiting | yielded => exact (kept rfl).elim
  | ends hc hs hj => exact (ended hj rfl).elim

theorem Fated.next {y : Ticker} (h : Fated i ms m x.ticker) (ho : m.Regular) (hd : Deed m m')
    (hx : m.world.tickers[i]? = some x) (hp : 0 < x.ticker.period)
    (hb : Becomes i m x.ticker y) : Fated i (ms ++ [m]) m' y := by
  have before {P : Machine → Prop} (h : ∃ z ∈ ms, P z) : ∃ z ∈ ms ++ [m], P z := by
    obtain ⟨z, hz, hP⟩ := h
    exact ⟨z, List.mem_append_left _ hz, hP⟩
  have now {P : Machine → Prop} (h : P m) : ∃ z ∈ ms ++ [m], P z :=
    ⟨m, List.mem_append_right _ List.mem_cons_self, h⟩
  refine ⟨fun ha => ?_, fun he => ?_, fun hm => ?_⟩
  · rcases hb.aborts ha with ha | ha
    · exact before (h.aborted ha)
    · exact now ha
  · rw [hb.settings.1]
    rcases hb.ends ho hx he with he | ha | hm
    · exact before (h.ended he)
    · obtain ⟨z, hz, ha⟩ := h.aborted ha
      exact before ⟨z, hz, .inl ha⟩
    · exact before (h.doomed hm)
  · rw [hb.settings.1]
    exact now (hd.doomed ho hx hp hm)

theorem Trail.fated (h : Trail {} ms m) (hx : m.world.tickers[i]? = some x)
    (hp : 0 < x.ticker.period) : Fated i ms m x.ticker := by
  induction h generalizing x with
  | nil => cases hx
  | @next ms m m' h hn ih =>
    have ho := h.regular
    have hd := ho.deed hn
    cases hm : m.world.tickers[i]? with
    | none =>
      obtain ⟨hph, hab, o, hidle⟩ := hd.born ho hm hx
      refine ⟨fun ha => ?_, fun he => ?_, fun hdoom => ?_⟩
      · cases hab.symm.trans ha
      · cases hph.symm.trans he
      · cases hdoom with
        | found _ hc | broken _ _ hc => cases hidle.symm.trans hc
    | some y =>
      obtain ⟨x', hx', -, hb⟩ := hd.becomes ho hm
      obtain rfl := Option.some.inj (hx.symm.trans hx')
      have hp' : 0 < y.ticker.period := hb.settings.2 ▸ hp
      exact (ih hm hp').next ho hd hm hp' hb

end Machine
end Sluice
