import Sluice.Proofs.Ticking.Order

/-!
# The pace of a ticker

The first tick of a ticker is due one period after its task first ran, and no tick
less than a period after the one before it was due. So the ticks that have come by a
time are no more than the periods that have passed, and each resume takes a tick.
-/

namespace Sluice

namespace Ticker

theorem le_nextDue {due now p : Nat} (h : due ≤ now) :
    due + p ≤ nextDue due now p := by
  unfold nextDue
  split
  · have hmod := Nat.mod_le (now - due) p
    omega
  · exact Nat.le_refl _

/-- By the time `t` the ticker, which first ran at `first`, has had `c` of its ticks. -/
def Phase.Paced (p t c : Nat) (first : Option Nat) : Phase → Prop
  | unstarted => first = none ∧ c = 0
  | waiting due => ∃ t₀, first = some t₀ ∧ t₀ + (c + 1) * p ≤ due ∧ t₀ + c * p ≤ t
  | ended => c = 0 ∨ ∃ t₀, first = some t₀ ∧ t₀ + c * p ≤ t

def Frame.owed : Frame → Nat
  | inspecting _ => 1
  | _ => 0

def ticked : Move Out Frame → Nat
  | .call (.inspect _) _ | .call (.resume _) _ => 1
  | _ => 0

variable {s : Ticker} {p t c now t₀ due : Nat} {first : Option Nat}

theorem Phase.Paced.fewer {f : Phase} (h : f.Paced p t c first) {c' : Nat} (hc : c' ≤ c) :
    f.Paced p t c' first := by
  have hmul := Nat.mul_le_mul_right p hc
  cases f with
  | unstarted => exact ⟨h.1, by have := h.2; omega⟩
  | waiting due =>
    obtain ⟨t₀, h₀, hd, ht⟩ := h
    refine ⟨t₀, h₀, ?_, by omega⟩
    rw [Nat.add_mul] at hd ⊢
    omega
  | ended =>
    rcases h with h | ⟨t₀, h₀, ht⟩
    · exact .inl (by omega)
    · exact .inr ⟨t₀, h₀, by omega⟩

theorem Phase.Paced.finish {f : Phase} (h : f.Paced p t c first) :
    Phase.ended.Paced p t c first := by
  cases f with
  | unstarted => exact .inl h.2
  | waiting due =>
    obtain ⟨t₀, h₀, -, ht⟩ := h
    exact .inr ⟨t₀, h₀, ht⟩
  | ended => exact h

theorem Phase.Paced.none {f : Phase} (h : f.Paced p t c none) : c = 0 := by
  cases f with
  | unstarted => exact h.2
  | waiting due =>
    obtain ⟨t₀, h₀, -⟩ := h
    cases h₀
  | ended =>
    rcases h with h | ⟨t₀, h₀, -⟩
    · exact h
    · cases h₀

theorem Phase.Paced.le_div {f : Phase} (h : f.Paced p t c (some t₀)) (hp : 0 < p) :
    c ≤ (t - t₀) / p := by
  rw [Nat.le_div_iff_mul_le hp]
  rcases h.finish with rfl | ⟨t₁, h₁, ht⟩
  · omega
  · cases h₁
    omega

theorem awaitTick_paced (hd : t₀ + (c + 1) * s.period ≤ due) (ht : t₀ + c * s.period ≤ t)
    (hnow : now ≤ t) : (s.awaitTick due now).1.phase.Paced s.period t
      (c + ticked (s.awaitTick due now).2) (some t₀) := by
  unfold awaitTick
  split
  · rename_i hdue
    have hnext := le_nextDue (p := s.period) hdue
    refine ⟨t₀, rfl, ?_, ?_⟩
    · rw [Nat.add_mul] at hd ⊢
      simp only [ticked] at hd ⊢
      rw [Nat.add_mul]
      omega
    · exact (hd.trans hdue).trans hnow
  · exact ⟨t₀, rfl, hd, ht⟩

theorem run_paced (h : s.phase.Paced s.period t c first) (hp : 0 < s.period) (hnow : now ≤ t) :
    (s.enter (.run now)).1.phase.Paced s.period t (c + ticked (s.enter (.run now)).2)
      (first.or (some now)) := by
  have hend : Phase.ended.Paced s.period t c (first.or (some now)) := by
    rcases h.finish with rfl | ⟨t₀, rfl, ht⟩
    · exact .inl rfl
    · exact .inr ⟨t₀, rfl, ht⟩
  simp only [enter]
  split
  · exact hend
  · split
    · rename_i hph
      rw [hph] at h
      obtain ⟨rfl, rfl⟩ := h
      rw [if_neg (by omega)]
      exact awaitTick_paced (by omega) (by omega) hnow
    · rename_i due hph
      rw [hph] at h
      obtain ⟨t₀, rfl, hd, ht⟩ := h
      exact awaitTick_paced hd ht hnow
    · exact hend

theorem proceed_paced {f : Frame} (r : Reply) (h : s.phase.Paced s.period t (c + f.owed) first)
    (hnow : f.stamp ≤ t) :
    (s.proceed r f).1.phase.Paced s.period t (c + ticked (s.proceed r f).2) first := by
  have hend := (h.fewer (Nat.le_add_right c _)).finish
  cases f with
  | timing => exact h
  | waking => exact h
  | inspecting now =>
    simp only [proceed]
    split
    · exact hend
    · exact h
  | resuming now =>
    simp only [proceed]
    split
    · split
      · rename_i due hph
        rw [hph] at h
        obtain ⟨t₀, rfl, hd, ht⟩ := h
        exact awaitTick_paced hd ht hnow
      · exact hend
    · exact hend

end Ticker

def Frame.isTick (i : Nat) : Frame → Bool
  | .ticker j (.inspecting _) => j == i
  | _ => false

namespace Machine

def resumes (i : Nat) (m : Machine) : Bool :=
  match m.control, m.stack with
  | .calling (.resumeAlive _ _), .ticker j (.resuming _) :: _ => j == i
  | _, _ => false

def starts? (i : Nat) (m : Machine) : Option Nat :=
  match m.control with
  | .calling (.run t) =>
    match m.world.schedule.job? t with
    | some (.ticker j) => if j = i then some m.world.schedule.now else none
    | _ => none
  | _ => none

/-- The ticks of ticker `i` that have come and not been taken by a resume. -/
def owed (i : Nat) (m : Machine) : Nat := m.stack.countP (Frame.isTick i)

/-- By the time `t` ticker `i`, which first ran at `first`, has called `resume` `n` times and kept
to its pace. -/
def Paced (i t n : Nat) (first : Option Nat) (m : Machine) : Prop :=
  match m.world.tickers[i]? with
  | none => first = none ∧ n + m.owed i = 0
  | some x => 0 < x.ticker.period →
    x.ticker.phase.Paced x.ticker.period t (n + m.owed i) first

def Stamped (t : Nat) (m : Machine) : Prop :=
  ∀ i f, Frame.ticker i f ∈ m.stack → f.stamp ≤ t

variable {m m' : Machine} {w : World} {stack l : List Frame} {i j n t : Nat} {x : TickerTask}
  {first : Option Nat}

theorem paced_iff (hx : m.world.tickers[i]? = some x) : m.Paced i t n first ↔
    (0 < x.ticker.period →
      x.ticker.phase.Paced x.ticker.period t (n + m.owed i) first) := by
  unfold Paced
  rw [hx]

theorem Paced.of_same (h : m.Paced i t n first)
    (hx : m'.world.tickers[i]? = m.world.tickers[i]?) {n' : Nat}
    (hc : n' + m'.owed i ≤ n + m.owed i) : m'.Paced i t n' first := by
  unfold Paced at h ⊢
  rw [hx]
  split at h
  · exact ⟨h.1, by have := h.2; omega⟩
  · exact fun hp => (h hp).fewer hc

theorem Paced.added (h : m.Paced i t n first) (s p : Nat) :
    Paced i t n first { m with world := m.world.addTicker s p } := by
  unfold Paced at h ⊢
  dsimp only at h ⊢
  rw [World.getElem?_addTicker]
  by_cases hi : i = m.world.tickers.size
  · subst hi
    rw [if_pos rfl]
    rw [Array.getElem?_eq_none (Nat.le_refl _)] at h
    exact fun _ => h
  · rw [if_neg hi]
    exact h

theorem resumes_of_free (hf : m.world.Free m.stack) : m.resumes i = false := by
  unfold resumes
  split
  · rename_i hs
    exact False.elim (hf (.ticker _ (.resuming _)) (by rw [hs]; rfl))
  · rfl

theorem resumes_of_control (hc : ∀ s n, m.control ≠ .calling (.resumeAlive s n)) :
    m.resumes i = false := by
  unfold resumes
  split
  · rename_i hk _
    exact absurd hk (hc _ _)
  · rfl

theorem resumes_ne {f : Ticker.Frame} (hs : m.stack = .ticker j f :: l) (hj : j ≠ i) :
    m.resumes i = false := by
  unfold resumes
  rw [hs]
  split
  · rename_i h
    cases h
    simpa using hj
  · rfl

theorem owed_tail {f : Frame} (hs : m.stack = f :: l) :
    l.countP (Frame.isTick i) ≤ m.owed i := by
  rw [owed, hs, List.countP_cons]
  omega

theorem countP_offTickers {fs : List Frame} (hfs : ∀ f ∈ fs, w.OffTickers f) :
    fs.countP (Frame.isTick i) = 0 := by
  rw [List.countP_eq_zero]
  intro f hf ht
  cases f with
  | ticker j f => exact hfs _ hf
  | _ => cases ht

theorem countP_section (l : List Frame) (f : Ticker.Frame) :
    (Frame.ticker i f :: l).countP (Frame.isTick i) =
      l.countP (Frame.isTick i) + f.owed := by
  rw [List.countP_cons]
  cases f <;> simp [Frame.isTick, Ticker.Frame.owed]

theorem countP_section_ne (l : List Frame) (f : Ticker.Frame) (hj : j ≠ i) :
    (Frame.ticker j f :: l).countP (Frame.isTick i) = l.countP (Frame.isTick i) := by
  refine List.countP_cons_of_neg ?_
  cases f <;> simp [Frame.isTick, hj]

theorem section_self (hx : m.world.tickers[i]? = some x)
    (r : Ticker × Move Ticker.Out Ticker.Frame) :
    (m.tickerSection i r).world.tickers[i]? = some { x with ticker := r.1 } := by
  rw [tickerSection_world, World.setTicker_self hx]

theorem goes_owed {s : Ticker} {now : Nat} {r : Ticker × Move Ticker.Out Ticker.Frame}
    {k : Control} (hr : s.Goes now r) : let m' := tickerSection ⟨w, l, k⟩ i r
    (if m'.resumes i then 1 else 0) + m'.owed i =
      l.countP (Frame.isTick i) + Ticker.ticked r.2 := by
  cases hr with
  | pauses | ends => exact Nat.zero_add _
  | waits | ticks | fails => exact (Nat.zero_add _).trans (countP_section l _)
  | resumes =>
    have hres : (tickerSection ⟨w, l, k⟩ i (s, .call (.resume s.subscriber)
      (.resuming now))).resumes i = true := by simp [resumes, tickerSection, move, tickerCall]
    dsimp only
    rw [hres, if_pos rfl, Nat.add_comm]
    exact congrArg (· + 1) (countP_section l (.resuming now))

theorem section_other {r : Ticker × Move Ticker.Out Ticker.Frame} {k : Control} (hj : j ≠ i) :
    let m' := tickerSection ⟨w, l, k⟩ j r
    m'.resumes i = false ∧ m'.owed i = l.countP (Frame.isTick i) ∧
      m'.world.tickers[i]? = w.tickers[i]? := by
  obtain ⟨s, mv⟩ := r
  cases mv with
  | answer r =>
    exact ⟨resumes_of_control (fun _ _ h => by cases h), rfl, World.setTicker_ne hj⟩
  | call o f =>
    exact ⟨resumes_ne (l := l) rfl hj, countP_section_ne l f hj, World.setTicker_ne hj⟩

theorem Paced.other {r : Ticker × Move Ticker.Out Ticker.Frame} {k : Control}
    (h : m.Paced i t n first) (hs : l.countP (Frame.isTick i) ≤ m.owed i) (hj : j ≠ i) :
    let m' := tickerSection ⟨m.world, l, k⟩ j r
    m'.Paced i t (n + if m'.resumes i then 1 else 0) first := by
  obtain ⟨hres, howed, hx⟩ := section_other (r := r) (w := m.world) (l := l) (k := k) hj
  refine h.of_same hx ?_
  rw [hres, howed]
  simpa using hs

theorem Paced.goes {r : Ticker × Move Ticker.Out Ticker.Frame} {k : Control} {now : Nat}
    (hx : w.tickers[i]? = some x) (hr : x.ticker.Goes now r)
    (h : 0 < x.ticker.period → r.1.phase.Paced x.ticker.period t
      (n + l.countP (Frame.isTick i) + Ticker.ticked r.2) first) :
    let m' := tickerSection ⟨w, l, k⟩ i r
    m'.Paced i t (n + if m'.resumes i then 1 else 0) first := by
  have howed := goes_owed (w := w) (l := l) (i := i) (k := k) hr
  dsimp only at howed ⊢
  rw [paced_iff (section_self (m := ⟨w, l, k⟩) hx r)]
  dsimp only
  rw [hr.same.period, Nat.add_assoc, howed, ← Nat.add_assoc]
  exact h

theorem Paced.quiet (h : m.Paced i t n first) (hx : m'.world.tickers[i]? = m.world.tickers[i]?)
    (hr : m'.resumes i = false) (hs : m'.owed i ≤ m.owed i) :
    m'.Paced i t (n + if m'.resumes i then 1 else 0) first := by
  refine h.of_same hx ?_
  rw [hr]
  simpa using hs

theorem Paced.finished (h : m.Paced i t n first) (hx : m.world.tickers[j]? = some x)
    {sch : Schedule} {r : Reply} (hs : l.countP (Frame.isTick i) ≤ m.owed i) :
    Paced i t n first ⟨World.setTicker { m.world with schedule := sch } j x.ticker.finish.1, l,
      .answering r⟩ := by
  have hle := Nat.add_le_add_left hs n
  by_cases hj : j = i
  · subst hj
    rw [paced_iff (World.setTicker_self (w := { m.world with schedule := sch }) hx)]
    exact fun hp => (((paced_iff hx).mp h hp).fewer hle).finish
  · exact h.of_same (World.setTicker_ne (w := { m.world with schedule := sch }) hj) hle

theorem Paced.aborted (h : m.Paced i t n first) (hx : m.world.tickers[j]? = some x) :
    let m' := m.tickerSection j (x.ticker.enter .abort)
    m'.Paced i t (n + if m'.resumes i then 1 else 0) first := by
  -- To be aborted is no tick: the task finds out when it runs again.
  by_cases hj : j = i
  · subst hj
    have hr : (m.tickerSection j (x.ticker.enter .abort)).resumes j = false :=
      resumes_of_control fun _ _ hc => by cases hc
    dsimp only
    rw [hr, paced_iff (section_self hx _)]
    exact (paced_iff hx).mp h
  · exact h.other (l := m.stack) (Nat.le_refl _) hj

theorem Paced.replied {f : Ticker.Frame} {r : Reply} (h : m.Paced i t n first) (ho : m.Regular)
    (hst : m.Stamped t) (hc : m.control = .answering r) (hs : m.stack = .ticker i f :: l)
    (hx : m.world.tickers[i]? = some x) :
    let m' := tickerSection { m with stack := l } i (x.ticker.proceed r f)
    m'.Paced i t (n + if m'.resumes i then 1 else 0) first := by
  have hpaced (hp : 0 < x.ticker.period) : x.ticker.phase.Paced x.ticker.period t
      (n + l.countP (Frame.isTick i) + f.owed) first := by
    have howed : m.owed i = l.countP (Frame.isTick i) + f.owed := by
      rw [owed, hs, countP_section]
    rw [Nat.add_assoc, ← howed]
    exact (paced_iff hx).mp h hp
  by_cases hf : f = .waking
  · subst hf
    have hr : (tickerSection { m with stack := l } i (x.ticker.proceed r .waking)).resumes i =
        false := resumes_of_control fun _ _ hc => by cases hc
    dsimp only
    rw [hr, paced_iff (section_self (m := { m with stack := l }) hx _)]
    exact hpaced
  · have hstamp := hst i f (by rw [hs]; exact List.mem_cons_self)
    exact Paced.goes hx (ho.goes hc hs hx hf) fun hp =>
      Ticker.proceed_paced r (hpaced hp) hstamp

theorem Deed.paced (hd : Deed m m') (ho : m.Regular) (h : m.Paced i t n first)
    (hst : m.Stamped t) (hns : m.starts? i = none) :
    m'.Paced i t (n + if m'.resumes i then 1 else 0) first := by
  cases hd with
  | keepsTickers hs hf ht =>
    obtain ⟨gs, hgs, hg⟩ := ht.atop
    refine h.quiet (by rw [ht.keeps.tickers]) (resumes_of_free (ht.head hf)) ?_
    rw [owed, owed, hs, hgs, List.countP_append, List.countP_append, countP_offTickers hg]
    omega
  | added hm s p =>
    have hr : Machine.resumes i { m with world := m.world.addTicker s p } = false := by
      obtain ⟨o, ho⟩ := hm
      exact resumes_of_control fun _ _ hc => by cases ho.symm.trans hc
    rw [hr]
    exact h.added s p
  | @runs u j x hc hj hx hf =>
    by_cases hji : j = i
    · subst hji
      simp [starts?, hc, hj] at hns
    · exact h.other (l := .task u :: m.stack) (Nat.le_of_eq (List.countP_cons_of_neg (by
        simp [Frame.isTick]))) hji
  | aborts hc hx hf => exact h.aborted hx
  | serves hs hf hm hw =>
    exact h.quiet (by rw [hw.tickers]) (resumes_of_control fun _ _ hc => by cases hc)
      (Nat.le_refl _)
  | fails | inspects =>
    exact h.quiet rfl (resumes_of_control fun _ _ hc => by cases hc) (Nat.le_refl _)
  | resumes =>
    refine h.quiet rfl (resumes_of_control fun _ _ hc => by cases hc) ?_
    exact Nat.le_of_eq (List.countP_cons_of_neg (by simp [Frame.isTick]))
  | returns hs hm | rebounds hc hs hm | breaks hc hs =>
    exact h.quiet rfl (resumes_of_control fun _ _ hc => by cases hc) (owed_tail hs)
  | @replies j f r l x hc hs hx =>
    by_cases hji : j = i
    · subst hji
      exact h.replied ho hst hc hs hx
    · exact h.other (owed_tail hs) hji
  | @stops u j p l hc hs hj hp =>
    have hr : (stopTask { m with stack := l } u p).resumes i = false :=
      resumes_of_control fun _ _ hc => by cases hc
    cases p with
    | ended =>
      obtain ⟨x, hx, -⟩ := (ho.staffed.job u j).mp hj
      rw [hr]
      simp only [stopTask, endTask_ticker hj hx]
      exact h.finished hx (owed_tail hs)
    | waiting | yielded => exact h.quiet rfl hr (owed_tail hs)
  | @ends u j l why hc hs hj =>
    have hr : Machine.resumes i ⟨endTask m.world u, l, .answering .done⟩ = false :=
      resumes_of_control fun _ _ hc => by cases hc
    rw [hr]
    obtain ⟨x, hx, -⟩ := (ho.staffed.job u j).mp hj
    rw [endTask_ticker hj hx]
    exact h.finished hx (owed_tail hs)

theorem Stamped.below {f : Frame} (h : m.Stamped t) (hs : m.stack = f :: l) (k : Control) :
    Stamped t ⟨w, l, k⟩ :=
  fun i g hg => h i g (hs ▸ .tail _ hg)

theorem Stamped.goes {r : Ticker × Move Ticker.Out Ticker.Frame} {k : Control} {now : Nat}
    (h : Stamped t ⟨w, l, k⟩) {s : Ticker} (hr : s.Goes now r) (hnow : now ≤ t) :
    Stamped t (tickerSection ⟨w, l, k⟩ j r) := by
  have push {g : Ticker.Frame} (hg : g.stamp ≤ t) (i : Nat) (f : Ticker.Frame)
      (hf : Frame.ticker i f ∈ Frame.ticker j g :: l) : f.stamp ≤ t := by
    rcases List.mem_cons.mp hf with hf | hf
    · cases hf
      exact hg
    · exact h i f hf
  cases hr with
  | pauses | ends => exact h
  | waits | fails => exact push (Nat.zero_le t)
  | ticks | resumes => exact push hnow

theorem Deed.stamped (hd : Deed m m') (ho : m.Regular) (h : m.Stamped t)
    (hnow : m.world.schedule.now ≤ t) : m'.Stamped t := by
  cases hd with
  | keepsTickers hs hf ht =>
    obtain ⟨gs, hgs, hg⟩ := ht.atop
    intro i f hi
    rw [hgs] at hi
    rcases List.mem_append.mp hi with hi | hi
    · exact False.elim (hg _ hi)
    · exact h i f (hs ▸ List.mem_append_right _ hi)
  | added | serves | fails | inspects => exact h
  | @runs u j x hc hj hx hf =>
    refine Stamped.goes (l := .task u :: m.stack) ?_ (x.ticker.run_goes _) hnow
    intro i f hi
    exact h i f ((List.mem_cons.mp hi).resolve_left Frame.noConfusion)
  | aborts =>
    intro i f hi
    rcases List.mem_cons.mp hi with hi | hi
    · cases hi
      exact Nat.zero_le t
    · exact h i f hi
  | resumes =>
    intro i f hi
    exact h i f ((List.mem_cons.mp hi).resolve_left Frame.noConfusion)
  | returns hs hm | rebounds hc hs hm | breaks hc hs | ends hc hs hj => exact Stamped.below h hs _
  | stops hc hs hj hp => exact Stamped.below h hs _
  | @replies j f r l x hc hs hx =>
    by_cases hf : f = .waking
    · subst hf
      exact Stamped.below h hs _
    · have hstamp := h j f (by rw [hs]; exact List.mem_cons_self)
      exact (Stamped.below h (w := m.world) hs m.control).goes (ho.goes hc hs hx hf) hstamp

theorem Next.paced (hn : m.Next m') (ho : m.Regular) (h : m.Paced i t n first)
    (hst : m.Stamped t) (hnow : m.world.schedule.now ≤ t) :
    m'.Paced i t (n + if m'.resumes i then 1 else 0) (first.or (m.starts? i)) := by
  cases hs : m.starts? i with
  | none =>
    rw [Option.or_none]
    exact (ho.deed hn).paced ho h hst hs
  | some now =>
    unfold starts? at hs
    split at hs
    · rename_i u hc
      split at hs
      · rename_i j hj
        split at hs
        · rename_i hji
          subst hji
          cases hs
          obtain ⟨x, hx, -⟩ := (ho.staffed.job u j).mp hj
          have hm' : m' = tickerSection { m with stack := .task u :: m.stack } j
              (x.ticker.enter (.run m.world.schedule.now)) := by
            rw [← run_ticker hj hx]
            cases hn with
            | step =>
              unfold Machine.step
              rw [hc]
              rfl
            | attend hi | invoke hi | begin hi | reply hi | raise hi | change hi =>
              obtain ⟨o, hi⟩ := hi
              cases hc.symm.trans hi
          rw [hm']
          refine Paced.goes (l := .task u :: m.stack) hx (x.ticker.run_goes _) fun hp => ?_
          exact Ticker.run_paced ((paced_iff hx).mp h hp) hp hnow
        · cases hs
      · cases hs
    · cases hs

def firstRun? (i : Nat) (ms : List Machine) : Option Nat := ms.findSome? (starts? i)

theorem firstRun?_append (i : Nat) (ms : List Machine) (m : Machine) :
    firstRun? i (ms ++ [m]) = (firstRun? i ms).or (m.starts? i) := by
  rw [firstRun?, List.findSome?_append, List.findSome?_singleton]
  rfl

theorem Trail.paced {ms : List Machine} (h : Trail {} ms m)
    (ht : ∀ y ∈ ms, y.world.schedule.now ≤ t) :
    m.Paced i t ((ms ++ [m]).countP (resumes i)) (firstRun? i ms) ∧ m.Stamped t := by
  induction h with
  | nil => exact ⟨⟨rfl, rfl⟩, fun _ _ hf => by cases hf⟩
  | @next ms m m' h hn ih =>
    obtain ⟨hp, hst⟩ := ih fun y hy => ht y (List.mem_append_left _ hy)
    have hnow := ht m (by simp)
    have ho := h.regular
    refine ⟨?_, (ho.deed hn).stamped ho hst hnow⟩
    rw [firstRun?_append, List.countP_append, List.countP_singleton]
    exact hn.paced ho hp hst hnow

end Machine
end Sluice
