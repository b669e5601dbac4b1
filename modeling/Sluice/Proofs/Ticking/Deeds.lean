import Sluice.Proofs.Ticking.KeepsTickers

/-!
# What a move is to the tickers

While a ticker runs, its frame lies on that of its task, and what lies on its own
frame is the call that it made or the reply to it. So a move of the machine is one
of a ticker, or concerns none: the cases of `Deed` are all there is.
-/

namespace Sluice

/-- What lies on a frame, or on the bottom of the stack: another frame, or the control. -/
inductive Above
  | control (k : Control)
  | frame (f : Frame)

def Above.OffTickers : Above → Prop
  | frame (.ticker _ f) => f = .waking
  | _ => True

namespace World

def Ticks (w : World) (i p : Nat) : Prop :=
  ∃ x, w.tickers[i]? = some x ∧ x.ticker.period = p

def Begun (w : World) (i s : Nat) : Prop :=
  ∃ x, w.tickers[i]? = some x ∧ x.ticker.subscriber = s ∧ x.ticker.phase ≠ .unstarted

def Ended (w : World) (i : Nat) : Prop := ∃ x, w.tickers[i]? = some x ∧ x.ticker.phase = .ended

inductive Lies (w : World) : Above → Frame → Prop
  | free {x : Above} {f : Frame} (hx : x.OffTickers) (hf : w.OffTickers f) : Lies w x f
  | tends {t i : Nat} {f : Ticker.Frame} (hj : w.schedule.job? t = some (.ticker i))
      (hf : f ≠ .waking) : Lies w (.frame (.ticker i f)) (.task t)
  | stops {t i : Nat} (hj : w.schedule.job? t = some (.ticker i)) {p : Pause}
      (hp : p = .ended → w.Ended i) : Lies w (.control (.answering (.pause p))) (.task t)
  | breaks {t i : Nat} (hj : w.schedule.job? t = some (.ticker i)) (why : Panic) :
      Lies w (.control (.unwinding why)) (.task t)
  | wakes {i p : Nat} (h : w.Ticks i p) :
      Lies w (.control (.calling (.wakeTicker i))) (.ticker i .waking)
  | woken {i p : Nat} (h : w.Ticks i p) (r : Reply) :
      Lies w (.control (.answering r)) (.ticker i .waking)
  | times {i p : Nat} (h : w.Ticks i p) (due : Nat) :
      Lies w (.control (.calling (.setTimer i due))) (.ticker i .timing)
  | timed {i p : Nat} (h : w.Ticks i p) (r : Reply) :
      Lies w (.control (.answering r)) (.ticker i .timing)
  -- Only a ticker without a period fails.
  | fails {i : Nat} (h : w.Ticks i 0) :
      Lies w (.control (.calling (.fail .zeroPeriod))) (.ticker i .timing)
  | failed {i : Nat} (h : w.Ticks i 0) (why : Panic) :
      Lies w (.control (.unwinding why)) (.ticker i .timing)
  | inspects {i s : Nat} (h : w.Begun i s) (now : Nat) :
      Lies w (.control (.calling (.inspect s))) (.ticker i (.inspecting now))
  | inspected {i s : Nat} (h : w.Begun i s) (now : Nat) (b : Bool) :
      Lies w (.control (.answering (.flag b))) (.ticker i (.inspecting now))
  | resumes {i s : Nat} (h : w.Begun i s) (now : Nat) :
      Lies w (.control (.calling (.resumeAlive s 1))) (.ticker i (.resuming now))
  | carries {i s : Nat} (h : w.Begun i s) (now : Nat) :
      Lies w (.frame (.resumer s 0)) (.ticker i (.resuming now))
  | resumed {i s : Nat} (h : w.Begun i s) (now : Nat) :
      Lies w (.control (.answering (.flag true))) (.ticker i (.resuming now))
  | broken {i s : Nat} (h : w.Begun i s) (now : Nat) (why : Panic) :
      Lies w (.control (.unwinding why)) (.ticker i (.resuming now))

def Fits (w : World) : Above → List Frame → Prop
  | x, [] => x.OffTickers
  | x, f :: rest => w.Lies x f ∧ w.Fits (.frame f) rest

/-- Nothing that a ticker or its task waits for is on top. -/
def Free (w : World) (stack : List Frame) : Prop := ∀ f ∈ stack.head?, w.OffTickers f

variable {w w' : World} {x y : Above} {f : Frame} {fs stack rest : List Frame}

theorem OffTickers.above (h : w.OffTickers f) : (Above.frame f).OffTickers := by
  cases f with
  | ticker i f => exact h.elim
  | _ => trivial

theorem Fits.of_free (h : w.Fits x stack) (hf : w.Free stack) (hy : y.OffTickers) :
    w.Fits y stack := by
  cases stack with
  | nil => exact hy
  | cons f rest => exact ⟨.free hy (hf f rfl), h.2⟩

theorem Fits.push (h : w.Fits y stack) (hf : w.Free stack) (hfs : ∀ f ∈ fs, w.OffTickers f)
    (hx : x.OffTickers) : w.Fits x (fs ++ stack) := by
  induction fs generalizing x with
  | nil => exact h.of_free hf hx
  | cons f fs ih =>
    have hft := hfs f List.mem_cons_self
    exact ⟨.free hx hft, ih (fun g hg => hfs g (.tail _ hg)) hft.above⟩

theorem Fits.drop (h : w.Fits x (fs ++ stack)) : ∃ y, w.Fits y stack := by
  induction fs generalizing x with
  | nil => exact ⟨x, h⟩
  | cons f fs ih => exact ih h.2

/-- What the frames of a stack say in `w` they also say in `w'`. -/
structure Endures (w w' : World) : Prop where
  job : ∀ t j, w.schedule.job? t = some j → w'.schedule.job? t = some j
  ticks : ∀ i p, w.Ticks i p → w'.Ticks i p
  begun : ∀ i s, w.Begun i s → w'.Begun i s
  ended : ∀ i, w.Ended i → w'.Ended i

theorem Endures.of_tickers (hj : ∀ t j, w.schedule.job? t = some j → w'.schedule.job? t = some j)
    (ht : w'.tickers = w.tickers) : w.Endures w' := by
  refine ⟨hj, ?_, ?_, ?_⟩
  · exact fun i p h => by rwa [Ticks, ht]
  · exact fun i s h => by rwa [Begun, ht]
  · exact fun i h => by rwa [Ended, ht]

theorem Endures.trans {w'' : World} (h : w.Endures w') (h' : w'.Endures w'') : w.Endures w'' where
  job := fun t j hj => h'.job t j (h.job t j hj)
  ticks := fun i p hi => h'.ticks i p (h.ticks i p hi)
  begun := fun i s hi => h'.begun i s (h.begun i s hi)
  ended := fun i hi => h'.ended i (h.ended i hi)

theorem KeepsTickers.endures (h : w.KeepsTickers w') : w.Endures w' := .of_tickers h.job h.tickers

theorem Lies.last (h : w.Lies x f) (hw : w.Endures w') : w'.Lies x f := by
  cases h with
  | free hx hf => exact .free hx (hf.mono hw.job)
  | tends hj hf => exact .tends (hw.job _ _ hj) hf
  | stops hj hp => exact .stops (hw.job _ _ hj) fun he => hw.ended _ (hp he)
  | breaks hj why => exact .breaks (hw.job _ _ hj) why
  | wakes h => exact .wakes (hw.ticks _ _ h)
  | woken h r => exact .woken (hw.ticks _ _ h) r
  | times h due => exact .times (hw.ticks _ _ h) due
  | timed h r => exact .timed (hw.ticks _ _ h) r
  | fails h => exact .fails (hw.ticks _ _ h)
  | failed h why => exact .failed (hw.ticks _ _ h) why
  | inspects h now => exact .inspects (hw.begun _ _ h) now
  | inspected h now b => exact .inspected (hw.begun _ _ h) now b
  | resumes h now => exact .resumes (hw.begun _ _ h) now
  | carries h now => exact .carries (hw.begun _ _ h) now
  | resumed h now => exact .resumed (hw.begun _ _ h) now
  | broken h now why => exact .broken (hw.begun _ _ h) now why

theorem Fits.last (h : w.Fits x stack) (hw : w.Endures w') : w'.Fits x stack := by
  induction stack generalizing x with
  | nil => exact h
  | cons f rest ih => exact ⟨h.1.last hw, ih h.2⟩

theorem Fits.below (h : w.Fits (.frame f) rest) (hf : w.OffTickers f) : w.Free rest ∨
    ∃ i s now rest', f = .resumer s 0 ∧ rest = .ticker i (.resuming now) :: rest' ∧
      w.Begun i s := by
  cases rest with
  | nil => exact .inl (by simp [Free])
  | cons g rest =>
    cases h.1 with
    | free _ hg =>
      refine .inl fun g' hg' => ?_
      obtain rfl := Option.some.inj hg'
      exact hg
    | tends => exact hf.elim
    | carries hm now => exact .inr ⟨_, _, now, rest, rfl, rfl, hm⟩

end World

namespace Machine

variable {m m' : Machine} {f : Frame} {stack rest : List Frame} {i s p t : Nat}

theorem enter_keepsTickers {c : Call} (hr : ∀ t i, c = .run t →
    m.world.schedule.job? t ≠ some (.ticker i))
    (ha : ∀ i, c = .abort i → m.world.tickers[i]? = none) :
    KeepsTickers m.world m.stack (m.enter c) := by
  cases c with
  | subscribe source i =>
    obtain ⟨ds, h⟩ := subscribe_effect m source i
    exact (h.keepsTickers (by cases source.origin <;> nofun)).after (.of_eq rfl rfl) rfl
  | attach source i => exact .push (.refl _) rfl trivial
  | request link d =>
    obtain ⟨rs, h⟩ := request_effect m link d
    exact (h.keepsTickers (by cases link.tap <;> nofun)).after (.of_eq rfl rfl) rfl
  | cancel link => exact (cancelTap_effect m link.tap).keepsTickers (by cases link.tap <;> nofun)
  | abort i =>
    simp only [enter, enterTicker, ha i rfl]
    exact answer_keepsTickers m _
  | run t =>
    cases hj : m.world.schedule.job? t with
    | none =>
      have ht : m.world.schedule.tasks[t]? = none := Option.map_eq_none_iff.mp hj
      simp only [enter, run, ht]
      exact answer_keepsTickers m _
    | some j =>
      cases j with
      | driver d => exact run_keepsTickers hj
      | ticker i => exact absurd hj (hr t i rfl)
  | _ => exact (enter_effect m rfl).keepsTickers nofun

theorem proceed_keepsTickers (r : Reply) (hf : m.world.OffTickers f) :
    KeepsTickers m.world m.stack (m.proceed r f) := by
  cases f with
  | driver i f => exact proceedDriver_keepsTickers m i f r
  | ticker i f => exact hf.elim
  | task t =>
    obtain ⟨d, hd⟩ := hf
    exact stopTask_keepsTickers hd _
  | _ => exact (proceed_effect m r rfl).keepsTickers nofun

theorem unwound_keepsTickers (why : Panic) (hf : m.world.OffTickers f) :
    KeepsTickers m.world m.stack (m.unwound why f) := by
  unfold unwound
  split
  · split
    · exact .same (.of_eq rfl rfl) rfl
    · exact .same (.refl _) rfl
  · obtain ⟨d, hd⟩ := hf
    exact .same (endTask_keeps hd) rfl
  · rename_i h n
    split
    · exact ⟨.refl _, [.closing h, .rethrow why], rfl, by simp [World.OffTickers]⟩
    · exact .same (.refl _) rfl
  · exact .same (.of_eq rfl rfl) rfl
  · exact .same (.refl _) rfl

inductive Deed (m : Machine) : Machine → Prop
  | keepsTickers {m' : Machine} {l stack : List Frame} (hs : m.stack = l ++ stack)
      (hf : m.world.Free stack) (h : KeepsTickers m.world stack m') : Deed m m'
  | added (hm : m.Idle) (s p : Nat) : Deed m { m with world := m.world.addTicker s p }
  | runs {t i : Nat} {x : TickerTask} (hc : m.control = .calling (.run t))
      (hj : m.world.schedule.job? t = some (.ticker i)) (hx : m.world.tickers[i]? = some x)
      (hf : m.world.Free m.stack) :
      Deed m (tickerSection { m with stack := .task t :: m.stack } i
        (x.ticker.enter (.run m.world.schedule.now)))
  | aborts {i : Nat} {x : TickerTask} (hc : m.control = .calling (.abort i))
      (hx : m.world.tickers[i]? = some x) (hf : m.world.Free m.stack) :
      Deed m (m.tickerSection i (x.ticker.enter .abort))
  -- The runtime sets a timer or wakes a task.
  | serves {i p : Nat} {f : Ticker.Frame} {rest : List Frame} {w : World}
      (hs : m.stack = .ticker i f :: rest) (hf : f = .timing ∨ f = .waking)
      (h : m.world.Ticks i p) (hw : m.world.KeepsTickers w) :
      Deed m ⟨w, m.stack, .answering .done⟩
  | fails {i : Nat} {rest : List Frame} (hs : m.stack = .ticker i .timing :: rest)
      (h : m.world.Ticks i 0) (why : Panic) : Deed m (m.unwind why)
  | inspects {i s now : Nat} {rest : List Frame} (hc : m.control = .calling (.inspect s))
      (hs : m.stack = .ticker i (.inspecting now) :: rest) (h : m.world.Begun i s) :
      Deed m (m.answer (.flag (m.terminated s)))
  | resumes {i s now : Nat} {rest : List Frame}
      (hc : m.control = .calling (.resumeAlive s 1))
      (hs : m.stack = .ticker i (.resuming now) :: rest) (h : m.world.Begun i s)
      (ha : m.alive s = true) : Deed m (m.call (.resumer s 0) (.tell s .resume))
  | returns {i s now : Nat} {rest : List Frame}
      (hs : m.stack = .resumer s 0 :: .ticker i (.resuming now) :: rest)
      (h : m.world.Begun i s) :
      Deed m ⟨m.world, .ticker i (.resuming now) :: rest, .answering (.flag true)⟩
  | rebounds {i s now : Nat} {rest : List Frame} {why : Panic}
      (hc : m.control = .unwinding why)
      (hs : m.stack = .resumer s 0 :: .ticker i (.resuming now) :: rest)
      (h : m.world.Begun i s) :
      Deed m ⟨m.world, .ticker i (.resuming now) :: rest, .unwinding why⟩
  | replies {i : Nat} {f : Ticker.Frame} {r : Reply} {rest : List Frame} {x : TickerTask}
      (hc : m.control = .answering r) (hs : m.stack = .ticker i f :: rest)
      (hx : m.world.tickers[i]? = some x) :
      Deed m (tickerSection { m with stack := rest } i (x.ticker.proceed r f))
  | breaks {i : Nat} {f : Ticker.Frame} {rest : List Frame} {why : Panic}
      (hc : m.control = .unwinding why) (hs : m.stack = .ticker i f :: rest) :
      Deed m ⟨m.world, rest, .unwinding why⟩
  | stops {t i : Nat} {p : Pause} {rest : List Frame} (hc : m.control = .answering (.pause p))
      (hs : m.stack = .task t :: rest) (hj : m.world.schedule.job? t = some (.ticker i))
      (hp : p = .ended → m.world.Ended i) : Deed m (stopTask { m with stack := rest } t p)
  | ends {t i : Nat} {rest : List Frame} {why : Panic} (hc : m.control = .unwinding why)
      (hs : m.stack = .task t :: rest) (hj : m.world.schedule.job? t = some (.ticker i)) :
      Deed m ⟨endTask m.world t, rest, .answering .done⟩

end Machine

structure World.Staffed (w : World) : Prop where
  job : ∀ t i, w.schedule.job? t = some (.ticker i) ↔ ∃ x, w.tickers[i]? = some x ∧ x.task = t
  ended : ∀ (i : Nat) x, w.tickers[i]? = some x → w.schedule.state x.task = .ended →
    x.ticker.phase = .ended

namespace Machine

/-- What the tickers of a machine rely on. -/
structure Regular (m : Machine) : Prop where
  fits : m.world.Fits (.control m.control) m.stack
  staffed : m.world.Staffed
  informed : ∀ i now rest s b, m.stack = .ticker i (.inspecting now) :: rest →
    m.world.Begun i s → m.control = .answering (.flag b) → b = m.terminated s
  alert : ∀ i now rest s n, m.stack = .ticker i (.resuming now) :: rest →
    m.control = .calling (.resumeAlive s n) → m.terminated s = false

variable {m m' : Machine}

theorem Idle.free (hm : m.Idle) (h : m.world.Fits (.control m.control) m.stack) :
    m.world.Free m.stack := by
  obtain ⟨o, ho⟩ := hm
  rw [ho] at h
  intro f hf
  cases hs : m.stack with
  | nil => simp [hs] at hf
  | cons g rest =>
    rw [hs] at h hf
    obtain rfl := Option.some.inj hf
    cases h.1 with
    | free _ hg => exact hg

theorem deed_same (hf : m.world.Free m.stack) (hw : m.world.KeepsTickers m'.world)
    (hs : m'.stack = m.stack) : Deed m m' :=
  .keepsTickers (l := []) rfl hf (.same hw hs)

theorem deed_asked {q : Question} {rest : List Frame} {k : Control}
    (h : m.world.Fits (.control m.control) m.stack) (hs : m.stack = .asked q :: rest) :
    Deed m { m with stack := rest, control := k } := by
  rw [hs] at h
  rcases h.2.below trivial with hf | ⟨_, _, _, _, hq, -⟩
  · exact .keepsTickers (l := [.asked q]) hs hf (.same (.refl _) rfl)
  · cases hq

theorem terminated_eq_false {s : Nat} (h : m.terminated s = false) : m.alive s = true := by
  simpa using (Bool.or_eq_false_iff.mp h).1

theorem run_ticker {t i : Nat} {x : TickerTask}
    (hj : m.world.schedule.job? t = some (.ticker i)) (hx : m.world.tickers[i]? = some x) :
    m.run t = tickerSection { m with stack := .task t :: m.stack } i
      (x.ticker.enter (.run m.world.schedule.now)) := by
  obtain ⟨task, ht, hj⟩ := Option.map_eq_some_iff.mp hj
  unfold run
  rw [ht]
  simp only [hj, enterTicker, hx]

theorem Regular.enter (h : m.Regular) {c : Call} (hc : m.control = .calling c)
    (hf : m.world.Free m.stack) : Deed m (m.enter c) := by
  by_cases hr : ∃ t i, c = .run t ∧ m.world.schedule.job? t = some (.ticker i)
  · obtain ⟨t, i, rfl, hj⟩ := hr
    obtain ⟨x, hx, -⟩ := (h.staffed.job t i).mp hj
    rw [show m.enter (.run t) = m.run t from rfl, run_ticker hj hx]
    exact .runs hc hj hx hf
  by_cases ha : ∃ i x, c = .abort i ∧ m.world.tickers[i]? = some x
  · obtain ⟨i, x, rfl, hx⟩ := ha
    have he : m.enter (.abort i) = m.tickerSection i (x.ticker.enter .abort) := by
      simp only [Machine.enter, enterTicker, hx]
    rw [he]
    exact .aborts hc hx hf
  · refine .keepsTickers (l := []) rfl hf (enter_keepsTickers ?_ ?_)
    · exact fun t i hct hj => hr ⟨t, i, hct, hj⟩
    · intro i hci
      cases hx : m.world.tickers[i]? with
      | none => rfl
      | some x => exact absurd ⟨i, x, hci, hx⟩ ha

theorem Regular.called (h : m.Regular) {c : Call} (hc : m.control = .calling c) :
    Deed m (m.enter c) := by
  have hfits := h.fits
  rw [hc] at hfits
  cases hs : m.stack with
  | nil => exact h.enter hc (by simp [World.Free, hs])
  | cons f rest =>
    rw [hs] at hfits
    cases hfits.1 with
    | free _ hf =>
      refine h.enter hc fun g hg => ?_
      rw [hs] at hg
      obtain rfl := Option.some.inj hg
      exact hf
    | @wakes i _ hm =>
      obtain ⟨x, hx, -⟩ := id hm
      rw [show m.enter (.wakeTicker i) = m.wakeTask (m.world.tickers[i]?.map TickerTask.task)
        from rfl, hx]
      exact .serves (m := m) hs (.inr rfl) hm (.wake _ x.task)
    | @times i _ hm due =>
      obtain ⟨x, hx, -⟩ := id hm
      simp only [Machine.enter, setTimer, hx]
      exact .serves (m := m) hs (.inl rfl) hm (.reschedule (fun _ => rfl) fun _ _ _ => id)
    | fails hm => exact .fails hs hm _
    | inspects hm now => exact .inspects hc hs hm
    | resumes hm now =>
      have ha := terminated_eq_false (h.alert _ _ _ _ _ hs hc)
      simp only [Machine.enter, resumeAlive, ha, if_true]
      exact .resumes hc hs hm ha

theorem Regular.answered (h : m.Regular) {r : Reply} {f : Frame} {rest : List Frame}
    (hc : m.control = .answering r) (hs : m.stack = f :: rest) :
    Deed m (proceed { m with stack := rest } r f) := by
  have hfits := h.fits
  rw [hc, hs] at hfits
  have replies {i : Nat} {f : Ticker.Frame} (hs : m.stack = .ticker i f :: rest) {x : TickerTask}
      (hx : m.world.tickers[i]? = some x) :
      Deed m (proceedTicker { m with stack := rest } i f r) := by
    simp only [proceedTicker, hx]
    exact .replies hc hs hx
  cases hfits.1 with
  | free _ hf =>
    rcases hfits.2.below hf with hfree | ⟨i, s, now, rest', rfl, rfl, hm⟩
    · exact .keepsTickers (l := [f]) hs hfree
        (proceed_keepsTickers (m := { m with stack := rest }) r hf)
    · exact .returns hs hm
  | stops hj hp => exact .stops hc hs hj hp
  | woken hm r | timed hm r | inspected hm now b | resumed hm now =>
    obtain ⟨x, hx, -⟩ := hm
    exact replies hs hx

theorem Regular.unwound (h : m.Regular) {why : Panic} {f : Frame} {rest : List Frame}
    (hc : m.control = .unwinding why) (hs : m.stack = f :: rest) :
    Deed m (unwound { m with stack := rest } why f) := by
  have hfits := h.fits
  rw [hc, hs] at hfits
  cases hfits.1 with
  | free _ hf =>
    rcases hfits.2.below hf with hfree | ⟨i, s, now, rest', rfl, rfl, hm⟩
    · exact .keepsTickers (l := [f]) hs hfree
        (unwound_keepsTickers (m := { m with stack := rest }) why hf)
    · exact .rebounds hc hs hm
  | breaks hj why => exact .ends hc hs hj
  | failed hm why => exact .breaks hc hs
  | broken hm now why => exact .breaks hc hs

theorem Regular.deed (h : m.Regular) (hn : m.Next m') : Deed m m' := by
  cases hn with
  | step =>
    unfold step
    cases hc : m.control with
    | calling c => exact h.called hc
    | answering r =>
      cases hs : m.stack with
      | nil => exact deed_same (by simp [World.Free, hs]) (.refl _) hs.symm
      | cons f rest => exact h.answered hc hs
    | unwinding why =>
      cases hs : m.stack with
      | nil => exact deed_same (by simp [World.Free, hs]) (.refl _) hs.symm
      | cons f rest => exact h.unwound hc hs
    | idle o => exact deed_same (Idle.free ⟨o, hc⟩ h.fits) (.refl _) rfl
    | stuck =>
      have hfits := h.fits
      rw [hc] at hfits
      refine deed_same (fun f hf => ?_) (.refl _) rfl
      cases hs : m.stack with
      | nil => simp [hs] at hf
      | cons g rest =>
        rw [hs] at hfits hf
        obtain rfl := Option.some.inj hf
        cases hfits.1 with
        | free _ hg => exact hg
  | attend hm => exact deed_same (hm.free h.fits) (.refl _) rfl
  | invoke hm => exact deed_same (hm.free h.fits) (.refl _) rfl
  | begin hm => exact deed_same (hm.free h.fits) (.take _ _) rfl
  | reply hm r =>
    unfold Machine.reply
    split
    · rename_i q rest hs
      exact deed_asked h.fits hs
    · exact deed_same (hm.free h.fits) (.refl _) rfl
  | raise hm why =>
    unfold Machine.raise
    split
    · rename_i q rest hs
      exact deed_asked h.fits hs
    · exact deed_same (hm.free h.fits) (.refl _) rfl
  | change hm hw =>
    cases hw with
    | ticker s p => exact .added hm s p
    | _ => exact deed_same (hm.free h.fits) (.of_eq rfl rfl) rfl

end Machine
end Sluice
