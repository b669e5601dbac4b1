import Sluice.Proofs.Ticking.Deeds
import Sluice.Proofs.Machine.Writes

/-!
# Tickers in order

Whatever a move is to the tickers, their frames stay in order: what a section of a
ticker leaves on the stack is what the frames below wait for, and a ticker resumes a
subscriber only that is alive and not terminal at that moment.
-/

namespace Sluice

namespace Ticker

def Frame.stamp : Frame → Nat
  | inspecting now | resuming now => now
  | _ => 0

/-- What a section of a ticker comes to while its task runs, at the time `now`. -/
inductive Goes (s : Ticker) (now : Nat) : Ticker × Move Out Frame → Prop
  | pauses : Goes s now (s, .answer (.pause .waiting))
  | ends : Goes s now s.finish
  | waits (hs : s.phase ≠ .ended) (due : Nat) :
      Goes s now ({ s with phase := .waiting due }, .call (.setTimer due) .timing)
  | ticks (hs : s.phase ≠ .ended) (due : Nat) :
      Goes s now ({ s with phase := .waiting due },
        .call (.inspect s.subscriber) (.inspecting now))
  | fails (h : s.period = 0) : Goes s now (s, .call .fail .timing)
  | resumes (hs : s.phase ≠ .unstarted) :
      Goes s now (s, .call (.resume s.subscriber) (.resuming now))

variable {s : Ticker}

theorem awaitTick_goes (hs : s.phase ≠ .ended) (due now : Nat) :
    s.Goes now (s.awaitTick due now) := by
  unfold awaitTick
  split
  · exact .ticks hs _
  · exact .waits hs due

theorem run_goes (s : Ticker) (now : Nat) : s.Goes now (s.enter (.run now)) := by
  simp only [enter]
  split
  · exact .ends
  · split
    · rename_i hs
      split
      · rename_i hp
        exact .fails hp
      · exact awaitTick_goes (by simp [hs]) _ now
    · rename_i hs
      exact awaitTick_goes (by simp [hs]) _ now
    · exact .ends

theorem proceed_goes (r : Reply) {f : Frame} (hf : f ≠ .waking)
    (hs : f ≠ .timing → s.phase ≠ .unstarted) : s.Goes f.stamp (s.proceed r f) := by
  cases f with
  | timing => exact .pauses
  | inspecting now =>
    simp only [proceed]
    split
    · exact .ends
    · exact .resumes (hs Frame.noConfusion)
  | resuming now =>
    simp only [proceed]
    split
    · split
      · rename_i hw
        exact awaitTick_goes (by simp [hw]) _ now
      · exact .ends
    · exact .ends
  | waking => exact absurd rfl hf

theorem enter_resume (s : Ticker) (input : In) (u : Nat) (f : Frame) :
    (s.enter input).2 ≠ .call (.resume u) f := by
  have hawait (due now : Nat) : (s.awaitTick due now).2 ≠ .call (.resume u) f := by
    unfold awaitTick
    split <;> intro h <;> cases h
  cases input with
  | abort => intro h; cases h
  | run now =>
    simp only [enter]
    split
    · intro h; cases h
    · split
      · split
        · intro h; cases h
        · exact hawait _ _
      · exact hawait _ _
      · intro h; cases h

theorem proceed_resume {r : Reply} {u : Nat} {f g : Frame}
    (h : (s.proceed r f).2 = .call (.resume u) g) :
    ∃ now, f = .inspecting now ∧ r.holds = false ∧ u = s.subscriber ∧
      s.proceed r f = (s, .call (.resume s.subscriber) (.resuming now)) := by
  cases f with
  | inspecting now =>
    cases hr : r.holds with
    | false =>
      have hp : s.proceed r (.inspecting now) =
          (s, .call (.resume s.subscriber) (.resuming now)) := by simp [proceed, hr]
      rw [hp] at h
      cases h
      exact ⟨now, rfl, rfl, rfl, hp⟩
    | true =>
      rw [proceed, if_pos hr] at h
      cases h
  | resuming now =>
    simp only [proceed] at h
    split at h
    · split at h
      · unfold awaitTick at h
        split at h <;> cases h
      · cases h
    · cases h
  | _ => cases h

structure Same (s s' : Ticker) : Prop where
  subscriber : s'.subscriber = s.subscriber
  period : s'.period = s.period
  begun : s.phase ≠ .unstarted → s'.phase ≠ .unstarted
  ended : s.phase = .ended → s'.phase = .ended

theorem Same.refl (s : Ticker) : s.Same s := ⟨rfl, rfl, id, id⟩

theorem same_finish (s : Ticker) : s.Same s.finish.1 :=
  ⟨rfl, rfl, fun _ => Phase.noConfusion, fun _ => rfl⟩

variable {now : Nat} {r : Ticker × Move Out Frame}

theorem Goes.same (h : s.Goes now r) : s.Same r.1 := by
  cases h with
  | pauses | fails | resumes => exact .refl s
  | ends => exact same_finish s
  | waits hs due | ticks hs due =>
    exact ⟨rfl, rfl, fun _ => Phase.noConfusion, fun he => absurd he hs⟩

theorem Goes.answer_ne (h : s.Goes now r) (b : Bool) : r.2 ≠ .answer (.flag b) := by
  cases h <;> intro hb <;> cases hb

end Ticker

namespace World

variable {w w' : World} {stack rest : List Frame} {i j s p t : Nat} {x : TickerTask}

theorem getElem?_setTicker (w : World) (i : Nat) (s : Ticker) (j : Nat) :
    (w.setTicker i s).tickers[j]? =
      w.tickers[j]?.map fun x => if i = j then { x with ticker := s } else x := by
  rw [setTicker, Array.getElem?_modify]
  by_cases hj : i = j
  · simp [hj]
  · simp [hj]

theorem setTicker_self {s : Ticker} (hx : w.tickers[i]? = some x) :
    (w.setTicker i s).tickers[i]? = some { x with ticker := s } := by
  simp [getElem?_setTicker, hx]

theorem setTicker_ne {s : Ticker} (hj : i ≠ j) :
    (w.setTicker i s).tickers[j]? = w.tickers[j]? := by
  simp [getElem?_setTicker, hj]

theorem endures_setTicker {s : Ticker} (hx : w.tickers[i]? = some x) (hs : x.ticker.Same s) :
    w.Endures (w.setTicker i s) := by
  have endures {P Q : TickerTask → Prop} (hself : P x → Q { x with ticker := s })
      (hother : ∀ y, P y → Q y) (j : Nat) (h : ∃ y, w.tickers[j]? = some y ∧ P y) :
      ∃ y, (w.setTicker i s).tickers[j]? = some y ∧ Q y := by
    obtain ⟨y, hy, hp⟩ := h
    by_cases hj : i = j
    · subst hj
      obtain rfl := Option.some.inj (hx.symm.trans hy)
      exact ⟨_, setTicker_self hx, hself hp⟩
    · exact ⟨y, (setTicker_ne hj).trans hy, hother y hp⟩
  refine ⟨fun _ _ => id, fun j p => endures ?_ (fun _ => id) j,
    fun j u => endures ?_ (fun _ => id) j, fun j => endures hs.ended (fun _ => id) j⟩
  · exact fun hp => hs.period.trans hp
  · exact fun hp => ⟨hs.subscriber.trans hp.1, hs.begun hp.2⟩

theorem Staffed.setTicker {s : Ticker} (h : w.Staffed) (hx : w.tickers[i]? = some x)
    (hs : x.ticker.Same s) : (w.setTicker i s).Staffed where
  job := by
    intro t j
    refine (h.job t j).trans ?_
    rw [getElem?_setTicker]
    constructor
    · rintro ⟨y, hy, rfl⟩
      refine ⟨_, congrArg _ hy, ?_⟩
      split <;> rfl
    · rintro ⟨y, hy, rfl⟩
      obtain ⟨z, hz, rfl⟩ := Option.map_eq_some_iff.mp hy
      refine ⟨z, hz, ?_⟩
      split <;> rfl
  ended := by
    intro j y hy he
    by_cases hj : i = j
    · subst hj
      obtain rfl := Option.some.inj ((setTicker_self hx).symm.trans hy)
      exact hs.ended (h.ended i x hx he)
    · exact h.ended j y ((setTicker_ne hj).symm.trans hy) he

theorem KeepsTickers.staffed (hw : w.KeepsTickers w') (h : w.Staffed) : w'.Staffed where
  job := by
    intro t i
    rw [hw.tickers, ← h.job t i]
    exact ⟨hw.spawned t i, hw.job t _⟩
  ended := by
    intro i x hx he
    rw [hw.tickers] at hx
    exact h.ended i x hx (hw.ended _ i ((h.job _ i).mpr ⟨x, hx, rfl⟩) he)

theorem getElem?_addTicker (w : World) (s p j : Nat) :
    (w.addTicker s p).tickers[j]? = if j = w.tickers.size then
      some ⟨{ subscriber := s, period := p }, w.schedule.tasks.size⟩ else w.tickers[j]? := by
  rw [addTicker, Array.getElem?_push]

theorem endures_addTicker (w : World) (s p : Nat) : w.Endures (w.addTicker s p) := by
  have endures {P : TickerTask → Prop} (j : Nat) (h : ∃ y, w.tickers[j]? = some y ∧ P y) :
      ∃ y, (w.addTicker s p).tickers[j]? = some y ∧ P y := by
    obtain ⟨y, hy, hp⟩ := h
    refine ⟨y, ?_, hp⟩
    rw [getElem?_addTicker, if_neg, hy]
    exact Nat.ne_of_lt (lt_size_of_getElem? hy)
  exact ⟨fun _ _ => Schedule.job?_spawn_of_some, fun j _ => endures j, fun j _ => endures j,
    fun j => endures j⟩

theorem Staffed.ne_size (h : w.Staffed) (hx : w.tickers[i]? = some x) :
    x.task ≠ w.schedule.tasks.size := by
  intro he
  have hj := (h.job _ i).mpr ⟨x, hx, rfl⟩
  rw [he, Schedule.job?_size] at hj
  cases hj

theorem Staffed.addTicker (h : w.Staffed) (s p : Nat) : (w.addTicker s p).Staffed where
  job := by
    intro t i
    rw [getElem?_addTicker, show (w.addTicker s p).schedule = w.schedule.spawn (.ticker
      w.tickers.size) from rfl, Schedule.job?_spawn]
    by_cases ht : t = w.schedule.tasks.size
    · subst ht
      rw [if_pos rfl]
      by_cases hi : i = w.tickers.size
      · simp [hi]
      · have hnone := (h.job w.schedule.tasks.size i).not.mp (by simp [Schedule.job?_size])
        simpa [hi, eq_comm] using hnone
    · rw [if_neg ht, h.job t i]
      by_cases hi : i = w.tickers.size
      · subst hi
        simp [eq_comm, ht]
      · simp [hi]
  ended := by
    intro i x hx he
    change (w.schedule.spawn (.ticker w.tickers.size)).state x.task = .ended at he
    rw [Schedule.state_spawn] at he
    rw [getElem?_addTicker] at hx
    split at hx
    · obtain rfl := Option.some.inj hx
      rw [if_pos rfl] at he
      cases he
    · rw [if_neg (h.ne_size hx)] at he
      exact h.ended i x hx he

theorem Fits.task {f : Ticker.Frame} (h : w.Fits (.frame (.ticker i f)) rest)
    (hf : f ≠ .waking) : ∃ t rest', rest = .task t :: rest' ∧
      w.schedule.job? t = some (.ticker i) ∧ w.Fits (.frame (.task t)) rest' := by
  cases rest with
  | nil => exact absurd h hf
  | cons g rest =>
    obtain ⟨hg, hr⟩ := h
    cases hg with
    | free hx => exact absurd hx hf
    | tends hj => exact ⟨_, _, rfl, hj, hr⟩

theorem Fits.free {f : Frame} (h : w.Fits (.frame f) rest) (hl : (Above.frame f).OffTickers)
    (hr : ∀ s, f ≠ .resumer s 0) : w.Free rest := by
  intro g hg
  cases rest with
  | nil => cases hg
  | cons g' rest =>
    obtain rfl := Option.some.inj hg
    cases h.1 with
    | free _ hg => exact hg
    | tends _ hw => exact absurd hl hw
    | carries => exact absurd rfl (hr _)

theorem Begun.unique {s' : Nat} (h : w.Begun i s) (h' : w.Begun i s') : s' = s := by
  obtain ⟨x, hx, rfl, -⟩ := h
  obtain ⟨y, hy, rfl, -⟩ := h'
  obtain rfl := Option.some.inj (hx.symm.trans hy)
  rfl

theorem endures_stop (w : World) (t : Nat) (p : Pause) :
    w.Endures { w with schedule := w.schedule.stop t p } :=
  .of_tickers (fun _ _ h => (Schedule.job?_stop p).trans h) rfl

theorem Staffed.stop {p : Pause} (h : w.Staffed) (t : Nat) (hp : p ≠ .ended) :
    Staffed { w with schedule := w.schedule.stop t p } where
  job := by
    intro u i
    rw [← h.job u i, ← Schedule.job?_stop (s := w.schedule) (t := t) p]
  ended := by
    intro i x hx he
    refine h.ended i x hx ?_
    by_cases hu : x.task = t
    · by_cases hw : w.schedule.state t = .ended
      · exact hu ▸ hw
      · rw [hu, Schedule.state_stop_self hp hw] at he
        split at he <;> cases he
    · exact (Schedule.state_stop_ne p hu).symm.trans he

theorem Staffed.finish (h : w.Staffed) (hj : w.schedule.job? t = some (.ticker i))
    (hx : w.tickers[i]? = some x) : (World.setTicker { w with
      schedule := w.schedule.stop t .ended } i x.ticker.finish.1).Staffed where
  job := by
    intro u j
    have hstop := Schedule.job?_stop (s := w.schedule) (t := t) (u := u) .ended
    have hset := (h.setTicker hx (Ticker.same_finish _)).job u j
    exact (iff_of_eq (congrArg (· = some (Job.ticker j)) hstop)).trans hset
  ended := by
    intro j y hy he
    by_cases hij : i = j
    · subst hij
      obtain rfl := Option.some.inj ((setTicker_self hx).symm.trans hy)
      rfl
    · have hy' := (setTicker_ne hij).symm.trans hy
      refine h.ended j y hy' ((Schedule.state_stop_ne .ended ?_).symm.trans he)
      rintro rfl
      cases ((h.job _ j).mpr ⟨y, hy', rfl⟩).symm.trans hj
      exact hij rfl

end World

namespace Machine

variable {m m' : Machine} {w : World} {stack rest : List Frame} {i s p t : Nat} {x : TickerTask}

theorem goes_fits {r : Ticker × Move Ticker.Out Ticker.Frame} {k : Control} {now : Nat}
    (hx : w.tickers[i]? = some x) (hj : w.schedule.job? t = some (.ticker i))
    (h : w.Fits (.frame (.task t)) rest) (hr : x.ticker.Goes now r) :
    let m' := tickerSection ⟨w, .task t :: rest, k⟩ i r
    m'.world.Fits (.control m'.control) m'.stack := by
  have hl := World.endures_setTicker hx hr.same
  have hm : (w.setTicker i r.1).Ticks i x.ticker.period := hl.ticks _ _ ⟨x, hx, rfl⟩
  have hrest := h.last hl
  have hj' := hl.job t _ hj
  have self := World.setTicker_self (s := r.1) hx
  cases hr with
  | pauses => exact ⟨.stops hj' Pause.noConfusion, hrest⟩
  | ends => exact ⟨.stops hj' fun _ => ⟨_, self, rfl⟩, hrest⟩
  | waits hs due => exact ⟨.times hm due, .tends hj' Ticker.Frame.noConfusion, hrest⟩
  | ticks hs due =>
    exact ⟨.inspects ⟨_, self, rfl, Ticker.Phase.noConfusion⟩ _,
      .tends hj' Ticker.Frame.noConfusion, hrest⟩
  | fails hp =>
    rw [hp] at hm
    exact ⟨.fails hm, .tends hj' Ticker.Frame.noConfusion, hrest⟩
  | resumes hs =>
    exact ⟨.resumes ⟨_, self, rfl, hs⟩ _, .tends hj' Ticker.Frame.noConfusion, hrest⟩

theorem tickerSection_resumes {s n : Nat} {r : Ticker × Move Ticker.Out Ticker.Frame}
    (h : (m.tickerSection i r).control = .calling (.resumeAlive s n)) :
    ∃ f, r.2 = .call (.resume s) f := by
  obtain ⟨y, mv⟩ := r
  cases mv with
  | answer r => cases h
  | call o f =>
    cases o with
    | resume u =>
      cases h
      exact ⟨f, rfl⟩
    | _ => cases h

theorem tickerSection_answers {b : Bool} {r : Ticker × Move Ticker.Out Ticker.Frame}
    (h : (m.tickerSection i r).control = .answering (.flag b)) : r.2 = .answer (.flag b) := by
  obtain ⟨y, mv⟩ := r
  cases mv with
  | answer r =>
    cases h
    rfl
  | call o f => cases h

theorem tickerSection_unwinds {why : Panic} {r : Ticker × Move Ticker.Out Ticker.Frame}
    (h : (m.tickerSection i r).control = .unwinding why) : False := by
  obtain ⟨y, mv⟩ := r
  cases mv <;> cases h

theorem KeepsTickers.head (h : KeepsTickers m.world stack m') (hf : m.world.Free stack) :
    m'.world.Free m'.stack := by
  obtain ⟨fs, hs, hfs⟩ := h.atop
  intro f hm
  rw [hs] at hm
  cases fs with
  | nil => exact (hf f hm).mono h.keeps.job
  | cons g fs =>
    obtain rfl := Option.some.inj hm
    exact hfs _ List.mem_cons_self

theorem tickerSection_world (m : Machine) (i : Nat) (r : Ticker × Move Ticker.Out Ticker.Frame) :
    (m.tickerSection i r).world = m.world.setTicker i r.1 :=
  move_world m _ _ _ _

theorem staffed_section {r : Ticker × Move Ticker.Out Ticker.Frame} (h : w.Staffed)
    (stack : List Frame) (k : Control) (hx : w.tickers[i]? = some x) (hr : x.ticker.Same r.1) :
    (tickerSection ⟨w, stack, k⟩ i r).world.Staffed := by
  rw [tickerSection_world]
  exact h.setTicker hx hr

theorem Regular.of_free (hf : m.world.Fits (.control m.control) m.stack) (hm : m.world.Staffed)
    (htop : m.world.Free m.stack) : m.Regular where
  fits := hf
  staffed := hm
  informed := by
    intro i now rest s b hs
    exact False.elim (htop (.ticker i (.inspecting now)) (by rw [hs]; rfl))
  alert := by
    intro i now rest s n hs
    exact False.elim (htop (.ticker i (.resuming now)) (by rw [hs]; rfl))

theorem Regular.of_control (hf : m.world.Fits (.control m.control) m.stack) (hm : m.world.Staffed)
    (ha : ∀ b, m.control ≠ .answering (.flag b))
    (hc : ∀ s n, m.control ≠ .calling (.resumeAlive s n)) : m.Regular where
  fits := hf
  staffed := hm
  informed := fun _ _ _ _ b _ _ h => absurd h (ha b)
  alert := fun _ _ _ s n _ h => absurd h (hc s n)

theorem terminated_section {f g : Ticker.Frame} {y : Ticker} {k : Control} {u : Nat}
    (hs : m.stack = .ticker i f :: rest) :
    terminated ⟨m.world.setTicker i y, .ticker i g :: rest, k⟩ u = m.terminated u := by
  simp only [terminated, alive, hs, List.any_cons, Frame.subscribers]
  rfl

theorem endTask_ticker (hj : w.schedule.job? t = some (.ticker i))
    (hx : w.tickers[i]? = some x) : endTask w t =
      World.setTicker { w with schedule := w.schedule.stop t .ended } i x.ticker.finish.1 := by
  have hj' := (Schedule.job?_stop (t := t) .ended).trans hj
  obtain ⟨task, ht, hj'⟩ := Option.map_eq_some_iff.mp hj'
  unfold endTask
  dsimp only
  rw [ht]
  simp only [hj', dropJob, hx]

theorem Regular.stopped {w' : World} {r : Reply} (h : m.Regular)
    (hs : m.stack = .task t :: rest) (hl : m.world.Endures w') (hw : w'.Staffed) :
    Regular ⟨w', rest, .answering r⟩ := by
  have hfits := h.fits
  rw [hs] at hfits
  have hrest : m.world.Free rest := hfits.2.free trivial (by simp)
  have hbelow := hfits.2.of_free (y := .control (.answering r)) hrest trivial
  exact .of_free (hbelow.last hl) hw fun f hf => (hrest f hf).mono hl.job

theorem Regular.endures_endTask (h : m.Regular)
    (hj : m.world.schedule.job? t = some (.ticker i)) : m.world.Endures (endTask m.world t) := by
  obtain ⟨x, hx, -⟩ := (h.staffed.job t i).mp hj
  rw [endTask_ticker hj hx]
  refine (m.world.endures_stop t .ended).trans ?_
  exact World.endures_setTicker hx (Ticker.same_finish _)

theorem Regular.staffed_endTask (h : m.Regular)
    (hj : m.world.schedule.job? t = some (.ticker i)) : (endTask m.world t).Staffed := by
  obtain ⟨x, hx, -⟩ := (h.staffed.job t i).mp hj
  rw [endTask_ticker hj hx]
  exact h.staffed.finish hj hx

theorem Regular.goes (h : m.Regular) {f : Ticker.Frame} {r : Reply}
    (hc : m.control = .answering r) (hs : m.stack = .ticker i f :: rest)
    (hx : m.world.tickers[i]? = some x) (hf : f ≠ .waking) :
    x.ticker.Goes f.stamp (x.ticker.proceed r f) := by
  have hfits := h.fits
  rw [hc, hs] at hfits
  refine Ticker.proceed_goes r hf fun ht => ?_
  cases hfits.1 with
  | free _ hf => exact False.elim hf
  | woken => exact absurd rfl hf
  | timed => exact absurd rfl ht
  | inspected hm | resumed hm =>
    obtain ⟨y, hy, -, hph⟩ := hm
    obtain rfl := Option.some.inj (hx.symm.trans hy)
    exact hph

theorem Deed.endures (hd : Deed m m') (h : m.Regular) : m.world.Endures m'.world := by
  cases hd with
  | keepsTickers _ _ ht => exact ht.keeps.endures
  | added _ s p => exact m.world.endures_addTicker s p
  | runs hc hj hx hf =>
    rw [tickerSection_world]
    exact World.endures_setTicker hx (Ticker.run_goes _ _).same
  | aborts hc hx hf =>
    rw [tickerSection_world]
    exact World.endures_setTicker hx ⟨rfl, rfl, id, id⟩
  | serves _ _ _ hw => exact hw.endures
  | fails | inspects | resumes | returns | rebounds | breaks =>
    exact (World.KeepsTickers.refl _).endures
  | @replies i f r rest x hc hs hx =>
    rw [tickerSection_world]
    refine World.endures_setTicker hx ?_
    by_cases hf : f = .waking
    · exact hf ▸ .refl _
    · exact (h.goes hc hs hx hf).same
  | @stops t i p rest hc hs hj hp =>
    cases p with
    | ended => exact h.endures_endTask hj
    | waiting | yielded => exact m.world.endures_stop t _
  | ends hc hs hj => exact h.endures_endTask hj

theorem regular_section {r : Ticker × Move Ticker.Out Ticker.Frame} {k : Control} {now : Nat}
    (hw : w.Staffed) (hx : w.tickers[i]? = some x) (hj : w.schedule.job? t = some (.ticker i))
    (hbelow : w.Fits (.frame (.task t)) rest) (hr : x.ticker.Goes now r)
    (ha : ∀ s f, r.2 = .call (.resume s) f →
      (tickerSection ⟨w, .task t :: rest, k⟩ i r).terminated s = false) :
    (tickerSection ⟨w, .task t :: rest, k⟩ i r).Regular where
  fits := goes_fits (k := k) hx hj hbelow hr
  staffed := staffed_section hw _ _ hx hr.same
  informed := fun _ _ _ _ b _ _ hb => absurd (tickerSection_answers hb) (hr.answer_ne b)
  alert := by
    intro j now' rest' s n _ hb
    obtain ⟨f, hb⟩ := tickerSection_resumes hb
    exact ha s f hb

theorem Regular.replied {f : Ticker.Frame} {r : Reply} (h : m.Regular)
    (hc : m.control = .answering r) (hs : m.stack = .ticker i f :: rest)
    (hx : m.world.tickers[i]? = some x) (hf : f ≠ .waking) :
    (tickerSection { m with stack := rest } i (x.ticker.proceed r f)).Regular := by
  have hr := h.goes hc hs hx hf
  have hfits := h.fits
  rw [hc, hs] at hfits
  obtain ⟨t, rest', rfl, hj, hbelow⟩ := hfits.2.task hf
  refine regular_section (k := m.control) h.staffed hx hj hbelow hr fun s g hb => ?_
  obtain ⟨now', rfl, hflag, rfl, hp⟩ := Ticker.proceed_resume hb
  cases hfits.1 with
  | free _ hf => exact False.elim hf
  | inspected hm _ b =>
    obtain ⟨y, hy, -, hph⟩ := hm
    obtain rfl := Option.some.inj (hx.symm.trans hy)
    rw [hp]
    refine (terminated_section hs).trans ?_
    rw [← h.informed i now' _ _ b hs ⟨x, hx, rfl, hph⟩ hc]
    exact hflag

theorem Deed.regular (hd : Deed m m') (h : m.Regular) : m'.Regular := by
  have hfits := h.fits
  have hl := hd.endures h
  cases hd with
  | keepsTickers hs hf ht =>
    rw [hs] at hfits
    obtain ⟨y, hy⟩ := hfits.drop
    obtain ⟨gs, hgs, hg⟩ := ht.atop
    refine .of_free ?_ (ht.keeps.staffed h.staffed) (ht.head hf)
    rw [hgs]
    exact (hy.last hl).push (fun f hm => (hf f hm).mono hl.job) hg trivial
  | added hm s p =>
    exact .of_free (hfits.last hl) (h.staffed.addTicker s p)
      fun f hf => (hm.free hfits f hf).mono hl.job
  | @runs t i x hc hj hx hf =>
    have hbelow := hfits.of_free (y := .frame (.task t)) hf trivial
    exact regular_section (k := m.control) h.staffed hx hj hbelow (x.ticker.run_goes _)
      fun s f hb => absurd hb (x.ticker.enter_resume _ s f)
  | @aborts i x hc hx hf =>
    have hbelow := (hfits.of_free (y := .frame (.ticker i .waking)) hf rfl).last hl
    exact .of_control ⟨.wakes (hl.ticks i _ ⟨x, hx, rfl⟩), hbelow⟩
      (h.staffed.setTicker hx ⟨rfl, rfl, id, id⟩) (fun _ h => by cases h) (fun _ _ h => by cases h)
  | serves hs hf hm hw =>
    rw [hs] at hfits ⊢
    refine .of_control ⟨?_, hfits.2.last hl⟩ (hw.staffed h.staffed)
      (fun _ h => by cases h) (fun _ _ h => by cases h)
    rcases hf with rfl | rfl
    · exact .timed (hl.ticks _ _ hm) _
    · exact .woken (hl.ticks _ _ hm) _
  | fails hs hm why =>
    rw [hs] at hfits
    refine .of_control ?_ h.staffed (fun _ h => by cases h) (fun _ _ h => by cases h)
    rw [show (m.unwind why).stack = m.stack from rfl, hs]
    exact ⟨.failed hm why, hfits.2⟩
  | @inspects i s now rest hc hs hm =>
    rw [hs] at hfits
    refine ⟨?_, h.staffed, ?_, fun _ _ _ _ _ _ h => by cases h⟩
    · rw [show (m.answer (.flag (m.terminated s))).stack = m.stack from rfl, hs]
      exact ⟨.inspected hm now _, hfits.2⟩
    · intro j now' rest' s' b hs' hm' hb
      cases hs.symm.trans hs'
      obtain rfl := hm.unique hm'
      cases hb
      rfl
  | @resumes i s now rest hc hs hm ha =>
    rw [hs] at hfits
    refine .of_control ?_ h.staffed (fun _ h => by cases h) (fun _ _ h => by cases h)
    rw [show (m.call (.resumer s 0) (.tell s .resume)).stack = .resumer s 0 :: m.stack from rfl, hs]
    exact ⟨.free trivial trivial, .carries hm now, hfits.2⟩
  | returns hs hm =>
    rw [hs] at hfits
    refine ⟨⟨.resumed hm _, hfits.2.2⟩, h.staffed, ?_, ?_⟩
    · intro j now rest s b hs'
      cases hs'
    · intro j now rest s n _ hc
      cases hc
  | rebounds hc hs hm =>
    rw [hs] at hfits
    exact .of_control ⟨.broken hm _ _, hfits.2.2⟩ h.staffed (fun _ h => by cases h)
      (fun _ _ h => by cases h)
  | @replies i f r rest x hc hs hx =>
    by_cases hw : f = .waking
    · subst hw
      rw [hs] at hfits
      have hbelow := hfits.2.of_free (y := .control (.answering .done))
        (hfits.2.free rfl (by simp)) trivial
      exact .of_control (hbelow.last hl) (staffed_section h.staffed _ _ hx (.refl _))
        (fun _ h => by cases h) (fun _ _ h => by cases h)
    · exact h.replied hc hs hx hw
  | breaks hc hs =>
    rw [hs, hc] at hfits
    refine .of_control ?_ h.staffed (fun _ h => by cases h) (fun _ _ h => by cases h)
    cases hfits.1 with
    | free _ hf => exact False.elim hf
    | failed hm why | broken hm now why =>
      obtain ⟨t, rest', rfl, hj, hbelow⟩ := hfits.2.task Ticker.Frame.noConfusion
      exact ⟨.breaks hj _, hbelow⟩
  | @stops t i p rest hc hs hj hp =>
    cases p with
    | ended => exact h.stopped hs hl (h.staffed_endTask hj)
    | waiting | yielded => exact h.stopped hs hl (h.staffed.stop t Pause.noConfusion)
  | ends hc hs hj => exact h.stopped hs hl (h.staffed_endTask hj)

theorem Reached.regular {may : Machine → Prop} (h : Reached may m) : m.Regular := by
  refine h.invariant (P := Regular) ?_ fun hm hn _ => (hm.deed hn).regular hm
  exact .of_free trivial ⟨by simp [Schedule.job?], by simp⟩ (by simp [World.Free])

theorem Trail.regular {ms : List Machine} (h : Trail {} ms m) : m.Regular :=
  have hm : Reached (fun _ => True) m := h.reached .start fun _ => trivial
  hm.regular

end Machine
end Sluice
