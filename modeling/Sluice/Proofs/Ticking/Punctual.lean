import Mathlib
import Sluice.Proofs.Ticking.Fate

/-!
# Tickers are paced and stop

Whatever else happens in a run, a ticker calls `resume` no more often than its period
has passed since it first ran. It keeps nothing alive but for the time of such a call,
it resumes no subscriber that is terminal or gone, and the first tick that finds its
subscriber so ends it. Before that only an abort ends it, or a panic that comes out of
a resume.
-/

namespace Sluice

namespace Frame

def isTicker (i : Nat) : Frame → Bool
  | ticker j _ => j == i
  | _ => false

end Frame

namespace Schedule

theorem state_stop_ended (s : Schedule) (t : Nat) : (s.stop t .ended).state t = .ended := by
  simp only [stop, setState, state, Array.getElem?_modify]
  cases s.tasks[t]? <;> rfl

end Schedule

namespace World

variable {w : World} {i s : Nat} {x : TickerTask}

theorem Begun.subscriber (h : w.Begun i s) (hx : w.tickers[i]? = some x) :
    x.ticker.subscriber = s := by
  obtain ⟨y, hy, hs, -⟩ := h
  obtain rfl := Option.some.inj (hx.symm.trans hy)
  exact hs

theorem Fits.between {y : Above} {stack : List Frame} {f : Ticker.Frame}
    (h : w.Fits y stack) (hf : f ≠ .waking) (hm : Frame.ticker i f ∈ stack) :
    ∃ t, Frame.task t ∈ stack ∧ w.schedule.job? t = some (.ticker i) := by
  induction stack generalizing y with
  | nil => cases hm
  | cons g rest ih =>
    rcases List.mem_cons.mp hm with rfl | hm
    · obtain ⟨t, rest', rfl, hj, -⟩ := h.2.task hf
      exact ⟨t, .tail _ (.head _), hj⟩
    · obtain ⟨t, ht, hj⟩ := ih h.2 hm
      exact ⟨t, .tail _ ht, hj⟩

end World

namespace Machine

def finished (i : Nat) (m : Machine) : Bool :=
  m.world.tickers[i]?.any fun x => m.world.schedule.state x.task == .ended

/-- The machine with ticker `i` and all its calls taken out. -/
def without (i : Nat) (m : Machine) : Machine :=
  { m with
    world := { m.world with tickers := m.world.tickers.eraseIdxIfInBounds i }
    stack := m.stack.filter fun f => !f.isTicker i }

def BetweenRuns (i : Nat) (m : Machine) : Prop :=
  ∀ t, Frame.task t ∈ m.stack → m.world.schedule.job? t ≠ some (.ticker i)

/-- How ticker `i`, which resumes subscriber `s` once per `p`, has behaved in a run that passed the
machines `ms` on its way to `m`. -/
structure Punctual (i s p : Nat) (ms : List Machine) (m : Machine) : Prop where
  early : firstRun? i (ms ++ [m]) = none → (ms ++ [m]).countP (resumes i) = 0
  paced : ∀ t₀ t, firstRun? i (ms ++ [m]) = some t₀ →
    (∀ y ∈ ms ++ [m], y.world.schedule.now ≤ t) →
    (ms ++ [m]).countP (resumes i) ≤ (t - t₀) / p
  releases : m.BetweenRuns i → (∀ now, Frame.ticker i (.resuming now) ∉ m.stack) ∧
    ∀ u, (m.without i).alive u = m.alive u
  refrains : ∀ y ∈ ms ++ [m], y.resumes i = true → y.terminated s = false
  quits : (ms ++ [m]).Pairwise fun y z => y.IsTerminal s → z.resumes i = false
  stops : ∀ y ∈ ms ++ [m], y.ticks i = true → y.terminated s = true →
    (y.steps 3).finished i = true
  endures : m.finished i = true → ∃ y ∈ ms, y.Dooms i s

variable {m m' : Machine} {w : World} {rest : List Frame} {i s t : Nat} {x : TickerTask}
  {ms : List Machine}

theorem Trail.endures (h : Trail {} ms m) :
    ∀ y ∈ ms ++ [m], y.Regular ∧ y.world.Endures m.world := by
  induction h with
  | nil =>
    intro y hy
    obtain rfl := List.mem_singleton.mp hy
    exact ⟨Trail.nil.regular, (World.KeepsTickers.refl _).endures⟩
  | @next ms m m' h hn ih =>
    have hd := h.regular.deed hn
    intro y hy
    rcases List.mem_append.mp hy with hy | hy
    · exact ⟨(ih y hy).1, (ih y hy).2.trans (hd.endures h.regular)⟩
    · obtain rfl := List.mem_singleton.mp hy
      exact ⟨hd.regular h.regular, (World.KeepsTickers.refl _).endures⟩

theorem Trail.terminal (h : Trail {} ms m) :
    (ms ++ [m]).Pairwise fun y z => y.IsTerminal s → z.IsTerminal s := by
  induction h with
  | nil => exact List.pairwise_singleton _ _
  | @next ms m m' h hn ih =>
    refine List.pairwise_append.mpr ⟨ih, List.pairwise_singleton _ _, fun y hy z hz hterm => ?_⟩
    obtain rfl := List.mem_singleton.mp hz
    rcases List.mem_append.mp hy with hy' | hy'
    · exact IsTerminal.next ((List.pairwise_append.mp ih).2.2 y hy' m List.mem_cons_self hterm) hn
    · obtain rfl := List.mem_singleton.mp hy'
      exact hterm.next hn

theorem Regular.resuming (h : m.Regular) (hr : m.resumes i = true) :
    ∃ s, m.world.Begun i s ∧ m.terminated s = false := by
  have hfits := h.fits
  unfold resumes at hr
  split at hr
  · rename_i u n j now rest hc hs
    obtain rfl : j = i := by simpa using hr
    have halert := h.alert j now rest u n hs hc
    rw [hc, hs] at hfits
    cases hfits.1 with
    | free _ hf => exact False.elim hf
    | resumes hm => exact ⟨u, hm, halert⟩
  · cases hr

theorem Regular.ticking (h : m.Regular) (ht : m.ticks i = true) :
    ∃ s, m.world.Begun i s ∧ (m.terminated s = true → (m.steps 3).finished i = true) := by
  have hfits := h.fits
  unfold ticks at ht
  split at ht
  · rename_i u j now rest hc hs
    obtain rfl : j = i := by simpa using ht
    rw [hc, hs] at hfits
    cases hfits.1 with
    | free _ hf => exact False.elim hf
    | inspects hm =>
      refine ⟨u, hm, fun hterm => ?_⟩
      obtain ⟨v, rest', rfl, hj, -⟩ := hfits.2.task Ticker.Frame.noConfusion
      obtain ⟨x, hx, hv⟩ := (h.staffed.job v j).mp hj
      have h1 : m.step = m.answer (.flag true) := by
        rw [← hterm]
        unfold step
        rw [hc]
        rfl
      have h2 : (m.answer (.flag true)).step = ⟨m.world.setTicker j x.ticker.finish.1,
          .task v :: rest', .answering (.pause .ended)⟩ := by
        simp only [step, answer, hs, proceed, proceedTicker, hx]
        rfl
      have h3 : m.steps 3 = ⟨endTask (m.world.setTicker j x.ticker.finish.1) v, rest',
          .answering .done⟩ := by
        simp only [steps, h1, h2]
        rfl
      have hx' := World.setTicker_self (s := x.ticker.finish.1) hx
      rw [h3, endTask_ticker (w := m.world.setTicker j x.ticker.finish.1) hj hx']
      simp only [finished, World.getElem?_setTicker, hx', Option.map_some, if_pos, Option.any_some]
      exact beq_iff_eq.mpr (hv ▸ Schedule.state_stop_ended _ _)
  · cases ht

theorem alive_without (m : Machine) (i u : Nat) : (m.without i).alive u = m.alive u := by
  unfold alive without
  congr 1
  rw [List.any_filter]
  congr 1
  funext f
  cases f with
  | ticker j f => simp [Frame.subscribers]
  | _ => rfl

theorem Trail.pace (h : Trail {} ms m) (hx : m.world.tickers[i]? = some x)
    (hp : 0 < x.ticker.period) (ht : ∀ y ∈ ms, y.world.schedule.now ≤ t) :
    x.ticker.phase.Paced x.ticker.period t ((ms ++ [m]).countP (resumes i)) (firstRun? i ms) :=
  ((paced_iff hx).mp (h.paced ht).1 hp).fewer (Nat.le_add_right _ _)

theorem Trail.early (h : Trail {} ms m) (hx : m.world.tickers[i]? = some x)
    (hp : 0 < x.ticker.period) (hnone : firstRun? i (ms ++ [m]) = none) :
    (ms ++ [m]).countP (resumes i) = 0 := by
  rw [firstRun?_append] at hnone
  obtain ⟨hnone, -⟩ := Option.or_eq_none_iff.mp hnone
  -- Whatever time has passed by now will do: there is no run to count it from.
  have ht : ∀ y ∈ ms, y.world.schedule.now ≤ (ms.map (·.world.schedule.now)).sum :=
    fun y hy => List.le_sum_of_mem (List.mem_map_of_mem hy)
  exact (hnone ▸ h.pace hx hp ht).none

theorem Trail.resumes_le (h : Trail {} ms m) (hx : m.world.tickers[i]? = some x)
    (hp : 0 < x.ticker.period) {t₀ : Nat} (hsome : firstRun? i (ms ++ [m]) = some t₀)
    (ht : ∀ y ∈ ms, y.world.schedule.now ≤ t) :
    (ms ++ [m]).countP (resumes i) ≤ (t - t₀) / x.ticker.period := by
  have hpace := h.pace hx hp ht
  cases hms : firstRun? i ms with
  | none => exact (hms ▸ hpace).none ▸ Nat.zero_le _
  | some t₁ =>
    rw [firstRun?_append, hms] at hsome
    cases hsome
    exact (hms ▸ hpace).le_div hp

/-- Every ticker of every run that has a period is punctual. -/
theorem ticker_punctual (h : Trail {} ms m) (hx : m.world.tickers[i]? = some x)
    (hp : 0 < x.ticker.period) :
    Punctual i x.ticker.subscriber x.ticker.period ms m := by
  have ho := h.regular
  have hendures := h.endures
  have refrains (y : Machine) (hy : y ∈ ms ++ [m]) (hr : y.resumes i = true) :
      y.terminated x.ticker.subscriber = false := by
    obtain ⟨hoy, hl⟩ := hendures y hy
    obtain ⟨s, hs, hterm⟩ := hoy.resuming hr
    exact (hl.begun i s hs).subscriber hx ▸ hterm
  refine ⟨h.early hx hp, fun t₀ t hsome ht => ?_, fun hb => ⟨fun now hm => ?_, ?_⟩, refrains,
    ?_, fun y hy ht => ?_, fun hfin => ?_⟩
  · exact h.resumes_le hx hp hsome fun y hy => ht y (List.mem_append_left _ hy)
  · obtain ⟨t, ht, hj⟩ := ho.fits.between Ticker.Frame.noConfusion hm
    exact hb t ht hj
  · exact m.alive_without i
  · have hstays := h.terminal (s := x.ticker.subscriber)
    refine hstays.imp_of_mem fun {y z} _ hz hyz hterm => Bool.eq_false_iff.mpr fun hr => ?_
    exact Bool.false_ne_true ((refrains z hz hr).symm.trans (hyz hterm).terminated)
  · obtain ⟨hoy, hl⟩ := hendures y hy
    obtain ⟨s, hs, hstop⟩ := hoy.ticking ht
    exact (hl.begun i s hs).subscriber hx ▸ hstop
  · have hend : m.world.schedule.state x.task = .ended := by
      simpa [finished, hx] using hfin
    exact (h.fated hx hp).ended (ho.staffed.ended i x hx hend)

/-- The ticker of a sink resumes it once when its period has passed. -/
theorem ticker_punctual_sink : ∃ ms m, Trail {} ms m ∧ Punctual 0 0 10 ms m ∧
    firstRun? 0 (ms ++ [m]) = some 0 ∧ m.world.schedule.now = 10 ∧
    (ms ++ [m]).countP (resumes 0) = 1 ∧ m.finished 0 = false := by
  have hstart : Trail {} [] {} := .nil
  have hsink := hstart.next (.change ⟨_, rfl⟩ (.subscriber .sink))
  have howned := hsink.next (.change ⟨_, rfl⟩ (.own 0))
  have hticker := howned.next (.change ⟨_, rfl⟩ (.ticker 0 10))
  have hfirst := (hticker.next (.begin (t := 0) ⟨_, rfl⟩ (.head _))).steps 5
  have hlater := (hfirst.next (.invoke (c := .advanceClock 10) ⟨_, rfl⟩ trivial)).steps 19
  have hpunctual := ticker_punctual (i := 0) hlater rfl (Nat.zero_lt_succ 9)
  exact ⟨_, _, hlater, hpunctual, rfl, rfl, rfl, rfl⟩

def raised (m : Machine) : Bool :=
  match m.control with
  | .unwinding (.raised _) => true
  | _ => false

/-- A sink is subscribed through an audit that allows it one value and raises at the next. The sink
gets its value and wants no more, until its ticker resumes it: the ticker ends with its sink alive
and subscribed, though nobody aborted it and no callback raised. -/
theorem breach_ends_ticker : ∃ ms m, Trail {} ms m ∧
    m.world.tickers[0]?.map (fun x => (x.ticker.subscriber, x.ticker.period)) = some (0, 10) ∧
    (∀ y ∈ ms ++ [m], y.raised = false) ∧ (∀ y ∈ ms ++ [m], y.aborts 0 = false) ∧
    (∀ y ∈ ms ++ [m], y.world.tickers.size = 1 → y.terminated 0 = false) ∧
    m.finished 0 = true := by
  have hstart : Trail {} [] {} := .nil
  have hsubject := hstart.next (.change ⟨_, rfl⟩ .subject)
  have hreport := hsubject.next
    (.change ⟨_, rfl⟩ (.report { Audit.Limits.unchecked with budget := some .one }))
  have hsink := hreport.next (.change ⟨_, rfl⟩ (.subscriber .sink))
  have howned := hsink.next (.change ⟨_, rfl⟩ (.own 0))
  have hattached :=
    (howned.next (.invoke (c := .subscribe ⟨[0], .subject 0⟩ 0) ⟨_, rfl⟩ trivial)).steps 6
  have hsent := (hattached.next (.invoke (c := .send 0 1) ⟨_, rfl⟩ trivial)).steps 3
  have hpaused := (hsent.next (.reply ⟨_, rfl⟩ (.flag false))).steps 3
  have hticker := hpaused.next (.change ⟨_, rfl⟩ (.ticker 0 10))
  have hfirst := (hticker.next (.begin (t := 0) ⟨_, rfl⟩ (.head _))).steps 5
  have hlater := (hfirst.next (.invoke (c := .advanceClock 10) ⟨_, rfl⟩ trivial)).steps 19
  refine ⟨_, _, hlater, rfl, ?_, ?_, ?_, rfl⟩
  all_goals decide +kernel

end Machine
end Sluice
