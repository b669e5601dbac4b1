import Sluice.Proofs.Driver.Duet

/-!
# Yields are unseen

A driver that yields takes its next unit of demand when it runs again, and one that
does not takes it at once. In between nobody does anything, so two duets that differ
in their pace are the same again after the run, and they are the same whenever
neither has anything left to do.
-/

namespace Sluice.Driver

variable {ρ E : Type}

/-- What a subscriber and a stream see of a driver: what is done with the subscription, what the
stream yields, and what reaches the subscriber. -/
inductive Sight (ρ : Type)
  | requested (d : Demand)
  | cancelled
  | took (x : Poll)
  | handed (dest : ρ) (v : Value)
  | returned (d : Demand)
  | concluded (dest : ρ) (c : Ending)

def turnShows : Turn (In ρ) → List (Sight ρ)
  | .enter (.request d) => [.requested d]
  | .enter .cancel => [.cancelled]
  | .reply (.demand d) => [.returned d]
  | .reply (.poll x) => if x.isPending then [] else [.took x]
  | _ => []

def moveShows : Option (Move (Out ρ) (Frame ρ)) → List (Sight ρ)
  | some (.call (.deliver dest v) _) => [.handed dest v]
  | some (.call (.conclude dest c) _) => [.concluded dest c]
  | _ => []

def seen (log : List (Note ρ)) : List (Sight ρ) :=
  log.flatMap fun e => moveShows e.move ++ turnShows e.turn

def atPace (s : Driver ρ) (q : Pace) : Driver ρ := { s with pace := q }

def credited (s : Driver ρ) (d : Demand) : Driver ρ :=
  { s with demand := s.demand + d, delivered := s.delivered + 1 }

section Sections

variable (s : Driver ρ) (q : Pace)

theorem select_atPace : (s.atPace q).select = (s.select.1.atPace q, s.select.2) := by
  obtain ⟨pace, dest, d, c, w, ph, n⟩ := s
  simp only [select, atPace]
  rcases w.await with ⟨awaited, w'⟩
  cases awaited <;> cases c <;> rfl

theorem seek_atPace : (s.atPace q).seek = (s.seek.1.atPace q, s.seek.2) := by
  obtain ⟨pace, dest, d, c, w, ph, n⟩ := s
  cases c with
  | true => rfl
  | false =>
    simp only [seek, atPace, Bool.false_eq_true, if_false]
    cases d.takeOne? with
    | some rest => exact select_atPace ⟨pace, dest, rest, false, w, ph, n⟩ q
    | none => rfl

theorem seek_seeking : seek { s with phase := .seeking } = s.seek := by
  obtain ⟨pace, dest, d, c, w, ph, n⟩ := s
  cases c with
  | true => rfl
  | false =>
    simp only [seek, Bool.false_eq_true, if_false]
    cases d.takeOne? with
    | some rest =>
      simp only [select]
      rcases w.await with ⟨awaited, w'⟩
      cases awaited <;> rfl
    | none => rfl

theorem notify_atPace : (s.atPace q).notify = (s.notify.1.atPace q, s.notify.2) := by
  simp only [notify, atPace]
  split <;> rfl

theorem onRequest_atPace (d : Demand) :
    (s.atPace q).onRequest d = ((s.onRequest d).1.atPace q, (s.onRequest d).2) := by
  by_cases hd : d.isZero || s.cancelled
  · simp only [onRequest, atPace, hd, if_true]
  · simp only [onRequest, atPace, hd, Bool.false_eq_true, if_false]
    exact notify_atPace { s with demand := s.demand + d } q

theorem onCancel_atPace : (s.atPace q).onCancel = (s.onCancel.1.atPace q, s.onCancel.2) := by
  obtain ⟨pace, dest, d, c, w, ph, n⟩ := s
  cases c with
  | true => rfl
  | false => exact notify_atPace ⟨pace, dest, d, true, w, ph, n⟩ q

theorem onRun_atPace : (s.atPace q).onRun = (s.onRun.1.atPace q, s.onRun.2) := by
  obtain ⟨pace, dest, d, c, w, ph, n⟩ := s
  cases ph with
  | unstarted | ended => rfl
  | seeking => exact seek_atPace ⟨pace, dest, d, c, w, .seeking, n⟩ q
  | parked =>
    simp only [onRun, atPace]
    cases w.consume? with
    | none => rfl
    | some w' => exact seek_atPace ⟨pace, dest, d, c, w', .parked, n⟩ q
  | polling =>
    simp only [onRun, atPace]
    cases w.consume? with
    | none => rfl
    | some w' =>
      cases c with
      | true => rfl
      | false => exact select_atPace ⟨pace, dest, d, false, w', .polling, n⟩ q

theorem enter_atPace (i : In ρ) : component.enter (s.atPace q) i =
    ((component.enter s i).1.atPace q, (component.enter s i).2) := by
  cases i with
  | subscribe dest => rfl
  | request d => exact s.onRequest_atPace q d
  | cancel => exact s.onCancel_atPace q
  | run => exact s.onRun_atPace q

theorem onPolled_atPace (x : Poll) :
    (s.atPace q).onPolled x = ((s.onPolled x).1.atPace q, (s.onPolled x).2) := by
  obtain ⟨pace, dest, d, c, w, ph, n⟩ := s
  cases x <;> cases dest <;> cases c <;> rfl

theorem onOpened_atPace : (s.atPace q).onOpened = (s.onOpened.1.atPace q, s.onOpened.2) := by
  obtain ⟨pace, dest, d, c, w, ph, n⟩ := s
  cases c <;> rfl

theorem proceed_atPace (r : Reply) {f : Frame ρ} (hf : f ≠ .delivering) :
    component.proceed (s.atPace q) r f =
      ((component.proceed s r f).1.atPace q, (component.proceed s r f).2) := by
  cases f with
  | delivering => exact absurd rfl hf
  | opening dest => exact s.onOpened_atPace q
  | polling => exact s.onPolled_atPace q r.polled
  | passing | concluding => rfl

theorem onDelivered_yields {d : Demand} (h : (s.delivered + 1) % s.pace.burst = 0) :
    s.onDelivered d = ({ s.credited d with phase := .seeking }, .answer (.pause .yielded)) :=
  if_pos h

theorem onDelivered_seeks {d : Demand} (h : ¬(s.delivered + 1) % s.pace.burst = 0) :
    s.onDelivered d = (s.credited d).seek := if_neg h

end Sections

namespace Duet

variable {P : Partner ρ E} {c d : Duet ρ E}

/-- Two duets that are the same but for the pace, for the runs that the task has had, and for
whether it is due. -/
structure Twin (c d : Duet ρ E) : Prop where
  rest : d = { c with play := d.play, due := d.due }
  state : d.play.state = c.play.state.atPace d.play.state.pace
  frames : d.play.frames = c.play.frames
  seen : seen d.play.log = seen c.play.log

theorem Twin.refl (c : Duet ρ E) : Twin c c := ⟨rfl, rfl, rfl, rfl⟩

theorem Twin.symm (h : Twin c d) : Twin d c where
  rest := by rw [h.rest]
  state := by
    rw [h.state]
    rfl
  frames := h.frames.symm
  seen := h.seen.symm

theorem Twin.trans {b : Duet ρ E} (h : Twin c d) (h' : Twin d b) : Twin c b where
  rest := by rw [h'.rest, h.rest]
  state := by
    rw [h'.state, h.state]
    rfl
  frames := h'.frames.trans h.frames
  seen := h'.seen.trans h.seen

theorem Twin.set_due (h : Twin c d) (a b : Bool) :
    Twin { c with due := a } { d with due := b } :=
  ⟨by rw [h.rest], h.state, h.frames, h.seen⟩

theorem Twin.advance (h : Twin c d) (x : Turn (In ρ)) (fs : List (Frame ρ))
    (r : Driver ρ × Move (Out ρ) (Frame ρ)) :
    Twin { c with play := c.play.advance x fs r }
      { d with play := d.play.advance x fs (r.1.atPace d.play.state.pace, r.2) } where
  rest := by rw [h.rest]
  state := rfl
  frames := rfl
  seen := congrArg ((moveShows (some r.2) ++ turnShows x) ++ ·) h.seen

theorem Twin.serve (h : Twin c d) : Twin c.serve d.serve := by
  unfold Duet.serve
  rw [h.frames]
  split
  · exact ⟨by rw [h.rest], h.state, rfl, h.seen⟩
  · exact h

theorem Twin.act (h : Twin c d) (a : Act) : Twin (c.act a) (d.act a) := by
  have ha := h.advance (.enter a.input) c.play.frames (component.enter c.play.state a.input)
  unfold Duet.act
  rw [h.state, enter_atPace, h.frames]
  dsimp only at ha ⊢
  split
  · exact ha.serve
  · exact ha

theorem Twin.acts (h : Twin c d) (as : List Act) : Twin (c.acts as) (d.acts as) :=
  List.foldl_rel h fun a _ _ _ h => h.act a

theorem Twin.called (h : Twin c d) (x : Reaction E) :
    let after (b : Duet ρ E) : Duet ρ E :=
      Duet.acts { b with partner := x.next, reply := x.reply, due := b.due || x.wakes } x.acts
    Twin (after c) (after d) := by
  have hx : Twin { c with partner := x.next, reply := x.reply, due := c.due || x.wakes }
      { d with partner := x.next, reply := x.reply, due := d.due || x.wakes } :=
    ⟨by rw [h.rest], h.state, h.frames, h.seen⟩
  exact hx.acts x.acts

theorem Twin.hear (h : Twin c d) (mv : Move (Out ρ) (Frame ρ)) :
    Twin (c.hear P mv) (d.hear P mv) := by
  have asked (o : Out ρ) := h.called (P.react c.partner o)
  have hpartner : d.partner = c.partner := by rw [h.rest]
  cases mv with
  | answer r =>
    cases r with
    | pause p =>
      cases p with
      | yielded => exact h.set_due true true
      | waiting | ended => exact h
    | _ => exact h
  | call o f =>
    unfold Duet.hear
    rw [hpartner]
    cases o with
    | wake | spawn => exact h.serve
    | poll => exact asked .poll
    | handOver dest => exact asked (.handOver dest)
    | deliver dest v => exact asked (.deliver dest v)
    | conclude dest e => exact asked (.conclude dest e)

theorem Twin.turn (h : Twin c d) (x : Turn (In ρ)) (fs : List (Frame ρ))
    (r : Driver ρ × Move (Out ρ) (Frame ρ)) :
    Twin (c.turn P x fs r) (d.turn P x fs (r.1.atPace d.play.state.pace, r.2)) := by
  have ha : Twin { c with play := c.play.advance x fs r, reply := none }
      { d with play := d.play.advance x fs (r.1.atPace d.play.state.pace, r.2), reply := none } :=
    ⟨by rw [h.rest], rfl, rfl, (h.advance x fs r).seen⟩
  exact ha.hear r.2

theorem Twin.run (h : Twin c d) : Twin (c.run P) (d.run P) := by
  have ht := (h.set_due false false).turn (P := P) (.enter .run) []
    (component.enter c.play.state .run)
  unfold Duet.run
  rw [h.state, enter_atPace]
  exact ht

theorem step_run (hf : c.play.frames = []) (hi : ¬c.Idle) : c.step P = c.run P := by
  have hdue : c.due = true ∧ c.failed = false := by
    by_contra hn
    refine hi ⟨hf, fun hd => ?_⟩
    simpa [hd] using hn
  unfold Duet.step
  rw [hf, hdue.1, hdue.2]
  rfl

theorem step_reply {f : Frame ρ} {fs : List (Frame ρ)} {r : Reply} (hf : c.play.frames = f :: fs)
    (hr : c.reply = some r) :
    c.step P = c.turn P (.reply r) fs (component.proceed c.play.state r f) := by
  unfold Duet.step
  rw [hf, hr]

theorem Twin.catch_up (h : Twin c d) (r : Reply) (t : Driver ρ) :
    Twin ((c.turn P (.reply r) [] (t, .answer (.pause .yielded))).run P)
      (d.turn P (.reply r) []
        ((component.enter t .run).1.atPace d.play.state.pace, (component.enter t .run).2)) := by
  -- The run that follows a yield makes up for it.
  generalize hx : component.enter t .run = x
  have ha : Twin
      { c with
        play := (c.play.advance (.reply r) [] (t, .answer (.pause .yielded))).advance
          (.enter .run) [] x
        reply := none
        due := false }
      { d with
        play := d.play.advance (.reply r) [] (x.1.atPace d.play.state.pace, x.2)
        reply := none } := by
    refine ⟨by rw [h.rest], rfl, rfl, ?_⟩
    change (moveShows (some x.2) ++ turnShows (.reply r)) ++ Driver.seen d.play.log =
      (moveShows (some x.2) ++ []) ++ (turnShows (.reply r) ++ Driver.seen c.play.log)
    rw [h.seen, List.append_nil, List.append_assoc]
  subst hx
  exact ha.hear (component.enter t .run).2

theorem Twin.overtakes {r : Reply} (h : Twin c d) (hf : c.play.frames = [.delivering])
    (hr : c.reply = some r) (hfail : c.failed = false)
    (hc : (c.play.state.delivered + 1) % c.play.state.pace.burst = 0)
    (hd : ¬(d.play.state.delivered + 1) % d.play.state.pace.burst = 0) :
    ¬(c.step P).Idle ∧ Twin ((c.step P).step P) (d.step P) := by
  have hyields : c.step P = c.turn P (.reply r) []
      ({ c.play.state.credited r.granted with phase := .seeking }, .answer (.pause .yielded)) := by
    rw [step_reply hf hr]
    exact congrArg (c.turn P (.reply r) []) (onDelivered_yields _ hc)
  have hseeks : d.step P = d.turn P (.reply r) []
      ((c.play.state.credited r.granted).seek.1.atPace d.play.state.pace,
        (c.play.state.credited r.granted).seek.2) := by
    rw [step_reply (h.frames.trans hf) (by rw [h.rest, hr])]
    refine congrArg (d.turn P (.reply r) []) ((onDelivered_seeks _ hd).trans ?_)
    rw [h.state]
    exact seek_atPace (c.play.state.credited r.granted) d.play.state.pace
  have hidle : ¬(c.step P).Idle := by
    rw [hyields]
    intro hi
    cases hfail.symm.trans (hi.due rfl)
  refine ⟨hidle, ?_⟩
  rw [step_run (by rw [hyields]; rfl) hidle, hyields, hseeks, ← seek_seeking]
  exact h.catch_up r _

theorem Twin.returns {f : Frame ρ} (h : Twin c d) (hf : c.play.frames = [f])
    (hp : ∀ r, c.reply = some r → component.proceed d.play.state r f =
      ((component.proceed c.play.state r f).1.atPace d.play.state.pace,
        (component.proceed c.play.state r f).2)) : Twin (c.step P) (d.step P) := by
  have hreply : d.reply = c.reply := by rw [h.rest]
  cases hr : c.reply with
  | none =>
    unfold Duet.step
    rw [h.frames, hf, hreply, hr]
    exact ⟨by rw [h.rest], h.state, rfl, h.seen⟩
  | some r =>
    rw [step_reply hf hr, step_reply (h.frames.trans hf) (hreply.trans hr), hp r hr]
    exact h.turn _ _ _

theorem Twin.returns_alike {f : Frame ρ} (h : Twin c d) (hf : c.play.frames = [f])
    (hdel : f ≠ .delivering) : Twin (c.step P) (d.step P) := by
  refine h.returns hf fun r _ => ?_
  rw [h.state]
  exact proceed_atPace c.play.state d.play.state.pace r hdel

/-- How the next steps of two twins meet again. -/
inductive Meets (P : Partner ρ E) (c d : Duet ρ E) : Prop
  | level (h : Twin (c.step P) (d.step P))
  | late (hi : ¬(c.step P).Idle) (h : Twin ((c.step P).step P) (d.step P))
  | early (hi : ¬(d.step P).Idle) (h : Twin (c.step P) ((d.step P).step P))

theorem Twin.delivered (h : Twin c d) (hf : c.play.frames = [.delivering])
    (hfail : c.failed = false) : Meets P c d := by
  have hreply : d.reply = c.reply := by rw [h.rest]
  have hfail' : d.failed = false := by rw [h.rest, hfail]
  cases hr : c.reply with
  | none => exact .level (h.returns hf fun r hs => by cases hr.symm.trans hs)
  | some r =>
    by_cases hc : (c.play.state.delivered + 1) % c.play.state.pace.burst = 0
    · by_cases hd : (d.play.state.delivered + 1) % d.play.state.pace.burst = 0
      · refine .level (h.returns hf fun r' _ => (onDelivered_yields _ hd).trans ?_)
        rw [show component.proceed c.play.state r' .delivering = _ from onDelivered_yields _ hc,
          h.state]
        rfl
      · obtain ⟨hidle, ht⟩ := h.overtakes (P := P) hf hr hfail hc hd
        exact .late hidle ht
    · by_cases hd : (d.play.state.delivered + 1) % d.play.state.pace.burst = 0
      · obtain ⟨hidle, ht⟩ := h.symm.overtakes (P := P) (h.frames.trans hf) (hreply.trans hr)
          hfail' hd hc
        exact .early hidle ht.symm
      · refine .level (h.returns hf fun r' _ => (onDelivered_seeks _ hd).trans ?_)
        rw [show component.proceed c.play.state r' .delivering = _ from onDelivered_seeks _ hc,
          h.state]
        exact seek_atPace (c.play.state.credited r'.granted) d.play.state.pace

theorem Twin.meets (h : Twin c d) (hc : Sound P c) (hi : ¬c.Idle) (hj : ¬d.Idle) :
    Meets P c d := by
  cases hf : c.play.frames with
  | nil =>
    refine .level ?_
    rw [step_run hf hi, step_run (h.frames.trans hf) hj]
    exact h.run
  | cons f fs =>
    have hfail := hc.alive (by simp [hf])
    obtain rfl := hc.alone hf
    by_cases hdel : f = .delivering
    · exact h.delivered (hdel ▸ hf) hfail
    · exact .level (h.returns_alike hf hdel)

theorem Idle.step (h : c.Idle) : c.step P = c := by
  unfold Duet.step
  rw [h.frames]
  refine if_neg fun hn => ?_
  obtain ⟨hdue, hfail⟩ : c.due = true ∧ c.failed = false := by simpa using hn
  cases hfail.symm.trans (h.due hdue)

theorem Settles.later {c' : Duet ρ E} (h : Settles P (c.step P) c') : Settles P c c' := by
  obtain ⟨n, rfl, hi⟩ := h
  exact ⟨n + 1, rfl, hi⟩

theorem Settles.unique {c' c'' : Duet ρ E} (h : Settles P c c') (h' : Settles P c c'') :
    c' = c'' := by
  obtain ⟨n, rfl, hi⟩ := h
  obtain ⟨m, rfl, hj⟩ := h'
  have fixed {k l : Nat} (hk : ((Duet.step P)^[k] c).Idle) (hkl : k ≤ l) :
      (Duet.step P)^[l] c = (Duet.step P)^[k] c := by
    obtain ⟨j, rfl⟩ := Nat.exists_eq_add_of_le hkl
    rw [Nat.add_comm, Function.iterate_add_apply]
    exact Function.iterate_fixed hk.step j
  rcases Nat.le_total n m with hnm | hmn
  · exact (fixed hi hnm).symm
  · exact fixed hj hmn

theorem Still.twin (h : Twin c d) (hs : Still P c) : Still P d := by
  have hphase : d.play.state.phase = c.play.state.phase := by rw [h.state]; rfl
  have hwaiter : d.play.state.waiter = c.play.state.waiter := by rw [h.state]; rfl
  cases hs with
  | failed hf => exact .failed (by rw [h.rest]; exact hf)
  | ended hp => exact .ended (hphase.trans hp)
  | parked hp hw => exact .parked (hphase.trans hp) (hwaiter.trans hw)
  | polling hp hw ha =>
    refine .polling (hphase.trans hp) (hwaiter.trans hw) ?_
    rw [h.rest]
    exact ha

theorem Sound.unanswered (h : Sound P c) (hf : c.play.frames = []) : c.reply = none := by
  have hpl := h.place
  rw [hf] at hpl
  cases hpl with
  | top hr => exact hr

theorem waits_consume {s : Driver ρ} (hw : s.waiter = .registered) : s.wakeup.consume? = none := by
  unfold Wakeup.consume?
  rw [show s.wakeup.waiter = .registered from hw]

theorem Sound.stops {p : Pause} (h : Sound P c) (hf : c.play.frames = []) (hi : ¬c.Idle)
    (hp : p ≠ .yielded)
    (hr : component.enter c.play.state .run = (c.play.state, .answer (.pause p))) :
    ∃ c', Settles P c c' ∧ Twin c c' := by
  have hstep : c.step P = { c with
      play := c.play.advance (.enter .run) [] (c.play.state, .answer (.pause p))
      reply := none
      due := false } := by
    rw [step_run hf hi]
    unfold Duet.run
    rw [hr]
    cases p with
    | yielded => exact absurd rfl hp
    | waiting | ended => rfl
  refine ⟨_, ⟨1, hstep, ⟨rfl, fun h => by cases h⟩⟩, ?_⟩
  exact ⟨by rw [h.unanswered hf], rfl, hf.symm, rfl⟩

theorem Sound.polls (h : Sound P c) (hf : c.play.frames = []) (hi : ¬c.Idle)
    (ha : Asleep P.react c.partner)
    (hr : component.enter c.play.state .run = (c.play.state, .call .poll .polling)) :
    ∃ c', Settles P c c' ∧ Twin c c' := by
  have hstep : c.step P = { c with
      play := c.play.advance (.enter .run) [] (c.play.state, .call .poll .polling)
      reply := some (.poll .pending)
      due := false } := by
    rw [step_run hf hi]
    unfold Duet.run
    rw [hr]
    simp only [Duet.turn, Duet.hear, show P.react c.partner .poll = _ from ha]
    rfl
  refine ⟨_, ⟨2, congrArg (Duet.step P) hstep, ⟨rfl, fun h => by cases h⟩⟩, ?_⟩
  exact ⟨by rw [h.unanswered hf]; rfl, rfl, hf.symm, rfl⟩

theorem Sound.rests (h : Sound P c) (hf : c.play.frames = []) (hs : Still P c) :
    ∃ c', Settles P c c' ∧ Twin c c' := by
  by_cases hi : c.Idle
  · exact ⟨c, ⟨0, rfl, hi⟩, .refl c⟩
  have hrun : component.enter c.play.state .run = c.play.state.onRun := rfl
  cases hs with
  | failed hfail => exact absurd ⟨hf, fun _ => hfail⟩ hi
  | ended hp =>
    refine h.stops (p := .ended) hf hi Pause.noConfusion (hrun.trans ?_)
    simp only [onRun, hp]
  | parked hp hw =>
    refine h.stops (p := .waiting) hf hi Pause.noConfusion (hrun.trans ?_)
    simp only [onRun, hp, waits_consume hw]
  | polling hp hw ha =>
    refine h.polls hf hi ha (hrun.trans ?_)
    simp only [onRun, hp, waits_consume hw]

theorem Twin.settle {n : Nat} (h : Twin c d) (hc : Sound P c) (hd : Sound P d)
    (hn : ((Duet.step P)^[n] c).Idle) :
    ∃ d', Settles P d d' ∧ Twin ((Duet.step P)^[n] c) d' := by
  induction n using Nat.strongRecOn generalizing c d with
  | ind n ih =>
    by_cases hi : c.Idle
    · rw [Function.iterate_fixed hi.step]
      obtain ⟨d', hs, ht⟩ := hd.rests (h.frames.trans hi.frames) ((hc.still hi).twin h)
      exact ⟨d', hs, h.trans ht⟩
    by_cases hj : d.Idle
    · obtain ⟨c', hs, ht⟩ := hc.rests (h.frames.symm.trans hj.frames) ((hd.still hj).twin h.symm)
      rw [Settles.unique ⟨n, rfl, hn⟩ hs]
      exact ⟨d, ⟨0, rfl, hj⟩, ht.symm.trans h⟩
    -- Neither is idle: both go on, and the one that yields runs once more.
    cases n with
    | zero => exact absurd hn hi
    | succ k =>
      cases h.meets hc hi hj with
      | level ht =>
        obtain ⟨d', hs, ht'⟩ := ih k (Nat.lt_succ_self k) ht hc.step hd.step hn
        exact ⟨d', hs.later, ht'⟩
      | early hidle ht =>
        obtain ⟨d', hs, ht'⟩ := ih k (Nat.lt_succ_self k) ht hc.step hd.step.step hn
        exact ⟨d', hs.later.later, ht'⟩
      | late hidle ht =>
        cases k with
        | zero => exact absurd hn hidle
        | succ j =>
          obtain ⟨d', hs, ht'⟩ := ih j (by omega) ht hc.step.step hd.step hn
          exact ⟨d', hs.later, ht'⟩

theorem Sound.settles {c' : Duet ρ E} (h : Sound P c) (hs : Settles P c c') : Sound P c' := by
  obtain ⟨n, rfl, -⟩ := hs
  exact Function.Iterate.rec (Sound P) h (fun _ h => h.step) n

theorem Plays.unique {xs : List (Errand P)} {c' c'' : Duet ρ E} (h : Plays P c xs c')
    (h' : Plays P c xs c'') : c' = c'' := by
  induction h with
  | settle h =>
    cases h' with
    | settle h' => exact h.unique h'
  | errand h _ ih =>
    cases h' with
    | errand h' hp' => exact ih (h.unique h' ▸ hp')

theorem Twin.errand (h : Twin c d) (x : Errand P) : Twin (c.errand x) (d.errand x) := by
  have hs : Twin (c.stir x) (d.stir x) := by
    refine ⟨?_, h.state, h.frames, h.seen⟩
    unfold Duet.stir
    rw [h.rest]
  exact hs.acts x.acts

theorem Twin.plays {xs : List (Errand P)} {c' : Duet ρ E} (h : Twin c d) (hc : Sound P c)
    (hd : Sound P d) (hp : Plays P c xs c') : ∃ d', Plays P d xs d' ∧ Twin c' d' := by
  induction hp generalizing d with
  | settle hs =>
    obtain ⟨n, rfl, hi⟩ := hs
    obtain ⟨d', hs', ht⟩ := h.settle hc hd hi
    exact ⟨d', .settle hs', ht⟩
  | @errand c c' c'' x xs hs _ ih =>
    have hc' := hc.settles hs
    obtain ⟨n, rfl, hi⟩ := hs
    obtain ⟨d', hs', ht⟩ := h.settle hc hd hi
    obtain ⟨d'', hp', ht'⟩ := ih (ht.errand x) (hc'.errand x) ((hd.settles hs').errand x)
    exact ⟨d'', .errand hs' hp', ht'⟩

end Duet

/-- A stream of queued values, for a subscriber that requests one value when it is given its
subscription and one in the midst of each value. -/
def queued : Partner Unit (List Value) where
  react
    | v :: vs, .poll => { next := vs, reply := some (.poll (.value v)) }
    | [], .poll => { next := [], reply := some (.poll .pending) }
    | vs, .handOver _ => { next := vs, acts := [.request .one], reply := some .done }
    | vs, .deliver _ _ => { next := vs, acts := [.request .one], reply := some (.demand .zero) }
    | vs, _ => { next := vs, reply := some .done }
  wakes := by
    intro vs r hr hpend
    cases vs with
    | nil => exact .inr rfl
    | cons v vs =>
      cases hr
      cases hpend

end Sluice.Driver
