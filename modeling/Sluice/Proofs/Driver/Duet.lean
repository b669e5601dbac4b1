import Sluice.Proofs.Driver.Bursts
import Sluice.Proofs.Driver.Waiting

/-!
# Duets

A duet is one driver with its task, and with a subscriber and a stream that act on
nothing but that driver and each other. What they do when the driver calls them
depends on the state that they share. They may use the subscription meanwhile, wake
the task, or panic, which ends the task. The runtime runs the task whenever it is
due: when it was spawned, woken, or has yielded.
-/

namespace Sluice.Driver

variable {ρ E : Type}

inductive Act
  | request (d : Demand)
  | cancel

def Act.input : Act → In ρ
  | request d => .request d
  | cancel => .cancel

def Out.isAsked : Out ρ → Bool
  | wake | spawn => false
  | _ => true

/-- What comes of a call: what is done with the subscription in the course of it, whether the task
is woken, and the reply, unless the call panics. -/
structure Reaction (E : Type) where
  next : E
  acts : List Act := []
  wakes : Bool := false
  reply : Option Reply

def Asleep (react : E → Out ρ → Reaction E) (e : E) : Prop :=
  react e .poll = { next := e, reply := some (.poll .pending) }

/-- A subscriber and a stream. A stream that leaves a poll pending wakes the task before it has
something else to say. -/
structure Partner (ρ E : Type) where
  react : E → Out ρ → Reaction E
  wakes : ∀ e r, (react e .poll).reply = some r → r.polled = .pending →
    (react e .poll).wakes = true ∨ Asleep react (react e .poll).next

/-- What is done from outside while no call is under way, by those who feed the stream or hold the
subscriber. -/
structure Errand (P : Partner ρ E) where
  acts : List Act
  change : E → E
  wakes : Bool
  rouses : ∀ e, Asleep P.react e → wakes = true ∨ Asleep P.react (change e)

structure Duet (ρ E : Type) where
  play : Play ρ
  partner : E
  /-- The reply to the call under way, unless it panics. -/
  reply : Option Reply := none
  due : Bool := false
  failed : Bool := false

namespace Duet

def serve (c : Duet ρ E) : Duet ρ E :=
  match c.play.frames with
  | .passing :: fs =>
    { c with
      play := c.play.advance (.reply .done) fs (component.proceed c.play.state .done .passing)
      due := true }
  | _ => c

def act (c : Duet ρ E) (a : Act) : Duet ρ E :=
  let r := component.enter c.play.state a.input
  let c' := { c with play := c.play.advance (.enter a.input) c.play.frames r }
  match r.2 with
  | .call _ _ => c'.serve
  | .answer _ => c'

def acts (c : Duet ρ E) (as : List Act) : Duet ρ E := as.foldl act c

def hear (P : Partner ρ E) (c : Duet ρ E) : Move (Out ρ) (Frame ρ) → Duet ρ E
  | .answer (.pause .yielded) => { c with due := true }
  | .answer _ => c
  | .call .wake _ | .call .spawn _ => c.serve
  | .call o _ =>
    let r := P.react c.partner o
    acts { c with partner := r.next, reply := r.reply, due := c.due || r.wakes } r.acts

def turn (P : Partner ρ E) (c : Duet ρ E) (x : Turn (In ρ)) (fs : List (Frame ρ))
    (r : Driver ρ × Move (Out ρ) (Frame ρ)) : Duet ρ E :=
  hear P { c with play := c.play.advance x fs r, reply := none } r.2

def run (P : Partner ρ E) (c : Duet ρ E) : Duet ρ E :=
  turn P { c with due := false } (.enter .run) [] (component.enter c.play.state .run)

def step (P : Partner ρ E) (c : Duet ρ E) : Duet ρ E :=
  match c.play.frames with
  | [] => if c.due && !c.failed then c.run P else c
  | f :: fs =>
    match c.reply with
    | some r => c.turn P (.reply r) fs (component.proceed c.play.state r f)
    | none => { c with play := c.play.unwind fs, failed := true }

structure Idle (c : Duet ρ E) : Prop where
  frames : c.play.frames = []
  due : c.due = true → c.failed = true

def stir {P : Partner ρ E} (c : Duet ρ E) (x : Errand P) : Duet ρ E :=
  { c with partner := x.change c.partner, due := c.due || x.wakes }

def errand {P : Partner ρ E} (c : Duet ρ E) (x : Errand P) : Duet ρ E := (c.stir x).acts x.acts

/-- The tasks run until they are idle. -/
def Settles (P : Partner ρ E) (c c' : Duet ρ E) : Prop := ∃ n, (step P)^[n] c = c' ∧ c'.Idle

/-- The tasks run until they are idle, then after each errand again. -/
inductive Plays (P : Partner ρ E) : Duet ρ E → List (Errand P) → Duet ρ E → Prop
  | settle {c c' : Duet ρ E} (h : Settles P c c') : Plays P c [] c'
  | errand {c c' c'' : Duet ρ E} {x : Errand P} {xs : List (Errand P)} (h : Settles P c c')
      (h' : Plays P (c'.errand x) xs c'') : Plays P c (x :: xs) c''

section Acts

variable {P : Partner ρ E} {c d : Duet ρ E}

structure Acted (c d : Duet ρ E) : Prop where
  rest : d = { c with play := d.play, due := d.due }
  frames : d.play.frames = c.play.frames
  phase : d.play.state.phase = c.play.state.phase
  ok : d.play.state.Ok
  waiter : d.play.state.waiter = c.play.state.waiter ∨
    c.play.state.waiter = .registered ∧ d.play.state.waiter = .notified ∧ d.due = true
  due : c.due = true → d.due = true

theorem act_acted (h : c.play.state.Ok) (a : Act) : Acted c (c.act a) := by
  have hn : Nudged c.play.state (component.enter c.play.state a.input).1
      (component.enter c.play.state a.input).2 ∧ (component.enter c.play.state a.input).1.Ok := by
    cases a with
    | request d => exact onRequest_nudged h d
    | cancel => exact onCancel_nudged h
  obtain ⟨hn, hok⟩ := hn
  unfold act
  generalize component.enter c.play.state a.input = r at hn hok ⊢
  obtain ⟨t, mv⟩ := r
  cases hn with
  | woken hs ht hp => exact ⟨rfl, rfl, hp, hok, .inr ⟨hs, ht, rfl⟩, fun _ => rfl⟩
  | noted ht hp => exact ⟨rfl, rfl, hp, hok, .inl ht, id⟩

theorem Acted.trans {b : Duet ρ E} (h : Acted c d) (h' : Acted d b) : Acted c b where
  rest := by rw [h'.rest, h.rest]
  frames := h'.frames.trans h.frames
  phase := h'.phase.trans h.phase
  ok := h'.ok
  waiter := by
    rcases h.waiter with hw | ⟨hs, hn, hd⟩
    · rcases h'.waiter with hw' | ⟨hs', hn', hd'⟩
      · exact .inl (hw'.trans hw)
      · exact .inr ⟨hw ▸ hs', hn', hd'⟩
    · rcases h'.waiter with hw' | ⟨hs', -, -⟩
      · exact .inr ⟨hs, hw'.trans hn, h'.due hd⟩
      · cases hn.symm.trans hs'
  due := fun hd => h'.due (h.due hd)

theorem acts_acted (h : c.play.state.Ok) (as : List Act) : Acted c (c.acts as) := by
  induction as generalizing c with
  | nil => exact ⟨rfl, rfl, rfl, h, .inl rfl, id⟩
  | cons a as ih =>
    have ha := act_acted h a
    exact ha.trans (ih ha.ok)

end Acts

section Places

variable {P : Partner ρ E} {c : Duet ρ E}

inductive Still (P : Partner ρ E) (c : Duet ρ E) : Prop
  | failed (h : c.failed = true)
  | ended (h : c.play.state.phase = .ended)
  | parked (hp : c.play.state.phase = .parked) (hw : c.play.state.waiter = .registered)
  | polling (hp : c.play.state.phase = .polling) (hw : c.play.state.waiter = .registered)
      (ha : Asleep P.react c.partner)

/-- Where a duet can be between two steps. -/
inductive Place (P : Partner ρ E) (c : Duet ρ E) : List (Frame ρ) → Prop
  | top (hr : c.reply = none) (hu : c.failed = false → c.play.state.phase ≠ .unstarted)
      (hw : c.failed = false → c.play.state.phase = .parked ∨ c.play.state.phase = .polling →
        c.play.state.waiter ≠ .absent)
      (h : c.due = true ∨ Still P c) : Place P c []
  | opening (dest : ρ) (hw : c.play.state.waiter = .absent) : Place P c [.opening dest]
  | delivering (hw : c.play.state.waiter = .absent) : Place P c [.delivering]
  | concluding : Place P c [.concluding]
  | polling (hp : c.play.state.phase = .polling) (hw : c.play.state.waiter ≠ .absent)
      (hn : c.play.state.waiter = .notified → c.due = true)
      (hr : ∀ r, c.reply = some r → r.polled = .pending →
        c.due = true ∨ Asleep P.react c.partner) : Place P c [.polling]

structure Sound (P : Partner ρ E) (c : Duet ρ E) : Prop where
  ok : c.play.state.Ok
  place : Place P c c.play.frames
  alive : c.play.frames ≠ [] → c.failed = false

theorem Still.acted {d : Duet ρ E} (h : Still P c) (ha : Acted c d) :
    d.due = true ∨ Still P d := by
  have hrest := ha.rest
  have waits (hw : c.play.state.waiter = .registered) :
      d.due = true ∨ d.play.state.waiter = .registered := by
    rcases ha.waiter with hs | ⟨-, -, hd⟩
    · exact .inr (hs.trans hw)
    · exact .inl hd
  cases h with
  | failed h => exact .inr (.failed (by rw [hrest]; exact h))
  | ended h => exact .inr (.ended (ha.phase.trans h))
  | parked hp hw => exact (waits hw).imp_right (.parked (ha.phase.trans hp))
  | polling hp hw hs =>
    refine (waits hw).imp_right fun hw => .polling (ha.phase.trans hp) hw ?_
    rw [hrest]
    exact hs

theorem Place.acted {d : Duet ρ E} {fs : List (Frame ρ)} (h : Place P c fs) (ha : Acted c d) :
    Place P d fs := by
  have hfailed : d.failed = c.failed := by rw [ha.rest]
  have present (hw : c.play.state.waiter ≠ .absent) : d.play.state.waiter ≠ .absent := by
    rcases ha.waiter with hs | ⟨-, hn, -⟩
    · exact hs ▸ hw
    · exact fun he => by cases hn.symm.trans he
  have absent (hw : c.play.state.waiter = .absent) : d.play.state.waiter = .absent := by
    rcases ha.waiter with hs | ⟨hr, -, -⟩
    · exact hs.trans hw
    · cases hr.symm.trans hw
  cases h with
  | top hr hu hw h =>
    rw [← hfailed, ← ha.phase] at hu
    refine .top (by rw [ha.rest]; exact hr) hu (fun hf hp => ?_) ?_
    · exact present (hw (hfailed ▸ hf) (ha.phase ▸ hp))
    · exact h.elim (fun hd => .inl (ha.due hd)) fun hs => hs.acted ha
  | opening dest hw => exact .opening dest (absent hw)
  | delivering hw => exact .delivering (absent hw)
  | concluding => exact .concluding
  | polling hp hw hn hr =>
    refine .polling (ha.phase.trans hp) (present hw) (fun he => ?_) (fun r hre hpend => ?_)
    · rcases ha.waiter with hs | ⟨-, -, hd⟩
      · exact ha.due (hn (hs.symm.trans he))
      · exact hd
    · rw [ha.rest] at hre ⊢
      exact (hr r hre hpend).imp_left ha.due

theorem Sound.acted {d : Duet ρ E} (h : Sound P c) (ha : Acted c d) : Sound P d where
  ok := ha.ok
  place := by
    rw [ha.frames]
    exact h.place.acted ha
  alive := by
    rw [ha.frames, ha.rest]
    exact h.alive

theorem Sound.called {o : Out ρ} {f : Frame ρ} {fs : List (Frame ρ)} {t : Driver ρ}
    {x : Turn (In ρ)} (ho : o.isAsked = true) (hok : t.Ok) (hfail : c.failed = false)
    (h : Place P { c with
        play := c.play.advance x fs (t, .call o f)
        partner := (P.react c.partner o).next
        reply := (P.react c.partner o).reply
        due := c.due || (P.react c.partner o).wakes } (f :: fs)) :
    Sound P (c.turn P x fs (t, .call o f)) := by
  have hear : c.turn P x fs (t, .call o f) = acts { c with
        play := c.play.advance x fs (t, .call o f)
        partner := (P.react c.partner o).next
        reply := (P.react c.partner o).reply
        due := c.due || (P.react c.partner o).wakes } (P.react c.partner o).acts := by
    cases o with
    | wake | spawn => cases ho
    | _ => rfl
  rw [hear]
  exact Sound.acted ⟨hok, h, fun _ => hfail⟩ (acts_acted hok _)

theorem Sound.stepped {t : Driver ρ} {mv : Move (Out ρ) (Frame ρ)} {x : Turn (In ρ)}
    (h : Stepped t mv) (hok : t.Ok) (hfail : c.failed = false) :
    Sound P (c.turn P x [] (t, mv)) := by
  cases h with
  | ended hp hw =>
    refine ⟨hok, .top rfl (fun _ h => ?_) (fun _ h => ?_) (.inr (.ended hp)), fun h => absurd rfl h⟩
    · cases hp.symm.trans h
    · rcases h with h | h <;> cases hp.symm.trans h
  | yielded hp hw =>
    refine ⟨hok, .top rfl (fun _ h => ?_) (fun _ h => ?_) (.inl rfl), fun h => absurd rfl h⟩
    · cases hp.symm.trans h
    · rcases h with h | h <;> cases hp.symm.trans h
  | parked hp hw =>
    refine ⟨hok, .top rfl (fun _ h => ?_) (fun _ _ h => ?_) (.inr (.parked hp hw)),
      fun h => absurd rfl h⟩
    · cases hp.symm.trans h
    · cases hw.symm.trans h
  | polling hp hw =>
    refine .called rfl hok hfail (.polling hp (fun h => ?_) (fun h => ?_) fun r hr hpend => ?_)
    · cases hw.symm.trans h
    · cases hw.symm.trans h
    · exact (P.wakes _ r hr hpend).imp_left fun hw => by simp [hw]
  | delivering hp hw => exact .called rfl hok hfail (.delivering hw)
  | concluding hp hw => exact .called rfl hok hfail .concluding

theorem Sound.opened {t : Driver ρ} {mv : Move (Out ρ) (Frame ρ)} {x : Turn (In ρ)}
    (h : Opened t mv) (hok : t.Ok) : Sound P (c.turn P x [] (t, mv)) := by
  cases h with
  | stopped hp hw =>
    refine ⟨hok, .top rfl (fun _ h => ?_) (fun _ h => ?_) (.inr (.ended hp)), fun h => absurd rfl h⟩
    · cases hp.symm.trans h
    · rcases h with h | h <;> cases hp.symm.trans h
  | started hp hw =>
    refine ⟨hok, .top rfl (fun _ h => ?_) (fun _ h => ?_) (.inl rfl), fun h => absurd rfl h⟩
    · cases hp.symm.trans h
    · rcases h with h | h <;> cases hp.symm.trans h

theorem Sound.stir (h : Sound P c) (x : Errand P) : Sound P (c.stir x) := by
  obtain ⟨hok, hpl, hal⟩ := h
  refine ⟨hok, ?_, hal⟩
  have due (h : c.due = true) : (c.stir x).due = true := by simp [Duet.stir, h]
  have asleep (h : Asleep P.react c.partner) :
      (c.stir x).due = true ∨ Asleep P.react (c.stir x).partner :=
    (x.rouses _ h).imp_left fun hw => by simp [Duet.stir, hw]
  change Place P (c.stir x) c.play.frames
  generalize c.play.frames = fs at hpl
  cases hpl with
  | top hr hu hw h =>
    refine .top hr hu hw ?_
    rcases h with hd | hs
    · exact .inl (due hd)
    · cases hs with
      | failed h => exact .inr (.failed h)
      | ended h => exact .inr (.ended h)
      | parked hp hw => exact .inr (.parked hp hw)
      | polling hp hw ha => exact (asleep ha).imp_right (.polling hp hw)
  | opening dest hw => exact .opening dest hw
  | delivering hw => exact .delivering hw
  | concluding => exact .concluding
  | polling hp hw hn hr =>
    refine .polling hp hw (fun h => due (hn h)) fun r hre hpend => ?_
    exact (hr r hre hpend).elim (fun h => .inl (due h)) asleep

theorem Sound.errand (h : Sound P c) (x : Errand P) : Sound P (c.errand x) :=
  (h.stir x).acted (acts_acted (h.stir x).ok x.acts)

theorem Sound.alone (h : Sound P c) {f : Frame ρ} {fs : List (Frame ρ)}
    (hf : c.play.frames = f :: fs) : fs = [] := by
  have hpl := h.place
  rw [hf] at hpl
  cases hpl <;> rfl

theorem Sound.waits {r : Reply} (h : Sound P c) (hf : c.play.frames = [.polling])
    (hr : c.reply = some r) (hpend : r.polled = .pending) :
    Sound P (c.turn P (.reply r) [] (c.play.state, .answer (.pause .waiting))) := by
  have hpl := h.place
  rw [hf] at hpl
  cases hpl with
  | polling hp hw hn hre =>
    refine ⟨h.ok, .top rfl (fun _ h => ?_) (fun _ _ => hw) ?_, fun h => absurd rfl h⟩
    · cases hp.symm.trans h
    · rcases hre r hr hpend with hd | ha
      · exact .inl hd
      · cases hwait : c.play.state.waiter with
        | absent => exact absurd hwait hw
        | registered => exact .inr (.polling hp hwait ha)
        | notified => exact .inl (hn hwait)

theorem Sound.replied {f : Frame ρ} {r : Reply} (h : Sound P c) (hf : c.play.frames = [f])
    (hr : c.reply = some r) :
    Sound P (c.turn P (.reply r) [] (component.proceed c.play.state r f)) := by
  have hfail := h.alive (by simp [hf])
  have hpl := h.place
  rw [hf] at hpl
  cases hpl with
  | opening dest hw =>
    obtain ⟨ho, hok⟩ := onOpened_opened hw
    exact .opened ho hok
  | delivering hw =>
    obtain ⟨hst, hok⟩ := onDelivered_stepped hw r.granted
    exact .stepped hst hok hfail
  | concluding =>
    obtain ⟨hst, hok⟩ := finish_stepped c.play.state
    exact .stepped hst hok hfail
  | polling hp =>
    by_cases hpend : r.polled = .pending
    · have hsec : component.proceed c.play.state r .polling =
          (c.play.state, .answer (.pause .waiting)) := by
        change c.play.state.onPolled r.polled = _
        rw [hpend]
        rfl
      rw [hsec]
      exact h.waits hf hr hpend
    · obtain ⟨hst, hok⟩ := onPolled_stepped hpend hp
      exact .stepped hst hok hfail

theorem Sound.run (h : Sound P c) (hf : c.play.frames = []) (hfail : c.failed = false) :
    Sound P (c.run P) := by
  have hpl := h.place
  rw [hf] at hpl
  cases hpl with
  | top _ hu hw =>
    obtain ⟨hst, hok⟩ := onRun_stepped h.ok (hu hfail) (hw hfail)
    exact .stepped (c := { c with due := false }) hst hok hfail

theorem Sound.step (h : Sound P c) : Sound P (c.step P) := by
  unfold Duet.step
  cases hfs : c.play.frames with
  | nil =>
    dsimp only
    split
    · rename_i hdue
      obtain ⟨-, hfail⟩ : c.due = true ∧ c.failed = false := by simpa using hdue
      exact h.run hfs hfail
    · exact h
  | cons f fs =>
    obtain rfl := h.alone hfs
    dsimp only
    cases hr : c.reply with
    | none =>
      exact ⟨h.ok, .top rfl (fun h => by cases h) (fun h => by cases h) (.inr (.failed rfl)),
        fun h => absurd rfl h⟩
    | some r => exact h.replied hfs hr

theorem Sound.still (h : Sound P c) (hi : c.Idle) : Still P c := by
  have hpl := h.place
  rw [hi.frames] at hpl
  cases hpl with
  | top _ _ _ hs => exact hs.elim (fun hd => .failed (hi.due hd)) id

def InSession (pace : Pace) (c : Duet ρ E) : Prop :=
  Session.Reaches component RunsAlone (.start { pace := pace }) c.play

variable {pace : Pace}

theorem InSession.serve (h : InSession pace c) : InSession pace c.serve := by
  unfold Duet.serve
  split
  · rename_i fs hfs
    exact Session.Reaches.reply h trivial hfs
  · exact h

theorem InSession.act (h : InSession pace c) (a : Act) : InSession pace (c.act a) := by
  have hin : Session.Reaches component RunsAlone (.start { pace := pace })
      (c.play.advance (.enter a.input) c.play.frames (component.enter c.play.state a.input)) :=
    .turn (x := .enter a.input) h (by cases a <;> trivial) rfl
  unfold Duet.act
  dsimp only
  split
  · exact InSession.serve hin
  · exact hin

theorem InSession.acts (h : InSession pace c) (as : List Act) : InSession pace (c.acts as) :=
  List.foldlRecOn as Duet.act h fun _ h a _ => h.act a

theorem InSession.hear (h : InSession pace c) (mv : Move (Out ρ) (Frame ρ)) :
    InSession pace (c.hear P mv) := by
  unfold Duet.hear
  split
  · exact h
  · exact h
  · exact h.serve
  · exact h.serve
  · refine InSession.acts ?_ _
    exact h

theorem InSession.enter (h : InSession pace c) {i : In ρ} (hi : RunsAlone c.play (.enter i)) :
    InSession pace (c.turn P (.enter i) c.play.frames (component.enter c.play.state i)) := by
  refine InSession.hear ?_ _
  exact .turn (x := .enter i) h hi rfl

theorem InSession.step (h : InSession pace c) : InSession pace (c.step P) := by
  unfold Duet.step
  split
  · rename_i hf
    split
    · have hin : InSession pace { c with due := false } := h
      have hrun := hin.enter (P := P) (i := .run)
        (show c.play.frames.filter _ = [] by rw [hf]; rfl)
      rwa [show ({ c with due := false } : Duet ρ E).play.frames = [] from hf] at hrun
    · exact h
  · rename_i f fs hf
    split
    · rename_i r _
      refine InSession.hear ?_ _
      exact Session.Reaches.reply h trivial hf
    · exact Session.Reaches.raise h trivial hf

theorem InSession.errand (h : InSession pace c) (x : Errand P) : InSession pace (c.errand x) := by
  have hs : InSession pace (c.stir x) := h
  exact hs.acts x.acts

end Places

end Duet

end Sluice.Driver
