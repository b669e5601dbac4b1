import Sluice.Proofs.Machine.OutlineStep
import Sluice.Proofs.Machine.Wakeups

/-!
# Every move is a step of the outline

What is left are the replies, the ends of subscriptions by their publishers, and the
coming and going of handles.
-/

namespace Sluice
namespace Machine

variable {m m' : Machine} {rest : List Frame} {r : Reply} {n d t : Nat} {x : StreamTask}

theorem opened_sequence {q : Sequence Outlet} (hq : m.world.sequences[n]? = some q) (dest : Outlet)
    (v : Option Value) :
    (m.sequenceSection n (q.onOpened dest v)).outline =
        ⟨m.world.roll.setSequence n (some dest.subscriber), m.bonds,
          .calling (handOver dest (.sequence n))⟩ ∨
      (m.sequenceSection n (q.onOpened dest v)).outline =
        ⟨m.world.roll, .sequence n (.refusing dest) :: m.bonds,
          .calling (handOver dest .inert)⟩ := by
  cases v with
  | some v =>
    refine .inl ?_
    rw [outline, sequenceSection, Sequence.onOpened, move, World.roll_setSequence]
    rfl
  | none =>
    refine .inr ?_
    rw [outline, sequenceSection, Sequence.onOpened, move, World.roll_keepSequence hq rfl]
    rfl

theorem sequence_outlineStep {f : Sequence.Frame Outlet} (hc : m.control = .answering r)
    (hs : m.stack = .sequence n f :: rest) :
    m.outline.Step (proceedSequence { m with stack := rest } n f r).outline := by
  unfold proceedSequence
  split
  · next q hq =>
    have hkeeps (h : SequenceKeepsRoll n q (q.proceed r f))
        (hf : (Frame.sequence n f).binds = false) :
        m.outline.Step (sequenceSection { m with stack := rest } n (q.proceed r f)).outline :=
      outlineStep_of_keepsRoll hc hs hf
        (sequenceSection_keepsRoll (m := { m with stack := rest }) hq h)
    cases f with
    | opening dest =>
      rw [outline_pop hc hs rfl]
      rcases opened_sequence (m := { m with stack := rest }) hq dest r.item? with ho | ho
      · exact ho ▸ .opened
      · exact ho ▸ .exhausted
    | refusing dest =>
      rw [outline_pop hc hs rfl]
      exact outlineStep_of_eq (.rejected rfl) (World.roll_keepSequence hq rfl) rfl rfl
    | drawing dest => exact hkeeps (drawn_keepsRoll n q dest r) rfl
    | delivering dest => exact hkeeps (onDelivered_keepsRoll n q r.granted) rfl
    | peeking =>
      simp only [Sequence.proceed, Sequence.onPeeked] at hkeeps ⊢
      split
      · next v hv =>
        rw [hv] at hkeeps
        exact hkeeps (drain_keepsRoll n { q with ahead := some v }) rfl
      · split
        · next dest hdest =>
          have hheld : m.world.roll.sequences[n]? = some (some dest.subscriber) := by
            rw [World.roll_sequence hq, Sequence.held, hdest]
            rfl
          rw [outline_skip hc hs rfl]
          exact outlineStep_of_eq (.finished hheld) (World.roll_setSequence ..) rfl rfl
        · exact outlineStep_of_keepsRoll hc hs rfl
            (sequenceSection_keepsRoll (m := { m with stack := rest })
              (r := ({ q with emitting := false }, .answer .done)) hq ⟨rfl, trivial⟩)
    | passing dest => exact hkeeps ⟨rfl, trivial⟩ rfl
  · by_cases hf : (Frame.sequence n f).binds = true
    · rw [outline_pop hc hs hf]
      exact outlineStep_of_eq (.lapsed trivial rfl) rfl rfl rfl
    · exact outlineStep_of_keepsRoll hc hs (by simpa using hf)
        (answer_keepsRoll { m with stack := rest } _)

theorem complete_outlineStep {c : Ending} (hc : m.control = .calling (.complete n c)) :
    m.outline.Step (m.enterSubject n (.complete c)).outline := by
  have hidle : m.control.Idles m.world.roll := by
    rw [hc]
    trivial
  unfold enterSubject
  split
  · next s hs =>
    simp only [Subject.enter]
    split
    · exact (subjectSection_keepsRoll (r := (s, .answer .done)) hs rfl trivial).outlineStep hidle
    · have hclosed : Subject.roll { s with completion := some c, registered := [] } =
          s.roll.close := rfl
      have hcon :=
        Subject.concludes { s with completion := some c, registered := [] } c s.registered
      generalize Subject.concludeAll _ c s.registered = r at hcon ⊢
      obtain ⟨u, mv⟩ := r
      rw [outline_of hc]
      cases hcon with
      | exhausted =>
        exact outlineStep_of_eq (.closed (World.roll_subject hs)) (World.roll_setSubject ..) rfl rfl
      | @conclude _ _ e dest left _ _ he =>
        have hroll := (World.roll_setSubject m.world n _).trans
          (congrArg _ (Subject.roll_setEntry { s with completion := some c, registered := [] } e
            ⟨none, left⟩))
        have hheld : s.roll.entries[e]? = some (some dest.subscriber) := by
          rw [Subject.roll, Array.getElem?_map, he]
          rfl
        exact outlineStep_of_eq (.completes (World.roll_subject hs) hheld) hroll rfl rfl
  · exact (answer_keepsRoll m _).outlineStep hidle

theorem subject_outlineStep {f : Subject.Frame Outlet} (hc : m.control = .answering r)
    (hs : m.stack = .subject n f :: rest) :
    m.outline.Step (proceedSubject { m with stack := rest } n f r).outline := by
  unfold proceedSubject
  split
  · next s hsub =>
    cases f with
    | passing dest =>
      exact outlineStep_of_keepsRoll hc hs rfl
        (subjectSection_keepsRoll (m := { m with stack := rest }) (r := (s, .answer .done)) hsub rfl
          trivial)
    | refusing dest c =>
      rw [outline_pop hc hs rfl]
      exact outlineStep_of_eq (.rejected rfl) (World.roll_keepSubject hsub rfl) rfl rfl
    | sending dest e v ws sent =>
      exact outlineStep_of_keepsRoll hc hs rfl
        (broadcast_keepsRoll (m := { m with stack := rest }) hsub (s.roll_grant e r.granted) v
          (sent + 1) ws)
    | completing dest c ws =>
      have hcon := Subject.concludes s c ws
      simp only [Subject.proceed]
      generalize Subject.concludeAll s c ws = r at hcon ⊢
      obtain ⟨u, mv⟩ := r
      rw [outline_pop hc hs rfl]
      cases hcon with
      | exhausted =>
        exact outlineStep_of_eq (.lapsed trivial rfl) (World.roll_keepSubject hsub rfl) rfl rfl
      | @conclude _ _ e dest' left _ _ he =>
        have hroll := (World.roll_setSubject m.world n _).trans
          (congrArg _ (Subject.roll_setEntry s e ⟨none, left⟩))
        have hheld : s.roll.entries[e]? = some (some dest'.subscriber) := by
          rw [Subject.roll, Array.getElem?_map, he]
          rfl
        exact outlineStep_of_eq (.goesOn (World.roll_subject hsub) hheld) hroll rfl rfl
  · by_cases hf : (Frame.subject n f).binds = true
    · rw [outline_pop hc hs hf]
      exact outlineStep_of_eq (.lapsed trivial rfl) rfl rfl rfl
    · exact outlineStep_of_keepsRoll hc hs (by simpa using hf)
        (answer_keepsRoll { m with stack := rest } _)

/-- What a section of a driver's task can do: no more than any section, stop the driver, or
complete its subscriber. -/
inductive DriverTurn (d : Nat) (s t : Driver Outlet) :
    Move (Driver.Out Outlet) (Driver.Frame Outlet) → Prop
  | keepsRoll {mv : Move (Driver.Out Outlet) (Driver.Frame Outlet)}
      (h : DriverKeepsRoll d s (t, mv)) : DriverTurn d s t mv
  | stopped {r : Reply} (hs : t.subscriber = none) (hc : t.cancelled = s.cancelled)
      (he : t.phase = .ended) : DriverTurn d s t (.answer r)
  | concludes {dest : Outlet} {c : Ending} (hs : s.subscriber = some dest)
      (hkept : t.subscriber = s.subscriber) (hc : t.cancelled = s.cancelled)
      (he : t.phase = .ended ↔ s.phase = .ended) :
      DriverTurn d s t (.call (.conclude dest c) .concluding)

theorem DriverTurn.of_like {s s' t : Driver Outlet}
    {mv : Move (Driver.Out Outlet) (Driver.Frame Outlet)} (h : DriverTurn d s' t mv)
    (hs : s'.subscriber = s.subscriber) (hc : s'.cancelled = s.cancelled)
    (hp : s'.phase = .ended ↔ s.phase = .ended) : DriverTurn d s t mv := by
  cases h with
  | keepsRoll h =>
    exact .keepsRoll ⟨h.subscriber.trans hs, h.cancelled.trans hc, h.ended.trans hp, h.move⟩
  | stopped hnone hcan he => exact .stopped hnone (hcan.trans hc) he
  | concludes hsome hkept hcan he =>
    exact .concludes (hs ▸ hsome) (hkept.trans hs) (hcan.trans hc) (he.trans hp)

section Turns

variable {s : Driver Outlet}

theorem select_turn (d : Nat) (he : s.phase ≠ .ended) :
    DriverTurn d s s.select.1 s.select.2 := by
  unfold Driver.select
  split
  · split
    · exact .stopped rfl rfl rfl
    · exact .keepsRoll ⟨rfl, rfl, by simp [he], rfl, rfl⟩
  · exact .keepsRoll ⟨rfl, rfl, by simp [he], rfl, rfl⟩

theorem seek_turn (d : Nat) (he : s.phase ≠ .ended) : DriverTurn d s s.seek.1 s.seek.2 := by
  unfold Driver.seek
  split
  · exact .stopped rfl rfl rfl
  · split
    · next rest _ => exact (select_turn (s := { s with demand := rest }) d he).of_like rfl rfl .rfl
    · exact .keepsRoll ⟨rfl, rfl, by simp [he], trivial⟩

theorem onRun_turn (d : Nat) (s : Driver Outlet) : DriverTurn d s s.onRun.1 s.onRun.2 := by
  have hsame {r : Reply} : DriverTurn d s s (.answer r) := .keepsRoll ⟨rfl, rfl, .rfl, trivial⟩
  unfold Driver.onRun
  split
  · exact hsame
  · exact hsame
  · next hp => exact seek_turn d (by simp [hp])
  · next hp =>
    have hlive : s.phase ≠ .ended := by simp [hp]
    split
    · next w _ => exact (seek_turn (s := { s with wakeup := w }) d hlive).of_like rfl rfl .rfl
    · exact hsame
  · next hp =>
    have hlive : s.phase ≠ .ended := by simp [hp]
    split
    · next w _ =>
      split
      · exact .stopped rfl rfl rfl
      · exact (select_turn (s := { s with wakeup := w }) d hlive).of_like rfl rfl .rfl
    · exact .keepsRoll ⟨rfl, rfl, .rfl, rfl, rfl⟩

theorem onPolled_turn (d : Nat) (s : Driver Outlet) (p : Poll) :
    DriverTurn d s (s.onPolled p).1 (s.onPolled p).2 := by
  cases p with
  | pending => exact .keepsRoll ⟨rfl, rfl, .rfl, trivial⟩
  | value v =>
    simp only [Driver.onPolled]
    split
    · exact .keepsRoll ⟨rfl, rfl, .rfl, rfl, rfl⟩
    · exact .stopped rfl rfl rfl
  | failure e =>
    simp only [Driver.onPolled]
    split
    · next hs => exact .concludes hs rfl rfl .rfl
    · exact .stopped rfl rfl rfl
  | closed =>
    simp only [Driver.onPolled]
    split
    · next hs => exact .concludes hs rfl rfl .rfl
    · exact .stopped rfl rfl rfl

theorem onDelivered_turn (d : Nat) (he : s.phase ≠ .ended) (dem : Demand) :
    DriverTurn d s (s.onDelivered dem).1 (s.onDelivered dem).2 := by
  simp only [Driver.onDelivered]
  split
  · exact .keepsRoll ⟨rfl, rfl, by simp [he], trivial⟩
  · exact (seek_turn (s := { s with
      demand := s.demand + dem, delivered := s.delivered + 1 }) d he).of_like rfl rfl .rfl

end Turns

theorem DriverTurn.outlineStep {s : Driver Outlet}
    {mv : Move (Driver.Out Outlet) (Driver.Frame Outlet)} {k : Control} {b : List Frame}
    (h : DriverTurn d x.driver s mv) (hx : m.world.drivers[d]? = some x) (hb : m.bonds = b)
    (hk : k.Idles m.world.roll) :
    Outline.Step ⟨m.world.roll, b, k⟩ (m.driverSection d (s, mv)).outline := by
  subst hb
  cases h with
  | keepsRoll h =>
    have hu : KeepsRoll m.world.roll m.bonds (m.driverSection d (s, mv)) :=
      driverSection_keepsRoll hx h
    exact outlineStep_of_eq (.keepsRoll hk hu.control) hu.roll hu.bonds rfl
  | stopped hs hc he =>
    have hroll : StreamTask.roll { x with driver := s } = x.roll.stop := by
      simp only [StreamTask.roll, DriverRoll.stop, hs, hc, he, Option.map_none, beq_self_eq_true]
    exact outlineStep_of_eq (.stopped (World.roll_driver hx) hk rfl)
      ((World.roll_setDriver hx s).trans (congrArg _ hroll)) rfl rfl
  | concludes hs hkept hc he =>
    have hheld : x.roll.subscriber = some _ := congrArg (Option.map Outlet.subscriber) hs
    exact outlineStep_of_eq (.concludes (World.roll_driver hx) hheld hk)
      (World.roll_keepDriver hx (StreamTask.roll_eq hkept hc he)) rfl rfl

theorem driver_outlineStep {f : Driver.Frame Outlet} (h : m.Attentive)
    (hc : m.control = .answering r) (hs : m.stack = .driver d f :: rest) :
    m.outline.Step (proceedDriver { m with stack := rest } d f r).outline := by
  have hl := h.linked
  rw [hs] at hl
  cases f with
  | opening dest =>
    obtain ⟨⟨-, ⟨x, hx, -, hp⟩, -⟩, -⟩ := hl
    rw [outline_pop hc hs rfl]
    simp only [proceedDriver, hx]
    by_cases hcan : x.driver.cancelled = true
    · rw [Driver.proceed, Driver.onOpened, if_pos hcan, hcan]
      exact outlineStep_of_eq (.parted (World.roll_driver hx)) (World.roll_setDriver hx _) rfl rfl
    · have hlive : x.driver.proceed r (.opening dest) =
          ({ x.driver with phase := .seeking }, .call .spawn .passing) := by
        rw [Driver.proceed, Driver.onOpened, if_neg hcan]
      have hroll : StreamTask.roll { x with driver := { x.driver with phase := .seeking } } =
          x.roll := StreamTask.roll_eq rfl rfl (by simp [hp])
      have hstep : Outline.Step
          ⟨m.world.roll, .driver d (.opening dest) :: bonds { m with stack := rest }, .answering r⟩
          (driverSection { m with stack := rest } d
            ({ x.driver with phase := .seeking }, .call .spawn .passing)).outline :=
        outlineStep_of_eq (.lapsed trivial rfl) (World.roll_keepDriver hx hroll) rfl rfl
      simpa only [hlive, hcan] using hstep
  | passing =>
    refine outlineStep_of_keepsRoll hc hs rfl ?_
    simp only [proceedDriver]
    split
    · next x hx =>
      exact driverSection_keepsRoll (m := { m with stack := rest })
        (r := x.driver.proceed r .passing) hx ⟨rfl, rfl, .rfl, trivial⟩
    · exact answer_keepsRoll { m with stack := rest } _
  | polling =>
    obtain ⟨⟨t, rest', x, -, hd, -⟩, -⟩ := hl
    rw [outline_skip hc hs rfl]
    simp only [proceedDriver, hd.1]
    exact (onPolled_turn d x.driver r.polled).outlineStep (m := { m with stack := rest }) hd.1
      rfl trivial
  | delivering =>
    obtain ⟨⟨t, rest', x, -, hd, hp, -⟩, -⟩ := hl
    rw [outline_skip hc hs rfl]
    simp only [proceedDriver, hd.1]
    exact (onDelivered_turn d (by simp [hp]) r.granted).outlineStep (m := { m with stack := rest })
      hd.1 rfl trivial
  | concluding =>
    obtain ⟨⟨t, rest', x, -, hd, -⟩, -⟩ := hl
    rw [outline_pop hc hs rfl]
    simp only [proceedDriver, hd.1]
    exact outlineStep_of_eq (.parted (World.roll_driver hd.1)) (World.roll_setDriver hd.1 _) rfl rfl

theorem run_outlineStep (hc : m.control = .calling (.run t)) :
    m.outline.Step (m.run t).outline := by
  have hidle : m.control.Idles m.world.roll := by
    rw [hc]
    trivial
  unfold Machine.run
  split
  · simp only
    split
    · next d _ =>
      simp only [enterDriver]
      split
      · next x hx =>
        exact (onRun_turn d x.driver).outlineStep (m := { m with stack := .task t :: m.stack }) hx
          rfl
          hidle
      · exact KeepsRoll.outlineStep ⟨rfl, rfl, rfl⟩ hidle
    · next i _ =>
      have he := enterTicker_effect { m with stack := .task t :: m.stack } i
        (.run m.world.schedule.now)
      have hu := he.keepsRoll trivial
      exact KeepsRoll.outlineStep ⟨hu.roll, hu.bonds, hu.control⟩ hidle
  · exact (answer_keepsRoll m _).outlineStep hidle

theorem endTask_roll (w : World) (t : Nat) : (endTask w t).roll = w.roll ∨
    ∃ (d : Nat) (x : DriverRoll), w.roll.drivers[d]? = some x ∧
      (endTask w t).roll = w.roll.setDriver d x.stop := by
  simp only [endTask]
  split
  · next task _ =>
    unfold dropJob
    split
    · next d _ =>
      split
      · next x hx =>
        exact .inr ⟨d, x.roll, World.roll_driver hx,
          World.roll_setDriver (w := { w with schedule := w.schedule.stop t .ended }) hx _⟩
      · exact .inl rfl
    · split
      · exact .inl rfl
      · exact .inl rfl
  · exact .inl rfl

theorem task_outlineStep (hc : m.control = .answering r) (hs : m.stack = .task t :: rest) :
    m.outline.Step (stopTask { m with stack := rest } t r.paused).outline := by
  rw [outline_skip hc hs rfl]
  have hsame {w : World} (hw : w.roll = m.world.roll) :
      Outline.Step ⟨m.world.roll, bonds { m with stack := rest }, .answering r⟩
        (outline ⟨w, rest, .answering .done⟩) :=
    outlineStep_of_eq (.keepsRoll trivial rfl) hw rfl rfl
  cases hp : r.paused with
  | waiting => exact hsame rfl
  | yielded => exact hsame rfl
  | ended =>
    rcases endTask_roll m.world t with hw | ⟨d, x, hx, hw⟩
    · exact hsame hw
    · exact outlineStep_of_eq (.stopped hx trivial rfl) hw rfl rfl

theorem any_isUsing {h : Nat} :
    m.stack.any (isUsing h) = true ↔ ∃ left, Frame.handle h left ∈ m.bonds := by
  rw [List.any_eq_true]
  constructor
  · rintro ⟨f, hf, hu⟩
    cases f with
    | handle j left =>
      obtain rfl : h = j := beq_iff_eq.mp hu
      exact ⟨left, List.mem_filter.mpr ⟨hf, rfl⟩⟩
    | _ => cases hu
  · rintro ⟨left, hf⟩
    exact ⟨_, (List.mem_filter.mp hf).1, beq_self_eq_true h⟩

theorem useHandle_outlineStep {h : Nat} {use : HandleUse}
    (hc : m.control = .calling (.useHandle h use)) :
    m.outline.Step (m.useHandle h use).outline := by
  have huses {left : Nat} {i : Nat} {msg : Message Link}
      (hmsg : (Control.calling (.tell i msg)).commits? = none) :
      m.outline.Step (m.call (.handle h left) (.tell i msg)).outline := by
    rw [outline_of hc]
    exact outlineStep_of_eq (.uses trivial hmsg) rfl rfl rfl
  unfold useHandle
  split
  · exact huses rfl
  · exact huses rfl
  · exact (answer_keepsRoll m _).outlineStep (by rw [hc]; trivial)

theorem dropHandle_outlineStep {h : Nat} (hc : m.control = .calling (.dropHandle h)) :
    m.outline.Step (m.dropHandle h).outline := by
  unfold dropHandle
  split
  · next x hx =>
    simp only
    split
    · next hu =>
      obtain ⟨left, hf⟩ := any_isUsing.mp hu
      rw [outline_of hc]
      exact outlineStep_of_eq (.dropped hf) rfl rfl rfl
    · rw [outline_of hc]
      have hx' : m.world.roll.handles[h]? = some x := hx
      exact outlineStep_of_eq (.closes hx' trivial) rfl rfl rfl
  · exact (answer_keepsRoll m _).outlineStep (by rw [hc]; trivial)

theorem lastUse_eq_some {h i : Nat} (hi : m.lastUse h = some i) :
    ∃ x : Handle, m.world.handles[h]? = some x ∧ x.subscriber = i := by
  unfold lastUse at hi
  split at hi
  · next x hx =>
    split at hi
    · exact ⟨x, hx, Option.some.inj hi⟩
    · cases hi
  · cases hi

theorem used_of_lastUse {h : Nat} {x : Handle} (hi : m.lastUse h = none)
    (hx : m.world.handles[h]? = some x) (hd : x.state = .dropped) :
    ∃ left, Frame.handle h left ∈ m.bonds := by
  rw [← any_isUsing]
  simpa [lastUse, hx, hd] using hi

theorem handle_outlineStep {h left : Nat} (hc : m.control = .answering r)
    (hs : m.stack = .handle h left :: rest) :
    m.outline.Step (proceed { m with stack := rest } r (.handle h left)).outline := by
  rw [outline_pop hc hs rfl]
  cases left with
  | succ left =>
    simp only [proceed, useHandle]
    cases hx : m.world.handles[h]? with
    | some x => exact outlineStep_of_eq (.usesOn rfl) rfl rfl rfl
    | none =>
      refine outlineStep_of_eq (.used fun x hx' => ?_) rfl rfl rfl
      cases hx.symm.trans hx'
  | zero =>
    simp only [proceed]
    split
    · next i hi =>
      obtain ⟨x, hx, rfl⟩ := lastUse_eq_some hi
      exact outlineStep_of_eq (.lastUsed hx) rfl rfl rfl
    · next hi => exact outlineStep_of_eq (.used fun x hx => used_of_lastUse hi hx) rfl rfl rfl

theorem enter_outlineStep {c : Call} (hc : m.control = .calling c) :
    m.outline.Step (m.enter c).outline := by
  have hkeeps (h : KeepsRoll m.world.roll m.bonds (m.enter c))
      (hk : (Control.calling c).Idles m.world.roll) : m.outline.Step (m.enter c).outline :=
    h.outlineStep (hc ▸ hk)
  cases c with
  | tell i msg => exact tell_outlineStep hc
  | subscribe source i => exact subscribe_outlineStep hc
  | attach source i =>
    rw [outline_of hc]
    exact outlineStep_of_eq .attach rfl rfl rfl
  | request link d => exact hkeeps (request_keepsRoll m link d) trivial
  | cancel link => exact cancel_outlineStep hc
  | send n v => exact hkeeps (send_keepsRoll m n v) trivial
  | complete n c => exact complete_outlineStep hc
  | useHandle h use => exact useHandle_outlineStep hc
  | dropHandle h => exact dropHandle_outlineStep hc
  | run t => exact run_outlineStep hc
  | _ => exact hkeeps ((enter_effect m rfl).keepsRoll (by trivial)) (by trivial)

theorem proceed_outlineStep {f : Frame} (h : m.Attentive) (hc : m.control = .answering r)
    (hs : m.stack = f :: rest) :
    m.outline.Step (proceed { m with stack := rest } r f).outline := by
  have hkeeps (hf : f.binds = false) (hu : KeepsRoll m.world.roll (bonds { m with stack := rest })
      (proceed { m with stack := rest } r f)) :
      m.outline.Step (proceed { m with stack := rest } r f).outline :=
    outlineStep_of_keepsRoll hc hs hf hu
  cases f with
  | sink i f => exact hkeeps rfl (proceedSink_keepsRoll { m with stack := rest } i f r)
  | assign i f => exact hkeeps rfl (proceedAssign_keepsRoll { m with stack := rest } i f)
  | custom i => exact hkeeps rfl (answer_keepsRoll { m with stack := rest } r)
  | sequence n f => exact sequence_outlineStep hc hs
  | subject n f => exact subject_outlineStep hc hs
  | driver d f => exact driver_outlineStep h hc hs
  | attaching i =>
    rw [outline_skip hc hs rfl]
    exact outlineStep_of_eq .attached rfl rfl rfl
  | handle h left => exact handle_outlineStep hc hs
  | closing h =>
    rw [outline_pop hc hs rfl]
    exact outlineStep_of_eq .shut rfl rfl rfl
  | task t => exact task_outlineStep hc hs
  | _ => exact hkeeps rfl ((proceed_effect { m with stack := rest } r rfl).keepsRoll (by trivial))

end Machine

theorem getElem?_push_of_some {α : Type} {xs : Array α} {n : Nat} {x : α} (h : xs[n]? = some x)
    (y : α) : (xs.push y)[n]? = some x := by
  have := (Array.getElem?_eq_some_iff.mp h).1
  rw [Array.getElem?_push, if_neg (by omega), h]

theorem Roll.Change.refl (l : Roll) : l.Change l :=
  ⟨fun _ _ => id, fun _ => rfl, fun _ _ => id, fun _ _ => .inl, rfl, fun _ _ => .inl, rfl⟩

theorem World.Change.roll {w w' : World} (h : w.Change w') : w.roll.Change w'.roll := by
  have hrefl := Roll.Change.refl w.roll
  cases h with
  | @subscriber s _ =>
    have hpush : (w.addSubscriber s).roll =
        { w.roll with subscribers := w.roll.subscribers.push s.standing } := by
      simp only [World.roll, addSubscriber, Array.map_push]
    rw [hpush]
    exact { hrefl with subscribers := fun i t ht => getElem?_push_of_some ht _ }
  | sequence feed =>
    have hpush : (w.addSequence feed).roll =
        { w.roll with sequences := w.roll.sequences.push none } := by
      simp only [World.roll, addSequence, Array.map_push]
      rfl
    rw [hpush]
    refine { hrefl with sequences := fun n => ?_ }
    rw [Array.getElem?_push]
    split
    · next hn => simp [hn]
    · rfl
  | subject =>
    have hpush : w.addSubject.roll = { w.roll with subjects := w.roll.subjects.push {} } := by
      have hfresh : Subject.roll {} = {} := by simp [Subject.roll]
      simp only [World.roll, addSubject, Array.map_push, hfresh]
    rw [hpush]
    refine { hrefl with
      subjects := fun n s hs => getElem?_push_of_some hs _, fresh := fun n s hs => ?_ }
    rw [Array.getElem?_push] at hs
    split at hs
    · exact .inr (Option.some.inj hs).symm
    · exact .inl hs
  | manual =>
    have hpush : w.addManual.roll = { w.roll with manuals := w.roll.manuals.push [] } := by
      simp only [World.roll, addManual, Array.map_push, List.map_nil]
    rw [hpush]
    refine { hrefl with manuals := fun n kept hkept => ?_ }
    rw [Array.getElem?_push] at hkept
    split at hkept
    · exact .inr (Option.some.inj hkept).symm
    · exact .inl hkept
  | dropManual i =>
    have hset : (w.dropManual i).roll =
        { w.roll with manuals := w.roll.manuals.setIfInBounds i [] } := by
      simp only [World.roll, World.dropManual, Array.map_setIfInBounds, List.map_nil]
    rw [hset]
    refine { hrefl with manuals := fun n kept hkept => ?_ }
    rw [Array.getElem?_setIfInBounds] at hkept
    split at hkept
    · split at hkept
      · exact .inr (Option.some.inj hkept).symm
      · cases hkept
    · exact .inl hkept
  | _ => exact hrefl

namespace Machine

variable {m m' : Machine}

theorem step_outlineStep (h : m.Attentive) (hm : m.Calm) : m.outline.Step m.step.outline := by
  unfold step
  cases hc : m.control with
  | calling c => exact enter_outlineStep hc
  | answering r =>
    cases hs : m.stack with
    | nil =>
      have hu : KeepsRoll m.world.roll m.bonds ⟨m.world, [], .idle (.returned r)⟩ :=
        ⟨rfl, by rw [bonds, bonds, hs], rfl⟩
      exact hu.outlineStep (hc ▸ trivial)
    | cons f rest => exact proceed_outlineStep h hc hs
  | unwinding why => simp [Calm, hc] at hm
  | idle o => exact KeepsRoll.outlineStep ⟨rfl, rfl, by rw [hc]; rfl⟩ (hc ▸ trivial)
  | stuck => exact KeepsRoll.outlineStep ⟨rfl, rfl, by rw [hc]; rfl⟩ (hc ▸ trivial)

theorem Next.outlineStep (h : m.Attentive) (hm : m.Calm) (hn : m.Next m') :
    m.outline.Step m'.outline := by
  have hidle (hi : m.Idle) : m.control.Idles m.world.roll := by
    obtain ⟨o, ho⟩ := hi
    rw [ho]
    trivial
  have hsame (hi : m.Idle) : m.outline.Step m.outline := by
    refine KeepsRoll.outlineStep ⟨rfl, rfl, ?_⟩ (hidle hi)
    obtain ⟨o, ho⟩ := hi
    rw [ho]
    rfl
  cases hn with
  | step => exact step_outlineStep h hm
  | attend hi => exact KeepsRoll.outlineStep ⟨rfl, rfl, rfl⟩ (hidle hi)
  | invoke hi hc =>
    obtain ⟨o, ho⟩ := hi
    rw [outline_of ho]
    exact .begins
  | begin hi ht => exact KeepsRoll.outlineStep ⟨rfl, rfl, rfl⟩ (hidle hi)
  | reply hi r =>
    unfold Machine.reply
    split
    · next q rest hs =>
      exact KeepsRoll.outlineStep ⟨rfl, by rw [bonds, bonds, hs]; rfl, rfl⟩ (hidle hi)
    · exact hsame hi
  | raise hi why =>
    unfold Machine.raise
    split
    · next q rest hs =>
      exact KeepsRoll.outlineStep ⟨rfl, by rw [bonds, bonds, hs]; rfl, rfl⟩ (hidle hi)
    · exact hsame hi
  | change hi hw =>
    obtain ⟨o, ho⟩ := hi
    rw [outline_of ho]
    exact outlineStep_of_eq (.change hw.roll) rfl rfl ho

/-- What every step of the outline keeps holds in every run without a panic. -/
theorem Reached.outline_invariant {P : Outline → Prop} (h : Reached Calm m)
    (start : P (outline {})) (step : ∀ {o o' : Outline}, P o → o.Step o' → P o') :
    P m.outline := by
  have hinv := h.invariant (P := fun m => P m.outline ∧ m.Attentive ∧ m.Calm)
    ⟨start, attentive_empty, trivial⟩ fun hm hn hcalm =>
      ⟨step hm.1 (hn.outlineStep hm.2.1 hm.2.2), hm.2.1.next hm.2.2 hn, hcalm⟩
  exact hinv.1

end Machine
end Sluice
