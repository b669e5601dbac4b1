import Sluice.Proofs.Sequence.Delivery

/-!
# Sequences read their iterator as little as they can

The iterator is read when the sequence is subscribed to and then once for every
delivery that returned to a subscription still in use, right after its return. So a
log tells how often it was read, and what was so at each of these moments.
-/

namespace Sluice

namespace Session

variable {S In Out F : Type} {c : Component S In Out F}
  {may : Session S In Out F → Turn In → Prop} {p : Session S In Out F} {state : S}

def underWay : List (Entry S In Out F) → List F
  | [] => []
  | e :: log =>
    let below :=
      match e.turn with
      | .enter _ => underWay log
      | _ => (underWay log).tail
    match e.move with
    | some mv => mv.push below
    | none => below

theorem Reaches.frames_eq (h : Reaches c may (start state) p) : p.frames = underWay p.log := by
  refine h.invariant (P := fun p => p.frames = underWay p.log) rfl ?_ ?_ ?_
  · intro p i hp _
    simp only [advance, underWay, hp]
  · intro p fr fs r hp _ hf
    rw [hf] at hp
    simp only [advance, underWay, ← hp, List.tail_cons]
  · intro p fr fs hp _ hf
    rw [hf] at hp
    simp only [unwind, underWay, ← hp, List.tail_cons]

end Session

namespace Sequence

variable {ρ : Type} {f : Nat → Option Value} {s : Sequence ρ} {fs : List (Frame ρ)} {a : Account}
  {p : Play ρ} {e : Note ρ} {log : List (Note ρ)}

def Out.isAdvance : Out ρ → Bool
  | advance => true
  | _ => false

/-- How often the iterator was read, a read that is under way included. -/
def advances (log : List (Note ρ)) : Nat := (log.filterMap Entry.call?).countP Out.isAdvance

def Exhausted (log : List (Note ρ)) : Prop := ∃ e ∈ log, e.turn = .reply (.item none)

def Failed : List (Note ρ) → Prop
  | [] => False
  | e :: log => Failed log ∨
      e.turn = .raise ∧ ∃ dest, (Session.underWay log).head? = some (.delivering dest)

structure Ripe (log : List (Note ρ)) : Prop where
  live : (account log).cancelled = false
  more : ¬Exhausted log
  serial : ∀ fr ∈ Session.underWay log, fr.isDelivering = false
  sane : ¬Failed log

theorem advances_read (h : e.call? = some .advance) : advances (e :: log) = advances log + 1 := by
  rw [advances, List.filterMap_cons_some h, List.countP_cons_of_pos rfl, advances]

theorem advances_other (h : e.call? ≠ some .advance) : advances (e :: log) = advances log := by
  unfold advances
  cases hc : e.call? with
  | none => rw [List.filterMap_cons_none hc]
  | some o =>
    rw [List.filterMap_cons_some hc, List.countP_cons_of_neg]
    cases o with
    | advance => exact absurd hc h
    | _ => simp [Out.isAdvance]

theorem exhausted_cons (h : e.turn ≠ .reply (.item none)) :
    Exhausted (e :: log) ↔ Exhausted log := by
  simp [Exhausted, h]

theorem failed_cons (h : e.turn ≠ .raise) : Failed (e :: log) ↔ Failed log := by
  simp [Failed, h]

theorem Account.call_eq (o : Option (Out ρ)) : (a.call o).reads = a.reads ∧
    (a.call o).kept = a.kept ∧ (a.call o).cancelled = a.cancelled := by
  cases o with
  | none => exact ⟨rfl, rfl, rfl⟩
  | some o => cases o <;> exact ⟨rfl, rfl, rfl⟩

theorem account_reads : (account (e :: log)).reads = ((account log).turn e.turn).reads :=
  (Account.call_eq _).1

theorem account_kept : (account (e :: log)).kept = ((account log).turn e.turn).kept :=
  (Account.call_eq _).2.1

theorem account_cancelled :
    (account (e :: log)).cancelled = ((account log).turn e.turn).cancelled :=
  (Account.call_eq _).2.2

theorem reads_le_turn (a : Account) (x : Turn (In ρ)) : a.reads ≤ (a.turn x).reads := by
  cases x with
  | enter i => cases i <;> exact Nat.le_refl _
  | reply r =>
    cases r with
    | item v => exact Nat.le_succ _
    | _ => exact Nat.le_refl _
  | raise => exact Nat.le_refl _

structure Counted (f : Nat → Option Value) (log : List (Note ρ)) : Prop where
  reads : log ≠ [] → advances log = 1 + (account log).kept
  gaps : Exhausted log → ∃ k < (account log).reads, f k = none
  ripe : ∀ newer e older, log = newer ++ e :: older → e.call? = some .advance → Ripe (e :: older)

theorem counted_nil : Counted f ([] : List (Note ρ)) where
  reads h := absurd rfl h
  gaps h := by simp [Exhausted] at h
  ripe newer e older h := by simp at h

theorem Counted.ripe_cons (h : Counted f log) (he : e.call? = some .advance → Ripe (e :: log)) :
    ∀ newer e' older, e :: log = newer ++ e' :: older → e'.call? = some .advance →
      Ripe (e' :: older) := by
  intro newer e' older hlog hc
  cases newer with
  | nil =>
    obtain ⟨rfl, rfl⟩ := List.cons.inj hlog
    exact he hc
  | cons e'' newer => exact h.ripe newer e' older (List.cons.inj hlog).2 hc

theorem Counted.other (h : Counted f log) (hl : log ≠ []) (hc : e.call? ≠ some .advance)
    (hk : ((account log).turn e.turn).kept = (account log).kept)
    (hg : e.turn = .reply (.item none) → f (account log).reads = none) :
    Counted f (e :: log) where
  reads _ := by rw [advances_other hc, account_kept, hk, h.reads hl]
  gaps hx := by
    rw [account_reads]
    by_cases ht : e.turn = .reply (.item none)
    · rw [ht]
      exact ⟨(account log).reads, Nat.lt_succ_self _, hg ht⟩
    · obtain ⟨k, hlt, hk⟩ := h.gaps ((exhausted_cons ht).mp hx)
      exact ⟨k, Nat.lt_of_lt_of_le hlt (reads_le_turn _ _), hk⟩
  ripe := h.ripe_cons fun hr => absurd hr hc

theorem Counted.returned {d : Demand} (h : Counted f log) (hl : log ≠ [])
    (hc : e.call? = some .advance) (ht : e.turn = .reply (.demand d))
    (hx : (account log).cancelled = false) (hr : Ripe (e :: log)) : Counted f (e :: log) where
  reads _ := by
    rw [advances_read hc, account_kept, ht, Account.turn_returned hx, h.reads hl, Nat.add_assoc]
  gaps hg := by
    rw [exhausted_cons (by simp [ht])] at hg
    exact absurd hg (mt (exhausted_cons (by simp [ht])).mpr hr.more)
  ripe := h.ripe_cons fun _ => hr

theorem drain_advance {fr : Frame ρ} (h : s.drain.2 = .call .advance fr) :
    ∃ dest, fr = .drawing dest := by
  have hd := drained s
  rw [h] at hd
  cases hd with
  | draw => exact ⟨_, rfl⟩

theorem onRequest_advance {d : Demand} {fr : Frame ρ}
    (h : (s.onRequest d).2 = .call .advance fr) : ∃ dest, fr = .drawing dest := by
  unfold onRequest at h
  split at h
  · cases h
  · dsimp only at h
    split at h
    · cases h
    · exact drain_advance h

theorem onPeeked_advance {v : Option Value} {fr : Frame ρ}
    (h : (s.onPeeked v).2 = .call .advance fr) : ∃ dest, fr = .drawing dest := by
  obtain ⟨x, d, e, ahead⟩ := s
  cases v with
  | some v => exact drain_advance (s := ⟨x, d, e, some v⟩) h
  | none => cases x <;> simp [onPeeked] at h

theorem onOpened_advance {dest : ρ} {v : Option Value} {fr : Frame ρ}
    (h : (s.onOpened dest v).2 = .call .advance fr) : ∃ dest, fr = .drawing dest := by
  cases v <;> simp [onOpened] at h

theorem StageAfter.not_read {turn : Turn (In ρ)} {r : Sequence ρ × Move (Out ρ) (Frame ρ)}
    (h : StageAfter f a turn fs r) (hr : ∀ fr, r.2 = .call .advance fr → ∃ dest, fr = .drawing dest)
    (before : Sequence ρ) :
    (⟨turn, before, r.1, some r.2⟩ : Note ρ).call? ≠ some .advance := by
  obtain ⟨t, mv⟩ := r
  intro hc
  cases mv with
  | answer r => cases hc
  | call o fr =>
    obtain rfl : o = .advance := Option.some.inj hc
    obtain ⟨dest, rfl⟩ := hr fr rfl
    exact absurd rfl (h.ne_drawing dest)

/-- Once a delivery has failed no loop runs, and none will start. Until then the flag of a
subscription in use is up while its loop runs only. -/
structure Halts (failed : Prop) (s : Sequence ρ) (fs : List (Frame ρ)) : Prop where
  halted : failed → (∀ fr ∈ fs, fr.isPassing) ∧ (s.subscriber = none ∨ s.emitting = true)
  jammed : (∀ fr ∈ fs, fr.isPassing) → s.subscriber.isSome → s.emitting = true → failed

variable {failed : Prop}

theorem Halts.congr {failed' : Prop} (h : Halts failed s fs) (he : failed ↔ failed') :
    Halts failed' s fs :=
  ⟨fun hf => h.halted (he.mpr hf), fun hp hs hx => he.mp (h.jammed hp hs hx)⟩

theorem Halts.idle (hf : ¬failed) (hs : s.emitting = false) : Halts failed s fs :=
  ⟨fun h => absurd h hf, fun _ _ hx => by simp [hs] at hx⟩

theorem Halts.running {fr : Frame ρ} (hf : ¬failed) (hr : fr.isPassing = false) :
    Halts failed s (fr :: fs) :=
  ⟨fun h => absurd h hf, fun hp => by simp [hr] at hp⟩

theorem Halts.not_failed {fr : Frame ρ} (h : Halts failed s (fr :: fs))
    (hr : fr.isPassing = false) : ¬failed := by
  intro hf
  have hp := (h.halted hf).1 fr List.mem_cons_self
  simp [hr] at hp

theorem Halts.drain (hf : ¬failed) : Halts failed s.drain.1 (s.drain.2.push fs) := by
  have h := drained s
  generalize s.drain = r at h
  obtain ⟨t, mv⟩ := r
  cases h with
  | stop _ ht => exact .idle hf (ht ▸ rfl)
  | deliver => exact .running hf rfl
  | draw => exact .running hf rfl

theorem Halts.request (h : Halts failed s fs) (d : Demand) :
    Halts failed (s.onRequest d).1 ((s.onRequest d).2.push fs) := by
  obtain ⟨x, left, emitting, ahead⟩ := s
  cases x with
  | none => exact h
  | some dest =>
    cases emitting with
    | true => exact ⟨h.halted, h.jammed⟩
    | false =>
      -- No delivery has failed, since that would have left the flag up.
      have hf : ¬failed := fun hf => by simpa using (h.halted hf).2
      by_cases hz : (left + d).isZero = true
      · have hm : (⟨some dest, left, false, ahead⟩ : Sequence ρ).onRequest d =
            (⟨some dest, left + d, false, ahead⟩, .answer .done) := by simp [onRequest, hz]
        rw [hm]
        exact .idle hf rfl
      · have hm : (⟨some dest, left, false, ahead⟩ : Sequence ρ).onRequest d =
            Sequence.drain ⟨some dest, left + d, true, ahead⟩ := by simp [onRequest, hz]
        rw [hm]
        exact .drain hf

theorem Halts.cancel (h : Halts failed s fs) : Halts failed { s with subscriber := none } fs :=
  ⟨fun hf => ⟨(h.halted hf).1, .inl rfl⟩, fun _ hs => by simp at hs⟩

theorem Halts.opened (hf : ¬failed) (dest : ρ) (v : Option Value) :
    Halts failed (onOpened {} dest v).1 ((onOpened {} dest v).2.push fs) := by
  cases v <;> exact .idle hf rfl

theorem Halts.delivered {dest : ρ} (h : Halts failed s (.delivering dest :: fs)) (d : Demand) :
    Halts failed (s.onDelivered d).1 ((s.onDelivered d).2.push fs) := by
  have hf := h.not_failed rfl
  unfold onDelivered
  dsimp only
  split
  · exact .running hf rfl
  · exact .drain hf

theorem Halts.peeked (h : Halts failed s (.peeking :: fs)) (v : Option Value) :
    Halts failed (s.onPeeked v).1 ((s.onPeeked v).2.push fs) := by
  have hf := h.not_failed rfl
  obtain ⟨x, left, emitting, ahead⟩ := s
  cases v with
  | some v => exact .drain hf
  | none => cases x <;> exact .idle hf rfl

theorem Halts.pass {fr : Frame ρ} (h : Halts failed s (fr :: fs)) (hr : fr.isPassing = true) :
    Halts failed s fs where
  halted hf := ⟨(List.forall_mem_cons.mp (h.halted hf).1).2, (h.halted hf).2⟩
  jammed hp := h.jammed (List.forall_mem_cons.mpr ⟨hr, hp⟩)

theorem Stage.of_opening {dest : ρ} (h : Stage f s (.opening dest :: fs) a) : s = {} := by
  cases h with
  | opening => rfl
  | still hf => simp [Frame.isPassing] at hf

theorem Stage.of_delivering {dest : ρ} (h : Stage f s (.delivering dest :: fs) a) :
    s.subscriber = none ∨ s.emitting = true := by
  cases h with
  | delivering => exact .inr rfl
  | leaving => exact .inl rfl
  | still hf => simp [Frame.isPassing] at hf

structure Tight (f : Nat → Option Value) (p : Play ρ) : Prop where
  reached : Session.Reaches component (Proper f) (Session.start {}) p
  sound : Sound f p
  counted : Counted f p.log
  halts : Halts (Failed p.log) p.state p.frames

theorem Tight.frames (h : Tight f p) : p.frames = Session.underWay p.log := h.reached.frames_eq

theorem Tight.log_ne_nil {fr : Frame ρ} (h : Tight f p) (hf : p.frames = fr :: fs) :
    p.log ≠ [] := by
  intro hl
  simp [h.frames, hl, Session.underWay] at hf

theorem counted_subscribe (dest : ρ) (s t : Sequence ρ) :
    Counted f [⟨.enter (.subscribe dest), s, t, some (.call .advance (.opening dest))⟩] where
  reads _ := rfl
  gaps h := by simp [Exhausted] at h
  ripe := (counted_nil (f := f)).ripe_cons fun _ =>
    ⟨rfl, by simp [Exhausted], by simp [Session.underWay, Frame.isDelivering], by simp [Failed]⟩

theorem Tight.enter (h : Tight f p) (i : In ρ) (hp : Proper f p (.enter i)) :
    Tight f (p.advance (.enter i) p.frames (component.enter p.state i)) := by
  refine ⟨h.reached.turn hp rfl, h.sound.enter i hp, ?_,
    Halts.congr ?_ (failed_cons (by simp)).symm⟩
  · cases i with
    | subscribe dest =>
      rcases h.sound.stage with rfl | hs
      · exact counted_subscribe dest _ _
      · exact absurd hp hs.1
    | request d =>
      have hst := (h.sound.stage_of_log hp.1.ne_nil).request hp.2 d
      exact h.counted.other hp.1.ne_nil (hst.not_read (fun _ => onRequest_advance) _) rfl (by simp)
    | cancel => exact h.counted.other hp.1.ne_nil (by intro hc; cases hc) rfl (by simp)
  · cases i with
    | subscribe dest =>
      rcases h.sound.stage with rfl | hs
      · exact .running id rfl
      · exact absurd hp hs.1
    | request d => exact h.halts.request d
    | cancel => exact h.halts.cancel

theorem Tight.returned {dest : ρ} (h : Tight f p) (hf : p.frames = .delivering dest :: fs)
    (d : Demand) : Counted f (p.advance (.reply (.demand d)) fs (p.state.onDelivered d)).log := by
  have hst := h.sound.stage_of_frames hf
  have hl := h.log_ne_nil hf
  have hfail : ¬Failed p.log := (hf ▸ h.halts).not_failed rfl
  have hbelow := hst.passing_below
  have hunder : Session.underWay p.log = .delivering dest :: fs := h.frames.symm.trans hf
  have hafter := hst.returned d
  generalize hs : p.state = s at hst hafter
  generalize ha : account p.log = a at hst hafter
  cases hst with
  | @delivering dest' _ left _ _ _ live hr =>
    refine h.counted.returned hl rfl rfl (ha ▸ live.cancelled) ⟨?_, ?_, ?_, ?_⟩
    · rw [account_cancelled, ha]
      exact live.cancelled
    · rw [exhausted_cons (by simp)]
      intro hx
      obtain ⟨k, hlt, hk⟩ := h.counted.gaps hx
      rw [ha, hr] at hlt
      have hsome := live.isSome hlt
      simp [hk] at hsome
    · intro fr hfr
      change fr ∈ .peeking :: (Session.underWay p.log).tail at hfr
      rw [hunder, List.tail_cons] at hfr
      rcases List.mem_cons.mp hfr with rfl | hfr
      · rfl
      · have hp := hbelow fr hfr
        cases fr with
        | passing dest => rfl
        | _ => simp [Frame.isPassing] at hp
    · rwa [failed_cons (by simp)]
  | leaving _ cut =>
    have hturn := Account.turn_returned_cancelled (ρ := ρ) (d := d) (ha ▸ cut.cancelled)
    refine h.counted.other hl ?_ (by rw [hturn]) (by simp)
    exact hafter.not_read (fun _ hm => by cases hm) _
  | still hp => simp [Frame.isPassing] at hp

theorem Tight.reply (h : Tight f p) (h0 : (f 0).isSome) {fr : Frame ρ} (r : Reply)
    (hp : Proper f p (.reply r)) (hf : p.frames = fr :: fs) :
    Tight f (p.advance (.reply r) fs (component.proceed p.state r fr)) := by
  have hst := h.sound.stage_of_frames hf
  have hhalts : Halts (Failed p.log) p.state (fr :: fs) := hf ▸ h.halts
  have hl := h.log_ne_nil hf
  have hunder : Session.underWay p.log = fr :: fs := h.frames.symm.trans hf
  refine ⟨h.reached.reply hp hf, h.sound.reply h0 r hp hf, ?_,
    Halts.congr ?_ (failed_cons (by simp)).symm⟩
  · simp only [Proper, hf, List.head?_cons] at hp
    cases fr with
    | opening dest =>
      subst hp
      exact h.counted.other hl ((hst.opened h0).not_read (fun _ => onOpened_advance) _) rfl
        (by simp)
    | delivering dest =>
      obtain ⟨d, rfl⟩ := hp
      exact h.returned hf d
    | peeking =>
      subst hp
      exact h.counted.other hl (hst.peeked.not_read (fun _ => onPeeked_advance) _) rfl (by simp)
    | passing dest =>
      subst hp
      exact h.counted.other hl (by intro hc; cases hc) rfl (by simp)
    | refusing dest => exact absurd rfl (hst.ne_refusing dest)
    | drawing dest => exact absurd rfl (hst.ne_drawing dest)
  · cases fr with
    | opening dest =>
      have hfail := hhalts.not_failed rfl
      exact hst.of_opening ▸ .opened hfail dest r.item?
    | delivering dest => exact hhalts.delivered r.granted
    | peeking => exact hhalts.peeked r.item?
    | passing dest => exact hhalts.pass rfl
    | refusing dest => exact absurd rfl (hst.ne_refusing dest)
    | drawing dest => exact absurd rfl (hst.ne_drawing dest)

theorem Tight.unwind (h : Tight f p) {fr : Frame ρ} (hp : Proper f p .raise)
    (hf : p.frames = fr :: fs) : Tight f (p.unwind fs) := by
  have hst := h.sound.stage_of_frames hf
  have hhalts : Halts (Failed p.log) p.state (fr :: fs) := hf ▸ h.halts
  have hr : fr.isReading = false := hp fr (by simp [hf])
  have hunder : Session.underWay p.log = fr :: fs := h.frames.symm.trans hf
  have hl := h.log_ne_nil hf
  refine ⟨h.reached.raise hp hf, h.sound.unwind hp hf,
    h.counted.other hl (by intro hc; cases hc) rfl (by simp), ?_⟩
  · change Halts (Failed p.log ∨ _ ∧ ∃ dest, (Session.underWay p.log).head? = _) p.state fs
    rw [hunder]
    cases fr with
    | delivering dest =>
      refine ⟨fun _ => ⟨hst.passing_below, ?_⟩, fun _ _ _ => .inr ⟨rfl, dest, rfl⟩⟩
      exact hst.of_delivering
    | passing dest => exact (hhalts.pass rfl).congr (by simp)
    | refusing dest => exact absurd rfl (hst.ne_refusing dest)
    | opening dest => simp [Frame.isReading] at hr
    | drawing dest => simp [Frame.isReading] at hr
    | peeking => simp [Frame.isReading] at hr

theorem tight (h0 : (f 0).isSome) (h : Session.Reaches component (Proper f) (Session.start {}) p) :
    Tight f p :=
  h.invariant
    ⟨.refl, sound h0 .refl, counted_nil, .idle id rfl⟩
    (fun i ht hp => ht.enter i hp) (fun r ht hp hf => ht.reply h0 r hp hf)
    (fun ht hp hf => ht.unwind hp hf)

/-- What holds between any two sections of a sequence over an empty iterator. Its subscription is
inert, so the sequence hears nothing of the subscriber. -/
structure Barren (f : Nat → Option Value) (p : Play ρ) : Prop where
  state : p.state = {}
  unheard : ¬HandedOver p.log
  kept : (account p.log).kept = 0
  frames : p.frames = [] ∨ p.log ≠ [] ∧ ∃ dest, p.frames = [.passing dest] ∨
    p.frames = [.refusing dest] ∨ p.frames = [.opening dest] ∧ (account p.log).reads = 0
  counted : Counted f p.log

theorem Barren.enter (h : Barren f p) (i : In ρ) (hp : Proper f p (.enter i)) :
    Barren f (p.advance (.enter i) p.frames (component.enter p.state i)) := by
  cases i with
  | subscribe dest =>
    obtain ⟨state, frames, log⟩ := p
    obtain rfl : log = [] := hp
    obtain rfl : state = {} := h.state
    obtain rfl : frames = [] := h.frames.resolve_right (by simp)
    refine ⟨rfl, ?_, rfl, .inr ⟨by simp [Session.advance], dest, .inr (.inr ⟨rfl, rfl⟩)⟩,
      counted_subscribe dest _ _⟩
    simp [HandedOver, Session.advance, component, Sequence.enter, Entry.call?]
  | request d => exact absurd hp.1 h.unheard
  | cancel => exact absurd hp.1 h.unheard

theorem HandedOver.of_cons (h : HandedOver (e :: log))
    (he : ∀ dest, e.call? ≠ some (.handOver dest true)) : HandedOver log := by
  obtain ⟨e', hmem, dest, hc⟩ := h
  rcases List.mem_cons.mp hmem with rfl | hmem
  · exact absurd hc (he dest)
  · exact ⟨e', hmem, dest, hc⟩

theorem Barren.reply (h : Barren f p) (h0 : f 0 = none) {fr : Frame ρ} (r : Reply)
    (hp : Proper f p (.reply r)) (hf : p.frames = fr :: fs) :
    Barren f (p.advance (.reply r) fs (component.proceed p.state r fr)) := by
  obtain ⟨state, frames, log⟩ := p
  obtain rfl : state = {} := h.state
  obtain rfl : frames = fr :: fs := hf
  obtain ⟨hl, dest, hfr⟩ := h.frames.resolve_left (by simp)
  rcases hfr with hfr | hfr | ⟨hfr, hr⟩
  · obtain ⟨rfl, rfl⟩ := List.cons.inj hfr
    obtain rfl : r = .done := hp
    refine ⟨rfl, fun hh => h.unheard (hh.of_cons fun _ hc => by cases hc), h.kept, .inl rfl, ?_⟩
    exact h.counted.other hl (by intro hc; cases hc) rfl (by simp)
  · obtain ⟨rfl, rfl⟩ := List.cons.inj hfr
    obtain rfl : r = .done := hp
    refine ⟨rfl, fun hh => h.unheard (hh.of_cons fun _ hc => by cases hc), h.kept,
      .inr ⟨by simp [Session.advance], dest, .inl rfl⟩, ?_⟩
    exact h.counted.other hl (by intro hc; cases hc) rfl (by simp)
  · obtain ⟨rfl, rfl⟩ := List.cons.inj hfr
    obtain rfl : r = .item none := by rw [← h0, ← hr]; exact hp
    refine ⟨rfl, fun hh => h.unheard (hh.of_cons fun _ hc => by cases hc), h.kept,
      .inr ⟨by simp [Session.advance], dest, .inr (.inl rfl)⟩, ?_⟩
    refine h.counted.other hl (by intro hc; cases hc) rfl fun _ => ?_
    exact (congrArg f hr).trans h0

theorem Barren.unwind (h : Barren f p) {fr : Frame ρ} (hf : p.frames = fr :: fs) :
    Barren f (p.unwind fs) := by
  obtain ⟨hl, dest, hfr⟩ := h.frames.resolve_left (by simp [hf])
  have hfs : fs = [] := by
    rcases hfr with hfr | hfr | ⟨hfr, -⟩ <;> exact (List.cons.inj (hf.symm.trans hfr)).2
  refine ⟨h.state, fun hh => h.unheard (hh.of_cons fun _ hc => by cases hc), h.kept, .inl hfs, ?_⟩
  exact h.counted.other hl (by intro hc; cases hc) rfl (by simp)

theorem barren (h0 : f 0 = none) (h : Session.Reaches component (Proper f) (Session.start {}) p) :
    Barren f p :=
  h.invariant ⟨rfl, by simp [HandedOver, Session.start], rfl, .inl rfl, counted_nil⟩
    (fun i ht hp => ht.enter i hp) (fun r ht hp hf => ht.reply h0 r hp hf)
    (fun ht _ hf => ht.unwind hf)

/-- The iterator is read no more than it has to be. `reads`: it was read when the sequence was
subscribed to, and once more for each delivery that returned with the subscription in use; `ahead`:
it is at most one item ahead; `ripe`: every read comes at a moment that is ripe for it; `undrawn`:
the loop never comes to an iterator without an item at hand; `buffered`: while no loop runs, a
subscription in use has its next item at hand and no demand left, unless a delivery failed. -/
structure Frugal (f : Nat → Option Value) (p : Play ρ) : Prop where
  reads : p.log ≠ [] → advances p.log = 1 + (account p.log).kept
  ahead : advances p.log ≤ 1 + (account p.log).delivered.length
  ripe : ∀ newer e older, p.log = newer ++ e :: older → e.call? = some .advance →
    Ripe (e :: older)
  undrawn : ∀ dest, .drawing dest ∉ p.frames
  buffered : (∀ fr ∈ p.frames, fr.isPassing) → p.state.subscriber.isSome → ¬Failed p.log →
    p.state.demand.isZero = true ∧ p.state.ahead.isSome ∧
      p.state.ahead = f (account p.log).delivered.length

theorem Still.buffered (h : Still f s a) (hs : s.subscriber.isSome) (he : s.emitting = false) :
    s.demand.isZero = true ∧ s.ahead.isSome ∧ s.ahead = f a.delivered.length := by
  cases h with
  | waiting ha hr hd hv => exact ⟨hd, rfl, by rw [ha.length, hv]⟩
  | jammed => cases he
  | cut => cases hs
  | finished => cases hs

theorem Stage.undrawn (h : Stage f s fs a) (dest : ρ) : .drawing dest ∉ fs := by
  cases fs with
  | nil => simp
  | cons fr fs =>
    intro hmem
    rcases List.mem_cons.mp hmem with heq | hmem
    · exact h.ne_drawing dest heq.symm
    · have hp := h.passing_below _ hmem
      cases hp

theorem Tight.frugal (h : Tight f p) : Frugal f p := by
  rcases h.sound.stage with rfl | ⟨hl, hst⟩
  · exact ⟨h.counted.reads, Nat.zero_le _, h.counted.ripe, by simp [Session.start],
      fun _ hs => by cases hs⟩
  · refine ⟨h.counted.reads, ?_, h.counted.ripe, hst.undrawn, fun hp hs hf => ?_⟩
    · rw [h.counted.reads hl]
      exact Nat.add_le_add_left hst.kept_le 1
    · refine (hst.still_of_passing hp).buffered hs (Bool.eq_false_iff.mpr fun he => ?_)
      exact hf (h.halts.jammed hp hs he)

theorem Barren.frugal (h : Barren f p) : Frugal f p := by
  refine ⟨h.counted.reads, ?_, h.counted.ripe, fun dest hmem => ?_, fun _ hs => ?_⟩
  · by_cases hl : p.log = []
    · rw [hl]
      exact Nat.zero_le _
    · rw [h.counted.reads hl, h.kept]
      exact Nat.le_add_right 1 _
  · rcases h.frames with hf | ⟨-, dest', hf | hf | ⟨hf, -⟩⟩ <;> simp [hf] at hmem
  · rw [h.state] at hs
    cases hs

/-- A sequence over any iterator, one that yields more after a gap included, reads it no more than
it has to, whatever its subscriber requests, returns and cancels, from inside its callbacks too, and
whichever of them panic. -/
theorem reads_frugally (h : Session.Reaches component (Proper f) (Session.start {}) p) :
    Frugal f p := by
  cases h0 : f 0 with
  | none => exact (barren h0 h).frugal
  | some v => exact (tight (by rw [h0]; rfl) h).frugal

/-- Two items and one more after the gap. The subscriber requests from inside the hand-over and from
inside the first delivery, panics in the second one, and requests again. -/
theorem reads_frugally_after_panic :
    ∃ (f : Nat → Option Value) (p : Play Nat), f 3 = some 9 ∧
      Session.Reaches component (Proper f) (Session.start {}) p ∧ p.frames = [] ∧
      p.state.subscriber = some 0 ∧ (account p.log).delivered = [5, 7] ∧ Failed p.log ∧
      advances p.log = 2 ∧ Frugal f p := by
  let f : Nat → Option Value := fun k => [some 5, some 7, none, some 9].getD k none
  have top {p : Play Nat} {fr : Frame Nat} {fs : List (Frame Nat)} (hf : p.frames = fr :: fs)
      (hr : fr.isReading = false) : ∀ g ∈ p.frames.head?, g.isReading = false := by
    simp [hf, hr]
  have h0 : Session.Reaches component (Proper f) (Session.start {} : Play Nat) _ := .refl
  have h1 := h0.turn (x := .enter (.subscribe 0)) (by rfl) rfl
  have h2 := h1.turn (x := .reply (.item (some 5))) (by rfl) rfl
  have h3 := h2.turn (x := .enter (.request .one))
    (by exact ⟨⟨_, .head _, 0, rfl⟩, top rfl rfl⟩) rfl
  have h4 := h3.turn (x := .enter (.request .one))
    (by exact ⟨⟨_, .tail _ (.head _), 0, rfl⟩, top rfl rfl⟩) rfl
  have h5 := h4.turn (x := .reply (.demand .zero)) (by exact ⟨_, rfl⟩) rfl
  have h6 := h5.turn (x := .reply (.item (some 7))) (by rfl) rfl
  have h7 := h6.turn (x := .raise) (by exact top rfl rfl) rfl
  have h8 := h7.turn (x := .reply .done) (by rfl) rfl
  have h9 := h8.turn (x := .enter (.request .unlimited))
    (by
      refine ⟨⟨_, List.mem_append_right [_, _, _, _, _, _] (.head _), 0, rfl⟩, fun fr hfr => ?_⟩
      cases hfr) rfl
  refine ⟨f, _, rfl, h9, rfl, rfl, rfl, ?_, rfl, reads_frugally h9⟩
  exact .inl (.inl (.inr ⟨rfl, 0, rfl⟩))

end Sequence
end Sluice
