import Mathlib.Data.ENat.Lattice
import Sluice.Proofs.Sequence

/-!
# Sequences deliver what was granted, in order

Between two sections a sequence is in one of a few stages: it waits with the next
item read ahead and no demand left, its one loop is delivering or reading, or its
subscriber is gone. A panic in a delivery leaves the loop's flag raised for good.
Every turn leads from one stage to another, and the account of the log says how
far the deliveries have come in each.
-/

namespace Sluice.Sequence

variable {ρ : Type} {f : Nat → Option Value}

namespace Account

/-- The values are the first of the iterator's, and there was demand for all of them. The second
half needs a count that fits into 64 bits, since a demand that does not is unlimited. -/
structure Fair (f : Nat → Option Value) (a : Account) : Prop where
  order : a.delivered.map some = (List.range a.delivered.length).map f
  paid : a.delivered.length ≤ UInt64.size → (a.delivered.length : ℕ∞) ≤ a.granted

/-- The subscription is in use, and `left` is unspent after `k` deliveries. -/
structure Live (f : Nat → Option Value) (a : Account) (k : Nat) (left : Demand) : Prop where
  order : a.delivered.map some = (List.range k).map f
  balance : left.Balances a.granted k
  cancelled : a.cancelled = false
  concluded : a.concluded = 0

/-- The subscription was cancelled before the iterator came to its end. -/
structure Cut (f : Nat → Option Value) (a : Account) : Prop extends a.Fair f where
  ahead : (f a.kept).isSome
  kept : a.kept ≤ a.delivered.length
  cancelled : a.cancelled = true
  concluded : a.concluded = 0

variable {a : Account} {k : Nat} {left : Demand}

theorem Live.length (h : a.Live f k left) : a.delivered.length = k := by
  simpa using congrArg List.length h.order

theorem Live.fair (h : a.Live f k left) : a.Fair f := by
  refine ⟨h.length.symm ▸ h.order, ?_⟩
  rw [h.length]
  exact h.balance.le

theorem Live.isSome (h : a.Live f k left) {j : Nat} (hj : j < k) : (f j).isSome := by
  have hm : f j ∈ (List.range k).map f := List.mem_map_of_mem (List.mem_range.mpr hj)
  rw [← h.order] at hm
  obtain ⟨v, -, hv⟩ := List.mem_map.mp hm
  exact hv ▸ rfl

theorem Live.grant (h : a.Live f k left) (d : Demand) :
    ({ a with granted := d.amount + a.granted } : Account).Live f k (left + d) :=
  ⟨h.order, h.balance.grant d, h.cancelled, h.concluded⟩

theorem Live.deliver {rest : Demand} {v : Value} (h : a.Live f k left) (hv : f k = some v)
    (hr : left.takeOne? = some rest) :
    ({ a with delivered := a.delivered ++ [v] } : Account).Live f (k + 1) rest where
  order := by simp [List.range_succ, h.order, hv]
  balance := h.balance.spend hr
  cancelled := h.cancelled
  concluded := h.concluded

theorem Live.cut (h : a.Live f k left) (hs : (f a.kept).isSome) (hk : a.kept ≤ k) :
    ({ a with cancelled := true } : Account).Cut f where
  order := h.fair.order
  paid := h.fair.paid
  ahead := hs
  kept := h.length.symm ▸ hk
  cancelled := rfl
  concluded := h.concluded

theorem Fair.grant (h : a.Fair f) (g : ℕ∞) :
    ({ a with granted := g + a.granted } : Account).Fair f :=
  ⟨h.order, fun hs => (h.paid hs).trans le_add_self⟩

theorem Cut.grant (h : a.Cut f) (g : ℕ∞) :
    ({ a with granted := g + a.granted } : Account).Cut f where
  toFair := h.toFair.grant g
  ahead := h.ahead
  kept := h.kept
  cancelled := h.cancelled
  concluded := h.concluded

end Account

inductive Still (f : Nat → Option Value) : Sequence ρ → Account → Prop
  | waiting {dest : ρ} {v : Value} {d : Demand} {a : Account} (ha : a.Live f a.kept d)
      (hr : a.reads = a.kept + 1) (hd : d.isZero = true) (hv : f a.kept = some v) :
      Still f ⟨some dest, d, false, some v⟩ a
  | jammed {dest : ρ} {d : Demand} {a : Account} (ha : a.Live f (a.kept + 1) d)
      (hp : a.panicked = true) : Still f ⟨some dest, d, true, none⟩ a
  | cut {d : Demand} {e : Bool} {v : Option Value} {a : Account} (ha : a.Cut f) :
      Still f ⟨none, d, e, v⟩ a
  | finished {d : Demand} {e : Bool} {v : Option Value} {a : Account} (ha : a.Fair f)
      (hc : a.concluded = 1) (hk : a.delivered.length = a.kept) (hn : f a.kept = none) :
      Still f ⟨none, d, e, v⟩ a

/-- Where a sequence can be between two sections, with the frames under way. -/
inductive Stage (f : Nat → Option Value) : Sequence ρ → List (Frame ρ) → Account → Prop
  | opening (dest : ρ) : Stage f {} [.opening dest] {}
  | delivering {dest dest' : ρ} {d : Demand} {fs : List (Frame ρ)} {a : Account}
      (hf : ∀ fr ∈ fs, fr.isPassing) (ha : a.Live f (a.kept + 1) d) (hr : a.reads = a.kept + 1) :
      Stage f ⟨some dest, d, true, none⟩ (.delivering dest' :: fs) a
  | leaving {dest' : ρ} {d : Demand} {fs : List (Frame ρ)} {a : Account}
      (hf : ∀ fr ∈ fs, fr.isPassing) (ha : a.Cut f) :
      Stage f ⟨none, d, true, none⟩ (.delivering dest' :: fs) a
  | peeking {dest : ρ} {d : Demand} {fs : List (Frame ρ)} {a : Account}
      (hf : ∀ fr ∈ fs, fr.isPassing) (ha : a.Live f a.kept d) (hr : a.reads = a.kept) :
      Stage f ⟨some dest, d, true, none⟩ (.peeking :: fs) a
  | still {s : Sequence ρ} {fs : List (Frame ρ)} {a : Account} (hf : ∀ fr ∈ fs, fr.isPassing)
      (hs : Still f s a) : Stage f s fs a

variable {s : Sequence ρ} {fs : List (Frame ρ)} {a : Account}

def StageAfter (f : Nat → Option Value) (a : Account) (turn : Turn (In ρ)) (fs : List (Frame ρ))
    (r : Sequence ρ × Move (Out ρ) (Frame ρ)) : Prop :=
  Stage f r.1 (r.2.push fs) ((a.turn turn).call (Entry.call? ⟨turn, r.1, r.1, some r.2⟩))

theorem stageAfter_answer {turn : Turn (In ρ)} {r : Reply} :
    StageAfter f a turn fs (s, .answer r) ↔ Stage f s fs (a.turn turn) := .rfl

theorem Account.turn_request {d : Demand} (h : a.concluded = 0) :
    a.turn (.enter (.request d) : Turn (In ρ)) = { a with granted := d.amount + a.granted } := by
  rw [Account.turn, if_pos h]

theorem Account.turn_request_concluded {d : Demand} (h : a.concluded = 1) :
    a.turn (.enter (.request d) : Turn (In ρ)) = a := by
  rw [Account.turn, if_neg (by omega)]

theorem Account.turn_returned {d : Demand} (h : a.cancelled = false) :
    a.turn (.reply (.demand d) : Turn (In ρ)) =
      { a with granted := d.amount + a.granted, kept := a.kept + 1 } := by
  rw [Account.turn, h, if_neg (by simp)]

theorem Account.turn_returned_cancelled {d : Demand} (h : a.cancelled = true) :
    a.turn (.reply (.demand d) : Turn (In ρ)) = { a with granted := d.amount + a.granted } := by
  rw [Account.turn, h, if_pos rfl]

theorem Stage.loop {dest : ρ} {v : Value} {d : Demand} (turn : Turn (In ρ))
    (hf : ∀ fr ∈ fs, fr.isPassing) (ha : (a.turn turn).Live f (a.turn turn).kept d)
    (hr : (a.turn turn).reads = (a.turn turn).kept + 1) (hv : f (a.turn turn).kept = some v) :
    StageAfter f a turn fs (drain ⟨some dest, d, true, some v⟩) := by
  have h := drained (⟨some dest, d, true, some v⟩ : Sequence ρ)
  generalize drain (⟨some dest, d, true, some v⟩ : Sequence ρ) = r at h ⊢
  obtain ⟨t, mv⟩ := r
  cases h with
  | stop hs ht =>
    subst ht
    exact .still hf (.waiting ha hr (hs.resolve_left (by simp)) hv)
  | deliver hs hd hx ht =>
    subst ht
    obtain rfl := Option.some.inj hx
    exact .delivering hf (ha.deliver hv hd) hr
  | draw hs hd hx => cases hx

theorem onRequest_gone {x : Demand} {e : Bool} {v : Option Value} (d : Demand) :
    (⟨none, x, e, v⟩ : Sequence ρ).onRequest d = (⟨none, x, e, v⟩, .answer .done) := rfl

theorem onRequest_emitting {dest : ρ} {x : Demand} {v : Option Value} (d : Demand) :
    (⟨some dest, x, true, v⟩ : Sequence ρ).onRequest d =
      (⟨some dest, x + d, true, v⟩, .answer .done) := rfl

theorem Still.request (h : Still f s a) (hf : ∀ fr ∈ fs, fr.isPassing) (d : Demand) :
    StageAfter f a (.enter (.request d)) fs (s.onRequest d) := by
  cases h with
  | @waiting dest v left _ ha hrd hd hv =>
    have ht := Account.turn_request (ρ := ρ) (d := d) ha.concluded
    by_cases hz : (left + d).isZero = true
    · have hmv : (⟨some dest, left, false, some v⟩ : Sequence ρ).onRequest d =
          (⟨some dest, left + d, false, some v⟩, .answer .done) := by simp [onRequest, hz]
      rw [hmv, stageAfter_answer, ht]
      exact .still hf (.waiting (ha.grant d) hrd hz hv)
    · have hmv : (⟨some dest, left, false, some v⟩ : Sequence ρ).onRequest d =
          drain ⟨some dest, left + d, true, some v⟩ := by simp [onRequest, hz]
      rw [hmv]
      exact .loop _ hf (ht ▸ ha.grant d) (ht ▸ hrd) (ht ▸ hv)
  | jammed ha hp =>
    rw [onRequest_emitting, stageAfter_answer, Account.turn_request ha.concluded]
    exact .still hf (.jammed (ha.grant d) hp)
  | cut ha =>
    rw [onRequest_gone, stageAfter_answer, Account.turn_request ha.concluded]
    exact .still hf (.cut (ha.grant _))
  | finished ha hc hk hn =>
    rw [onRequest_gone, stageAfter_answer, Account.turn_request_concluded hc]
    exact .still hf (.finished ha hc hk hn)

theorem Stage.request (h : Stage f s fs a) (hr : ∀ fr ∈ fs.head?, fr.isReading = false)
    (d : Demand) : StageAfter f a (.enter (.request d)) fs (s.onRequest d) := by
  cases h with
  | opening dest => simp [Frame.isReading] at hr
  | delivering hf ha hrd =>
    rw [onRequest_emitting, stageAfter_answer, Account.turn_request ha.concluded]
    exact .delivering hf (ha.grant d) hrd
  | leaving hf ha =>
    rw [onRequest_gone, stageAfter_answer, Account.turn_request ha.concluded]
    exact .leaving hf (ha.grant _)
  | peeking hf => simp [Frame.isReading] at hr
  | still hf hs => exact hs.request hf d

theorem Stage.cancel (h : Stage f s fs a) (hr : ∀ fr ∈ fs.head?, fr.isReading = false) :
    StageAfter f a (.enter .cancel) fs ({ s with subscriber := none }, .answer .done) := by
  rw [stageAfter_answer]
  change Stage f _ fs { a with cancelled := true }
  cases h with
  | opening dest => simp [Frame.isReading] at hr
  | delivering hf ha hrd =>
    exact .leaving hf (ha.cut (ha.isSome (Nat.lt_succ_self _)) (Nat.le_succ _))
  | leaving hf ha => exact .leaving hf { ha with cancelled := rfl }
  | peeking hf => simp [Frame.isReading] at hr
  | still hf hs =>
    apply Stage.still hf
    cases hs with
    | waiting ha hrd hd hv => exact .cut (ha.cut (hv ▸ rfl) le_rfl)
    | jammed ha hp => exact .cut (ha.cut (ha.isSome (Nat.lt_succ_self _)) (Nat.le_succ _))
    | cut ha => exact .cut { ha with cancelled := rfl }
    | finished ha hc hk hn => exact .finished { ha with } hc hk hn

theorem Stage.opened {dest : ρ} (h : Stage f s (.opening dest :: fs) a) (h0 : (f 0).isSome) :
    StageAfter f a (.reply (.item (f a.reads))) fs (s.onOpened dest (f a.reads)) := by
  cases h with
  | opening =>
    obtain ⟨v, hv⟩ := Option.isSome_iff_exists.mp h0
    rw [show f ({} : Account).reads = some v from hv]
    exact .still (by simp [onOpened, Frame.isPassing])
      (.waiting ⟨rfl, .inl rfl, rfl, rfl⟩ rfl rfl hv)
  | still hf => simp [Frame.isPassing] at hf

theorem Stage.returned {dest : ρ} (h : Stage f s (.delivering dest :: fs) a) (d : Demand) :
    StageAfter f a (.reply (.demand d)) fs (s.onDelivered d) := by
  cases h with
  | @delivering dest _ left _ _ hf ha hrd =>
    have ht := Account.turn_returned (ρ := ρ) (d := d) ha.cancelled
    -- The loop reads ahead before it looks at the demand that came back.
    change Stage f _ (.peeking :: fs) (a.turn (.reply (.demand d) : Turn (In ρ)))
    rw [ht]
    exact .peeking hf { ha.grant d with } hrd
  | leaving hf ha =>
    -- The subscriber cancelled from inside the delivery, so the loop stops here.
    have ht := Account.turn_returned_cancelled (ρ := ρ) (d := d) ha.cancelled
    change Stage f _ fs (a.turn (.reply (.demand d) : Turn (In ρ)))
    rw [ht]
    exact .still hf (.cut (ha.grant _))
  | still hf => simp [Frame.isPassing] at hf

theorem Stage.peeked (h : Stage f s (.peeking :: fs) a) :
    StageAfter f a (.reply (.item (f a.reads))) fs (s.onPeeked (f a.reads)) := by
  cases h with
  | peeking hf ha hr =>
    rw [hr]
    cases hv : f a.kept with
    | some v => exact .loop _ hf { ha with } (congrArg (· + 1) hr) hv
    | none =>
      have hc : a.concluded + 1 = 1 := by rw [ha.concluded]
      exact .still (List.forall_mem_cons.mpr ⟨rfl, hf⟩) (.finished { ha.fair with } hc ha.length hv)
  | still hf => simp [Frame.isPassing] at hf

theorem Stage.of_peeking (h : Stage f s (.peeking :: fs) a) :
    a.reads = a.kept ∧ a.cancelled = false ∧ (∀ j < a.kept, (f j).isSome) ∧
      ∃ dest, s.subscriber = some dest := by
  cases h with
  | peeking hf ha hr => exact ⟨hr, ha.cancelled, fun _ => ha.isSome, _, rfl⟩
  | still hf => simp [Frame.isPassing] at hf

theorem Stage.pass {fr : Frame ρ} (h : Stage f s (fr :: fs) a) (hp : fr.isPassing) :
    Stage f s fs a := by
  cases h with
  | still hf hs => exact .still (List.forall_mem_cons.mp hf).2 hs
  | _ => simp [Frame.isPassing] at hp

theorem Stage.unwind {fr : Frame ρ} (h : Stage f s (fr :: fs) a) (hr : fr.isReading = false) :
    Stage f s fs { a with panicked := true } := by
  -- In a delivery the panic leaves the loop's flag up and nothing at hand.
  cases h with
  | opening => simp [Frame.isReading] at hr
  | delivering hf ha hrd => exact .still hf (.jammed { ha with } rfl)
  | leaving hf ha => exact .still hf (.cut { ha with })
  | peeking => simp [Frame.isReading] at hr
  | still hf hs =>
    apply Stage.still (List.forall_mem_cons.mp hf).2
    cases hs with
    | waiting ha hrd hd hv => exact .waiting { ha with } hrd hd hv
    | jammed ha hp => exact .jammed { ha with } rfl
    | cut ha => exact .cut { ha with }
    | finished ha hc hk hn => exact .finished { ha with } hc hk hn

theorem Stage.passing_below {fr : Frame ρ} (h : Stage f s (fr :: fs) a) :
    ∀ g ∈ fs, g.isPassing := by
  cases h with
  | opening => simp
  | delivering hf => exact hf
  | leaving hf => exact hf
  | peeking hf => exact hf
  | still hf => exact (List.forall_mem_cons.mp hf).2

theorem Stage.ne_drawing {fr : Frame ρ} (h : Stage f s (fr :: fs) a) (dest : ρ) :
    fr ≠ .drawing dest := by
  -- The loop never starts without an item at hand.
  intro heq
  subst heq
  cases h with
  | still hf => simp [Frame.isPassing] at hf

theorem Stage.ne_refusing {fr : Frame ρ} (h : Stage f s (fr :: fs) a) (dest : ρ) :
    fr ≠ .refusing dest := by
  intro heq
  subst heq
  cases h with
  | still hf => simp [Frame.isPassing] at hf

theorem Stage.not_peeking {fr : Frame ρ} (h : Stage f s (fr :: fs) a) (fs' : List (Frame ρ)) :
    fs ≠ .peeking :: fs' := by
  intro heq
  have hp := h.passing_below .peeking (heq ▸ List.mem_cons_self)
  simp [Frame.isPassing] at hp

/-- What the log says when it comes to a conclusion: the iterator has just been found empty, right
after a delivery returned that was the last, and nothing was cancelled before. -/
def Prompt (last : Nat → Prop) (log : List (Note ρ)) : Prop :=
  ∀ newer e older dest, log = newer ++ e :: older → e.call? = some (.conclude dest) →
    e.turn = .reply (.item none) ∧ last (account older).kept ∧ (account older).cancelled = false ∧
      ∃ e' older' d, older = e' :: older' ∧ e'.turn = .reply (.demand d)

theorem Prompt.cons {last : Nat → Prop} {e : Note ρ} {log : List (Note ρ)} (h : Prompt last log)
    (he : ∀ dest, e.call? = some (.conclude dest) →
      e.turn = .reply (.item none) ∧ last (account log).kept ∧ (account log).cancelled = false ∧
        ∃ e' older' d, log = e' :: older' ∧ e'.turn = .reply (.demand d)) :
    Prompt last (e :: log) := by
  intro newer e' older dest hlog hc
  cases newer with
  | nil =>
    obtain ⟨rfl, rfl⟩ := List.cons.inj hlog
    exact he dest hc
  | cons e'' newer => exact h newer e' older dest (List.cons.inj hlog).2 hc

def FirstGap (f : Nat → Option Value) (k : Nat) : Prop := f k = none ∧ ∀ j < k, (f j).isSome

structure Sound (f : Nat → Option Value) (s : Play ρ) : Prop where
  stage : s = Session.start {} ∨ s.log ≠ [] ∧ Stage f s.state s.frames (account s.log)
  prompt : Prompt (FirstGap f) s.log
  peeks : ∀ fs, s.frames = .peeking :: fs →
    ∃ e older d, s.log = e :: older ∧ e.turn = .reply (.demand d)

theorem drain_call {s : Sequence ρ} {o : Out ρ} {fr : Frame ρ} (h : s.drain.2 = .call o fr) :
    fr ≠ .peeking ∧ ∀ dest, o ≠ .conclude dest := by
  have hd := drained s
  rw [h] at hd
  cases hd with
  | deliver => exact ⟨by simp, by simp⟩
  | draw => exact ⟨by simp, by simp⟩

theorem enter_call {s : Sequence ρ} {i : In ρ} {o : Out ρ} {fr : Frame ρ}
    (h : (s.enter i).2 = .call o fr) : fr ≠ .peeking ∧ ∀ dest, o ≠ .conclude dest := by
  cases i with
  | subscribe dest =>
    obtain ⟨rfl, rfl⟩ : Out.advance = o ∧ Frame.opening dest = fr := by simpa [enter] using h
    exact ⟨by simp, by simp⟩
  | request d =>
    simp only [enter, onRequest] at h
    split at h
    · simp at h
    · split at h
      · simp at h
      · exact drain_call h
  | cancel => simp [enter] at h

theorem HandedOver.ne_nil {log : List (Note ρ)} (h : HandedOver log) : log ≠ [] := by
  obtain ⟨e, he, -⟩ := h
  exact List.ne_nil_of_mem he

variable {p : Play ρ}

theorem Sound.stage_of_log (h : Sound f p) (hl : p.log ≠ []) :
    Stage f p.state p.frames (account p.log) := by
  rcases h.stage with rfl | h
  · exact absurd rfl hl
  · exact h.2

theorem Sound.stage_of_frames (h : Sound f p) {fr : Frame ρ} (hf : p.frames = fr :: fs) :
    Stage f p.state (fr :: fs) (account p.log) := by
  rcases h.stage with rfl | h
  · simp [Session.start] at hf
  · exact hf ▸ h.2

theorem Sound.not_reading (h : Sound f p) {i : In ρ} (hp : Proper f p (.enter i)) :
    ∀ fr ∈ p.frames.head?, fr.isReading = false := by
  cases i with
  | subscribe dest =>
    rcases h.stage with rfl | h
    · simp [Session.start]
    · exact absurd hp h.1
  | request d => exact hp.2
  | cancel => exact hp.2

theorem Sound.advance (h : Sound f p) {turn : Turn (In ρ)} {r : Sequence ρ × Move (Out ρ) (Frame ρ)}
    (hs : StageAfter f (account p.log) turn fs r) (hfs : ∀ fs', fs ≠ .peeking :: fs')
    (hr : ∀ o fr, r.2 = .call o fr → fr ≠ .peeking ∧ ∀ dest, o ≠ .conclude dest) :
    Sound f (p.advance turn fs r) := by
  obtain ⟨t, mv⟩ := r
  refine ⟨.inr ⟨List.cons_ne_nil _ _, hs⟩, h.prompt.cons ?_, ?_⟩
  · intro dest hc
    cases mv with
    | answer r => simp [Entry.call?] at hc
    | call o fr =>
      obtain rfl : o = .conclude dest := by simpa [Entry.call?] using hc
      exact absurd rfl ((hr _ _ rfl).2 dest)
  · intro fs' hf
    cases mv with
    | answer r => exact absurd hf (hfs fs')
    | call o fr => exact absurd (List.cons.inj hf).1 (hr _ _ rfl).1

theorem Sound.enter (h : Sound f p) (i : In ρ) (hp : Proper f p (.enter i)) :
    Sound f (p.advance (.enter i) p.frames (component.enter p.state i)) := by
  have hn := h.not_reading hp
  refine h.advance ?_ (fun fs hf => by simp [hf, Frame.isReading] at hn) fun o fr => enter_call
  cases i with
  | subscribe dest =>
    rcases h.stage with rfl | h
    · exact .opening dest
    · exact absurd hp h.1
  | request d => exact (h.stage_of_log hp.1.ne_nil).request hp.2 d
  | cancel => exact (h.stage_of_log hp.1.ne_nil).cancel hp.2

theorem Sound.returned (h : Sound f p) {dest : ρ} (hf : p.frames = .delivering dest :: fs)
    (d : Demand) : Sound f (p.advance (.reply (.demand d)) fs (p.state.onDelivered d)) := by
  have hst := h.stage_of_frames hf
  have hs := hst.returned d
  generalize hr : p.state.onDelivered d = r at hs ⊢
  obtain ⟨t, mv⟩ := r
  have hc : ∀ o fr, mv = .call o fr → ∀ dest, o ≠ .conclude dest := by
    intro o fr hmv
    simp only [onDelivered] at hr
    split at hr
    · obtain ⟨-, rfl⟩ := Prod.mk.inj hr
      obtain ⟨rfl, -⟩ : Out.advance = o ∧ Frame.peeking = fr := by simpa using hmv
      simp
    · exact (drain_call ((congrArg Prod.snd hr).trans hmv)).2
  -- Whatever is read ahead from here on is read right after this delivery.
  refine ⟨.inr ⟨List.cons_ne_nil _ _, hs⟩, h.prompt.cons ?_, fun _ _ => ⟨_, _, d, rfl, rfl⟩⟩
  intro dest' hcall
  cases mv with
  | answer r => simp [Entry.call?] at hcall
  | call o fr => exact absurd (by simpa [Entry.call?] using hcall) (hc o fr rfl dest')

theorem Sound.peeked (h : Sound f p) (hf : p.frames = .peeking :: fs) :
    Sound f (p.advance (.reply (.item (f (account p.log).reads))) fs
      (p.state.onPeeked (f (account p.log).reads))) := by
  have hst := h.stage_of_frames hf
  have hs := hst.peeked
  obtain ⟨hr, hc, hall, dest, hd⟩ := hst.of_peeking
  cases hv : f (account p.log).reads with
  | some v =>
    rw [hv] at hs
    exact h.advance hs hst.not_peeking fun o fr => drain_call
  | none =>
    rw [hv] at hs
    refine ⟨.inr ⟨List.cons_ne_nil _ _, hs⟩, h.prompt.cons fun _ _ =>
      ⟨rfl, ⟨hr ▸ hv, hall⟩, hc, h.peeks fs hf⟩, ?_⟩
    intro fs' hfs
    simp [Session.advance, onPeeked, hd] at hfs

theorem onOpened_call {dest : ρ} {v : Option Value} {o : Out ρ} {fr : Frame ρ}
    (h : (s.onOpened dest v).2 = .call o fr) : fr ≠ .peeking ∧ ∀ dest, o ≠ .conclude dest := by
  cases v with
  | some v =>
    obtain ⟨rfl, rfl⟩ : Out.handOver dest true = o ∧ Frame.passing dest = fr := by
      simpa [onOpened] using h
    exact ⟨by simp, by simp⟩
  | none =>
    obtain ⟨rfl, rfl⟩ : Out.handOver dest false = o ∧ Frame.refusing dest = fr := by
      simpa [onOpened] using h
    exact ⟨by simp, by simp⟩

theorem Sound.reply (h : Sound f p) (h0 : (f 0).isSome) {fr : Frame ρ} (r : Reply)
    (hp : Proper f p (.reply r)) (hf : p.frames = fr :: fs) :
    Sound f (p.advance (.reply r) fs (component.proceed p.state r fr)) := by
  have hst := h.stage_of_frames hf
  simp only [Proper, hf, List.head?_cons] at hp
  cases fr with
  | opening dest =>
    subst hp
    exact h.advance (hst.opened h0) hst.not_peeking fun o fr => onOpened_call
  | delivering dest =>
    obtain ⟨d, rfl⟩ := hp
    exact h.returned hf d
  | peeking =>
    subst hp
    exact h.peeked hf
  | passing dest =>
    subst hp
    exact h.advance (hst.pass rfl) hst.not_peeking (by simp [component, proceed])
  | refusing dest => exact absurd rfl (hst.ne_refusing dest)
  | drawing dest => exact absurd rfl (hst.ne_drawing dest)

theorem Sound.unwind (h : Sound f p) {fr : Frame ρ} (hp : Proper f p .raise)
    (hf : p.frames = fr :: fs) : Sound f (p.unwind fs) := by
  have hst := h.stage_of_frames hf
  have hr : fr.isReading = false := hp fr (by simp [hf])
  refine ⟨.inr ⟨List.cons_ne_nil _ _, hst.unwind hr⟩, h.prompt.cons ?_, ?_⟩
  · intro dest hc
    simp [Entry.call?] at hc
  · intro fs' hfs
    exact absurd hfs (hst.not_peeking fs')

theorem sound (h0 : (f 0).isSome) (h : Session.Reaches component (Proper f) (Session.start {}) p) :
    Sound f p :=
  h.invariant ⟨.inl rfl, by simp [Prompt, Session.start], by simp [Session.start]⟩
    (fun i ht hp => ht.enter i hp) (fun r ht hp hf => ht.reply h0 r hp hf)
    (fun ht hp hf => ht.unwind hp hf)

/-- Up to its first gap the iterator yields `xs`. What comes after the gap is left open. -/
def Yields (f : Nat → Option Value) (xs : List Value) : Prop := ∀ k ≤ xs.length, f k = xs[k]?

def Calm (f : Nat → Option Value) (s : Play ρ) (x : Turn (In ρ)) : Prop :=
  Proper f s x ∧ x ≠ .raise

/-- Demand is honoured: what the subscriber of a sequence over `xs` has got, at any moment of a run.
While all frames are passing no call on the subscription is in progress, unless it is the one that
is handing over the completion. -/
structure Honoured (xs : List Value) (s : Play ρ) : Prop where
  order : (account s.log).delivered <+: xs
  serial : s.frames.countP Frame.isDelivering ≤ 1
  within : ((account s.log).delivered.length : ℕ∞) ≤ (account s.log).granted
  balanced : (∀ fr ∈ s.frames, fr.isPassing) → (account s.log).cancelled = false →
    ((account s.log).delivered.length : ℕ∞) = min (account s.log).granted xs.length
  once : (account s.log).concluded ≤ 1
  concludes : (∀ fr ∈ s.frames, fr.isPassing) →
    ((account s.log).concluded = 1 ↔ (account s.log).kept = xs.length)
  prompt : Prompt (· = xs.length) s.log

variable {xs : List Value}

namespace Account

theorem Fair.some_of_lt (h : a.Fair f) {k : Nat} (hk : k < a.delivered.length) :
    f k = some a.delivered[k] := by
  have hm : (a.delivered.map some)[k]? = ((List.range a.delivered.length).map f)[k]? := by
    rw [h.order]
  simpa [hk] using hm.symm

theorem Fair.length_le (h : a.Fair f) (hy : Yields f xs) : a.delivered.length ≤ xs.length := by
  by_contra hlt
  have hs := h.some_of_lt (Nat.lt_of_not_le hlt)
  simp [hy xs.length le_rfl] at hs

theorem Fair.isPrefix (h : a.Fair f) (hy : Yields f xs) : a.delivered <+: xs := by
  have hle := h.length_le hy
  rw [List.prefix_iff_getElem?]
  intro k hk
  rw [← hy k (by omega)]
  exact h.some_of_lt hk

end Account

theorem Yields.eq_none_iff (hy : Yields f xs) {k : Nat} (hk : k ≤ xs.length) :
    f k = none ↔ k = xs.length := by
  rw [hy k hk, List.getElem?_eq_none_iff]
  omega

theorem Yields.eq_of_firstGap (hy : Yields f xs) {k : Nat} (h : FirstGap f k) : k = xs.length := by
  refine (hy.eq_none_iff ?_).mp h.1
  by_contra hlt
  have hs := h.2 xs.length (Nat.lt_of_not_le hlt)
  simp [hy xs.length le_rfl] at hs

theorem Stage.fair (h : Stage f s fs a) : a.Fair f := by
  cases h with
  | opening => exact ⟨rfl, fun _ => le_rfl⟩
  | delivering _ ha => exact ha.fair
  | leaving _ ha => exact ha.toFair
  | peeking _ ha => exact ha.fair
  | still _ hs =>
    cases hs with
    | waiting ha => exact ha.fair
    | jammed ha => exact ha.fair
    | cut ha => exact ha.toFair
    | finished ha => exact ha

theorem Stage.kept_le (h : Stage f s fs a) : a.kept ≤ a.delivered.length := by
  cases h with
  | opening => exact Nat.zero_le _
  | delivering _ ha => exact ha.length.symm ▸ Nat.le_succ _
  | leaving _ ha => exact ha.kept
  | peeking _ ha => exact ha.length.symm ▸ le_rfl
  | still _ hs =>
    cases hs with
    | waiting ha => exact ha.length.symm ▸ le_rfl
    | jammed ha => exact ha.length.symm ▸ Nat.le_succ _
    | cut ha => exact ha.kept
    | finished ha hc hk => exact hk.symm ▸ le_rfl

theorem Stage.serial (h : Stage f s fs a) : fs.countP Frame.isDelivering ≤ 1 := by
  cases fs with
  | nil => exact Nat.zero_le _
  | cons fr fs =>
    have hz : fs.countP Frame.isDelivering = 0 := by
      rw [List.countP_eq_zero]
      intro g hg
      have hp := h.passing_below g hg
      cases g with
      | passing dest => simp [Frame.isDelivering]
      | _ => simp [Frame.isPassing] at hp
    rw [List.countP_cons, hz]
    split <;> omega

theorem Stage.concluded_le (h : Stage f s fs a) : a.concluded ≤ 1 := by
  cases h with
  | opening => exact Nat.zero_le _
  | delivering _ ha => exact ha.concluded ▸ Nat.zero_le _
  | leaving _ ha => exact ha.concluded ▸ Nat.zero_le _
  | peeking _ ha => exact ha.concluded ▸ Nat.zero_le _
  | still _ hs =>
    cases hs with
    | waiting ha => exact ha.concluded ▸ Nat.zero_le _
    | jammed ha => exact ha.concluded ▸ Nat.zero_le _
    | cut ha => exact ha.concluded ▸ Nat.zero_le _
    | finished ha hc => exact hc.le

theorem Stage.still_of_passing (h : Stage f s fs a) (hf : ∀ fr ∈ fs, fr.isPassing) :
    Still f s a := by
  cases h with
  | still _ hs => exact hs
  | _ => simp [Frame.isPassing] at hf

theorem Still.concluded_iff (h : Still f s a) : a.concluded = 1 ↔ f a.kept = none := by
  cases h with
  | waiting ha hr hd hv => simp [ha.concluded, hv]
  | jammed ha =>
    obtain ⟨v, hv⟩ := Option.isSome_iff_exists.mp (ha.isSome (Nat.lt_succ_self a.kept))
    simp [ha.concluded, hv]
  | cut ha =>
    obtain ⟨v, hv⟩ := Option.isSome_iff_exists.mp ha.ahead
    simp [ha.concluded, hv]
  | finished ha hc hk hn => simp [hc, hn]

theorem Still.balanced (h : Still f s a) (hy : Yields f xs) (hc : a.cancelled = false)
    (hp : a.panicked = false) (hn : xs.length ≤ UInt64.size) :
    (a.delivered.length : ℕ∞) = min a.granted xs.length := by
  cases h with
  | waiting ha hr hd hv =>
    have hle : (a.delivered.length : ℕ∞) ≤ xs.length := by exact_mod_cast ha.fair.length_le hy
    rw [ha.length] at hle ⊢
    rw [ha.balance.eq_spent hd, min_eq_left hle]
  | jammed ha hpan => simp [hp] at hpan
  | cut ha => simp [ha.cancelled] at hc
  | finished ha hc hk hv =>
    have hlen : a.delivered.length = xs.length :=
      (hy.eq_none_iff (ha.length_le hy)).mp (hk.symm ▸ hv)
    rw [← hlen, min_eq_right (ha.paid (hlen ▸ hn))]

theorem Account.call_panicked (o : Option (Out ρ)) : (a.call o).panicked = a.panicked := by
  cases o with
  | none => rfl
  | some o => cases o <;> rfl

theorem Account.turn_panicked {x : Turn (In ρ)} (hx : x ≠ .raise) :
    (a.turn x).panicked = a.panicked := by
  cases x with
  | enter i => cases i <;> rfl
  | reply r => cases r <;> rfl
  | raise => exact absurd rfl hx

theorem calm_panicked (h : Session.Reaches component (Calm f) (Session.start {}) p) :
    (account p.log).panicked = false := by
  refine h.invariant (P := fun p => (account p.log).panicked = false) rfl ?_ ?_ ?_
  · intro p i hpre hm
    exact (Account.call_panicked _).trans ((Account.turn_panicked hm.2).trans hpre)
  · intro p fr fs r hpre hm _
    exact (Account.call_panicked _).trans ((Account.turn_panicked hm.2).trans hpre)
  · intro p fr fs _ hm
    exact absurd rfl hm.2

theorem Stage.honoured (h : Stage f p.state p.frames (account p.log)) (hy : Yields f xs)
    (hn : xs.length ≤ UInt64.size) (hp : (account p.log).panicked = false)
    (hl : Prompt (· = xs.length) p.log) : Honoured xs p where
  order := h.fair.isPrefix hy
  serial := h.serial
  within := h.fair.paid ((h.fair.length_le hy).trans hn)
  balanced := fun hf hc => (h.still_of_passing hf).balanced hy hc hp hn
  once := h.concluded_le
  concludes := fun hf => (h.still_of_passing hf).concluded_iff.trans
    (hy.eq_none_iff (h.kept_le.trans (h.fair.length_le hy)))
  prompt := hl

/-- A sequence over an iterator that yields `xs` up to its first gap, and fewer than 2^64 values,
honours the demand of its one subscriber, whatever the subscriber requests, returns and cancels, at
top level or from inside any callback, and whatever the iterator yields after the gap. -/
theorem demand_honoured (hne : xs ≠ []) (hn : xs.length < UInt64.size) (hy : Yields f xs)
    (h : Session.Reaches component (Calm f) (Session.start {}) p) : Honoured xs p := by
  have hlen : 0 < xs.length := List.length_pos_iff.mpr hne
  have h0 : (f 0).isSome := by
    rw [hy 0 hlen.le, List.getElem?_eq_getElem hlen]
    rfl
  have hs := sound h0 (h.mono fun _ _ hm => hm.1)
  rcases hs.stage with rfl | ⟨-, hst⟩
  · exact ⟨by simp [Session.start, account], by simp [Session.start],
      by simp [Session.start, account], by simp [Session.start, account],
      by simp [Session.start, account], by simp [Session.start, account, hlen.ne],
      by simp [Prompt, Session.start]⟩
  · refine hst.honoured hy hn.le (calm_panicked h) ?_
    intro newer e older dest hlog hc
    obtain ⟨ht, hgap, hrest⟩ := hs.prompt newer e older dest hlog hc
    exact ⟨ht, hy.eq_of_firstGap hgap, hrest⟩

/-- Two items and one more after the gap. The subscriber requests from inside the hand-over and from
inside the first delivery, and returns no bound from the last. -/
theorem demand_honoured_requested_while_delivering :
    ∃ (f : Nat → Option Value) (p : Play Nat), Yields f [5, 7] ∧ f 3 = some 9 ∧
      Session.Reaches component (Calm f) (Session.start {}) p ∧ p.frames = [] ∧
      (account p.log).delivered = [5, 7] ∧ (account p.log).concluded = 1 ∧ Honoured [5, 7] p := by
  let f : Nat → Option Value := fun k => [some 5, some 7, none, some 9].getD k none
  have hy : Yields f [5, 7] := by unfold Yields; decide
  have h0 : Session.Reaches component (Calm f) (Session.start {} : Play Nat) _ := .refl
  have h1 := h0.turn (x := .enter (.subscribe 0)) (by simp [Calm, Proper, Session.start]) rfl
  have h2 := h1.turn (x := .reply (.item (some 5))) (by refine ⟨?_, by simp⟩; rfl) rfl
  have h3 := h2.turn (x := .enter (.request .one))
    (by
      refine ⟨And.intro ⟨_, .head _, 0, rfl⟩ ?_, by simp⟩
      intro fr hfr
      obtain rfl := Option.some.inj hfr
      rfl) rfl
  have h4 := h3.turn (x := .enter (.request .one))
    (by
      refine ⟨And.intro ⟨_, .tail _ (.head _), 0, rfl⟩ ?_, by simp⟩
      intro fr hfr
      obtain rfl := Option.some.inj hfr
      rfl) rfl
  have h5 := h4.turn (x := .reply (.demand .zero)) (by refine ⟨⟨_, rfl⟩, by simp⟩) rfl
  have h6 := h5.turn (x := .reply (.item (some 7))) (by refine ⟨?_, by simp⟩; rfl) rfl
  have h7 := h6.turn (x := .reply (.demand .unlimited)) (by refine ⟨⟨_, rfl⟩, by simp⟩) rfl
  have h8 := h7.turn (x := .reply (.item none)) (by refine ⟨?_, by simp⟩; rfl) rfl
  have h9 := h8.turn (x := .reply .done) (by refine ⟨?_, by simp⟩; rfl) rfl
  have h10 := h9.turn (x := .reply .done) (by refine ⟨?_, by simp⟩; rfl) rfl
  exact ⟨f, _, hy, rfl, h10, rfl, rfl, rfl, demand_honoured (by simp) (by decide) hy h10⟩

end Sluice.Sequence
