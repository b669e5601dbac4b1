import Sluice.Proofs.Deferral.Desk
import Sluice.Proofs.Driver.Ledger
import Sluice.Proofs.Driver.Waiting

/-!
# Requests kept back from a driver

A driver that delivers waits for nothing, so a request inside a receive finds no
waiter and leaves a permit. The permit is the one trace of it apart from the
demand, and it never tells: whoever waits next uses it up and waits again.
-/

namespace Sluice.Driver

variable {ρ : Type}

def desk : Desk (Driver ρ) (In ρ) (Frame ρ) where
  receives
    | .delivering => true
    | _ => false
  grants? s
    | .request d => if s.cancelled then none else some d
    | _ => none

/-- Nobody panics, and the task is never run while it is running. -/
def Steadily (p : Play ρ) : Turn (In ρ) → Prop
  | .enter .run => ∀ f ∈ p.frames, f.isRunning = false
  | .raise => False
  | _ => True

def permitted (s : Driver ρ) (b : Bool) : Driver ρ :=
  { s with wakeup := { s.wakeup with permit := b } }

/-- The driver `t` is `s` but for a demand that it has not got, and for the permit. -/
def Short (owed : Demand) (s t : Driver ρ) : Prop :=
  ∃ b, s = ({ t with demand := t.demand + owed } : Driver ρ).permitted b

section Permits

variable {s : Driver ρ} {x y : Driver ρ × Move (Out ρ) (Frame ρ)} {b : Bool}

def Alike (x y : Driver ρ × Move (Out ρ) (Frame ρ)) : Prop :=
  x.2 = y.2 ∧ ∃ b, x.1 = y.1.permitted b

theorem Alike.refl (x : Driver ρ × Move (Out ρ) (Frame ρ)) : Alike x x :=
  ⟨rfl, x.1.wakeup.permit, rfl⟩

theorem finish_alike (s : Driver ρ) (b : Bool) : Alike (s.permitted b).finish s.finish :=
  ⟨rfl, b || s.wakeup.waiter == .notified, rfl⟩

theorem select_eq (hc : s.cancelled = false) : s.select =
    ({ s with wakeup := ⟨false, .registered⟩, phase := .polling }, .call .poll .polling) := by
  obtain ⟨pace, sub, d, x, ⟨permit, waiter⟩, phase, n⟩ := s
  obtain rfl : x = false := hc
  cases permit <;> rfl

theorem select_alike (hc : s.cancelled = false) (b : Bool) :
    Alike (s.permitted b).select s.select := by
  rw [select_eq (s := s.permitted b) hc, select_eq hc]
  exact .refl _

theorem seek_alike (s : Driver ρ) (b : Bool) : Alike (s.permitted b).seek s.seek := by
  obtain ⟨pace, sub, d, x, ⟨permit, waiter⟩, phase, n⟩ := s
  cases x with
  | true => exact finish_alike ⟨pace, sub, d, true, ⟨permit, waiter⟩, phase, n⟩ b
  | false =>
    cases hd : d.takeOne? with
    | some rest =>
      simp only [seek, permitted, hd]
      exact select_alike (s := ⟨pace, sub, rest, false, ⟨permit, waiter⟩, phase, n⟩) rfl b
    | none =>
      simp only [seek, permitted, hd]
      cases permit <;> cases b <;> exact .refl _

theorem notify_alike (s : Driver ρ) (b : Bool) : Alike (s.permitted b).notify s.notify := by
  obtain ⟨pace, sub, d, x, ⟨permit, waiter⟩, phase, n⟩ := s
  cases waiter with
  | registered => exact ⟨rfl, b, rfl⟩
  | _ => exact ⟨rfl, true, rfl⟩

theorem onRun_alike (s : Driver ρ) (b : Bool) : Alike (s.permitted b).onRun s.onRun := by
  obtain ⟨pace, sub, d, x, ⟨permit, waiter⟩, phase, n⟩ := s
  cases phase with
  | unstarted => exact ⟨rfl, b, rfl⟩
  | ended => exact ⟨rfl, b, rfl⟩
  | seeking => exact seek_alike ⟨pace, sub, d, x, ⟨permit, waiter⟩, .seeking, n⟩ b
  | parked =>
    cases waiter with
    | notified => exact seek_alike ⟨pace, sub, d, x, ⟨permit, .absent⟩, .parked, n⟩ b
    | _ => exact ⟨rfl, b, rfl⟩
  | polling =>
    cases waiter with
    | notified =>
      cases x with
      | true => exact finish_alike ⟨pace, sub, d, true, ⟨permit, .absent⟩, .polling, n⟩ b
      | false =>
        exact select_alike (s := ⟨pace, sub, d, false, ⟨permit, .absent⟩, .polling, n⟩) rfl b
    | _ => exact ⟨rfl, b, rfl⟩

theorem enter_alike (s : Driver ρ) (b : Bool) (i : In ρ) :
    Alike ((s.permitted b).enter i) (s.enter i) := by
  cases i with
  | subscribe dest => exact ⟨rfl, b, rfl⟩
  | run => exact onRun_alike s b
  | cancel =>
    change Alike (s.permitted b).onCancel s.onCancel
    unfold onCancel
    change Alike (if s.cancelled = true then _ else _) _
    split
    · exact ⟨rfl, b, rfl⟩
    · exact notify_alike { s with cancelled := true } b
  | request d =>
    change Alike ((s.permitted b).onRequest d) (s.onRequest d)
    unfold onRequest
    change Alike (if (d.isZero || s.cancelled) = true then _ else _) _
    split
    · exact ⟨rfl, b, rfl⟩
    · exact notify_alike { s with demand := s.demand + d } b

theorem onPolled_alike (s : Driver ρ) (b : Bool) (p : Poll) :
    Alike ((s.permitted b).onPolled p) (s.onPolled p) := by
  obtain ⟨pace, sub, d, x, ⟨permit, waiter⟩, phase, n⟩ := s
  cases p with
  | pending => exact ⟨rfl, b, rfl⟩
  | _ => cases x <;> cases sub <;> exact ⟨rfl, _, rfl⟩

theorem onDelivered_alike (s : Driver ρ) (b : Bool) (d : Demand) :
    Alike ((s.permitted b).onDelivered d) (s.onDelivered d) := by
  unfold onDelivered
  dsimp only
  change Alike (if (s.delivered + 1) % s.pace.burst = 0 then _ else _) _
  split
  · exact ⟨rfl, b, rfl⟩
  · exact seek_alike { s with demand := s.demand + d, delivered := s.delivered + 1 } b

theorem proceed_alike (s : Driver ρ) (b : Bool) (r : Reply) (f : Frame ρ) :
    Alike ((s.permitted b).proceed r f) (s.proceed r f) := by
  cases f with
  | opening dest =>
    change Alike (s.permitted b).onOpened s.onOpened
    unfold onOpened
    change Alike (if s.cancelled = true then _ else _) _
    split
    · exact ⟨rfl, _, rfl⟩
    · exact ⟨rfl, b, rfl⟩
  | passing => exact ⟨rfl, b, rfl⟩
  | polling => exact onPolled_alike s b r.polled
  | delivering => exact onDelivered_alike s b r.granted
  | concluding => exact finish_alike s b

end Permits

/-- The task is under way once at most, and waits for nothing while it delivers. -/
structure Lone (s : Driver ρ) (fs : List (Frame ρ)) : Prop where
  once : fs.countP Frame.isRunning ≤ 1
  deaf : (desk (ρ := ρ)).Receiving fs → s.waiter ≠ .registered

def Deaf (r : Driver ρ × Move (Out ρ) (Frame ρ)) : Prop :=
  ∀ o, r.2 = .call o .delivering → r.1.waiter ≠ .registered

theorem running_of_receiving {fs : List (Frame ρ)} (h : (desk (ρ := ρ)).Receiving fs) :
    0 < fs.countP Frame.isRunning := by
  obtain ⟨f, hf, hd⟩ := h
  refine List.countP_pos_iff.mpr ⟨f, hf, ?_⟩
  cases f with
  | delivering => rfl
  | _ => cases hd

theorem no_running {fs : List (Frame ρ)} (h : ∀ f ∈ fs, f.isRunning = false) :
    fs.countP Frame.isRunning = 0 := List.countP_eq_zero.mpr fun f hf => by simp [h f hf]

section Deafness

variable (s : Driver ρ)

theorem answer_deaf (r : Reply) : Deaf (s, .answer r) := by simp [Deaf]

theorem finish_deaf : Deaf s.finish := answer_deaf s.stop _

theorem select_deaf : Deaf s.select := by
  have hs := select_selected s
  generalize s.select = r at hs
  obtain ⟨t, mv⟩ := r
  intro o (h : mv = _)
  cases hs with
  | ended => cases h
  | poll => cases h

theorem seek_deaf : Deaf s.seek := by
  have hs := seek_sought s
  generalize s.seek = r at hs
  obtain ⟨t, mv⟩ := r
  intro o (h : mv = _)
  cases hs with
  | ended => cases h
  | parked => cases h
  | poll => cases h

theorem onRun_deaf : Deaf s.onRun := by
  unfold onRun
  split
  · exact answer_deaf s _
  · exact answer_deaf s _
  · exact seek_deaf s
  · split
    · exact seek_deaf _
    · exact answer_deaf s _
  · split
    · split
      · exact finish_deaf _
      · exact select_deaf _
    · simp [Deaf]

theorem onPolled_deaf (p : Poll) : Deaf (s.onPolled p) := by
  have forgotten (t : Driver ρ) : t.wakeup.forget.waiter ≠ .registered := by simp [Wakeup.forget]
  cases p with
  | pending => exact answer_deaf s _
  | _ =>
    simp only [onPolled]
    split
    · exact fun _ _ => forgotten s
    · exact finish_deaf _

theorem onDelivered_deaf (d : Demand) : Deaf (s.onDelivered d) := by
  simp only [onDelivered]
  split
  · exact answer_deaf _ _
  · exact seek_deaf _

end Deafness

namespace Lone

variable {s t : Driver ρ} {f : Frame ρ} {fs : List (Frame ρ)}
  {r : Driver ρ × Move (Out ρ) (Frame ρ)}

theorem keep (h : Lone s fs) (ht : t.waiter = s.waiter ∨ t.waiter ≠ .registered) :
    Lone t fs := by
  refine ⟨h.once, fun hr => ?_⟩
  rcases ht with ht | ht
  · rw [ht]
    exact h.deaf hr
  · exact ht

theorem push (h : Lone s fs) (hf : f.isRunning = false) : Lone s (f :: fs) := by
  refine ⟨?_, fun hr => ?_⟩
  · rw [List.countP_cons_of_neg (by simp [hf])]
    exact h.once
  · refine h.deaf (Desk.Steady.receiving_of_cons hr ?_)
    cases f with
    | delivering => cases hf
    | _ => rfl

theorem tail (h : Lone s (f :: fs)) : Lone s fs := by
  constructor
  · refine le_trans ?_ h.once
    rw [List.countP_cons]
    exact Nat.le_add_right ..
  · rintro ⟨g, hg, hr⟩
    exact h.deaf ⟨g, List.mem_cons_of_mem f hg, hr⟩

theorem rest (h : Lone s (f :: fs)) (hf : f.isRunning = true) : fs.countP Frame.isRunning = 0 := by
  have hc : (f :: fs).countP Frame.isRunning = fs.countP Frame.isRunning + 1 :=
    List.countP_cons_of_pos hf
  have := h.once
  omega

theorem acted (h : fs.countP Frame.isRunning = 0) (hd : Deaf r) : Lone r.1 (r.2.push fs) := by
  have hn : ¬ (desk (ρ := ρ)).Receiving fs := fun hr => (running_of_receiving hr).ne' h
  obtain ⟨t, mv⟩ := r
  cases mv with
  | answer r => exact ⟨by simp [h], fun hr => absurd hr hn⟩
  | call o f =>
    refine ⟨?_, fun hr => ?_⟩
    · rw [Move.push_call, List.countP_cons, h]
      split <;> omega
    · by_cases hf : f = .delivering
      · exact hd o (by rw [hf])
      · refine absurd (Desk.Steady.receiving_of_cons hr ?_) hn
        cases f with
        | delivering => exact absurd rfl hf
        | _ => rfl

theorem notify (h : Lone s fs) : Lone s.notify.1 (s.notify.2.push fs) := by
  obtain ⟨hn, hr⟩ := notify_nudged s
  have hk : Lone s.notify.1 fs := h.keep (.inr hr)
  generalize s.notify = r at hn hk
  obtain ⟨t, mv⟩ := r
  cases hn with
  | woken => exact hk.push rfl
  | noted => exact hk

theorem enter {p : Play ρ} {i : In ρ} (h : Lone p.state p.frames)
    (hi : Steadily p (.enter i)) :
    Lone (p.state.enter i).1 ((p.state.enter i).2.push p.frames) := by
  cases i with
  | subscribe dest => exact Lone.push (h.keep (.inl rfl)) rfl
  | run => exact acted (no_running hi) (onRun_deaf p.state)
  | cancel =>
    simp only [Driver.enter, onCancel]
    split
    · exact h
    · exact Lone.notify (h.keep (.inl rfl))
  | request d =>
    simp only [Driver.enter, onRequest]
    split
    · exact h
    · exact Lone.notify (h.keep (.inl rfl))

theorem proceed (h : Lone s (f :: fs)) (r : Reply) :
    Lone (s.proceed r f).1 ((s.proceed r f).2.push fs) := by
  cases f with
  | opening dest =>
    simp only [Driver.proceed, onOpened]
    split
    · exact h.tail.keep (.inr (by simp [waiter, stop, Wakeup.forget]))
    · exact Lone.push (h.tail.keep (.inl rfl)) rfl
  | passing => exact h.tail
  | polling => exact acted (h.rest rfl) (onPolled_deaf s r.polled)
  | delivering => exact acted (h.rest rfl) (onDelivered_deaf s r.granted)
  | concluding => exact acted (h.rest rfl) (finish_deaf s)

end Lone

theorem lone {pace : Pace} {p : Play ρ}
    (h : Session.Reaches component Steadily (.start { pace := pace }) p) :
    Lone p.state p.frames := by
  refine h.invariant (P := fun q => Lone q.state q.frames) ?_ ?_ ?_ ?_
  · exact ⟨by simp [Session.start], by simp [Session.start, Desk.Receiving]⟩
  · exact fun i hq hi => hq.enter hi
  · exact fun r hq _ hf => Lone.proceed (hf ▸ hq) r
  · exact fun _ hr _ => hr.elim

variable {s t : Driver ρ} {owed d : Demand}

theorem Alike.agree {x y : Driver ρ × Move (Out ρ) (Frame ρ)} (h : Alike x y) :
    Desk.Agree Short .zero x y := by
  obtain ⟨hm, b, hb⟩ := h
  exact ⟨hm, b, by rw [hb, Demand.add_zero]⟩

theorem Short.alike (h : Short .zero s t) : ∃ b, s = t.permitted b := by
  obtain ⟨b, hb⟩ := h
  exact ⟨b, by rw [hb, Demand.add_zero]⟩

theorem grants?_eq_some {i : In ρ} (h : desk.grants? s i = some d) :
    i = .request d ∧ s.cancelled = false := by
  cases i with
  | request d' =>
    cases hc : s.cancelled with
    | true => simp [desk, hc] at h
    | false =>
      obtain rfl : d' = d := by simpa [desk, hc] using h
      exact ⟨rfl, rfl⟩
  | _ => cases h

theorem onRequest_unheard (hc : s.cancelled = false) (hw : s.waiter ≠ .registered) (d : Demand) :
    ∃ b, s.onRequest d =
      (({ s with demand := s.demand + d } : Driver ρ).permitted b, .answer .done) := by
  obtain ⟨pace, sub, left, x, ⟨permit, waiter⟩, phase, n⟩ := s
  obtain rfl : x = false := hc
  unfold onRequest
  cases hz : d.isZero with
  | true =>
    obtain rfl := eq_zero_of_takeOne? (Demand.takeOne?_eq_none.mpr hz)
    rw [Demand.add_zero]
    exact ⟨permit, rfl⟩
  | false =>
    cases waiter with
    | registered => exact absurd rfl hw
    | _ => exact ⟨true, rfl⟩

theorem onCancel_agree (t : Driver ρ) (owed : Demand) (b : Bool) :
    Desk.Agree Short owed
      (({ t with demand := t.demand + owed } : Driver ρ).permitted b).onCancel t.onCancel := by
  obtain ⟨pace, sub, left, x, ⟨permit, waiter⟩, phase, n⟩ := t
  cases x with
  | true => exact ⟨rfl, b, rfl⟩
  | false =>
    cases waiter with
    | registered => exact ⟨rfl, b, rfl⟩
    | _ => exact ⟨rfl, true, rfl⟩

theorem onOpened_agree (t : Driver ρ) (owed : Demand) (b : Bool) :
    Desk.Agree Short owed
      (({ t with demand := t.demand + owed } : Driver ρ).permitted b).onOpened t.onOpened := by
  obtain ⟨pace, sub, left, x, ⟨permit, waiter⟩, phase, n⟩ := t
  cases x with
  | true => exact ⟨rfl, _, rfl⟩
  | false => exact ⟨rfl, b, rfl⟩

theorem onDelivered_grant (t : Driver ρ) (owed d : Demand) :
    ({ t with demand := t.demand + owed } : Driver ρ).onDelivered d = t.onDelivered (owed + d) := by
  simp only [onDelivered, Demand.add_assoc]

theorem steadily_of_frames {p q : Play ρ} {x : Turn (In ρ)} (h : q.frames = p.frames)
    (hx : Steadily p x) : Steadily q x := by
  cases x with
  | enter i =>
    cases i with
    | run => exact fun f hf => hx f (h ▸ hf)
    | _ => trivial
  | reply r => trivial
  | raise => exact hx

theorem steady (pace : Pace) :
    (desk (ρ := ρ)).Steady component Steadily { pace := pace } Short where
  calm p h := h
  fair {p q x} hf hx := steadily_of_frames hf hx
  free h := h
  refl s := ⟨s.wakeup.permit, by rw [Demand.add_zero]; rfl⟩
  enter {s t} i h := by
    obtain ⟨b, rfl⟩ := h.alike
    exact (enter_alike t b i).agree
  proceed {s t} r f h := by
    obtain ⟨b, rfl⟩ := h.alike
    exact (proceed_alike t b r f).agree
  request {p i d owed t} hp hr hd h := by
    obtain ⟨rfl, hc⟩ := grants?_eq_some hd
    obtain ⟨b, hb⟩ := onRequest_unheard hc ((lone hp).deaf hr) d
    change Desk.Agree Short _ (p.state.onRequest d) _
    rw [hb]
    refine ⟨rfl, b, ?_⟩
    obtain ⟨b', hb'⟩ := h
    rw [hb']
    simp only [permitted, Demand.add_assoc]
  within {p i owed t} hp hr hi hd h := by
    obtain ⟨b, hb⟩ := h
    cases i with
    | subscribe dest => exact ⟨rfl, b, by rw [hb]; rfl⟩
    | run => exact absurd (no_running hi) (running_of_receiving hr).ne'
    | cancel => exact hb ▸ onCancel_agree t owed b
    | request d =>
      have hc : p.state.cancelled = true := by
        by_contra hc
        simp [desk, hc] at hd
      have hct : t.cancelled = true := by rw [← hc, hb]; rfl
      change Desk.Agree Short _ (p.state.onRequest d) (t.onRequest d)
      rw [onRequest, if_pos (by simp [hc]), onRequest, if_pos (by simp [hct])]
      exact ⟨rfl, b, hb⟩
  above {p f fs r owed t} hp hf hn hr h := by
    obtain ⟨b, hb⟩ := h
    have hrun : f.isRunning = false := by
      by_contra hrun
      exact (running_of_receiving hr).ne' (Lone.rest (hf ▸ lone hp) (by simpa using hrun))
    cases f with
    | opening dest => exact hb ▸ onOpened_agree t owed b
    | passing => exact ⟨rfl, b, hb⟩
    | _ => cases hrun
  settle {s t f r owed} hr h := by
    cases f with
    | delivering =>
      obtain ⟨b, rfl⟩ := h
      have ha := onDelivered_alike { t with demand := t.demand + owed } b r.granted
      rw [onDelivered_grant] at ha
      exact ha.agree
    | _ => cases hr

end Sluice.Driver
