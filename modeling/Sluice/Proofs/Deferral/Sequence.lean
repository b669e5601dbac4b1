import Sluice.Proofs.Deferral.Desk
import Sluice.Proofs.Sequence

/-!
# Requests kept back from a sequence

At most one delivery loop of a sequence is under way, and its flag is up as long as
it is. So a request inside a receive only adds its demand, and the loop looks at
the sum when the receive is over.
-/

namespace Sluice.Sequence

variable {ρ : Type}

def desk : Desk (Sequence ρ) (In ρ) (Frame ρ) where
  receives := Frame.isDelivering
  grants? s
    | .request d => if s.subscriber.isSome then some d else none
    | _ => none

def Unpanicked (_ : Play ρ) (x : Turn (In ρ)) : Prop := x ≠ .raise

def Short (owed : Demand) (s t : Sequence ρ) : Prop := s = { t with demand := t.demand + owed }

theorem Short.eq {s t : Sequence ρ} (h : Short .zero s t) : s = t := by
  rw [Short, Demand.add_zero] at h
  exact h

theorem Short.of_eq {s t : Sequence ρ} (h : s = t) : Short .zero s t := by
  rw [Short, Demand.add_zero]
  exact h

namespace Frame

def isLoop : Frame ρ → Bool
  | drawing _ | delivering _ | peeking => true
  | _ => false

end Frame

theorem loops_of_receiving {fs : List (Frame ρ)} (h : (desk (ρ := ρ)).Receiving fs) :
    0 < fs.countP Frame.isLoop := by
  obtain ⟨f, hf, hd⟩ := h
  refine List.countP_pos_iff.mpr ⟨f, hf, ?_⟩
  cases f with
  | delivering => rfl
  | _ => cases hd

/-- At most one loop is under way, with its flag up. -/
structure Single (s : Sequence ρ) (fs : List (Frame ρ)) : Prop where
  once : fs.countP Frame.isLoop ≤ 1
  flagged : s.emitting = false → fs.countP Frame.isLoop = 0

namespace Single

variable {s t : Sequence ρ} {f : Frame ρ} {fs : List (Frame ρ)}

theorem keep (h : Single s fs) (ht : t.emitting = s.emitting) : Single t fs :=
  ⟨h.once, fun he => h.flagged (ht ▸ he)⟩

theorem push (h : Single s fs) (ht : t.emitting = s.emitting) (hf : f.isLoop = false) :
    Single t (f :: fs) := by
  refine ⟨?_, fun he => ?_⟩
  · rw [List.countP_cons_of_neg (by simp [hf])]
    exact h.once
  · rw [List.countP_cons_of_neg (by simp [hf])]
    exact h.flagged (ht ▸ he)

theorem idle (h : fs.countP Frame.isLoop = 0) : Single s fs := ⟨by omega, fun _ => h⟩

theorem loop (h : fs.countP Frame.isLoop = 0) (hs : s.emitting = true) : Single s (f :: fs) := by
  refine ⟨?_, fun he => absurd hs (by simp [he])⟩
  rw [List.countP_cons, h]
  split <;> omega

theorem tail (h : Single s (f :: fs)) (hf : f.isLoop = false) : Single s fs := by
  have hc : (f :: fs).countP Frame.isLoop = fs.countP Frame.isLoop :=
    List.countP_cons_of_neg (by simp [hf])
  exact ⟨hc ▸ h.once, fun he => hc ▸ h.flagged he⟩

theorem running (h : Single s (f :: fs)) (hf : f.isLoop = true) :
    fs.countP Frame.isLoop = 0 ∧ s.emitting = true := by
  have hc : (f :: fs).countP Frame.isLoop = fs.countP Frame.isLoop + 1 :=
    List.countP_cons_of_pos hf
  refine ⟨?_, ?_⟩
  · have := h.once
    omega
  · by_contra he
    have := h.flagged (by simpa using he)
    omega

theorem drain (h : fs.countP Frame.isLoop = 0) (hs : s.emitting = true) :
    Single s.drain.1 (s.drain.2.push fs) := by
  have hd := drained s
  generalize s.drain = r at hd
  obtain ⟨t, mv⟩ := r
  cases hd with
  | stop _ ht => exact idle h
  | deliver _ _ _ ht => exact loop h (by rw [ht]; exact hs)
  | draw _ _ _ ht => exact loop h (by rw [ht]; exact hs)

theorem enter (h : Single s fs) (i : In ρ) :
    Single (s.enter i).1 ((s.enter i).2.push fs) := by
  cases i with
  | subscribe dest => exact h.push rfl rfl
  | cancel => exact h.keep rfl
  | request d =>
    simp only [Sequence.enter, onRequest]
    split
    · exact h
    · split
      · exact h.keep rfl
      · next he =>
        have he : s.emitting = false := by
          simp only [Bool.or_eq_true, not_or, Bool.not_eq_true] at he
          exact he.1
        exact drain (h.flagged he) rfl

theorem proceed (h : Single s (f :: fs)) (r : Reply) :
    Single (s.proceed r f).1 ((s.proceed r f).2.push fs) := by
  cases f with
  | opening dest =>
    simp only [Sequence.proceed, onOpened]
    split
    · exact (h.tail rfl).push rfl rfl
    · exact (h.tail rfl).push rfl rfl
  | refusing dest => exact (h.tail rfl).push rfl rfl
  | passing dest => exact h.tail rfl
  | drawing dest =>
    obtain ⟨h0, he⟩ := h.running rfl
    simp only [Sequence.proceed]
    split
    · exact loop h0 he
    · exact idle h0
  | delivering dest =>
    obtain ⟨h0, he⟩ := h.running rfl
    simp only [Sequence.proceed, onDelivered]
    split
    · exact loop h0 he
    · exact drain h0 he
  | peeking =>
    obtain ⟨h0, he⟩ := h.running rfl
    simp only [Sequence.proceed, onPeeked]
    split
    · exact drain h0 he
    · split
      · exact (idle h0).push rfl rfl
      · exact idle h0

theorem unwind (h : Single s (f :: fs)) : Single s fs := by
  have hc : fs.countP Frame.isLoop ≤ (f :: fs).countP Frame.isLoop := by
    rw [List.countP_cons]
    exact Nat.le_add_right ..
  exact ⟨hc.trans h.once, fun he => Nat.le_zero.mp (hc.trans (h.flagged he).le)⟩

theorem emitting (h : Single s fs) (hr : (desk (ρ := ρ)).Receiving fs) : s.emitting = true := by
  by_contra he
  exact (loops_of_receiving hr).ne' (h.flagged (by simpa using he))

end Single

theorem single {may : Play ρ → Turn (In ρ) → Prop} {p : Play ρ}
    (h : Session.Reaches component may (.start {}) p) : Single p.state p.frames := by
  refine h.invariant (P := fun q => Single q.state q.frames) ?_ ?_ ?_ ?_
  · exact .idle rfl
  · exact fun i hq _ => hq.enter i
  · exact fun r hq _ hf => Single.proceed (hf ▸ hq) r
  · exact fun hq _ hf => Single.unwind (hf ▸ hq)

variable {s t : Sequence ρ} {owed d : Demand} {fs : List (Frame ρ)}

theorem onRequest_emitting_live (he : s.emitting = true) (hs : s.subscriber.isSome) :
    s.onRequest d = ({ s with demand := s.demand + d }, .answer .done) := by
  have hn : s.subscriber.isNone = false := by simpa using hs
  simp [onRequest, hn, he]

theorem grants?_eq_some {i : In ρ} (h : desk.grants? s i = some d) :
    i = .request d ∧ s.subscriber.isSome := by
  cases i with
  | request d' =>
    by_cases hs : s.subscriber.isSome
    · obtain rfl : d' = d := by simpa [desk, hs] using h
      exact ⟨rfl, hs⟩
    · simp [desk, hs] at h
  | _ => cases h

theorem agree_of_eq {x y : Sequence ρ × Move (Out ρ) (Frame ρ)} (h : x = y) :
    Desk.Agree Short .zero x y := ⟨congrArg (·.2) h, .of_eq (congrArg (·.1) h)⟩

theorem steady : (desk (ρ := ρ)).Steady component Unpanicked {} Short where
  calm p h := h rfl
  fair _ hx := hx
  free _ := by simp [Unpanicked]
  refl s := .of_eq rfl
  enter i h := agree_of_eq (by rw [h.eq])
  proceed r f h := agree_of_eq (by rw [h.eq])
  request {p i d owed t} hp hr hd h := by
    obtain ⟨rfl, hs⟩ := grants?_eq_some hd
    change Desk.Agree Short _ (p.state.onRequest d) _
    rw [onRequest_emitting_live ((single hp).emitting hr) hs]
    refine ⟨rfl, ?_⟩
    rw [h, Short]
    simp only [Demand.add_assoc]
  within {p i owed t} hp hr hi hd h := by
    have hs : p.state.subscriber = t.subscriber := by rw [h]
    cases i with
    | subscribe dest => exact ⟨rfl, h⟩
    | cancel =>
      refine ⟨rfl, ?_⟩
      change Short _ { p.state with subscriber := none } _
      rw [h]
      rfl
    | request d =>
      have hn : p.state.subscriber.isNone = true := by
        by_contra hn
        simp [desk, Option.isSome_iff_ne_none, Option.isNone_iff_eq_none.not.mp hn] at hd
      change Desk.Agree Short _ (p.state.onRequest d) (t.onRequest d)
      rw [onRequest, if_pos hn, onRequest, if_pos (hs ▸ hn)]
      exact ⟨rfl, h⟩
  above {p f fs r owed t} hp hf hn hr h := by
    have hl : f.isLoop = false := by
      by_contra hl
      have hz := (Single.running (hf ▸ single hp) (by simpa using hl)).1
      exact (loops_of_receiving hr).ne' hz
    cases f with
    | opening dest =>
      change Desk.Agree Short _ (p.state.onOpened dest r.item?) (t.onOpened dest r.item?)
      cases r.item? with
      | some v =>
        refine ⟨rfl, ?_⟩
        simp only [onOpened]
        rw [h]
        rfl
      | none => exact ⟨rfl, h⟩
    | refusing dest => exact ⟨rfl, h⟩
    | passing dest => exact ⟨rfl, h⟩
    | _ => cases hl
  settle {s t f r owed} hr h := by
    cases f with
    | delivering dest =>
      refine agree_of_eq ?_
      change s.onDelivered r.granted = t.onDelivered (owed + r.granted)
      rw [h]
      simp only [onDelivered, Demand.add_assoc]
    | _ => cases hr

end Sluice.Sequence
