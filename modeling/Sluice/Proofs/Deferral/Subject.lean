import Sluice.Proofs.Deferral.Desk
import Sluice.Proofs.Subject

/-!
# Requests kept back from a subject

The entry of a subscription is all that a request changes. While a value is being
delivered to a subscriber nobody looks at the demand of its entry, unless the
subject is sent another value from inside that receive; the contract of subjects
rules that out, and nothing else has to be ruled out.
-/

namespace Sluice.Subject

variable {ρ : Type}

def desk (e : Nat) : Desk (Subject ρ) (In ρ) (Frame ρ) where
  receives
    | .sending _ i _ _ _ => i == e
    | _ => false
  grants? s
    | .request i d => if i = e ∧ s.holds e then some d else none
    | _ => none

/-- Nobody panics, and nobody sends from inside a receive of the entry `e`. -/
def Patient (e : Nat) (p : Play ρ) : Turn (In ρ) → Prop
  | .enter (.send _) => ¬ (desk e).Receiving p.frames
  | .raise => False
  | _ => True

structure Short (e : Nat) (owed : Demand) (s t : Subject ρ) : Prop where
  registered : s.registered = t.registered
  completion : s.completion = t.completion
  entries (i : Nat) : s.entries[i]? =
    t.entries[i]?.map fun x => if i = e then { x with demand := x.demand + owed } else x

namespace Short

variable {e i : Nat} {owed d : Demand} {s t : Subject ρ} {x : Entry ρ}

theorem eq (h : Short e .zero s t) : s = t := by
  obtain ⟨xs, r, c⟩ := s
  obtain ⟨ys, r', c'⟩ := t
  obtain ⟨hr, hc, hx⟩ := h
  simp only [Demand.add_zero, ite_self, Option.map_id'] at hx
  obtain rfl : xs = ys := Array.ext_getElem? hx
  obtain rfl : r = r' := hr
  obtain rfl : c = c' := hc
  rfl

theorem of_eq (h : s = t) : Short e .zero s t := by
  refine ⟨h ▸ rfl, h ▸ rfl, fun i => ?_⟩
  simp [h, Demand.add_zero]

theorem entry_ne (h : Short e owed s t) (hi : i ≠ e) : s.entries[i]? = t.entries[i]? := by
  rw [h.entries i]
  simp [hi]

theorem entry_self (h : Short e owed s t) :
    s.entries[e]? = t.entries[e]?.map fun x => { x with demand := x.demand + owed } := by
  rw [h.entries e]
  simp

theorem size (h : Short e owed s t) : s.entries.size = t.entries.size := by
  have beyond (i : Nat) : s.entries.size ≤ i ↔ t.entries.size ≤ i := by
    rw [← Array.getElem?_eq_none_iff, ← Array.getElem?_eq_none_iff, h.entries i,
      Option.map_eq_none_iff]
  exact Nat.le_antisymm ((beyond _).mpr le_rfl) ((beyond _).mp le_rfl)

theorem cases_entry (h : Short e owed s t) (i : Nat) :
    s.entries[i]? = none ∧ t.entries[i]? = none ∨ ∃ sub d d', s.entries[i]? = some ⟨sub, d'⟩ ∧
      t.entries[i]? = some ⟨sub, d⟩ ∧ d' = if i = e then d + owed else d := by
  have hs := h.entries i
  cases ht : t.entries[i]? with
  | none =>
    rw [ht] at hs
    exact .inl ⟨hs, rfl⟩
  | some x =>
    obtain ⟨sub, d⟩ := x
    rw [ht] at hs
    refine .inr ⟨sub, d, if i = e then d + owed else d, ?_, rfl, rfl⟩
    rw [hs]
    by_cases hi : i = e <;> simp [hi]

theorem setEntry (h : Short e owed s t) (i : Nat) (sub : Option ρ) {d d' : Demand}
    (hd : d' = if i = e then d + owed else d) :
    Short e owed (s.setEntry i ⟨sub, d'⟩) (t.setEntry i ⟨sub, d⟩) := by
  refine ⟨h.registered, h.completion, fun j => ?_⟩
  rw [Subject.setEntry, Subject.setEntry, Array.getElem?_setIfInBounds,
    Array.getElem?_setIfInBounds, h.size, h.entries j]
  by_cases hj : i = j
  · subst hj
    rw [if_pos rfl, if_pos rfl]
    by_cases hlt : i < t.entries.size
    · rw [if_pos hlt, if_pos hlt, hd]
      by_cases hi : i = e <;> simp [hi]
    · rw [if_neg hlt, if_neg hlt]
      rfl
  · rw [if_neg hj, if_neg hj]

theorem onCancel (h : Short e owed s t) (i : Nat) :
    Short e owed (s.onCancel i) (t.onCancel i) := by
  unfold Subject.onCancel
  rcases h.cases_entry i with ⟨hs, ht⟩ | ⟨sub, d, d', hs, ht, hd⟩
  · rw [hs, ht]
    exact h
  · rw [hs, ht]
    dsimp only
    split
    · have hset := h.setEntry i none hd
      exact ⟨congrArg (·.erase i) h.registered, hset.completion, hset.entries⟩
    · exact h

theorem onRequest (h : Short e owed s t) (hi : i = e → s.holds e = false) (d : Demand) :
    Short e owed (s.onRequest i d) (t.onRequest i d) := by
  unfold Subject.onRequest
  rcases h.cases_entry i with ⟨hs, ht⟩ | ⟨sub, d₀, d', hs, ht, hd⟩
  · rw [hs, ht]
    exact h
  · rw [hs, ht]
    dsimp only
    split
    · next hsub =>
      have hne : i ≠ e := by
        intro he
        have hn := hi he
        rw [← he, Subject.holds, hs] at hn
        exact absurd hsub (by simpa using hn)
      refine h.setEntry i sub ?_
      rw [if_neg hne] at hd ⊢
      rw [hd]
    · exact h

theorem onSubscribe (h : Short e owed s t) (he : e < s.entries.size) (dest : ρ) :
    Desk.Agree (Short e) owed (s.onSubscribe dest) (t.onSubscribe dest) := by
  unfold Subject.onSubscribe
  rw [h.completion]
  cases t.completion with
  | some c => exact ⟨rfl, h⟩
  | none =>
    dsimp only
    refine ⟨by rw [h.size], ⟨by rw [h.registered, h.size], rfl, fun i => ?_⟩⟩
    rw [Array.getElem?_push, Array.getElem?_push, h.size, h.entries i]
    by_cases hi : i = t.entries.size
    · rw [if_pos hi, if_pos hi, Option.map_some, if_neg (by rw [hi, ← h.size]; exact he.ne')]
    · rw [if_neg hi, if_neg hi]

theorem close (h : Short e owed s t) {c : Option Ending} {ws : List Nat} :
    Short e owed ⟨s.entries, ws, c⟩ ⟨t.entries, ws, c⟩ := ⟨rfl, rfl, h.entries⟩

theorem concludeAll (h : Short e owed s t) (c : Ending) (ws : List Nat) :
    Desk.Agree (Short e) owed (s.concludeAll c ws) (t.concludeAll c ws) := by
  induction ws with
  | nil => exact ⟨rfl, h⟩
  | cons i rest ih =>
    unfold Subject.concludeAll Subject.detach?
    rcases h.cases_entry i with ⟨hs, ht⟩ | ⟨sub, d, d', hs, ht, hd⟩
    · rw [hs, ht]
      exact ih
    · rw [hs, ht]
      cases sub with
      | none => exact ih
      | some dest => exact ⟨rfl, h.setEntry i none hd⟩

theorem ask (h : Short e owed s t) (hs : s.holds e = true) (d : Demand) :
    Short e (owed + d) (s.onRequest e d) t := by
  obtain ⟨dest, d', he⟩ := holds_iff.mp hs
  have hr : s.onRequest e d = s.setEntry e ⟨some dest, d' + d⟩ := by
    rw [Subject.onRequest, he]
    rfl
  rw [hr]
  refine ⟨h.registered, h.completion, fun i => ?_⟩
  rw [entry_setEntry (lt_of_entry he)]
  by_cases hi : e = i
  · subst hi
    rw [if_pos rfl]
    rw [h.entry_self] at he
    obtain ⟨x, hx, hxd⟩ := Option.map_eq_some_iff.mp he
    obtain ⟨sub, d₀⟩ := x
    obtain ⟨rfl, rfl⟩ := Entry.mk.injEq .. ▸ hxd
    rw [hx, Option.map_some, if_pos rfl, Demand.add_assoc]
  · rw [if_neg hi, h.entry_ne (Ne.symm hi)]
    cases t.entries[i]? <;> simp [Ne.symm hi]

theorem grant (h : Short e owed s t) (d : Demand) : s.grant e d = t.grant e (owed + d) := by
  refine Short.eq (e := e) ?_
  unfold Subject.grant
  rcases h.cases_entry e with ⟨hs, ht⟩ | ⟨sub, d₀, d', hs, ht, hd⟩
  · rw [hs, ht]
    refine ⟨h.registered, h.completion, fun i => ?_⟩
    by_cases hi : i = e
    · rw [hi, hs, ht]
      rfl
    · rw [h.entry_ne hi]
      simp [hi]
  · rw [hs, ht, hd, if_pos rfl]
    refine ⟨h.registered, h.completion, fun i => ?_⟩
    rw [entry_setEntry (lt_of_entry hs), entry_setEntry (lt_of_entry ht)]
    by_cases hi : e = i
    · subst hi
      simp [Demand.add_assoc, Demand.add_zero]
    · rw [if_neg hi, if_neg hi, h.entry_ne (Ne.symm hi)]
      simp [Ne.symm hi]

end Short

def Frame.sends? : Frame ρ → Option Nat
  | sending _ i _ _ _ => some i
  | _ => none

/-- The entries that are delivered to exist, and no broadcast was begun inside a receive of `e`. -/
structure Orderly (e : Nat) (s : Subject ρ) (fs : List (Frame ρ)) : Prop where
  inside : ∀ f ∈ fs, ∀ i, f.sends? = some i → i < s.entries.size
  apart : fs.Pairwise fun f g => f.sends?.isSome → (desk e).receives g = false

namespace Orderly

variable {e i : Nat} {s t : Subject ρ} {f : Frame ρ} {fs : List (Frame ρ)} {v : Value} {n : Nat}

theorem keep (h : Orderly e s fs) (ht : s.entries.size ≤ t.entries.size) : Orderly e t fs :=
  ⟨fun f hf i hi => (h.inside f hf i hi).trans_le ht, h.apart⟩

theorem tail (h : Orderly e s (f :: fs)) : Orderly e s fs :=
  ⟨fun g hg => h.inside g (List.mem_cons_of_mem f hg), h.apart.of_cons⟩

theorem push (h : Orderly e s fs) (hf : f.sends? = none) : Orderly e s (f :: fs) := by
  refine ⟨List.forall_mem_cons.mpr ⟨by simp [hf], h.inside⟩, ?_⟩
  exact List.pairwise_cons.mpr ⟨by simp [hf], h.apart⟩

theorem alone {dest : ρ} {ws : List Nat} (h : Orderly e s (.sending dest i v ws n :: fs)) :
    ¬ (desk (ρ := ρ) e).Receiving fs := by
  rintro ⟨g, hg, hge⟩
  have hx := List.rel_of_pairwise_cons h.apart hg rfl
  exact absurd hge (by simp [hx])

theorem broadcast (h : Orderly e s fs) (hr : ¬ (desk e).Receiving fs) (v : Value) (n : Nat)
    (ws : List Nat) : Orderly e (s.broadcast v n ws).1 ((s.broadcast v n ws).2.push fs) := by
  have hb := broadcasts s v n ws
  generalize (s.broadcast v n ws).1 = t, (s.broadcast v n ws).2 = mv at hb ⊢
  cases hb with
  | exhausted => exact h
  | @deliver passed rest i dest d left _ _ hi _ =>
    have hs := h.keep (setEntry_size s i ⟨some dest, left⟩).ge
    refine ⟨List.forall_mem_cons.mpr ⟨fun j hj => ?_, hs.inside⟩, ?_⟩
    · obtain rfl := Option.some.inj hj
      exact (setEntry_size s i _).symm ▸ lt_of_entry hi
    · refine List.pairwise_cons.mpr ⟨fun g hg _ => ?_, h.apart⟩
      by_contra hx
      exact hr ⟨g, hg, by simpa using hx⟩

theorem concludeAll (h : Orderly e s fs) (c : Ending) (ws : List Nat) :
    Orderly e (s.concludeAll c ws).1 ((s.concludeAll c ws).2.push fs) := by
  have hb := concludes s c ws
  generalize (s.concludeAll c ws).1 = t, (s.concludeAll c ws).2 = mv at hb ⊢
  cases hb with
  | exhausted => exact h
  | conclude => exact (h.keep (setEntry_size ..).ge).push rfl

theorem size_onRequest (s : Subject ρ) (i : Nat) (d : Demand) :
    (s.onRequest i d).entries.size = s.entries.size := by
  unfold onRequest
  split
  · split
    · exact setEntry_size ..
    · rfl
  · rfl

theorem size_onCancel (s : Subject ρ) (i : Nat) :
    (s.onCancel i).entries.size = s.entries.size := by
  unfold onCancel
  split
  · split
    · exact setEntry_size ..
    · rfl
  · rfl

theorem size_grant (s : Subject ρ) (i : Nat) (d : Demand) :
    (s.grant i d).entries.size = s.entries.size := by
  unfold grant
  split
  · exact setEntry_size ..
  · rfl

theorem enter {p : Play ρ} {i : In ρ} (h : Orderly e p.state p.frames)
    (hi : Patient e p (.enter i)) :
    Orderly e (p.state.enter i).1 ((p.state.enter i).2.push p.frames) := by
  cases i with
  | subscribe dest =>
    simp only [Subject.enter, onSubscribe]
    split
    · exact h.push rfl
    · refine (h.keep ?_).push rfl
      exact (Array.size_push ..).symm ▸ Nat.le_succ _
  | request i d => exact h.keep (size_onRequest ..).ge
  | cancel i => exact h.keep (size_onCancel ..).ge
  | send v =>
    simp only [Subject.enter]
    split
    · exact h
    · exact h.broadcast hi v 0 _
  | complete c =>
    simp only [Subject.enter]
    split
    · exact h
    · exact (h.keep (t := { p.state with completion := some c, registered := [] })
        le_rfl).concludeAll c _

theorem proceed (h : Orderly e s (f :: fs)) (r : Reply) :
    Orderly e (s.proceed r f).1 ((s.proceed r f).2.push fs) := by
  cases f with
  | passing dest => exact h.tail
  | refusing dest c => exact h.tail.push rfl
  | completing dest c rest => exact h.tail.concludeAll c rest
  | sending dest i v rest n =>
    exact (h.tail.keep (size_grant s i r.granted).ge).broadcast h.alone v (n + 1) rest

end Orderly

theorem orderly {e : Nat} {p : Play ρ} (h : Session.Reaches component (Patient e) (.start {}) p) :
    Orderly e p.state p.frames := by
  refine h.invariant (P := fun q => Orderly e q.state q.frames) ?_ ?_ ?_ ?_
  · exact ⟨by simp [Session.start], .nil⟩
  · exact fun i hq hi => hq.enter hi
  · exact fun r hq _ hf => Orderly.proceed (hf ▸ hq) r
  · exact fun _ hr _ => hr.elim

theorem agree_of_eq {e : Nat} {x y : Subject ρ × Move (Out ρ) (Frame ρ)} (h : x = y) :
    Desk.Agree (Short e) .zero x y := ⟨congrArg (·.2) h, .of_eq (congrArg (·.1) h)⟩

theorem grants?_eq_some {e : Nat} {s : Subject ρ} {i : In ρ} {d : Demand}
    (h : (desk e).grants? s i = some d) : i = .request e d ∧ s.holds e = true := by
  cases i with
  | request i d' =>
    by_cases hs : i = e ∧ s.holds e
    · obtain rfl : d' = d := by simpa [desk, hs] using h
      exact ⟨by rw [hs.1], hs.2⟩
    · simp [desk, hs] at h
  | _ => cases h

theorem patient_of_frames {e : Nat} {p q : Play ρ} {x : Turn (In ρ)} (h : q.frames = p.frames)
    (hx : Patient e p x) : Patient e q x := by
  cases x with
  | enter i =>
    cases i with
    | send v => exact fun hr => hx (h ▸ hr)
    | _ => trivial
  | reply r => trivial
  | raise => exact hx

theorem steady (e : Nat) : (desk (ρ := ρ) e).Steady component (Patient e) {} (Short e) where
  calm p h := h
  fair {p q x} hf hx := patient_of_frames hf hx
  free h := h
  refl s := .of_eq rfl
  enter i h := agree_of_eq (by rw [h.eq])
  proceed r f h := agree_of_eq (by rw [h.eq])
  request {p i d owed t} hp hr hd h := by
    obtain ⟨rfl, hs⟩ := grants?_eq_some hd
    exact ⟨rfl, h.ask hs d⟩
  within {p i owed t} hp hr hi hd h := by
    cases i with
    | subscribe dest =>
      obtain ⟨f, hf, hfe⟩ := hr
      refine h.onSubscribe ((orderly hp).inside f hf e ?_) dest
      cases f with
      | sending dest i v rest n => exact congrArg some (beq_iff_eq.mp hfe)
      | _ => cases hfe
    | request i d =>
      refine ⟨rfl, h.onRequest (fun hie => ?_) d⟩
      simpa [desk, hie] using hd
    | cancel i => exact ⟨rfl, h.onCancel i⟩
    | send v => exact absurd hr hi
    | complete c =>
      change Desk.Agree _ _ (p.state.enter (.complete c)) (t.enter (.complete c))
      simp only [Subject.enter, h.completion, h.registered]
      split
      · exact ⟨rfl, h⟩
      · exact h.close.concludeAll c _
  above {p f fs r owed t} hp hf hn hr h := by
    cases f with
    | passing dest => exact ⟨rfl, h⟩
    | refusing dest c => exact ⟨rfl, h⟩
    | completing dest c rest => exact h.concludeAll c rest
    | sending dest i v rest n =>
      have ho := orderly hp
      rw [hf] at ho
      exact absurd hr ho.alone
  settle {s t f r owed} hr h := by
    cases f with
    | sending dest i v rest n =>
      obtain rfl : i = e := by simpa [desk] using hr
      refine agree_of_eq ?_
      change (s.grant i r.granted).broadcast v (n + 1) rest =
        (t.grant i (owed + r.granted)).broadcast v (n + 1) rest
      rw [h.grant]
    | _ => cases hr

end Sluice.Subject
