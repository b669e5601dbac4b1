import Sluice.Proofs.Subject

/-!
# The turns of a subject and its registry

A turn either belongs to the one broadcast under way or stands beside it:
subscribing, requesting, cancelling and handing over leave the list that the
broadcast works through alone. All turns keep the registry in step with the log:
a subscription is registered, in the order of subscription, until it is cancelled
or the subject is completed.
-/

namespace Sluice.Subject

variable {ρ : Type}

def enlist (s : Subject ρ) (dest : ρ) : Subject ρ :=
  { s with
    entries := s.entries.push ⟨some dest, .zero⟩
    registered := s.registered ++ [s.entries.size] }

def close (s : Subject ρ) (c : Ending) : Subject ρ :=
  { s with completion := some c, registered := [] }

theorem enter_send {s : Subject ρ} (hc : s.completion = none) (v : Value) :
    Broadcasts s v 0 s.registered (enter s (.send v)).1 (enter s (.send v)).2 := by
  simp only [enter, hc, Option.isSome_none, Bool.false_eq_true, if_false]
  exact broadcasts ..

theorem enter_complete {s : Subject ρ} (hc : s.completion = none) (c : Ending) :
    Concludes (s.close c) c s.registered (enter s (.complete c)).1 (enter s (.complete c)).2 := by
  simp only [enter, hc, Option.isSome_none, Bool.false_eq_true, if_false]
  exact concludes ..

/-- A turn beside the broadcasts: with the frames `fs` under way it leaves `fs'` below its move. -/
inductive Beside (s : Subject ρ) : List (Frame ρ) → Turn (In ρ) → List (Frame ρ) → Subject ρ →
    Move (Out ρ) (Frame ρ) → Prop
  | enlist (dest : ρ) (fs : List (Frame ρ)) (hc : s.completion = none) :
      Beside s fs (.enter (.subscribe dest)) fs (s.enlist dest)
        (.call (.handOver dest (some s.entries.size)) (.passing dest))
  | refuse (dest : ρ) (c : Ending) (fs : List (Frame ρ)) (hc : s.completion = some c) :
      Beside s fs (.enter (.subscribe dest)) fs s (.call (.handOver dest none) (.refusing dest c))
  | request (i : Nat) (d : Demand) (fs : List (Frame ρ)) (hi : i < s.entries.size) :
      Beside s fs (.enter (.request i d)) fs (s.onRequest i d) (.answer .done)
  | cancel (i : Nat) (fs : List (Frame ρ)) (hi : i < s.entries.size) :
      Beside s fs (.enter (.cancel i)) fs (s.onCancel i) (.answer .done)
  | sendLate (v : Value) (c : Ending) (hc : s.completion = some c) :
      Beside s [] (.enter (.send v)) [] s (.answer (.count 0))
  | completeLate (c c' : Ending) (hc : s.completion = some c) :
      Beside s [] (.enter (.complete c')) [] s (.answer .done)
  | passed (dest : ρ) (fs : List (Frame ρ)) :
      Beside s (.passing dest :: fs) (.reply .done) fs s (.answer .done)
  | refused (dest : ρ) (c : Ending) (fs : List (Frame ρ)) :
      Beside s (.refusing dest c :: fs) (.reply .done) fs s
        (.call (.conclude dest c) (.passing dest))

inductive Turned (p : Play ρ) : Turn (In ρ) → List (Frame ρ) → Subject ρ →
    Move (Out ρ) (Frame ρ) → Prop
  | beside {x : Turn (In ρ)} {fs : List (Frame ρ)} {s : Subject ρ} {mv : Move (Out ρ) (Frame ρ)}
      (h : Beside p.state p.frames x fs s mv) : Turned p x fs s mv
  | send {v : Value} {s : Subject ρ} {mv : Move (Out ρ) (Frame ρ)} (hf : p.frames = [])
      (hc : p.state.completion = none) (hb : Broadcasts p.state v 0 p.state.registered s mv) :
      Turned p (.enter (.send v)) [] s mv
  | returned {dest : ρ} {i : Nat} {v : Value} {rest : List Nat} {n : Nat} {d : Demand}
      {s : Subject ρ} {mv : Move (Out ρ) (Frame ρ)} (hf : p.frames = [.sending dest i v rest n])
      (hb : Broadcasts (p.state.grant i d) v (n + 1) rest s mv) :
      Turned p (.reply (.demand d)) [] s mv
  | complete {c : Ending} {s : Subject ρ} {mv : Move (Out ρ) (Frame ρ)} (hf : p.frames = [])
      (hc : p.state.completion = none)
      (hb : Concludes (p.state.close c) c p.state.registered s mv) :
      Turned p (.enter (.complete c)) [] s mv
  | concluded {dest : ρ} {c : Ending} {rest : List Nat} {s : Subject ρ}
      {mv : Move (Out ρ) (Frame ρ)} (hf : p.frames = [.completing dest c rest])
      (hb : Concludes p.state c rest s mv) : Turned p (.reply .done) [] s mv

/-- A broadcast is under way at the outermost frame only. -/
def Nested : List (Frame ρ) → Prop
  | [] => True
  | fr :: fs => (fr.isSide = false → fs = []) ∧ Nested fs

theorem turned_enter {p : Play ρ} {i : In ρ} (hp : Proper p (.enter i)) :
    Turned p (.enter i) p.frames (enter p.state i).1 (enter p.state i).2 := by
  cases i with
  | subscribe dest =>
    simp only [enter, onSubscribe]
    split
    · next c hc => exact .beside (.refuse dest c _ hc)
    · next hc => exact .beside (.enlist dest _ hc)
  | request i d => exact .beside (.request i d _ hp)
  | cancel i => exact .beside (.cancel i _ hp)
  | send v =>
    have hf : p.frames = [] := hp
    rw [hf]
    cases hc : p.state.completion with
    | none => exact .send hf hc (enter_send hc v)
    | some c =>
      simp only [enter, hc, Option.isSome_some, if_true]
      exact .beside (hf ▸ .sendLate v c hc)
  | complete c =>
    have hf : p.frames = [] := hp
    rw [hf]
    cases hc : p.state.completion with
    | none => exact .complete hf hc (enter_complete hc c)
    | some c' =>
      simp only [enter, hc, Option.isSome_some, if_true]
      exact .beside (hf ▸ .completeLate c' c hc)

theorem turned_reply {p : Play ρ} {r : Reply} {fr : Frame ρ} {fs : List (Frame ρ)}
    (hn : Nested p.frames) (hp : Proper p (.reply r)) (hf : p.frames = fr :: fs) :
    Turned p (.reply r) fs (proceed p.state r fr).1 (proceed p.state r fr).2 := by
  simp only [Proper, hf, List.head?_cons] at hp
  rw [hf] at hn
  cases fr with
  | passing dest =>
    obtain rfl := hp
    exact .beside (hf ▸ .passed dest fs)
  | refusing dest c =>
    obtain rfl := hp
    exact .beside (hf ▸ .refused dest c fs)
  | sending dest i v rest n =>
    obtain ⟨d, rfl⟩ := hp
    obtain rfl := hn.1 rfl
    exact .returned hf (broadcasts ..)
  | completing dest c rest =>
    obtain rfl := hp
    obtain rfl := hn.1 rfl
    exact .concluded hf (concludes ..)

structure Registry (s : Subject ρ) (log : List (Note ρ)) : Prop where
  ordered : s.registered.Pairwise (· < ·)
  member : ∀ i, i ∈ s.registered ↔ s.completion = none ∧ s.holds i = true
  live : s.completion = none → ∀ i < s.entries.size, s.holds i = true ∨ Cancelled i log
  cancelled : ∀ i, Cancelled i log → i < s.entries.size ∧ s.holds i = false

namespace Registry

variable {s : Subject ρ} {log : List (Note ρ)} {e : Note ρ} {i : Nat}

theorem start : Registry ({} : Subject ρ) [] where
  ordered := .nil
  member := by simp [holds]
  live := by simp
  cancelled := by simp [Cancelled]

theorem lt_size (h : Registry s log) (hi : i ∈ s.registered) : i < s.entries.size :=
  lt_of_holds ((h.member i).mp hi).2

theorem mem_registered (h : Registry s log) : i ∈ s.registered ↔
    s.completion = none ∧ i < s.entries.size ∧ ¬ Cancelled i log := by
  rw [h.member]
  refine and_congr_right fun hc => ⟨fun hh => ⟨lt_of_holds hh, fun hx => ?_⟩, fun hx => ?_⟩
  · simp [(h.cancelled i hx).2] at hh
  · exact (h.live hc i hx.1).resolve_right hx.2

theorem cons (h : Registry s log) (he : ∀ i, e.turn ≠ .enter (.cancel i)) :
    Registry s (e :: log) where
  ordered := h.ordered
  member := h.member
  live hc i hi := (h.live hc i hi).imp_right fun hx => cancelled_cons.mpr (.inr hx)
  cancelled i hx := h.cancelled i ((cancelled_cons.mp hx).resolve_left (he i))

theorem holds_enlist (s : Subject ρ) (dest : ρ) (i : Nat) :
    (s.enlist dest).holds i = true ↔ i = s.entries.size ∨ s.holds i = true := by
  rw [holds, enlist, Array.getElem?_push]
  by_cases hi : i = s.entries.size
  · simp [hi]
  · simp [hi, holds]

theorem enlist (h : Registry s log) (hc : s.completion = none) (dest : ρ) :
    Registry (s.enlist dest) log where
  ordered := by
    refine List.pairwise_append.mpr ⟨h.ordered, List.pairwise_singleton .., ?_⟩
    intro i hi j hj
    obtain rfl := List.mem_singleton.mp hj
    exact h.lt_size hi
  member i := by
    rw [holds_enlist]
    refine (List.mem_append.trans (or_congr (h.member i) List.mem_singleton)).trans ?_
    change s.completion = none ∧ s.holds i = true ∨ i = s.entries.size ↔ s.completion = none ∧ _
    simp only [hc, true_and, or_comm]
  live _ i hi := by
    rw [holds_enlist]
    have hi : i < s.entries.size + 1 := by simpa [Subject.enlist] using hi
    rcases Nat.lt_succ_iff_lt_or_eq.mp hi with hi | hi
    · exact (h.live hc i hi).imp_left .inr
    · exact .inl (.inl hi)
  cancelled i hx := by
    obtain ⟨hi, hh⟩ := h.cancelled i hx
    refine ⟨?_, ?_⟩
    · simpa [Subject.enlist] using Nat.lt_succ_of_lt hi
    · rw [← Bool.not_eq_true, holds_enlist]
      simp [hh, hi.ne]

theorem setDemand {x : Entry ρ} (h : Registry s log) (he : s.entries[i]? = some x) (d : Demand) :
    Registry (s.setEntry i ⟨x.subscriber, d⟩) log where
  ordered := h.ordered
  member j := holds_setDemand he d j ▸ h.member j
  live hc j hj := holds_setDemand he d j ▸ h.live hc j (setEntry_size .. ▸ hj)
  cancelled j hx := by
    rw [holds_setDemand he, setEntry_size]
    exact h.cancelled j hx

theorem onRequest (h : Registry s log) (d : Demand) : Registry (s.onRequest i d) log := by
  unfold Subject.onRequest
  split
  · next x hx =>
    split
    · exact h.setDemand hx _
    · exact h
  · exact h

theorem grant (h : Registry s log) (d : Demand) : Registry (s.grant i d) log := by
  unfold Subject.grant
  split
  · next x hx => exact h.setDemand hx _
  · exact h

theorem holds_detached {d : Demand} (hi : i < s.entries.size) (j : Nat) :
    (s.setEntry i ⟨none, d⟩).holds j = true ↔ j ≠ i ∧ s.holds j = true := by
  by_cases hj : i = j
  · subst hj
    simp [holds_setEntry_self hi]
  · simp [holds_setEntry_ne hj, Ne.symm hj]

theorem onCancel (h : Registry s log) (hi : i < s.entries.size)
    (he : e.turn = .enter (.cancel i)) : Registry (s.onCancel i) (e :: log) := by
  have hx (j : Nat) : Cancelled j (e :: log) ↔ i = j ∨ Cancelled j log := by
    rw [cancelled_cons, he, Turn.enter.injEq, In.cancel.injEq]
  unfold Subject.onCancel
  split
  · next x hx' =>
    split
    · refine ⟨h.ordered.erase i, ?_, ?_, ?_⟩
      · intro j
        have hn : s.registered.Nodup := h.ordered.imp fun hlt => hlt.ne
        change j ∈ s.registered.erase i ↔
          s.completion = none ∧ (s.setEntry i ⟨none, x.demand⟩).holds j = true
        rw [hn.mem_erase_iff, h.member, holds_detached hi]
        exact and_left_comm
      · intro hc j hj
        change (s.setEntry i ⟨none, x.demand⟩).holds j = true ∨ _
        rw [holds_detached hi, hx]
        by_cases hij : i = j
        · exact .inr (.inl hij)
        · exact (h.live hc j (setEntry_size .. ▸ hj)).imp (⟨Ne.symm hij, ·⟩) .inr
      · intro j hj
        change j < (s.setEntry i ⟨none, x.demand⟩).entries.size ∧
          (s.setEntry i ⟨none, x.demand⟩).holds j = false
        rw [setEntry_size, ← Bool.not_eq_true, holds_detached hi]
        rcases (hx j).mp hj with rfl | hj
        · exact ⟨hi, fun hh => hh.1 rfl⟩
        · obtain ⟨hlt, hh⟩ := h.cancelled j hj
          exact ⟨hlt, by simp [hh]⟩
    · next hs =>
      have hh : s.holds i = false := by simpa [holds, hx'] using hs
      refine ⟨h.ordered, h.member, ?_, ?_⟩
      · exact fun hc j hj => (h.live hc j hj).imp_right fun hj => (hx j).mpr (.inr hj)
      · intro j hj
        rcases (hx j).mp hj with rfl | hj
        · exact ⟨hi, hh⟩
        · exact h.cancelled j hj
  · next hx' => exact absurd hi (by simpa using hx')

theorem close (h : Registry s log) (c : Ending) : Registry (s.close c) log where
  ordered := .nil
  member := by simp [Subject.close]
  live := by simp [Subject.close]
  cancelled := h.cancelled

theorem detach {c : Ending} {d : Demand} (h : Registry s log) (hc : s.completion = some c)
    (hi : i < s.entries.size) : Registry (s.setEntry i ⟨none, d⟩) log where
  ordered := h.ordered
  member j := (h.member j).trans (by simp [hc])
  live := by simp [hc]
  cancelled j hx := by
    obtain ⟨hj, hh⟩ := h.cancelled j hx
    rw [setEntry_size, ← Bool.not_eq_true, holds_detached hi]
    exact ⟨hj, by simp [hh]⟩

theorem broadcasts {t : Subject ρ} {v : Value} {n : Nat} {ws : List Nat}
    {mv : Move (Out ρ) (Frame ρ)} (h : Registry s log) (hb : Broadcasts s v n ws t mv) :
    Registry t log := by
  cases hb with
  | exhausted => exact h
  | deliver _ _ hi => exact h.setDemand hi _

theorem concludes {t : Subject ρ} {c : Ending} {ws : List Nat} {mv : Move (Out ρ) (Frame ρ)}
    (h : Registry s log) (hc : s.completion = some c) (hb : Concludes s c ws t mv) :
    Registry t log := by
  cases hb with
  | exhausted => exact h
  | conclude _ _ hi => exact h.detach hc (lt_of_entry hi)

theorem beside {fs fs' : List (Frame ρ)} {x : Turn (In ρ)} {t : Subject ρ}
    {mv : Move (Out ρ) (Frame ρ)} (h : Registry s log) (hb : Beside s fs x fs' t mv)
    (he : e.turn = x) : Registry t (e :: log) := by
  cases hb with
  | enlist dest fs hc => exact (h.enlist hc dest).cons (by simp [he])
  | request i d fs hi => exact (h.onRequest d).cons (by simp [he])
  | cancel i fs hi => exact h.onCancel hi he
  | _ => exact h.cons (by simp [he])

end Registry

end Sluice.Subject
