import Sluice.Proofs.Machine.Enrolled

/-!
# Changes that spare a subscriber

Most changes of a roll are of no concern to a given subscriber: it is not taken on by
anybody, and nothing happens to its subscription or to its handles.
-/

namespace Sluice

def Roll.holder (l : Roll) : Tap → Option Nat
  | .sequence n => l.sequences[n]?.join
  | .subject n e => l.subjects[n]?.bind fun s => s.entries[e]?.join
  | .driver d => l.drivers[d]?.bind DriverRoll.subscriber
  | .inert | .custom _ => none

structure DriverRoll.Follows (x x' : DriverRoll) : Prop where
  stream : x'.stream = x.stream
  cancelled : x.cancelled = true → x'.cancelled = true
  held : x'.subscriber = x.subscriber ∧ x'.ended = x.ended ∨
    x'.subscriber = none ∧ x'.ended = true

theorem DriverRoll.Follows.refl (x : DriverRoll) : x.Follows x := ⟨rfl, id, .inl ⟨rfl, rfl⟩⟩
theorem DriverRoll.follows_cancel (x : DriverRoll) : x.Follows x.cancel :=
  ⟨rfl, fun _ => rfl, .inl ⟨rfl, rfl⟩⟩
theorem DriverRoll.follows_stop (x : DriverRoll) : x.Follows x.stop := ⟨rfl, id, .inr ⟨rfl, rfl⟩⟩

namespace Roll

/-- Nobody takes subscriber `i` on, and nothing happens to its subscription or its handles. -/
structure Spares (i : Nat) (l l' : Roll) : Prop where
  subscriber : l'.subscribers[i]? = l.subscribers[i]?
  holder : ∀ t, l'.holder t = some i → l.holder t = some i
  manuals : ∀ (n : Nat) kept, l'.manuals[n]? = some kept → i ∈ kept →
    ∃ kept', l.manuals[n]? = some kept' ∧ i ∈ kept'
  drivers : ∀ (d : Nat) x, l.drivers[d]? = some x → ∃ x', l'.drivers[d]? = some x' ∧ x.Follows x'
  owner : ∀ (h : Nat) x, l.handles[h]? = some x →
    ∃ x', l'.handles[h]? = some x' ∧ x'.subscriber = x.subscriber
  closed : ∀ (h : Nat) x, l'.handles[h]? = some x → x.state = .closed →
    ∃ x', l.handles[h]? = some x' ∧ x'.subscriber = x.subscriber ∧ x'.state = .closed

variable {l l' : Roll} {i j n : Nat}

theorem Spares.refl (i : Nat) (l : Roll) : l.Spares i l where
  subscriber := rfl
  holder := fun _ => id
  manuals := fun _ kept h hi => ⟨kept, h, hi⟩
  drivers := fun _ x h => ⟨x, h, .refl x⟩
  owner := fun _ x h => ⟨x, h, rfl⟩
  closed := fun _ x h hc => ⟨x, h, rfl, hc⟩

theorem spares_setSubscriber (l : Roll) (s : Standing) (hj : j ≠ i) :
    l.Spares i (l.setSubscriber j s) :=
  { Spares.refl i l with subscriber := Array.getElem?_setIfInBounds_ne hj }

theorem holder_setSequence (l : Roll) (n : Nat) {v : Option Nat} (hv : v ≠ some i) (t : Tap)
    (h : (l.setSequence n v).holder t = some i) : l.holder t = some i ∧ t ≠ .sequence n := by
  cases t with
  | sequence n' =>
    simp only [holder, setSequence, Array.getElem?_setIfInBounds] at h ⊢
    by_cases hn : n = n'
    · subst hn
      simp only [if_true] at h
      split at h
      · exact absurd h hv
      · cases h
    · rw [if_neg hn] at h
      exact ⟨h, by simpa using Ne.symm hn⟩
  | _ => exact ⟨h, by simp⟩

theorem spares_setSequence (l : Roll) (n : Nat) {v : Option Nat} (hv : v ≠ some i) :
    l.Spares i (l.setSequence n v) :=
  { Spares.refl i l with holder := fun t h => (holder_setSequence l n hv t h).1 }

theorem holder_setSubject {s u : SubjectRoll} (hs : l.subjects[n]? = some s) (t : Tap)
    (h : (l.setSubject n u).holder t = some i) :
    (∃ e : Nat, t = .subject n e ∧ u.entries[e]? = some (some i)) ∨
      l.holder t = some i ∧ ∀ e, t ≠ .subject n e := by
  cases t with
  | subject n' e =>
    have hlt := (Array.getElem?_eq_some_iff.mp hs).1
    simp only [holder, setSubject, Array.getElem?_setIfInBounds] at h ⊢
    by_cases hn : n = n'
    · subst hn
      rw [if_pos rfl, if_pos hlt] at h
      exact .inl ⟨e, rfl, Option.join_eq_some_iff.mp h⟩
    · rw [if_neg hn] at h
      refine .inr ⟨h, fun e' he => ?_⟩
      obtain ⟨rfl, -⟩ := Tap.subject.inj he
      exact hn rfl
  | _ => exact .inr ⟨h, by simp⟩

theorem holder_subject {s : SubjectRoll} {e : Nat} (hs : l.subjects[n]? = some s) :
    l.holder (.subject n e) = some i ↔ s.entries[e]? = some (some i) := by
  rw [holder, hs]
  exact Option.join_eq_some_iff

theorem entries_detach {s : SubjectRoll} {e e' : Nat}
    (h : (s.detach e).entries[e']? = some (some i)) :
    s.entries[e']? = some (some i) ∧ e' ≠ e := by
  rw [SubjectRoll.detach, Array.getElem?_setIfInBounds] at h
  by_cases he : e = e'
  · rw [if_pos he] at h
    split at h <;> cases h
  · rw [if_neg he] at h
    exact ⟨h, Ne.symm he⟩

theorem entries_release {s : SubjectRoll} {e e' : Nat}
    (h : (s.release e).entries[e']? = some (some i)) :
    s.entries[e']? = some (some i) ∧ e' ≠ e := by
  unfold SubjectRoll.release at h
  split at h
  · exact entries_detach h
  · next hnone =>
    refine ⟨h, fun he => hnone ?_⟩
    subst he
    rw [h]
    rfl

theorem spares_setSubject {s u : SubjectRoll} (hs : l.subjects[n]? = some s)
    (hu : ∀ e : Nat, u.entries[e]? = some (some i) → s.entries[e]? = some (some i)) :
    l.Spares i (l.setSubject n u) := by
  refine { Spares.refl i l with holder := fun t h => ?_ }
  rcases holder_setSubject hs t h with ⟨e, rfl, he⟩ | ⟨hold, -⟩
  · exact (holder_subject hs).mpr (hu e he)
  · exact hold

theorem drivers_setDriver {d : Nat} {x x' : DriverRoll} (hx : l.drivers[d]? = some x) (e : Nat) :
    (l.setDriver d x').drivers[e]? = if e = d then some x' else l.drivers[e]? := by
  have hlt := (Array.getElem?_eq_some_iff.mp hx).1
  rw [setDriver, Array.getElem?_setIfInBounds]
  by_cases he : e = d
  · rw [if_pos he.symm, if_pos hlt, if_pos he]
  · rw [if_neg (Ne.symm he), if_neg he]

theorem spares_setDriver {d : Nat} {x x' : DriverRoll} (hx : l.drivers[d]? = some x)
    (hf : x.Follows x') : l.Spares i (l.setDriver d x') := by
  have hget (e : Nat) : (l.setDriver d x').drivers[e]? =
      if e = d then some x' else l.drivers[e]? := drivers_setDriver hx e
  refine { Spares.refl i l with holder := fun t h => ?_, drivers := fun e y hy => ?_ }
  · cases t with
    | driver e =>
      simp only [holder, hget] at h ⊢
      by_cases he : e = d
      · subst he
        rw [if_pos rfl] at h
        rw [hx]
        rcases hf.held with ⟨hs, -⟩ | ⟨hs, -⟩
        · exact hs.symm.trans h
        · simp [hs] at h
      · rwa [if_neg he] at h
    | _ => exact h
  · by_cases he : e = d
    · subst he
      obtain rfl := Option.some.inj (hx.symm.trans hy)
      exact ⟨x', by rw [hget, if_pos rfl], hf⟩
    · exact ⟨y, by rw [hget, if_neg he, hy], .refl y⟩

theorem spares_release (l : Roll) (tap : Tap) : l.Spares i (l.release tap) := by
  cases tap with
  | inert => exact .refl i l
  | sequence n => exact spares_setSequence l n (by simp)
  | subject n e =>
    simp only [release]
    split
    · next s hs => exact spares_setSubject hs fun e' he' => (entries_release he').1
    · exact .refl i l
  | driver d =>
    simp only [release]
    split
    · next x hx => exact spares_setDriver hx x.follows_cancel
    · exact .refl i l
  | custom n => exact .refl i l

theorem holder_release {tap : Tap} (h : (l.release tap).holder tap = some i) :
    ∃ d x, tap = .driver d ∧ (l.release tap).drivers[d]? = some x ∧ x.cancelled = true := by
  cases tap with
  | inert => simp [holder] at h
  | sequence n => exact absurd rfl (holder_setSequence l n (by simp) _ h).2
  | subject n e =>
    simp only [release] at h
    split at h
    · next s hs =>
      rcases holder_setSubject hs _ h with ⟨e', he, he'⟩ | ⟨-, hne⟩
      · obtain ⟨-, rfl⟩ := Tap.subject.inj he
        exact absurd rfl (entries_release he').2
      · exact absurd rfl (hne e)
    · next hs => simp [holder, hs] at h
  | driver d =>
    simp only [release] at h ⊢
    split at h
    · next x hx => exact ⟨d, x.cancel, rfl, (drivers_setDriver hx d).trans (if_pos rfl), rfl⟩
    · next hx => simp [holder, hx] at h
  | custom n => simp [holder] at h

theorem Change.spares (h : l.Change l') {s : Standing} (hs : l.subscribers[i]? = some s) :
    l.Spares i l' where
  subscriber := (h.subscribers i s hs).trans hs.symm
  holder := by
    intro t ht
    cases t with
    | sequence n => exact (h.sequences n).symm.trans ht
    | subject n e =>
      obtain ⟨u, hu, he⟩ := Option.bind_eq_some_iff.mp ht
      rcases h.fresh n u hu with hold | rfl
      · exact Option.bind_eq_some_iff.mpr ⟨u, hold, he⟩
      · simp at he
    | driver d => rwa [holder, h.drivers] at ht
    | inert => exact ht
    | custom n => exact ht
  manuals := by
    intro n kept hk hi
    rcases h.manuals n kept hk with hold | rfl
    · exact ⟨kept, hold, hi⟩
    · simp at hi
  drivers := fun d x hx => ⟨x, h.drivers ▸ hx, .refl x⟩
  owner := fun n x hx => ⟨x, h.handles ▸ hx, rfl⟩
  closed := fun n x hx hc => ⟨x, h.handles ▸ hx, rfl, hc⟩

theorem getElem?_setHandle (l : Roll) (h : Nat) (state : HandleState) (h' : Nat) :
    (l.setHandle h state).handles[h']? =
      l.handles[h']?.map fun x => if h = h' then { x with state := state } else x := by
  rw [setHandle, Array.getElem?_modify]
  by_cases he : h = h'
  · simp [he]
  · simp [he]

theorem owner_setHandle (l : Roll) (h : Nat) (state : HandleState) (h' : Nat) (x : Handle)
    (hx : l.handles[h']? = some x) :
    ∃ x', (l.setHandle h state).handles[h']? = some x' ∧ x'.subscriber = x.subscriber := by
  refine ⟨_, (getElem?_setHandle l h state h').trans (congrArg _ hx), ?_⟩
  split <;> rfl

theorem spares_kept (l : Roll) (n : Nat) (hj : j ≠ i) :
    l.Spares i { l with manuals := l.manuals.modify n fun kept => kept ++ [j] } := by
  refine { Spares.refl i l with manuals := fun n' kept hk hi => ?_ }
  rw [Array.getElem?_modify] at hk
  split at hk
  · obtain ⟨old, hold, rfl⟩ := Option.map_eq_some_iff.mp hk
    exact ⟨old, hold, by simpa [hj.symm] using hi⟩
  · exact ⟨kept, hk, hi⟩

theorem spares_driven (l : Roll) {x : DriverRoll} (hx : x.subscriber ≠ some i) :
    l.Spares i { l with drivers := l.drivers.push x } := by
  refine { Spares.refl i l with
    holder := fun t h => ?_, drivers := fun d y hy => ⟨y, getElem?_push_of_some hy _, .refl y⟩ }
  cases t with
  | driver d =>
    simp only [holder, Array.getElem?_push] at h ⊢
    split at h
    · exact absurd h hx
    · exact h
  | _ => exact h

theorem spares_attached (l : Roll) (j : Nat) :
    l.Spares i { l with handles := l.handles.push { subscriber := j } } := by
  refine { Spares.refl i l with
    owner := fun h x hx => ⟨x, getElem?_push_of_some hx _, rfl⟩, closed := fun h x hx hc => ?_ }
  rw [Array.getElem?_push] at hx
  split at hx
  · obtain rfl := Option.some.inj hx
    cases hc
  · exact ⟨x, hx, rfl, hc⟩

theorem spares_dropped (l : Roll) (h : Nat) : l.Spares i (l.setHandle h .dropped) := by
  refine { Spares.refl i l with
    owner := owner_setHandle l h .dropped, closed := fun h' x hx hc => ?_ }
  obtain ⟨y, hy, rfl⟩ := Option.map_eq_some_iff.mp ((getElem?_setHandle l h _ h').symm.trans hx)
  split at hc
  · cases hc
  · next hne => exact ⟨y, hy, by rw [if_neg hne], hc⟩

end Roll
end Sluice
