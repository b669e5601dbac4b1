import Sluice.Schedule

/-!
# Coherent schedules

A task is queued exactly if it stands in the queue, and marked as running or
rewoken exactly if it is under way. What a schedule owes to its tasks is kept by
everything but a run of the task itself.
-/

namespace Sluice

def TaskState.woken : TaskState → TaskState
  | idle => queued
  | running => rewoken
  | s => s

namespace Schedule

variable {s s' : Schedule} {us : List Nat} {t u : Nat}

def Awake (s : Schedule) (t : Nat) : Prop := s.state t = .queued ∨ s.state t = .rewoken

def job? (s : Schedule) (t : Nat) : Option Job := s.tasks[t]?.map Task.job

def take (s : Schedule) (t : Nat) : Schedule :=
  { s.setState t .running with ready := s.ready.erase t }

theorem lt_size (h : s.state t ≠ .ended) : t < s.tasks.size := by
  rcases Nat.lt_or_ge t s.tasks.size with hlt | hge
  · exact hlt
  · exact absurd (by simp [state, hge]) h

theorem state_setState_self (x : TaskState) (h : s.state t ≠ .ended) :
    (s.setState t x).state t = x := by
  have hlt := lt_size h
  simp [setState, state, hlt, Array.getElem_modify]

theorem state_setState_ne (x : TaskState) (h : u ≠ t) : (s.setState t x).state u = s.state u := by
  simp [setState, state, Array.getElem?_modify, Ne.symm h]

@[simp] theorem job?_setState (x : TaskState) : (s.setState t x).job? u = s.job? u := by
  unfold job? setState
  rw [Array.getElem?_modify]
  split
  · cases s.tasks[u]? <;> rfl
  · rfl

@[simp] theorem ready_setState (x : TaskState) : (s.setState t x).ready = s.ready := rfl

theorem state_wake_self : (s.wake t).state t = (s.state t).woken := by
  unfold wake
  split
  · rename_i h
    rw [h]
    exact state_setState_self _ (by simp [h])
  · rename_i h
    rw [h]
    exact state_setState_self _ (by simp [h])
  · rename_i h h'
    revert h h'
    cases s.state t <;> simp [TaskState.woken]

theorem state_wake_ne (h : u ≠ t) : (s.wake t).state u = s.state u := by
  unfold wake
  split
  · exact state_setState_ne _ h
  · exact state_setState_ne _ h
  · rfl

theorem ready_wake : (s.wake t).ready = if s.state t = .idle then s.ready ++ [t] else s.ready := by
  unfold wake
  split
  · rename_i h
    simp [h]
  · rename_i h
    simp [h]
  · rename_i h _
    rw [if_neg h]

@[simp] theorem yielded_wake : (s.wake t).yielded = s.yielded := by
  unfold wake
  split <;> rfl

@[simp] theorem job?_wake : (s.wake t).job? u = s.job? u := by
  unfold wake
  split
  · exact job?_setState _
  · exact job?_setState _
  · rfl

theorem awake_wake (h : s.state t ≠ .ended) : (s.wake t).Awake t := by
  rw [Awake, state_wake_self]
  revert h
  cases s.state t <;> simp [TaskState.woken]

theorem state_spawn (j : Job) :
    (s.spawn j).state u = if u = s.tasks.size then .queued else s.state u := by
  unfold spawn state
  rw [Array.getElem?_push]
  split <;> rfl

theorem job?_spawn (j : Job) :
    (s.spawn j).job? u = if u = s.tasks.size then some j else s.job? u := by
  unfold spawn job?
  rw [Array.getElem?_push]
  split <;> rfl

theorem job?_size : s.job? s.tasks.size = none := by simp [job?]

theorem state_size : s.state s.tasks.size = .ended := by simp [state]

theorem start?_eq {r : Schedule} (h : s.start? = some (t, r)) : t ∈ s.ready ∧ r = s.take t := by
  unfold start? at h
  split at h
  · simp at h
  · rename_i x rest hr
    obtain ⟨rfl, rfl⟩ : x = t ∧ _ = r := by simpa using h
    simp [take, hr]

/-- The tasks `us` are the ones under way. -/
structure Coherent (s : Schedule) (us : List Nat) : Prop where
  nodup : s.ready.Nodup
  queued : ∀ t, t ∈ s.ready ↔ s.state t = .queued
  underway : ∀ t, t ∈ us ↔ s.state t = .running ∨ s.state t = .rewoken
  single : us.Nodup

theorem coherent_empty : Coherent {} [] where
  nodup := .nil
  queued := by simp [state]
  underway := by simp [state]
  single := .nil

theorem Coherent.congr (h : s.Coherent us) (hr : s'.ready = s.ready)
    (hs : ∀ t, s'.state t = s.state t) : s'.Coherent us where
  nodup := hr ▸ h.nodup
  queued := fun t => by rw [hr, hs, h.queued]
  underway := fun t => by rw [hs, h.underway]
  single := h.single

theorem Coherent.wake (h : s.Coherent us) (t : Nat) : (s.wake t).Coherent us where
  nodup := by
    rw [ready_wake]
    split
    · rename_i hi
      have hnot : t ∉ s.ready := by simp [h.queued, hi]
      exact List.nodup_append.mpr ⟨h.nodup, by simp, by
        intro a ha b hb heq
        subst heq
        exact hnot (List.mem_singleton.mp hb ▸ ha)⟩
    · exact h.nodup
  queued := by
    intro u
    rw [ready_wake]
    by_cases hu : u = t
    · subst hu
      rw [state_wake_self]
      have := h.queued u
      revert this
      cases s.state u <;> simp [TaskState.woken]
    · rw [state_wake_ne hu, ← h.queued]
      split <;> simp [hu]
  underway := by
    intro u
    rw [h.underway]
    by_cases hu : u = t
    · subst hu
      rw [state_wake_self]
      cases s.state u <;> simp [TaskState.woken]
    · rw [state_wake_ne hu]
  single := h.single

theorem Coherent.wakeAll (h : s.Coherent us) (ts : List Nat) : (s.wakeAll ts).Coherent us := by
  induction ts generalizing s with
  | nil => exact h
  | cons t ts ih => exact ih (h.wake t)

theorem Coherent.wakeYielded (h : s.Coherent us) : s.wakeYielded.Coherent us := by
  have hy : Coherent { s with yielded := [] } us := h.congr rfl fun _ => rfl
  exact hy.wakeAll _

theorem Coherent.moveTo (h : s.Coherent us) (now : Nat) : (s.moveTo now).Coherent us := by
  have ht : Coherent { s with now := now, timers := s.timers.dropWhile (·.due ≤ now) } us :=
    h.congr rfl fun _ => rfl
  exact ht.wakeAll _

theorem Coherent.spawn (h : s.Coherent us) (j : Job) : (s.spawn j).Coherent us where
  nodup := by
    have hnot : s.tasks.size ∉ s.ready := by simp [h.queued, state_size]
    exact List.nodup_append.mpr ⟨h.nodup, by simp, by
      intro a ha b hb heq
      subst heq
      exact hnot (List.mem_singleton.mp hb ▸ ha)⟩
  queued := by
    intro u
    rw [state_spawn]
    have := h.queued u
    by_cases hu : u = s.tasks.size <;> simp [Schedule.spawn, hu, this]
  underway := by
    intro u
    rw [state_spawn, h.underway]
    by_cases hu : u = s.tasks.size
    · simp [hu, state_size]
    · simp [hu]
  single := h.single

theorem Coherent.take (h : s.Coherent us) (ht : t ∈ s.ready) : (s.take t).Coherent (t :: us) := by
  have hq := (h.queued t).mp ht
  have hself : (s.take t).state t = .running := state_setState_self _ (by simp [hq])
  have hother (u : Nat) (hu : u ≠ t) : (s.take t).state u = s.state u := state_setState_ne _ hu
  refine ⟨h.nodup.erase t, ?_, ?_, ?_⟩
  · intro u
    change u ∈ s.ready.erase t ↔ _
    by_cases hu : u = t
    · subst hu
      simp [hself, h.nodup.mem_erase_iff]
    · rw [hother u hu, List.mem_erase_of_ne hu, h.queued]
  · intro u
    by_cases hu : u = t
    · subst hu
      simp [hself]
    · rw [hother u hu, List.mem_cons, h.underway]
      simp [hu]
  · exact List.nodup_cons.mpr ⟨by simp [h.underway, hq], h.single⟩

theorem state_requeue_self (h : s.state t ≠ .ended) :
    (stop.requeue t s).state t = if s.state t = .rewoken then .queued else .idle := by
  unfold stop.requeue
  split
  · rename_i hr
    rw [if_pos hr]
    exact state_setState_self _ h
  · rename_i hr
    rw [if_neg hr]
    exact state_setState_self _ h

theorem state_requeue_ne (h : u ≠ t) : (stop.requeue t s).state u = s.state u := by
  unfold stop.requeue
  split
  · exact state_setState_ne _ h
  · exact state_setState_ne _ h

theorem ready_requeue : (stop.requeue t s).ready =
    if s.state t = .rewoken then s.ready ++ [t] else s.ready := by
  unfold stop.requeue
  split
  · rename_i hr
    rw [if_pos hr]
  · rename_i hr
    rw [if_neg hr]
    rfl

@[simp] theorem yielded_requeue : (stop.requeue t s).yielded = s.yielded := by
  unfold stop.requeue
  split <;> rfl

@[simp] theorem job?_requeue : (stop.requeue t s).job? u = s.job? u := by
  unfold stop.requeue
  split
  · exact job?_setState _
  · exact job?_setState _

theorem job?_stop (p : Pause) : (s.stop t p).job? u = s.job? u := by
  cases p with
  | waiting => exact job?_requeue
  | yielded => exact job?_requeue (s := { s with yielded := s.yielded ++ [t] })
  | ended => exact job?_setState _

theorem state_stop_ne (p : Pause) (h : u ≠ t) : (s.stop t p).state u = s.state u := by
  cases p with
  | waiting => exact state_requeue_ne h
  | yielded => exact state_requeue_ne (s := { s with yielded := s.yielded ++ [t] }) h
  | ended => exact state_setState_ne _ h

theorem state_stop_self {p : Pause} (hp : p ≠ .ended) (h : s.state t ≠ .ended) :
    (s.stop t p).state t = if s.state t = .rewoken then .queued else .idle := by
  cases p with
  | waiting => exact state_requeue_self h
  | yielded => exact state_requeue_self (s := { s with yielded := s.yielded ++ [t] }) h
  | ended => exact absurd rfl hp

theorem mem_yielded_stop (p : Pause) (h : u ∈ s.yielded) : u ∈ (s.stop t p).yielded := by
  cases p with
  | waiting => simpa [stop] using h
  | yielded => simp [stop, h]
  | ended => exact h

theorem mem_yielded_stop_self : t ∈ (s.stop t .yielded).yielded := by simp [stop]

theorem Coherent.requeue (h : s.Coherent (t :: us)) : (stop.requeue t s).Coherent us := by
  have hway := (h.underway t).mp List.mem_cons_self
  have hne : s.state t ≠ .ended := by rcases hway with hw | hw <;> simp [hw]
  have hnot : t ∉ s.ready := by rcases hway with hw | hw <;> simp [h.queued, hw]
  obtain ⟨hus, hnd⟩ := List.nodup_cons.mp h.single
  refine ⟨?_, ?_, ?_, hnd⟩
  · rw [ready_requeue]
    split
    · exact List.nodup_append.mpr ⟨h.nodup, by simp, by
        intro a ha b hb heq
        subst heq
        exact hnot (List.mem_singleton.mp hb ▸ ha)⟩
    · exact h.nodup
  · intro u
    rw [ready_requeue]
    by_cases hu : u = t
    · subst hu
      rw [state_requeue_self hne]
      split <;> simp [hnot]
    · rw [state_requeue_ne hu, ← h.queued]
      split <;> simp [hu]
  · intro u
    by_cases hu : u = t
    · subst hu
      rw [state_requeue_self hne]
      split <;> simp [hus]
    · rw [state_requeue_ne hu, ← h.underway]
      simp [hu]

theorem Coherent.stop (h : s.Coherent (t :: us)) (p : Pause) : (s.stop t p).Coherent us := by
  have hway := (h.underway t).mp List.mem_cons_self
  cases p with
  | waiting => exact h.requeue
  | yielded => exact Coherent.requeue (h.congr rfl fun _ => rfl)
  | ended =>
    have hself : (s.stop t .ended).state t = .ended :=
      state_setState_self _ (by rcases hway with hw | hw <;> simp [hw])
    have hother (u : Nat) (hu : u ≠ t) : (s.stop t .ended).state u = s.state u :=
      state_setState_ne _ hu
    obtain ⟨hus, hnd⟩ := List.nodup_cons.mp h.single
    refine ⟨h.nodup, ?_, ?_, hnd⟩
    · intro u
      change u ∈ s.ready ↔ _
      by_cases hu : u = t
      · subst hu
        rw [hself, h.queued]
        rcases hway with hw | hw <;> simp [hw]
      · rw [hother u hu, h.queued]
    · intro u
      by_cases hu : u = t
      · subst hu
        simp [hself, hus]
      · rw [hother u hu, ← h.underway]
        simp [hu]

theorem Coherent.awake_stop (h : s.Coherent us) (ht : t ∈ us) {p : Pause} (hp : p ≠ .ended)
    (ha : s.Awake t) : (s.stop t p).Awake t := by
  have hr : s.state t = .rewoken := by
    rcases ha with hq | hr
    · rcases (h.underway t).mp ht with hw | hw <;> simp [hw] at hq
    · exact hr
  apply Or.inl
  rw [state_stop_self hp (by simp [hr]), if_pos hr]

/-- Every task that `s` owes a run is owed one by `s'`. -/
structure Follows (s s' : Schedule) : Prop where
  job : ∀ t j, s.job? t = some j → s'.job? t = some j
  driver : ∀ t d, s'.job? t = some (.driver d) → s.job? t = some (.driver d)
  awake : ∀ t, s.Awake t → s'.Awake t
  ended : ∀ t, s'.state t = .ended → s.state t = .ended
  yielded : ∀ t ∈ s.yielded, s.state t ≠ .ended → t ∈ s'.yielded ∨ s'.Awake t

theorem Follows.refl (s : Schedule) : s.Follows s :=
  ⟨fun _ _ => id, fun _ _ => id, fun _ => id, fun _ => id, fun _ h _ => .inl h⟩

theorem Follows.trans {s'' : Schedule} (h : s.Follows s') (h' : s'.Follows s'') :
    s.Follows s'' where
  job := fun t j hj => h'.job t j (h.job t j hj)
  driver := fun t d hd => h.driver t d (h'.driver t d hd)
  awake := fun t ha => h'.awake t (h.awake t ha)
  ended := fun t he => h.ended t (h'.ended t he)
  yielded := by
    intro t ht hne
    rcases h.yielded t ht hne with hy | ha
    · exact h'.yielded t hy fun he => hne (h.ended t he)
    · exact .inr (h'.awake t ha)

theorem Follows.wake (s : Schedule) (t : Nat) : s.Follows (s.wake t) where
  job := by simp
  driver := by simp
  awake := by
    intro u ha
    by_cases hu : u = t
    · subst hu
      exact awake_wake (by rcases ha with h | h <;> simp [h])
    · simpa only [Awake, state_wake_ne hu] using ha
  ended := by
    intro u he
    by_cases hu : u = t
    · subst hu
      rw [state_wake_self] at he
      revert he
      cases s.state u <;> simp [TaskState.woken]
    · rwa [state_wake_ne hu] at he
  yielded := fun u hu _ => .inl (by simpa using hu)

theorem Follows.wakeAll (s : Schedule) (ts : List Nat) : s.Follows (s.wakeAll ts) := by
  induction ts generalizing s with
  | nil => exact .refl s
  | cons t ts ih => exact (Follows.wake s t).trans (ih (s.wake t))

theorem awake_wakeAll {ts : List Nat} (ht : t ∈ ts) (h : s.state t ≠ .ended) :
    (s.wakeAll ts).Awake t := by
  induction ts generalizing s with
  | nil => simp at ht
  | cons u ts ih =>
    by_cases hu : t = u
    · subst hu
      exact (Follows.wakeAll (s.wake t) ts).awake t (awake_wake h)
    · have hmem : t ∈ ts := by simpa [hu] using ht
      exact ih hmem (by rwa [state_wake_ne hu])

theorem Follows.wakeYielded (s : Schedule) : s.Follows s.wakeYielded := by
  have h := Follows.wakeAll { s with yielded := [] } s.yielded
  exact ⟨h.job, h.driver, h.awake, h.ended,
    fun t ht hne => .inr (awake_wakeAll (s := { s with yielded := [] }) ht hne)⟩

theorem Follows.moveTo (s : Schedule) (now : Nat) : s.Follows (s.moveTo now) := by
  have h := Follows.wakeAll
    { s with now := now, timers := s.timers.dropWhile (·.due ≤ now) }
    ((s.timers.takeWhile (·.due ≤ now)).map Timer.task)
  exact ⟨h.job, h.driver, h.awake, h.ended, h.yielded⟩

theorem Follows.spawn_ticker (s : Schedule) (i : Nat) : s.Follows (s.spawn (.ticker i)) where
  job := by
    intro t j hj
    have hne : t ≠ s.tasks.size := by
      intro heq
      subst heq
      simp [job?_size] at hj
    rw [job?_spawn, if_neg hne, hj]
  driver := by
    intro t d hd
    rw [job?_spawn] at hd
    split at hd
    · simp at hd
    · exact hd
  awake := by
    intro t ha
    have hne : t ≠ s.tasks.size := by
      intro heq
      subst heq
      simp [Awake, state_size] at ha
    simpa only [Awake, state_spawn, if_neg hne] using ha
  ended := by
    intro t he
    rw [state_spawn] at he
    split at he
    · simp at he
    · exact he
  yielded := fun _ ht _ => .inl ht

end Schedule
end Sluice
