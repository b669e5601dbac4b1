import Sluice.Proofs.Machine.Effects

/-!
# Sections that concern no ticker

Tickers change in their own sections and when their tasks end. Every other section
leaves them as they are, ends no task of theirs, gives them none, and lays no frame
of theirs on the stack.
-/

namespace Sluice

namespace World

structure KeepsTickers (w w' : World) : Prop where
  tickers : w'.tickers = w.tickers
  job : ∀ t j, w.schedule.job? t = some j → w'.schedule.job? t = some j
  spawned : ∀ t i, w'.schedule.job? t = some (.ticker i) → w.schedule.job? t = some (.ticker i)
  ended : ∀ t i, w.schedule.job? t = some (.ticker i) → w'.schedule.state t = .ended →
    w.schedule.state t = .ended

def OffTickers (w : World) : Frame → Prop
  | .ticker _ _ => False
  | .task t => ∃ d, w.schedule.job? t = some (.driver d)
  | _ => True

variable {w w' w'' : World} {f : Frame}

theorem KeepsTickers.of_eq (ht : w'.tickers = w.tickers) (hs : w'.schedule = w.schedule) :
    w.KeepsTickers w' := by
  refine ⟨ht, ?_, ?_, ?_⟩ <;> rw [hs]
  · exact fun _ _ => id
  · exact fun _ _ => id
  · exact fun _ _ _ => id

theorem KeepsTickers.refl (w : World) : w.KeepsTickers w := .of_eq rfl rfl

theorem KeepsTickers.trans (h : w.KeepsTickers w') (h' : w'.KeepsTickers w'') :
    w.KeepsTickers w'' where
  tickers := h'.tickers.trans h.tickers
  job := fun t j hj => h'.job t j (h.job t j hj)
  spawned := fun t i hj => h.spawned t i (h'.spawned t i hj)
  ended := fun t i hj he => h.ended t i hj (h'.ended t i (h.job t _ hj) he)

theorem KeepsTickers.reschedule {s : Schedule} (hj : ∀ t, s.job? t = w.schedule.job? t)
    (he : ∀ t i, w.schedule.job? t = some (.ticker i) → s.state t = .ended →
      w.schedule.state t = .ended) : w.KeepsTickers { w with schedule := s } where
  tickers := rfl
  job := fun t _ h => (hj t).trans h
  spawned := fun t _ h => (hj t).symm.trans h
  ended := he

theorem OffTickers.mono (h : w.OffTickers f)
    (hj : ∀ t j, w.schedule.job? t = some j → w'.schedule.job? t = some j) : w'.OffTickers f := by
  cases f with
  | task t => exact h.imp fun d => hj t _
  | ticker i f => exact h
  | _ => trivial

end World

namespace Schedule

variable {s : Schedule}

theorem job?_wakeAll (s : Schedule) (ts : List Nat) (t : Nat) :
    (s.wakeAll ts).job? t = s.job? t := by
  induction ts generalizing s with
  | nil => rfl
  | cons u ts ih => exact (ih (s.wake u)).trans job?_wake

theorem job?_moveTo (s : Schedule) (now t : Nat) : (s.moveTo now).job? t = s.job? t :=
  job?_wakeAll { s with now := now, timers := s.timers.dropWhile (·.due ≤ now) } _ t

theorem job?_take (s : Schedule) (u t : Nat) : (s.take u).job? t = s.job? t :=
  job?_setState (s := s) _

theorem job?_spawn_of_some {t : Nat} {j j' : Job} (h : s.job? t = some j) :
    (s.spawn j').job? t = some j := by
  rw [job?_spawn, if_neg, h]
  rintro rfl
  rw [job?_size] at h
  cases h

theorem ended_take {t u : Nat} (h : (s.take u).state t = .ended) : s.state t = .ended := by
  by_cases ht : t = u
  · subst ht
    by_cases he : s.state t = .ended
    · exact he
    · have hrun : (s.take t).state t = .running := state_setState_self _ he
      rw [hrun] at h
      cases h
  · exact (state_setState_ne _ ht).symm.trans h

end Schedule

namespace World

theorem KeepsTickers.wake (w : World) (t : Nat) : w.KeepsTickers (w.wake t) :=
  .reschedule (fun _ => Schedule.job?_wake) fun u _ _ => (Schedule.Follows.wake _ t).ended u

theorem KeepsTickers.take (w : World) (t : Nat) :
    w.KeepsTickers { w with schedule := w.schedule.take t } :=
  .reschedule (Schedule.job?_take _ t) fun _ _ _ => Schedule.ended_take

theorem KeepsTickers.moveTo (w : World) (now : Nat) :
    w.KeepsTickers { w with schedule := w.schedule.moveTo now } :=
  .reschedule (Schedule.job?_moveTo _ now) fun t _ _ => (Schedule.Follows.moveTo _ now).ended t

theorem KeepsTickers.wakeYielded (w : World) :
    w.KeepsTickers { w with schedule := w.schedule.wakeYielded } :=
  .reschedule (Schedule.job?_wakeAll _ _) fun t _ _ => (Schedule.Follows.wakeYielded _).ended t

theorem KeepsTickers.spawn (w : World) (d : Nat) :
    w.KeepsTickers { w with schedule := w.schedule.spawn (.driver d) } where
  tickers := rfl
  job := fun t j => Schedule.job?_spawn_of_some
  spawned := by
    intro t i hj
    rw [Schedule.job?_spawn] at hj
    split at hj
    · cases hj
    · exact hj
  ended := by
    intro t i _ he
    rw [Schedule.state_spawn] at he
    split at he
    · cases he
    · exact he

theorem KeepsTickers.stop {w : World} {t d : Nat} (hd : w.schedule.job? t = some (.driver d))
    (p : Pause) : w.KeepsTickers { w with schedule := w.schedule.stop t p } := by
  refine .reschedule (fun _ => Schedule.job?_stop p) fun u i hj he => ?_
  rw [Schedule.state_stop_ne p] at he
  · exact he
  · rintro rfl
    rw [hd] at hj
    cases hj

end World

namespace Machine

/-- `m'` comes of a section that ran in `w` above the frames `stack` and concerned no ticker. -/
structure KeepsTickers (w : World) (stack : List Frame) (m' : Machine) : Prop where
  keeps : w.KeepsTickers m'.world
  atop : ∃ fs, m'.stack = fs ++ stack ∧ ∀ f ∈ fs, m'.world.OffTickers f

variable {m m' : Machine} {w w' : World} {stack : List Frame} {f : Frame}

theorem KeepsTickers.same (hw : w.KeepsTickers m'.world) (hs : m'.stack = stack) :
    KeepsTickers w stack m' :=
  ⟨hw, [], hs, by simp⟩

theorem KeepsTickers.push (hw : w.KeepsTickers m'.world) (hs : m'.stack = f :: stack)
    (hf : m'.world.OffTickers f) : KeepsTickers w stack m' :=
  ⟨hw, [f], hs, by simpa using hf⟩

theorem KeepsTickers.after {n : Machine} (h : KeepsTickers n.world n.stack m')
    (hw : w.KeepsTickers n.world) (hs : n.stack = stack) : KeepsTickers w stack m' :=
  ⟨hw.trans h.keeps, hs ▸ h.atop⟩

theorem KeepsTickers.above (hf : w.OffTickers f) (h : KeepsTickers w (f :: stack) m') :
    KeepsTickers w stack m' := by
  obtain ⟨fs, hs, hfs⟩ := h.atop
  refine ⟨h.keeps, fs ++ [f], by simp [hs], fun g hg => ?_⟩
  rcases List.mem_append.mp hg with hg | hg
  · exact hfs g hg
  · obtain rfl := List.mem_singleton.mp hg
    exact hf.mono h.keeps.job

theorem move_keepsTickers {Out F : Type} (m : Machine) (hw : m.world.KeepsTickers w)
    {o : Out → Call} {g : F → Frame} (hg : ∀ f, w.OffTickers (g f)) (mv : Move Out F) :
    KeepsTickers m.world m.stack (m.move w o g mv) := by
  cases mv with
  | answer r => exact .same hw rfl
  | call o f => exact .push hw rfl (hg f)

theorem answer_keepsTickers (m : Machine) (r : Reply) : KeepsTickers m.world m.stack (m.answer r) :=
  .same (.refl _) rfl

theorem Effect.keepsTickers {p : Part} (h : Effect m p m') (hp : p ≠ .tickers) :
    KeepsTickers m.world m.stack m' := by
  cases h with
  | ticker => exact absurd rfl hp
  | sink | assign | sequence | subject | driver =>
    refine move_keepsTickers m ?_ (fun _ => ?_) _
    · exact .of_eq rfl rfl
    · trivial
  | answer | unwind | stuck | request | cancel => exact .same (.refl _) rfl
  | keep | store | written | attached | drop | closed | advance | push =>
    exact .same (.of_eq rfl rfl) rfl
  | custom | ask | asked | set | resumes | cancels | close | lastUse | resume | poll | settle
  | advanceClock | jumpClock => exact .push (.of_eq rfl rfl) rfl trivial
  | spawn d =>
    have h := World.KeepsTickers.spawn m.world d
    exact .same ⟨h.tickers, h.job, h.spawned, h.ended⟩ rfl
  | wake t => exact .same (.wake _ t) rfl
  | @pushWaking n t =>
    refine .same (.trans ?_ (.wake _ t)) rfl
    exact .of_eq rfl rfl
  | setTimer => exact .same (.reschedule (fun _ => rfl) fun _ _ _ => id) rfl
  | @turn t s hs =>
    obtain ⟨-, rfl⟩ := Schedule.start?_eq hs
    exact .push (.take _ t) rfl trivial
  | turned => exact .same (.wakeYielded _) rfl
  | stop => exact .push (.moveTo _ _) rfl trivial
  | arrive | jump => exact .same (.moveTo _ _) rfl

theorem run_keepsTickers {t d : Nat} (hd : m.world.schedule.job? t = some (.driver d)) :
    KeepsTickers m.world m.stack (m.run t) := by
  obtain ⟨task, ht, hj⟩ := Option.map_eq_some_iff.mp hd
  unfold run
  rw [ht]
  simp only [hj]
  have hf : m.world.OffTickers (.task t) := ⟨d, hd⟩
  have he := enterDriver_effect { m with stack := .task t :: m.stack } d .run
  exact .above hf (he.keepsTickers nofun)

theorem proceedDriver_keepsTickers (m : Machine) (i : Nat) (f : Driver.Frame Outlet) (r : Reply) :
    KeepsTickers m.world m.stack (m.proceedDriver i f r) := by
  unfold proceedDriver
  split
  · rename_i x hx
    have h := (Effect.driver (m := m) i (x.driver.proceed r f)).keepsTickers nofun
    dsimp only
    split
    · exact ⟨h.keeps.trans (.of_eq rfl rfl), h.atop⟩
    · exact h
  · exact answer_keepsTickers m _

theorem dropJob_keeps (w : World) (d : Nat) : w.KeepsTickers (dropJob w (.driver d)) := by
  unfold dropJob
  dsimp only
  split
  · exact .of_eq rfl rfl
  · exact .refl w

theorem endTask_keeps {t d : Nat} (hd : w.schedule.job? t = some (.driver d)) :
    w.KeepsTickers (endTask w t) := by
  have hj := (Schedule.job?_stop (t := t) .ended).trans hd
  obtain ⟨task, ht, hj⟩ := Option.map_eq_some_iff.mp hj
  unfold endTask
  dsimp only
  rw [ht]
  simp only [hj]
  exact (World.KeepsTickers.stop hd .ended).trans (dropJob_keeps _ d)

theorem stopTask_keepsTickers {t d : Nat} (hd : m.world.schedule.job? t = some (.driver d))
    (p : Pause) : KeepsTickers m.world m.stack (m.stopTask t p) := by
  cases p with
  | ended => exact .same (endTask_keeps hd) rfl
  | waiting => exact .same (.stop hd .waiting) rfl
  | yielded => exact .same (.stop hd .yielded) rfl

end Machine
end Sluice
