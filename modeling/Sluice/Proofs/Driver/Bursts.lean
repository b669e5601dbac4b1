import Sluice.Proofs.Driver.Delivery

/-!
# Bursts of deliveries

A driver counts its deliveries and yields whenever the count comes to a multiple of
its burst. The count goes on while the driver is parked or waits for its stream, so
a run that begins between two multiples yields the earlier: the values delivered in
it are never more than the remainder that the count has come to.
-/

namespace Sluice.Driver

variable {ρ : Type}

def handsOver : Option (Move (Out ρ) (Frame ρ)) → Nat
  | some (.call (.deliver _ _) _) => 1
  | _ => 0

/-- How many values have been delivered since the task was last run. -/
def sinceRun : List (Note ρ) → Nat
  | [] => 0
  | ⟨.enter .run, _, _, mv⟩ :: _ => handsOver mv
  | e :: log => sinceRun log + handsOver e.move

def RunsAlone (p : Play ρ) : Turn (In ρ) → Prop
  | .enter .run => p.frames.filter Frame.isRunning = []
  | _ => True

/-- The run under way, if there is one, has delivered no more than the count has come to. -/
inductive Within (s : Driver ρ) (n : Nat) : List (Frame ρ) → Prop
  | idle (h : n ≤ s.pace.burst) : Within s n []
  | polling (h : n ≤ s.delivered % s.pace.burst) : Within s n [.polling]
  | delivering (h : n ≤ s.delivered % s.pace.burst + 1) : Within s n [.delivering]
  | concluding (h : n ≤ s.pace.burst) : Within s n [.concluding]

/-- A driver that has kept its pace and its count. -/
structure Steady (s t : Driver ρ) : Prop where
  pace : t.pace = s.pace
  delivered : t.delivered = s.delivered

section Sections

variable {s t : Driver ρ} {n : Nat} {fs : List (Frame ρ)}

theorem Pace.burst_pos (p : Pace) : 0 < p.burst := Nat.le_max_right ..

theorem Steady.within (h : Steady s t) (hn : Within s n fs) : Within t n fs := by
  obtain ⟨hp, hd⟩ := h
  cases hn with
  | idle hn => exact .idle (hp ▸ hn)
  | polling hn => exact .polling (hp ▸ hd ▸ hn)
  | delivering hn => exact .delivering (hp ▸ hd ▸ hn)
  | concluding hn => exact .concluding (hp ▸ hn)

theorem Within.le (h : Within s n fs) : n ≤ s.pace.burst := by
  have hlt := Nat.mod_lt s.delivered s.pace.burst_pos
  cases h with
  | idle h | concluding h => exact h
  | polling h | delivering h => omega

/-- What a section of the task does that delivers nothing. -/
structure Idles (s : Driver ρ) (r : Driver ρ × Move (Out ρ) (Frame ρ)) : Prop where
  steady : Steady s r.1
  move : r.2 = .call .poll .polling ∨ ∃ a, r.2 = .answer a

theorem select_idles (s : Driver ρ) : Idles s s.select := by
  unfold select
  split
  · split
    · exact ⟨⟨rfl, rfl⟩, .inr ⟨_, rfl⟩⟩
    · exact ⟨⟨rfl, rfl⟩, .inl rfl⟩
  · exact ⟨⟨rfl, rfl⟩, .inl rfl⟩

theorem seek_idles (s : Driver ρ) : Idles s s.seek := by
  unfold seek
  split
  · exact ⟨⟨rfl, rfl⟩, .inr ⟨_, rfl⟩⟩
  · split
    · rename_i rest _
      obtain ⟨⟨hp, hd⟩, hm⟩ := select_idles { s with demand := rest }
      exact ⟨⟨hp, hd⟩, hm⟩
    · exact ⟨⟨rfl, rfl⟩, .inr ⟨_, rfl⟩⟩

theorem onRun_idles (s : Driver ρ) : Idles s s.onRun := by
  have hsame : Steady s s := ⟨rfl, rfl⟩
  unfold onRun
  split
  · exact ⟨hsame, .inr ⟨_, rfl⟩⟩
  · exact ⟨hsame, .inr ⟨_, rfl⟩⟩
  · exact s.seek_idles
  · split
    · rename_i w _
      obtain ⟨⟨hp, hd⟩, hm⟩ := seek_idles { s with wakeup := w }
      exact ⟨⟨hp, hd⟩, hm⟩
    · exact ⟨hsame, .inr ⟨_, rfl⟩⟩
  · split
    · rename_i w _
      split
      · exact ⟨⟨rfl, rfl⟩, .inr ⟨_, rfl⟩⟩
      · obtain ⟨⟨hp, hd⟩, hm⟩ := select_idles { s with wakeup := w }
        exact ⟨⟨hp, hd⟩, hm⟩
    · exact ⟨hsame, .inl rfl⟩

theorem Idles.within {r : Driver ρ × Move (Out ρ) (Frame ρ)} (h : Idles s r)
    (hfs : fs.filter Frame.isRunning = []) (hn : n ≤ s.delivered % s.pace.burst) :
    Within r.1 (n + handsOver (some r.2)) ((r.2.push fs).filter Frame.isRunning) := by
  obtain ⟨t, mv⟩ := r
  obtain ⟨hst, rfl | ⟨a, rfl⟩⟩ := h
  · change Within t n (.polling :: fs.filter Frame.isRunning)
    rw [hfs]
    exact hst.within (.polling hn)
  · rw [Move.push_answer, hfs]
    exact hst.within (.idle (Within.polling hn).le)

/-- What a section does that is no part of a run. -/
structure Aside (s : Driver ρ) (r : Driver ρ × Move (Out ρ) (Frame ρ)) : Prop where
  steady : Steady s r.1
  hands : handsOver (some r.2) = 0
  frames : ∀ fs, (r.2.push fs).filter Frame.isRunning = fs.filter Frame.isRunning

theorem notify_aside (s : Driver ρ) : Aside s s.notify := by
  unfold notify
  split
  · exact ⟨⟨rfl, rfl⟩, rfl, fun _ => rfl⟩
  · exact ⟨⟨rfl, rfl⟩, rfl, fun _ => rfl⟩

theorem onRequest_aside (s : Driver ρ) (d : Demand) : Aside s (s.onRequest d) := by
  unfold onRequest
  split
  · exact ⟨⟨rfl, rfl⟩, rfl, fun _ => rfl⟩
  · obtain ⟨⟨hp, hd⟩, hh, hf⟩ := notify_aside { s with demand := s.demand + d }
    exact ⟨⟨hp, hd⟩, hh, hf⟩

theorem onCancel_aside (s : Driver ρ) : Aside s s.onCancel := by
  unfold onCancel
  split
  · exact ⟨⟨rfl, rfl⟩, rfl, fun _ => rfl⟩
  · obtain ⟨⟨hp, hd⟩, hh, hf⟩ := notify_aside { s with cancelled := true }
    exact ⟨⟨hp, hd⟩, hh, hf⟩

theorem onOpened_aside (s : Driver ρ) : Aside s s.onOpened := by
  unfold onOpened
  split
  · exact ⟨⟨rfl, rfl⟩, rfl, fun _ => rfl⟩
  · exact ⟨⟨rfl, rfl⟩, rfl, fun _ => rfl⟩

theorem Aside.within {r : Driver ρ × Move (Out ρ) (Frame ρ)} (h : Aside s r)
    (hn : Within s n (fs.filter Frame.isRunning)) :
    Within r.1 (n + handsOver (some r.2)) ((r.2.push fs).filter Frame.isRunning) := by
  rw [h.hands, h.frames]
  exact h.steady.within hn

theorem succ_mod {k b : Nat} (hb : 0 < b) (h : (k + 1) % b ≠ 0) : (k + 1) % b = k % b + 1 := by
  have hlt := Nat.mod_lt k hb
  rw [← Nat.mod_add_mod] at h ⊢
  refine Nat.mod_eq_of_lt (Nat.lt_of_le_of_ne hlt fun he => h ?_)
  rw [show k % b + 1 = b from he, Nat.mod_self]

theorem onDelivered_within (d : Demand) (hfs : fs.filter Frame.isRunning = [])
    (hn : n ≤ s.delivered % s.pace.burst + 1) :
    Within (s.onDelivered d).1 (n + handsOver (some (s.onDelivered d).2))
      (((s.onDelivered d).2.push fs).filter Frame.isRunning) := by
  unfold onDelivered
  dsimp only
  split
  · rw [Move.push_answer, hfs]
    exact .idle (Within.delivering hn).le
  · rename_i hne
    refine (seek_idles _).within hfs ?_
    dsimp only
    rw [succ_mod s.pace.burst_pos hne]
    exact hn

/-- What a section does after a poll. -/
structure Yields (s : Driver ρ) (r : Driver ρ × Move (Out ρ) (Frame ρ)) : Prop where
  steady : Steady s r.1
  move : (∃ a, r.2 = .answer a) ∨ (∃ dest v, r.2 = .call (.deliver dest v) .delivering) ∨
    ∃ dest c, r.2 = .call (.conclude dest c) .concluding

theorem onPolled_yields (s : Driver ρ) (x : Poll) : Yields s (s.onPolled x) := by
  cases x with
  | pending => exact ⟨⟨rfl, rfl⟩, .inl ⟨_, rfl⟩⟩
  | value v =>
    simp only [onPolled]
    split
    · exact ⟨⟨rfl, rfl⟩, .inr (.inl ⟨_, _, rfl⟩)⟩
    · exact ⟨⟨rfl, rfl⟩, .inl ⟨_, rfl⟩⟩
  | failure e | closed =>
    simp only [onPolled]
    split
    · exact ⟨⟨rfl, rfl⟩, .inr (.inr ⟨_, _, rfl⟩)⟩
    · exact ⟨⟨rfl, rfl⟩, .inl ⟨_, rfl⟩⟩

theorem Yields.within {r : Driver ρ × Move (Out ρ) (Frame ρ)} (h : Yields s r)
    (hfs : fs.filter Frame.isRunning = []) (hn : n ≤ s.delivered % s.pace.burst) :
    Within r.1 (n + handsOver (some r.2)) ((r.2.push fs).filter Frame.isRunning) := by
  obtain ⟨t, mv⟩ := r
  have hle := (Within.polling hn).le
  obtain ⟨hst, ⟨a, rfl⟩ | ⟨dest, v, rfl⟩ | ⟨dest, c, rfl⟩⟩ := h
  · rw [Move.push_answer, hfs]
    exact hst.within (.idle hle)
  · change Within t (n + 1) (.delivering :: fs.filter Frame.isRunning)
    rw [hfs]
    exact hst.within (.delivering (Nat.succ_le_succ hn))
  · change Within t n (.concluding :: fs.filter Frame.isRunning)
    rw [hfs]
    exact hst.within (.concluding hle)

end Sections

/-- The run under way, if there is one, keeps the bound, and the pace never changes. -/
structure Bounded (pace : Pace) (p : Play ρ) : Prop where
  pace : p.state.pace = pace
  within : Within p.state (sinceRun p.log) (p.frames.filter Frame.isRunning)

section Sessions

variable {pace : Pace} {p : Play ρ} {f : Frame ρ} {fs : List (Frame ρ)}

theorem Bounded.enter (h : Bounded pace p) {i : In ρ} (hi : RunsAlone p (.enter i)) :
    Bounded pace (p.advance (.enter i) p.frames (component.enter p.state i)) := by
  have aside {i : In ρ} (ha : Aside p.state (component.enter p.state i)) (hi : i ≠ .run) :
      Bounded pace (p.advance (.enter i) p.frames (component.enter p.state i)) := by
    refine ⟨ha.steady.pace.trans h.pace, ?_⟩
    have hw := ha.within h.within
    cases i with
    | run => exact absurd rfl hi
    | _ => exact hw
  cases i with
  | subscribe dest => exact aside ⟨⟨rfl, rfl⟩, rfl, fun _ => rfl⟩ (fun h => by cases h)
  | request d => exact aside (onRequest_aside p.state d) (fun h => by cases h)
  | cancel => exact aside (onCancel_aside p.state) (fun h => by cases h)
  | run =>
    have hidle := onRun_idles p.state
    refine ⟨hidle.steady.pace.trans h.pace, ?_⟩
    have hw := hidle.within hi (Nat.zero_le _)
    rwa [Nat.zero_add] at hw

theorem onDelivered_pace (s : Driver ρ) (d : Demand) : (s.onDelivered d).1.pace = s.pace := by
  simp only [onDelivered]
  split
  · rfl
  · exact (seek_idles _).steady.pace

theorem Bounded.reply (h : Bounded pace p) (r : Reply) (hf : p.frames = f :: fs) :
    Bounded pace (p.advance (.reply r) fs (component.proceed p.state r f)) := by
  have hw := h.within
  rw [hf] at hw
  have below (hr : f.isRunning = true) : fs.filter Frame.isRunning = [] := by
    rw [List.filter_cons_of_pos hr] at hw
    generalize hrs : fs.filter Frame.isRunning = rs at hw
    cases hw <;> rfl
  have aside (hr : f.isRunning = false) (ha : Aside p.state (component.proceed p.state r f)) :
      Bounded pace (p.advance (.reply r) fs (component.proceed p.state r f)) := by
    rw [List.filter_cons_of_neg (by simp [hr])] at hw
    exact ⟨ha.steady.pace.trans h.pace, ha.within hw⟩
  cases f with
  | opening dest => exact aside rfl (onOpened_aside p.state)
  | passing => exact aside rfl ⟨⟨rfl, rfl⟩, rfl, fun _ => rfl⟩
  | polling =>
    have hy := onPolled_yields p.state r.polled
    rw [List.filter_cons_of_pos rfl, below rfl] at hw
    cases hw with
    | polling hn => exact ⟨hy.steady.pace.trans h.pace, hy.within (below rfl) hn⟩
  | delivering =>
    rw [List.filter_cons_of_pos rfl, below rfl] at hw
    cases hw with
    | delivering hn =>
      exact ⟨(onDelivered_pace p.state r.granted).trans h.pace,
        onDelivered_within r.granted (below rfl) hn⟩
  | concluding =>
    have hle := hw.le
    refine ⟨h.pace, ?_⟩
    change Within p.state.stop _ (fs.filter Frame.isRunning)
    rw [below rfl]
    exact .idle hle

theorem Bounded.raise (h : Bounded pace p) (hf : p.frames = f :: fs) :
    Bounded pace (p.unwind fs) := by
  have hw := h.within
  rw [hf] at hw
  refine ⟨h.pace, ?_⟩
  change Within p.state (sinceRun p.log) (fs.filter Frame.isRunning)
  cases hr : f.isRunning with
  | false => rwa [List.filter_cons_of_neg (by simp [hr])] at hw
  | true =>
    have hle := hw.le
    rw [List.filter_cons_of_pos hr] at hw
    generalize fs.filter Frame.isRunning = rs at hw
    cases hw <;> exact .idle hle

end Sessions

end Sluice.Driver
