import Mathlib
import Sluice.Proofs.Machine.Dropped
import Sluice.Proofs.Machine.Members
import Sluice.Proofs.Machine.Targets

/-!
# Assigns write what arrives and let go at the end

A value that arrives at a subscribed assign is written into its target at once, and
nothing else is. The assign holds its target until it is terminal and not longer, so
nothing arrives and no write begins afterwards, even if the last write is still under
way. A cell that only one assign writes shows the last value that arrived there.
-/

namespace Sluice

def WriteRule.touches (c : Cell) : WriteRule → Bool
  | cell c' => c' == c
  | setter _ => true

def Target.read (x : Target) : Cell → Value
  | .first => x.first
  | .second => x.second

theorem Target.read_store (x : Target) (v : Value) (c c' : Cell) :
    (x.store v c').read c = if c' = c then v else x.read c := by
  cases c <;> cases c' <;> rfl

namespace Frame

def isOf (i : Nat) : Frame → Bool
  | assign j _ => j == i
  | _ => false

def sets (t : Nat) : Frame → Bool
  | setting t' => t' == t
  | _ => false

end Frame

namespace Assign

variable {σ τ : Type} {s : Assign σ τ} {t : τ}

def Holds (t : τ) (s : Assign σ τ) : Prop :=
  s.lifecycle.status ≠ .terminal ∧ s.target = some t ∨ s.lifecycle = .terminal ∧ s.target = none

theorem Holds.target_iff (h : s.Holds t) :
    s.target.isSome ↔ s.lifecycle.status ≠ .terminal := by
  rcases h with ⟨hs, ht⟩ | ⟨hs, ht⟩
  · simp [hs, ht]
  · simp [hs, ht, Lifecycle.status]

theorem Holds.target (h : s.Holds t) (hs : s.lifecycle.status = .subscribed) :
    s.target = some t := by
  rcases h with ⟨-, ht⟩ | ⟨hx, -⟩
  · exact ht
  · rw [hx] at hs
    cases hs

theorem Holds.enter (h : s.Holds t) (msg : Message σ) : (s.enter msg).1.Holds t := by
  rcases h with ⟨hs, ht⟩ | ⟨hs, ht⟩
  · obtain ⟨mode, target, life, pending⟩ := s
    obtain rfl : target = some t := ht
    cases msg with
    | subscription link =>
      cases life with
      | awaiting => exact .inl ⟨Status.noConfusion, rfl⟩
      | _ => exact .inl ⟨hs, rfl⟩
    | value v =>
      simp only [Assign.enter, onValue]
      split <;> exact .inl ⟨hs, rfl⟩
    | completion c => exact .inr ⟨by cases life <;> rfl, rfl⟩
    | resume =>
      simp only [Assign.enter, onResume]
      split
      · split <;> exact .inl ⟨hs, rfl⟩
      · exact .inl ⟨hs, rfl⟩
    | cancel =>
      cases life with
      | subscribed link => exact .inr ⟨rfl, rfl⟩
      | _ => exact .inl ⟨hs, rfl⟩
  · refine .inr ⟨(enter_terminal hs msg).1, ?_⟩
    obtain ⟨mode, target, life, pending⟩ := s
    obtain rfl : life = .terminal := hs
    obtain rfl : target = none := ht
    cases msg with
    | value v => rfl
    | resume => cases mode <;> rfl
    | _ => rfl

theorem Holds.proceed (h : s.Holds t) (f : Frame τ) : (s.proceed f).1.Holds t := by
  cases f <;> exact h

theorem enter_write {msg : Message σ} {v : Value} {f : Frame τ}
    (h : (s.enter msg).2 = .call (.write t v) f) :
    msg = .value v ∧ s.lifecycle.status = .subscribed ∧ s.target = some t := by
  obtain ⟨mode, target, life, pending⟩ := s
  cases msg with
  | value v' =>
    cases life with
    | subscribed link =>
      cases target with
      | none => simp [enter, onValue, writable, Lifecycle.link?] at h
      | some t' =>
        obtain ⟨⟨rfl, rfl⟩, -⟩ : (t' = t ∧ v' = v) ∧ _ := by
          simpa [enter, onValue, writable, Lifecycle.link?] using h
        exact ⟨rfl, rfl, rfl⟩
    | _ => simp [enter, onValue, writable, Lifecycle.link?] at h
  | subscription link => cases life <;> simp [enter, onSubscription, Lifecycle.accept?] at h
  | completion c => simp [enter, onCompletion] at h
  | resume =>
    cases mode <;> cases life <;> cases pending <;> simp [enter, onResume, Lifecycle.link?] at h
  | cancel => cases life <;> simp [enter, onCancel, Lifecycle.release] at h

theorem enter_value (hs : s.lifecycle.status = .subscribed) (ht : s.target = some t) (v : Value) :
    (s.enter (.value v)).2 = .call (.write t v) (.writing t (granted s.mode)) := by
  obtain ⟨mode, target, life, pending⟩ := s
  obtain rfl : target = some t := ht
  cases life with
  | subscribed link => rfl
  | _ => cases hs

end Assign

namespace Machine

/-- The machines that a run from `m₀` passes on its way, the oldest first. -/
inductive Trail (m₀ : Machine) : List Machine → Machine → Prop
  | nil : Trail m₀ [] m₀
  | next {ms : List Machine} {m m' : Machine} (h : Trail m₀ ms m) (hn : m.Next m') :
      Trail m₀ (ms ++ [m]) m'

/-- The value that arrives at the subscriber `i`, which is subscribed. -/
def arrives? (i : Nat) (m : Machine) : Option Value :=
  match m.control with
  | .calling (.tell j (.value v)) =>
    if j = i ∧ m.world.subscribers[i]?.map Subscriber.status = some .subscribed then some v
    else none
  | _ => none

/-- The write that the assign `i` begins. -/
def writes? (i : Nat) (m : Machine) : Option (Nat × WriteRule × Value) :=
  match m.control, m.stack with
  | .calling (.write t rule v), .assign j _ :: _ => if j = i then some (t, rule, v) else none
  | _, _ => none

/-- The assign `i` writes by `rule` into the target `t`, which it holds until it is terminal. -/
def Serves (i t : Nat) (rule : WriteRule) (m : Machine) : Prop :=
  ∃ s, m.world.subscribers[i]? = some (.assign s rule) ∧ s.Holds t

section Sections

variable {i t : Nat} {rule : WriteRule} {m m' : Machine}

theorem Serves.next (h : m.Serves i t rule) (hn : m.Next m') : m'.Serves i t rule := by
  obtain ⟨s, hs, hh⟩ := h
  obtain ⟨s', hs', hb⟩ := hn.stays hs
  cases hb with
  | same => exact ⟨s, hs', hh⟩
  | assignTold _ _ msg => exact ⟨_, hs', hh.enter msg⟩
  | assignResumed _ _ f => exact ⟨_, hs', hh.proceed f⟩

theorem writes?_of_acting (h : m.acting? ≠ some i) : m.writes? i = none := by
  unfold writes?
  split
  · rename_i hc hs
    refine if_neg fun hj => h ?_
    subst hj
    unfold acting?
    rw [hc, hs]
  · rfl

theorem arrives?_eq_some {v : Value} (h : m.arrives? i = some v) :
    m.control = .calling (.tell i (.value v)) ∧
      m.world.subscribers[i]?.map Subscriber.status = some .subscribed := by
  unfold arrives? at h
  split at h
  · rename_i j v' hc
    split at h
    · rename_i hj
      obtain rfl := Option.some.inj h
      exact ⟨hj.1 ▸ hc, hj.2⟩
    · cases h
  · cases h

theorem arrives?_of_calling {v : Value} (hc : m.control = .calling (.tell i (.value v)))
    (hs : m.world.subscribers[i]?.map Subscriber.status = some .subscribed) :
    m.arrives? i = some v := by
  unfold arrives?
  rw [hc]
  exact if_pos ⟨rfl, hs⟩

theorem writes?_assignSection (m : Machine) (i : Nat) (rule : WriteRule)
    (r : Assign Link Nat × Move (Assign.Out Link Nat) (Assign.Frame Nat))
    {x : Nat × WriteRule × Value}
    (h : (m.assignSection i rule r).writes? i = some x) :
    ∃ t v f, r.2 = .call (.write t v) f ∧ x = (t, rule, v) := by
  obtain ⟨s, mv⟩ := r
  cases mv with
  | answer r => cases h
  | call o f =>
    cases o with
    | write t v =>
      refine ⟨t, v, f, rfl, ?_⟩
      have hx : (if i = i then some (t, rule, v) else none) = some x := h
      rw [if_pos rfl] at hx
      exact (Option.some.inj hx).symm
    | _ => cases h

theorem Serves.writes_next (h : m.Serves i t rule) (hm : m.Seated) (hn : m.Next m') :
    m'.writes? i = (m.arrives? i).map fun v => (t, rule, v) := by
  obtain ⟨s, hs, hh⟩ := h
  cases ha : m.arrives? i with
  | some v =>
    obtain ⟨hc, hsub⟩ := arrives?_eq_some ha
    have hlife : s.lifecycle.status = .subscribed := by
      rw [hs] at hsub
      exact Option.some.inj hsub
    obtain rfl : m' = m.tell i (.value v) := by
      cases hn with
      | step => simp only [step, hc, Machine.enter]
      | attend hi | invoke hi | begin hi | reply hi | raise hi | change hi =>
        obtain ⟨o, ho⟩ := hi
        rw [hc] at ho
        cases ho
    rw [tell_assign hs]
    have hw := Assign.enter_value hlife (hh.target hlife) v
    unfold assignSection
    rw [hw]
    exact if_pos rfl
  | none =>
    rw [Option.map_none]
    cases hn.moved hm with
    | aloof hl => exact writes?_of_acting (by simp [hl.acting])
    | added hl => exact writes?_of_acting (by simp [hl.acting])
    | @message j msg hc =>
      by_cases hj : j = i
      · subst hj
        by_contra hw
        obtain ⟨x, hx⟩ := Option.ne_none_iff_exists'.mp hw
        rw [tell_assign hs] at hx
        obtain ⟨t', v, f, hr, -⟩ := writes?_assignSection m j rule _ hx
        obtain ⟨rfl, hlife, -⟩ := Assign.enter_write hr
        rw [arrives?_of_calling hc (by rw [hs]; exact congrArg some hlife)] at ha
        cases ha
      · refine writes?_of_acting ?_
        rcases (tell_sectioned m j msg).acting with hx | hx
        · simp [hx]
        · simpa [hx] using hj
    | @sink j f rest r hst =>
      by_cases hj : j = i
      · subst hj
        simp [proceedSink, hs, answer, writes?]
      · refine writes?_of_acting ?_
        rcases (proceedSink_sectioned { m with stack := rest } j f r).acting with hx | hx
        · simp [hx]
        · simpa [hx] using hj
    | @assign j f rest hst =>
      by_cases hj : j = i
      · subst hj
        obtain ⟨-, r, hr⟩ := s.proceed_answers f
        simp only [proceedAssign, hs, assignSection, hr]
        rfl
      · refine writes?_of_acting ?_
        rcases (proceedAssign_sectioned { m with stack := rest } j f).acting with hx | hx
        · simp [hx]
        · simpa [hx] using hj

theorem IsTerminal.next (h : m.IsTerminal i) (hn : m.Next m') : m'.IsTerminal i := by
  have terminal {s : Subscriber} (hs : m'.world.subscribers[i]? = some s)
      (ht : s.status = .terminal) : m'.IsTerminal i := by
    rw [IsTerminal, hs]
    exact congrArg some ht
  rcases h.cases with ⟨s, hs, hl⟩ | ⟨s, rule, hs, hl⟩
  · obtain ⟨s', hs', hb⟩ := hn.stays hs
    cases hb with
    | same => exact terminal hs' (congrArg Lifecycle.status hl)
    | sinkTold _ msg =>
      rw [(Sink.enter_terminal hl msg).1] at hs'
      exact terminal hs' (congrArg Lifecycle.status hl)
    | sinkResumed _ r f =>
      exact terminal hs' (congrArg Lifecycle.status ((s.proceed_answers r f).1.trans hl))
  · obtain ⟨s', hs', hb⟩ := hn.stays hs
    cases hb with
    | same => exact terminal hs' (congrArg Lifecycle.status hl)
    | assignTold _ _ msg =>
      exact terminal hs' (congrArg Lifecycle.status (Assign.enter_terminal hl msg).1)
    | assignResumed _ _ f =>
      exact terminal hs' (congrArg Lifecycle.status ((s.proceed_answers f).1.trans hl))

theorem IsTerminal.arrives?_eq (h : m.IsTerminal i) : m.arrives? i = none := by
  cases ha : m.arrives? i with
  | none => rfl
  | some v =>
    have hs := (arrives?_eq_some ha).2
    rw [h] at hs
    cases hs

def cell? (t : Nat) (c : Cell) (m : Machine) : Option Value := m.world.targets[t]?.map (·.read c)

/-- If the cell `c` of the target `t` is being written, then by the assign `i`, and the setter of
nobody is at work on the target. -/
def sole (i t : Nat) (c : Cell) (m : Machine) : Bool :=
  (match m.control with
    | .calling (.write t' rule _) => t' != t || !rule.touches c || m.stack.head?.any (Frame.isOf i)
    | _ => true) && m.stack.all fun f => !f.sets t

theorem frame_of_sole {c : Cell} {v : Value} (h : m.sole i t c = true)
    (hc : m.control = .calling (.write t rule v)) (hr : rule.touches c = true) :
    ∃ f rest, m.stack = .assign i f :: rest := by
  simp only [sole, hc, Bool.and_eq_true] at h
  have hhead : m.stack.head?.any (Frame.isOf i) = true := by simpa [hr] using h.1
  cases hs : m.stack with
  | nil => simp [hs] at hhead
  | cons f rest =>
    rw [hs] at hhead
    cases f with
    | assign j f =>
      obtain rfl : j = i := beq_iff_eq.mp hhead
      exact ⟨f, rest, rfl⟩
    | _ => cases hhead

theorem not_setting_of_sole {c : Cell} (h : m.sole i t c = true) : .setting t ∉ m.stack := by
  intro hf
  have hall := (Bool.and_eq_true_iff.mp h).2
  have hset := List.all_eq_true.mp hall _ hf
  simp [Frame.sets] at hset

theorem writes?_eq {f : Assign.Frame Nat} {rest : List Frame} {v : Value}
    (hc : m.control = .calling (.write t rule v)) (hs : m.stack = .assign i f :: rest) :
    m.writes? i = some (t, rule, v) := by
  unfold writes?
  rw [hc, hs]
  exact if_pos rfl

theorem writes?_eq_some {x : Nat × WriteRule × Value} (h : m.writes? i = some x) :
    m.control = .calling (.write x.1 x.2.1 x.2.2) := by
  unfold writes? at h
  split at h
  · rename_i t rule v j f rest hc hs
    split at h
    · obtain rfl := Option.some.inj h
      exact hc
    · cases h
  · cases h

theorem read_modifyTarget {w : World} {c : Cell} {x : Value} {t' : Nat} {f : Target → Target}
    (hx : w.targets[t]?.map (·.read c) = some x) (hf : t' = t → ∀ y, (f y).read c = y.read c) :
    (w.modifyTarget t' f).targets[t]?.map (·.read c) = some x := by
  rw [World.modifyTarget, Array.getElem?_modify]
  by_cases ht : t' = t
  · rw [if_pos ht, Option.map_map, ← hx]
    exact congrArg (fun g => w.targets[t]?.map g) (funext (hf ht))
  · rw [if_neg ht, hx]

theorem cell?_write_other {c : Cell} {x v : Value} {t' : Nat} {rule' : WriteRule}
    (hx : m.cell? t c = some x) (ht : t' = t → rule'.touches c = false) :
    (m.write t' v rule').cell? t c = some x := by
  cases rule' with
  | cell c' =>
    refine read_modifyTarget hx fun he y => ?_
    rw [Target.read_store]
    exact if_neg (by simpa [WriteRule.touches] using ht he)
  | setter id => exact read_modifyTarget hx fun he => absurd (ht he) (by simp [WriteRule.touches])

theorem cell?_write_self {c : Cell} {x : Value} (hx : m.cell? t c = some x) (v : Value) :
    (m.write t v (.cell c)).cell? t c = some v := by
  change (m.world.modifyTarget t (·.store v c)).targets[t]?.map (·.read c) = some v
  obtain ⟨y, hy, -⟩ := Option.map_eq_some_iff.mp hx
  rw [World.modifyTarget, Array.getElem?_modify, if_pos rfl, hy]
  exact congrArg some ((Target.read_store y v c c).trans (if_pos rfl))

theorem cell?_next {c : Cell} {x : Value} (hn : m.Next m') (hx : m.cell? t c = some x)
    (hsole : m.sole i t c = true) (hw : ∀ y, m.writes? i = some y → ∃ v, y = (t, .cell c, v)) :
    m'.cell? t c = some ((m.writes? i).elim x (·.2.2)) := by
  by_cases hat : m.AtTarget
  · rcases hat with ⟨t', rule', v, hc⟩ | ⟨r, t', rest, hc, hs⟩
    · obtain rfl : m' = m.write t' v rule' := by
        cases hn with
        | step => simp only [step, hc, Machine.enter]
        | attend hi | invoke hi | begin hi | reply hi | raise hi | change hi =>
          obtain ⟨o, ho⟩ := hi
          rw [hc] at ho
          cases ho
      cases hwi : m.writes? i with
      | none =>
        refine cell?_write_other hx fun ht => ?_
        by_contra htouch
        subst ht
        obtain ⟨f, rest, hs⟩ := frame_of_sole hsole hc (by simpa using htouch)
        rw [writes?_eq hc hs] at hwi
        cases hwi
      | some y =>
        obtain ⟨v', rfl⟩ := hw y hwi
        have hc' := writes?_eq_some hwi
        rw [hc] at hc'
        obtain ⟨rfl, rfl, rfl⟩ : t' = t ∧ rule' = .cell c ∧ v = v' := by simpa using hc'
        exact cell?_write_self hx v
    · have hwi : m.writes? i = none := by
        cases hwi : m.writes? i with
        | none => rfl
        | some y =>
          rw [writes?_eq_some hwi] at hc
          cases hc
      rw [hwi]
      obtain rfl : m' = m.step := by
        cases hn with
        | step => rfl
        | attend hi | invoke hi | begin hi | reply hi | raise hi | change hi =>
          obtain ⟨o, ho⟩ := hi
          rw [hc] at ho
          cases ho
      have hne : t' ≠ t := by
        rintro rfl
        exact not_setting_of_sole hsole (by simp [hs])
      simp only [step, hc, hs]
      exact read_modifyTarget hx fun he => absurd he hne
  · have hwi : m.writes? i = none := by
      cases hwi : m.writes? i with
      | none => rfl
      | some y => exact absurd (.inl ⟨_, _, _, writes?_eq_some hwi⟩) hat
    rw [hwi]
    have hlt : t < m.world.targets.size := by
      obtain ⟨y, hy, -⟩ := Option.map_eq_some_iff.mp hx
      exact lt_size_of_getElem? hy
    rw [cell?, hn.targets hat hlt]
    exact hx

end Sections

namespace Trail

variable {i t : Nat} {rule : WriteRule} {m₀ m : Machine} {ms : List Machine}

theorem writes (h : Trail m₀ ms m) (h₀ : m₀.Serves i t rule) (hm : m₀.Seated)
    (hw : m₀.writes? i = none) : m.Serves i t rule ∧ m.Seated ∧
      (ms ++ [m]).filterMap (writes? i) =
        (ms.filterMap (arrives? i)).map fun v => (t, rule, v) := by
  induction h with
  | nil => exact ⟨h₀, hm, by simp [hw]⟩
  | @next ms m m' _ hn ih =>
    obtain ⟨hs, hseat, heq⟩ := ih
    refine ⟨hs.next hn, hn.seated hseat, ?_⟩
    rw [List.filterMap_append, heq, List.filterMap_append, List.map_append]
    congr 1
    have hnext := hs.writes_next hseat hn
    cases ha : m.arrives? i with
    | none => simp [hnext, ha]
    | some v => simp [hnext, ha]

theorem ended (h : Trail m₀ ms m) (h₀ : m₀.Serves i t rule) (hm : m₀.Seated)
    (hw : m₀.writes? i = none) : (∀ a ∈ ms ++ [m], a.IsTerminal i → m.IsTerminal i) ∧
      (ms ++ [m]).Pairwise fun a b => a.IsTerminal i → b.writes? i = none := by
  induction h with
  | nil => exact ⟨by simp, List.pairwise_singleton ..⟩
  | @next ms m m' h hn ih =>
    obtain ⟨hlast, hpair⟩ := ih
    obtain ⟨hs, hseat, -⟩ := h.writes h₀ hm hw
    refine ⟨?_, List.pairwise_append.mpr ⟨hpair, List.pairwise_singleton .., ?_⟩⟩
    · rw [List.forall_mem_append]
      exact ⟨fun a ha ht => (hlast a ha ht).next hn, by simp⟩
    · intro a ha b hb ht
      obtain rfl := List.mem_singleton.mp hb
      rw [hs.writes_next hseat hn, (hlast a ha ht).arrives?_eq]
      rfl

theorem cell {c : Cell} {x : Value} (h : Trail m₀ ms m) (h₀ : m₀.Serves i t (.cell c))
    (hm : m₀.Seated) (hw : m₀.writes? i = none) (hx : m₀.cell? t c = some x)
    (hsole : ∀ a ∈ ms, a.sole i t c = true) :
    m.cell? t c = some (((ms.filterMap (writes? i)).map (·.2.2)).getLastD x) := by
  induction h with
  | nil => exact hx
  | @next ms m m' h hn ih =>
    have hprev := ih fun a ha => hsole a (List.mem_append_left _ ha)
    have hwrites : ∀ y, m.writes? i = some y → ∃ v, y = (t, .cell c, v) := by
      intro y hy
      have hmem : y ∈ (ms ++ [m]).filterMap (writes? i) :=
        List.mem_filterMap.mpr ⟨m, by simp, hy⟩
      rw [(h.writes h₀ hm hw).2.2] at hmem
      obtain ⟨v, -, rfl⟩ := List.mem_map.mp hmem
      exact ⟨v, rfl⟩
    rw [cell?_next hn hprev (hsole m (by simp)) hwrites, List.filterMap_append]
    cases hwi : m.writes? i with
    | none => simp [hwi]
    | some y => simp [hwi]

end Trail

theorem Trail.reached {m₀ m : Machine} {ms : List Machine} {may : Machine → Prop}
    (h : Trail m₀ ms m) (h₀ : Reached may m₀) (hm : ∀ a, may a) : Reached may m := by
  induction h with
  | nil => exact h₀
  | next _ hn ih => exact .next ih hn (hm _)

theorem Trail.steps {m₀ m : Machine} {ms : List Machine} (h : Trail m₀ ms m) (n : Nat) :
    Trail m₀ (ms ++ (List.range n).map m.steps) (m.steps n) := by
  induction n with
  | zero => simpa [Machine.steps] using h
  | succ n ih =>
    rw [List.range_succ, List.map_append, ← List.append_assoc]
    exact .next ih .step

theorem Reached.holds {m : Machine} {may : Machine → Prop} {i : Nat} {s : Assign Link Nat}
    {rule : WriteRule} (h : Reached may m)
    (hs : m.world.subscribers[i]? = some (.assign s rule)) : ∃ t, s.Holds t := by
  let Held (x : Subscriber) : Prop := ∀ a r, x = .assign a r → ∃ t, Assign.Holds t a
  refine h.members (P := Held) ?_ ?_ hs s rule rfl
  · intro x hx a r he
    cases hx with
    | assign mode t r =>
      obtain ⟨rfl, -⟩ := Subscriber.assign.inj he
      exact ⟨t, .inl ⟨Status.noConfusion, rfl⟩⟩
    | _ => cases he
  · intro x x' hb hx a r he
    cases hb with
    | same => exact hx a r he
    | assignTold b _ msg =>
      obtain ⟨rfl, rfl⟩ := Subscriber.assign.inj he
      obtain ⟨t, ht⟩ := hx b _ rfl
      exact ⟨t, ht.enter msg⟩
    | assignResumed b _ f =>
      obtain ⟨rfl, rfl⟩ := Subscriber.assign.inj he
      obtain ⟨t, ht⟩ := hx b _ rfl
      exact ⟨t, ht.proceed f⟩
    | _ => cases he

theorem writes?_of_idle {m : Machine} {i : Nat} (h : m.Idle) : m.writes? i = none := by
  cases hw : m.writes? i with
  | none => rfl
  | some x =>
    obtain ⟨o, ho⟩ := h
    rw [writes?_eq_some hw] at ho
    cases ho

/-- A run that passes the machines `ms` on its way from one in which the assign `i` holds the
target `t`: in the end every assign holds its target unless it is terminal; what arrived at `i`
while it was subscribed was written, in order and once each, and nothing else; no write began after
it became terminal; and a cell that nobody else writes shows what arrived last, or what it showed
before. -/
theorem assigns_write_and_release {m₀ m : Machine} {ms : List Machine} {i t : Nat}
    {rule : WriteRule} {s₀ : Assign Link Nat} (h₀ : Reached (fun _ => True) m₀) (hi : m₀.Idle)
    (hs : m₀.world.subscribers[i]? = some (.assign s₀ rule)) (ht : s₀.target = some t)
    (h : Trail m₀ ms m) :
    (∀ (j : Nat) s rule', m.world.subscribers[j]? = some (.assign s rule') →
      (s.target.isSome ↔ s.lifecycle.status ≠ .terminal)) ∧
    (ms ++ [m]).filterMap (writes? i) =
      (ms.filterMap (arrives? i)).map (fun v => (t, rule, v)) ∧
    (ms ++ [m]).Pairwise (fun a b => a.IsTerminal i → b.writes? i = none) ∧
    ∀ c x, rule = .cell c → m₀.cell? t c = some x → (∀ a ∈ ms, a.sole i t c = true) →
      m.writes? i = none → m.cell? t c = some ((ms.filterMap (arrives? i)).getLastD x) := by
  have hserves : m₀.Serves i t rule := by
    obtain ⟨t', ht'⟩ := h₀.holds hs
    refine ⟨s₀, hs, ?_⟩
    rcases ht' with ⟨hl, hx⟩ | ⟨-, hx⟩
    · exact .inl ⟨hl, ht⟩
    · rw [ht] at hx
      cases hx
  have hseat := h₀.seated
  have hidle := writes?_of_idle (i := i) hi
  obtain ⟨-, -, hwrites⟩ := h.writes hserves hseat hidle
  refine ⟨fun j s rule' hj => ?_, hwrites, (h.ended hserves hseat hidle).2, ?_⟩
  · obtain ⟨t', ht'⟩ := (h.reached h₀ fun _ => trivial).holds hj
    exact ht'.target_iff
  · rintro c x rfl hx hsole hnone
    rw [h.cell hserves hseat hidle hx hsole]
    rw [List.filterMap_append, List.filterMap_cons_none hnone, List.filterMap_nil,
      List.append_nil] at hwrites
    rw [hwrites, List.map_map]
    exact congrArg (fun vs => some (List.getLastD vs x)) (List.map_id _)

/-- An assign that is subscribed to a subject and writes into a cell. -/
def writingSubject : Machine where
  world :=
    { subscribers := #[.assign ⟨.allTheTime, some 0, .subscribed ⟨[], .subject 0 0⟩, true⟩
        (.cell .first)]
      subjects := #[{ entries := #[⟨some ⟨[], 0⟩, .one⟩], registered := [0] }]
      targets := #[⟨3, 4⟩] }
  control := .idle (.returned .done)

theorem writingSubject_reached : Reached (fun _ => True) writingSubject := by
  have h : Reached (fun _ => True) {} := .start
  have h1 := h.next (.change ⟨_, rfl⟩ .subject) trivial
  have h2 := h1.next (.change ⟨_, rfl⟩ (.target ⟨3, 4⟩)) trivial
  have h3 := h2.next (.change ⟨_, rfl⟩ (.subscriber (.assign .allTheTime 0 (.cell .first)))) trivial
  exact (h3.next (.invoke (c := .subscribe ⟨[], .subject 0⟩ 0) ⟨_, rfl⟩ trivial) trivial).steps 6
    fun _ _ => trivial

/-- A value is sent, the assign is cancelled, and one more value comes to it all the same. -/
theorem assigns_write_and_release_cancelled : ∃ ms m, Trail writingSubject ms m ∧
    (ms ++ [m]).filterMap (writes? 0) = [(0, .cell .first, 7)] ∧ m.IsTerminal 0 ∧
    m.cell? 0 .first = some 7 := by
  have hstart : Trail writingSubject [] writingSubject := .nil
  have hsent := (hstart.next (.invoke (c := .send 0 7) ⟨_, rfl⟩ trivial)).steps 6
  have hcancelled := (hsent.next (.invoke (c := .tell 0 .cancel) ⟨_, rfl⟩ trivial)).steps 4
  have hcame := (hcancelled.next (.invoke (c := .tell 0 (.value 8)) ⟨_, rfl⟩ trivial)).steps 1
  have hs : writingSubject.world.subscribers[0]? = some (.assign ⟨.allTheTime, some 0, _, _⟩ _) :=
    rfl
  obtain ⟨-, hwrites, -, hcell⟩ :=
    assigns_write_and_release writingSubject_reached ⟨_, rfl⟩ hs rfl hcame
  refine ⟨_, _, hcame, hwrites.trans rfl, rfl, (hcell .first 3 rfl rfl ?_ rfl).trans rfl⟩
  exact List.all_eq_true.mp rfl

end Machine

end Sluice
