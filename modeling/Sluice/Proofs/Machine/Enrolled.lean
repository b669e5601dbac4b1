import Sluice.Proofs.Machine.Panics
import Sluice.Proofs.Machine.OutlineReplies

/-!
# Registers in order

In every run, panics included, whoever is registered with a subject is still held by
it, a subject that is completed has nobody registered, and a handle that is being
closed exists.
-/

namespace Sluice

structure SubjectRoll.Enrolled (s : SubjectRoll) : Prop where
  single : s.registered.Nodup
  held : ∀ e ∈ s.registered, ∃ i, s.entries[e]? = some (some i)
  completed : s.completed = true → s.registered = []

namespace SubjectRoll

variable {s : SubjectRoll} {i e : Nat}

theorem Enrolled.enlist (h : s.Enrolled) (hc : s.completed = false) (i : Nat) :
    (s.enlist i).Enrolled where
  single := by
    refine List.nodup_append.mpr ⟨h.single, by simp, fun e he e' he' => ?_⟩
    obtain ⟨j, hj⟩ := h.held e he
    have hlt := (Array.getElem?_eq_some_iff.mp hj).1
    rw [List.mem_singleton.mp he']
    omega
  held := by
    intro e he
    rcases List.mem_append.mp he with he | he
    · obtain ⟨j, hj⟩ := h.held e he
      exact ⟨j, getElem?_push_of_some hj _⟩
    · obtain rfl := List.mem_singleton.mp he
      exact ⟨i, Array.getElem?_push_size⟩
  completed := by simp [SubjectRoll.enlist, hc]

theorem Enrolled.release (h : s.Enrolled) (e : Nat) : (s.release e).Enrolled := by
  unfold SubjectRoll.release
  split
  · refine ⟨h.single.erase e, fun e' he' => ?_, fun hc => ?_⟩
    · obtain ⟨hne, hmem⟩ := (h.single.mem_erase_iff).mp he'
      obtain ⟨j, hj⟩ := h.held e' hmem
      exact ⟨j, by rw [SubjectRoll.detach, Array.getElem?_setIfInBounds, if_neg hne.symm, hj]⟩
    · have hempty : s.registered = [] := h.completed hc
      simp [hempty]
  · exact h

theorem enrolled_of_empty (h : s.registered = []) : s.Enrolled :=
  ⟨by simp [h], by simp [h], fun _ => h⟩

end SubjectRoll

structure Orderly (o : Outline) : Prop where
  enrolled : ∀ (n : Nat) s, o.roll.subjects[n]? = some s → s.Enrolled
  completing : ∀ n dest c ws, Frame.subject n (.completing dest c ws) ∈ o.bonds →
    ∃ s, o.roll.subjects[n]? = some s ∧ s.completed = true
  closing : ∀ h, Frame.closing h ∈ o.bonds → h < o.roll.handles.size

namespace Orderly

variable {l l' : Roll} {b b' : List Frame} {k k' : Control} {n : Nat} {s t : SubjectRoll}

theorem keep (h : Orderly ⟨l, b, k⟩) (hs : l'.subjects = l.subjects)
    (hh : l.handles.size ≤ l'.handles.size)
    (hb : ∀ n dest c ws, Frame.subject n (.completing dest c ws) ∈ b' →
      Frame.subject n (.completing dest c ws) ∈ b)
    (hc : ∀ i, Frame.closing i ∈ b' → Frame.closing i ∈ b) :
    Orderly ⟨l', b', k'⟩ where
  enrolled := fun n s hn => h.enrolled n s (hs ▸ hn)
  completing := fun n dest c ws hm => by
    rw [hs]
    exact h.completing n dest c ws (hb n dest c ws hm)
  closing := fun i hi => Nat.lt_of_lt_of_le (h.closing i (hc i hi)) hh

theorem setSubject (h : Orderly ⟨l, b, k⟩) (hs : l.subjects[n]? = some s) (ht : t.Enrolled)
    (hmono : s.completed = true → t.completed = true)
    (hb : ∀ n' dest c ws, Frame.subject n' (.completing dest c ws) ∈ b' →
      Frame.subject n' (.completing dest c ws) ∈ b ∨ n' = n ∧ t.completed = true)
    (hc : ∀ i, Frame.closing i ∈ b' → Frame.closing i ∈ b) :
    Orderly ⟨l.setSubject n t, b', k'⟩ := by
  have hself : (l.setSubject n t).subjects[n]? = some t :=
    Array.getElem?_setIfInBounds_self_of_lt (Array.getElem?_eq_some_iff.mp hs).1
  have hother {n' : Nat} (hn : n' ≠ n) : (l.setSubject n t).subjects[n']? = l.subjects[n']? :=
    Array.getElem?_setIfInBounds_ne (Ne.symm hn)
  refine ⟨fun n' u hu => ?_, fun n' dest c ws hm => ?_, fun i hi => h.closing i (hc i hi)⟩
  · by_cases hn : n' = n
    · subst hn
      obtain rfl := Option.some.inj (hself.symm.trans hu)
      exact ht
    · exact h.enrolled n' u (hother hn ▸ hu)
  · by_cases hn : n' = n
    · subst hn
      refine ⟨t, hself, ?_⟩
      rcases hb n' dest c ws hm with hold | hnew
      · obtain ⟨u, hu, hcomp⟩ := h.completing n' dest c ws hold
        obtain rfl := Option.some.inj (hs.symm.trans hu)
        exact hmono hcomp
      · exact hnew.2
    · obtain ⟨u, hu, hcomp⟩ :=
        h.completing n' dest c ws ((hb n' dest c ws hm).resolve_right fun hnew => hn hnew.1)
      exact ⟨u, (hother hn).trans hu, hcomp⟩

theorem release (h : Orderly ⟨l, b, k⟩) (tap : Tap) : Orderly ⟨l.release tap, b, k'⟩ := by
  have hkeep {l' : Roll} (hs : l'.subjects = l.subjects) (hh : l'.handles = l.handles) :
      Orderly ⟨l', b, k'⟩ :=
    h.keep hs (Nat.le_of_eq (by rw [hh])) (fun _ _ _ _ => id) fun _ => id
  cases tap with
  | subject n e =>
    simp only [Roll.release]
    split
    · next s hs =>
      refine h.setSubject hs ((h.enrolled n s hs).release e) ?_ (fun _ _ _ _ => .inl) fun _ => id
      unfold SubjectRoll.release
      split
      · exact id
      · exact id
    · exact hkeep rfl rfl
  | driver d =>
    simp only [Roll.release]
    split
    · exact hkeep rfl rfl
    · exact hkeep rfl rfl
  | inert => exact hkeep rfl rfl
  | sequence n => exact hkeep rfl rfl
  | custom n => exact hkeep rfl rfl

theorem change (h : Orderly ⟨l, b, k⟩) (hl : l.Change l') : Orderly ⟨l', b, k'⟩ where
  enrolled := fun n s hs => by
    rcases hl.fresh n s hs with hold | rfl
    · exact h.enrolled n s hold
    · exact SubjectRoll.enrolled_of_empty rfl
  completing := fun n dest c ws hm => by
    obtain ⟨s, hs, hc⟩ := h.completing n dest c ws hm
    exact ⟨s, hl.subjects n s hs, hc⟩
  closing := fun i hi => by
    rw [hl.handles]
    exact h.closing i hi

theorem outlineStep {o o' : Outline} (h : Orderly o) (hs : o.Step o') : Orderly o' := by
  cases hs with
  | keepsRoll => exact h.keep rfl (Nat.le_refl _) (fun _ _ _ _ => id) fun _ => id
  | begins => exact h.keep rfl (Nat.le_refl _) (fun _ _ _ _ => id) fun _ => id
  | change hl => exact h.change hl
  | heard => exact h.keep rfl (Nat.le_refl _) (fun _ _ _ _ => id) fun _ => id
  | attach => exact h.keep rfl (Nat.le_refl _) (fun _ _ _ _ => id) fun _ => id
  | opening => exact h.keep rfl (Nat.le_refl _) (by simp) (by simp)
  | opened => exact h.keep rfl (Nat.le_refl _) (by simp) (by simp)
  | exhausted => exact h.keep rfl (Nat.le_refl _) (by simp) (by simp)
  | enlisted hs hc =>
    exact h.setSubject hs ((h.enrolled _ _ hs).enlist hc _) id (fun _ _ _ _ => .inl) fun _ => id
  | late => exact h.keep rfl (Nat.le_refl _) (by simp) (by simp)
  | kept => exact h.keep rfl (Nat.le_refl _) (fun _ _ _ _ => id) fun _ => id
  | driven => exact h.keep rfl (Nat.le_refl _) (by simp) (by simp)
  | cancelled => exact h.release _
  | rejected hf => exact h.keep rfl (Nat.le_refl _) (fun _ _ _ _ => .tail _) fun _ => .tail _
  | finished => exact h.keep rfl (Nat.le_refl _) (fun _ _ _ _ => id) fun _ => id
  | closed hs =>
    exact h.setSubject hs (SubjectRoll.enrolled_of_empty rfl) (fun _ => rfl)
      (fun _ _ _ _ => .inl) fun _ => id
  | completes hs =>
    refine h.setSubject hs (SubjectRoll.enrolled_of_empty rfl) (fun _ => rfl) ?_ (by simp)
    intro n' dest c ws hm
    rcases List.mem_cons.mp hm with heq | hm
    · simp at heq
      exact .inr ⟨heq.1, rfl⟩
    · exact .inl hm
  | goesOn hs =>
    -- The frame that is popped says that the subject is completed, so nobody is registered.
    obtain ⟨u, hu, hcomp⟩ := h.completing _ _ _ _ List.mem_cons_self
    obtain rfl := Option.some.inj (hs.symm.trans hu)
    have hempty := (h.enrolled _ _ hs).completed hcomp
    refine h.setSubject hs (SubjectRoll.enrolled_of_empty hempty) id ?_ (by simp)
    intro n' dest c ws hm
    rcases List.mem_cons.mp hm with heq | hm
    · simp at heq
      exact .inr ⟨heq.1, hcomp⟩
    · exact .inl (.tail _ hm)
  | concludes => exact h.keep rfl (Nat.le_refl _) (by simp) (by simp)
  | stopped => exact h.keep rfl (Nat.le_refl _) (fun _ _ _ _ => id) fun _ => id
  | parted => exact h.keep rfl (Nat.le_refl _) (fun _ _ _ _ => .tail _) fun _ => .tail _
  | lapsed => exact h.keep rfl (Nat.le_refl _) (fun _ _ _ _ => .tail _) fun _ => .tail _
  | attached =>
    exact h.keep rfl (by simp [Array.size_push]) (fun _ _ _ _ => id) fun _ => id
  | uses => exact h.keep rfl (Nat.le_refl _) (by simp) (by simp)
  | usesOn => exact h.keep rfl (Nat.le_refl _) (by simp) (by simp)
  | used => exact h.keep rfl (Nat.le_refl _) (fun _ _ _ _ => .tail _) fun _ => .tail _
  | @lastUsed l b n left x r hx =>
    refine ⟨h.enrolled, fun n dest c ws hm => ?_, fun i hi => ?_⟩
    · exact h.completing n dest c ws (by simpa using hm)
    · rcases List.mem_cons.mp hi with heq | hi
      · obtain rfl := Frame.closing.inj heq
        exact (Array.getElem?_eq_some_iff.mp hx).1
      · exact h.closing i (.tail _ hi)
  | dropped =>
    exact h.keep rfl (by simp [Roll.setHandle]) (fun _ _ _ _ => id) fun _ => id
  | @closes l b j x k hx =>
    have hkept : Orderly ⟨l.setHandle j .dropped, b, k⟩ :=
      h.keep rfl (by simp [Roll.setHandle]) (fun _ _ _ _ => id) fun _ => id
    refine ⟨hkept.enrolled, fun n dest c ws hm => ?_, fun i hi => ?_⟩
    · exact hkept.completing n dest c ws (by simpa using hm)
    · rcases List.mem_cons.mp hi with heq | hi
      · obtain rfl := Frame.closing.inj heq
        simpa [Roll.setHandle] using (Array.getElem?_eq_some_iff.mp hx).1
      · exact hkept.closing i hi
  | shut => exact h.keep rfl (by simp [Roll.setHandle]) (by simp) fun _ => .tail _

end Orderly

namespace Machine

variable {m m' : Machine} {rest : List Frame} {why : Panic}

theorem unwound_orderly {f : Frame} (h : Orderly m.outline) (hs : m.stack = f :: rest) :
    Orderly (Machine.unwound { m with stack := rest } why f).outline := by
  have hmem {g : Frame} (hg : g ∈ rest.filter Frame.binds) : g ∈ m.bonds := by
    rw [bonds, hs]
    exact ((List.sublist_cons_self f rest).filter _).subset hg
  have hkeep {w : World} {k : Control} (hw : w.roll.subjects = m.world.roll.subjects)
      (hh : m.world.handles.size ≤ w.handles.size) : Orderly (outline ⟨w, rest, k⟩) :=
    h.keep hw hh (fun _ _ _ _ => hmem) fun _ => hmem
  cases f with
  | driver d f =>
    cases f with
    | opening dest =>
      simp only [Machine.unwound]
      split
      · exact hkeep rfl (Nat.le_refl _)
      · exact hkeep rfl (Nat.le_refl _)
    | _ => exact hkeep rfl (Nat.le_refl _)
  | task t =>
    have hroll : (endTask m.world t).roll.subjects = m.world.roll.subjects ∧
        (endTask m.world t).roll.handles = m.world.roll.handles := by
      rcases endTask_roll m.world t with hw | ⟨d, x, -, hw⟩
      · rw [hw]
        exact ⟨rfl, rfl⟩
      · rw [hw]
        exact ⟨rfl, rfl⟩
    exact hkeep hroll.1 (congrArg Array.size hroll.2).ge
  | handle n left =>
    simp only [Machine.unwound]
    split
    · next i hi =>
      obtain ⟨x, hx, -⟩ := lastUse_eq_some hi
      have hpopped : Orderly (outline ⟨m.world, rest, .unwinding why⟩) := hkeep rfl (Nat.le_refl _)
      refine ⟨hpopped.enrolled, fun n dest c ws hm => ?_, fun j hj => ?_⟩
      · exact hpopped.completing n dest c ws (by simpa [call, outline, bonds, Frame.binds] using hm)
      · have hj' : j = n ∨ .closing j ∈ rest.filter Frame.binds := by
          simpa [call, outline, bonds, Frame.binds] using hj
        rcases hj' with rfl | hj'
        · exact (Array.getElem?_eq_some_iff.mp hx).1
        · exact hpopped.closing j hj'
    · exact hkeep rfl (Nat.le_refl _)
  | closing n => exact hkeep rfl (by simp [World.setHandle])
  | _ => exact hkeep rfl (Nat.le_refl _)

theorem Sound.orderly_next (hm : m.Sound) (h : Orderly m.outline) (hn : m.Next m') :
    Orderly m'.outline := by
  by_cases hc : ∃ why, m.control = .unwinding why
  · obtain ⟨why, hc⟩ := hc
    obtain rfl := hn.eq_step hc
    unfold step
    rw [hc]
    cases hs : m.stack with
    | nil =>
      have hnone : bonds ⟨m.world, [], .idle (.panicked why)⟩ = [] := rfl
      exact h.keep rfl (Nat.le_refl _) (by simp [hnone]) (by simp [hnone])
    | cons f rest => exact unwound_orderly h hs
  · refine h.outlineStep (hn.outlineStep (hm.attentive fun why hw => hc ⟨why, hw⟩) ?_)
    unfold Calm
    split
    · next why hw => exact hc ⟨why, hw⟩
    · trivial

theorem Reached.orderly {may : Machine → Prop} (h : Reached may m) : Orderly m.outline := by
  have hinv := h.invariant (P := fun m => m.Sound ∧ Orderly m.outline)
    ⟨.inl attentive_empty, by simp [outline, World.roll], by simp [outline, bonds],
      by simp [outline, bonds]⟩
    fun hm hn _ => ⟨hm.1.next hn, hm.1.orderly_next hm.2 hn⟩
  exact hinv.2

end Machine
end Sluice
