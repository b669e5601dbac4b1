import Sluice.Proofs.Audience.Operations

/-!
# Handles of an audience

A listener is attached, resumed, cancelled and dropped through its handle, and resumed through a
resumer as long as it is alive. What comes of it concerns that one listener and its handle.
-/

namespace Sluice

namespace Audience

open Conduct

variable {decide : Nat → List Value → Bool} {n k count : Nat} {a : Audience} {seat : Seat}
  {w w' : World} {log : List Question} {rs : List Reaction}

/-- Listener and handle have the same number, and no drop is under way. -/
structure Handled (count : Nat) (w : World) : Prop where
  size : w.handles.size = count
  handle : ∀ k < count, ∃ st, w.handles[k]? = some ⟨k, st⟩ ∧ st ≠ .dropped

namespace Handled

theorem none_of_ge (h : Handled count w) (hk : ¬ k < count) : w.handles[k]? = none := by
  rw [Array.getElem?_eq_none_iff, h.size]
  exact Nat.le_of_not_lt hk

theorem course_used (h : Handled count w) (hk : k < count) :
    (answers decide).Course ⟨⟨w, [.handle k 0], .answering .done⟩, rs, log⟩ []
      ⟨⟨w, [], .answering .done⟩, rs, log⟩ := by
  obtain ⟨st, hst, hne⟩ := h.handle k hk
  have hlast : Machine.lastUse ⟨w, [], .answering .done⟩ k = none := by
    simp [Machine.lastUse, hst, hne]
  refine .proceed ?_
  simp only [Machine.proceed, hlast]
  exact .refl _

theorem enter_use (h : Handled count w) (hk : k < count) (o : Control) :
    Machine.useHandle ⟨w, [], o⟩ k (.resume 1) = ⟨w, [.handle k 0], .calling (.tell k .resume)⟩ ∧
      Machine.useHandle ⟨w, [], o⟩ k .cancel = ⟨w, [.handle k 0], .calling (.tell k .cancel)⟩ := by
  obtain ⟨st, hst, -⟩ := h.handle k hk
  simp only [Machine.useHandle, hst, Machine.call, and_self]

theorem of_handles (h : Handled count w) (hw : w'.handles = w.handles) : Handled count w' :=
  ⟨hw ▸ h.size, hw ▸ h.handle⟩

theorem closed (h : Handled count w) (k : Nat)
    (hw : w'.handles = (w.setHandle k .dropped).handles) :
    Handled count (w'.setHandle k .closed) where
  size := by
    rw [World.setHandle, Array.size_modify, hw, World.setHandle, Array.size_modify, h.size]
  handle j hj := by
    obtain ⟨st, hst, hne⟩ := h.handle j hj
    simp only [World.setHandle, hw, Array.getElem?_modify, hst]
    by_cases hkj : k = j
    · exact ⟨.closed, by simp [hkj]⟩
    · exact ⟨st, by simp [hkj, hne]⟩

end Handled

theorem Staged.use_handle (h : Staged n a w log) (hw : Handled a.seats.length w) {use : HandleUse}
    {msg : Message Link} {f : Seat → Seat}
    (henter : k < a.seats.length →
      Machine.useHandle ⟨w, [], .calling (.useHandle k use)⟩ k use =
        ⟨w, [.handle k 0], .calling (.tell k msg)⟩)
    (htell : ∃ w', (answers decide).Course ⟨⟨w, [.handle k 0], .calling (.tell k msg)⟩, rs, log⟩ []
        ⟨⟨w', [.handle k 0], .answering .done⟩, rs, log⟩ ∧
      Staged n (a.alter k f) w' log ∧ w'.handles = w.handles) :
    ∃ w', (answers decide).Course ⟨⟨w, [], .calling (.useHandle k use)⟩, rs, log⟩ []
        ⟨⟨w', [], .answering .done⟩, rs, log⟩ ∧
      Staged n (a.alter k f) w' log ∧ Handled a.seats.length w' := by
  by_cases hk : k < a.seats.length
  · obtain ⟨w', hc, hstaged, hhandles⟩ := htell
    have hw' := hw.of_handles hhandles
    refine ⟨w', .enter rfl ?_, hstaged, hw'⟩
    rw [Machine.enter, henter hk]
    exact hc.trans (hw'.course_used hk)
  · have hidle : Machine.enter ⟨w, [], .calling (.useHandle k use)⟩ (.useHandle k use) =
        ⟨w, [], .answering .done⟩ := by
      simp only [Machine.enter, Machine.useHandle, hw.none_of_ge hk]
      rfl
    rw [alter_of_ge hk]
    exact ⟨w, .enter rfl (hidle ▸ .refl _), h, hw⟩

theorem Staged.alive (h : Staged n a w log) (hk : a.seats[k]? = some seat)
    (hl : seat.live = true) (fs : List Frame) (o : Control) :
    Machine.alive ⟨w, fs, o⟩ k = true := by
  -- The subject refers to whoever is subscribed.
  obtain ⟨s, hs, hseated, -⟩ := h
  obtain ⟨d, he⟩ := (hseated.booked hk).live hl
  have hentry : s.entries.any (fun e => e.subscriber.any (·.subscriber == k)) = true :=
    Array.any_eq_true'.mpr ⟨_, Array.mem_of_getElem? he, by simp⟩
  have hsubject : w.subjects.any (fun s => s.entries.any fun e =>
      e.subscriber.any (·.subscriber == k)) = true :=
    Array.any_eq_true'.mpr ⟨s, Array.mem_of_getElem? hs, hentry⟩
  simp [Machine.alive, World.referred, hsubject]

theorem Staged.resume_alive (decide : Nat → List Value → Bool) (h : Staged n a w log)
    (hw : Handled a.seats.length w) (k : Nat) :
    ∃ w' r, (answers decide).Course ⟨⟨w, [], .calling (.resumeAlive k 1)⟩, rs, log⟩ []
        ⟨⟨w', [], .answering (.flag r)⟩, rs, log⟩ ∧
      Staged n (a.alter k Seat.resume) w' log ∧ Handled a.seats.length w' := by
  cases ha : Machine.alive ⟨w, [], .calling (.resumeAlive k 1)⟩ k with
  | true =>
    obtain ⟨w', hc, hstaged, hhandles⟩ := h.resume decide rs [.resumer k 0] k
    refine ⟨w', true, .enter rfl ?_, hstaged, hw.of_handles hhandles⟩
    simp only [Machine.enter, Machine.resumeAlive, ha, if_true]
    exact hc.trans (.proceed (.refl _))
  | false =>
    have hsame : a.alter k Seat.resume = a := by
      refine alter_same fun seat hk => Seat.resume_same fun hb => ?_
      have hl : seat.live = true := by simp [Seat.live, hb]
      rw [h.alive hk hl] at ha
      cases ha
    rw [hsame]
    refine ⟨w, false, .enter rfl ?_, h, hw⟩
    simp only [Machine.enter, Machine.resumeAlive, ha, Bool.false_eq_true, if_false]
    exact .refl _

theorem Staged.drop (decide : Nat → List Value → Bool) (h : Staged n a w log)
    (hw : Handled a.seats.length w) (k : Nat) :
    ∃ w', (answers decide).Course ⟨⟨w, [], .calling (.dropHandle k)⟩, rs, log⟩ []
        ⟨⟨w', [], .answering .done⟩, rs, log⟩ ∧
      Staged n (a.alter k Seat.leave) w' log ∧ Handled a.seats.length w' := by
  by_cases hk : k < a.seats.length
  · obtain ⟨st, hst, -⟩ := hw.handle k hk
    have hdropped : Staged n a (w.setHandle k .dropped) log := h.of_eq rfl rfl
    obtain ⟨w', hc, hstaged, hhandles⟩ := hdropped.cancel decide rs [.closing k] k
    refine ⟨w'.setHandle k .closed, .enter rfl ?_, hstaged.of_eq rfl rfl, hw.closed k hhandles⟩
    simp only [Machine.enter, Machine.dropHandle, hst, List.any_nil, Bool.false_eq_true, if_false,
      Machine.call]
    exact hc.trans (.proceed (.refl _))
  · have hidle : Machine.enter ⟨w, [], .calling (.dropHandle k)⟩ (.dropHandle k) =
        ⟨w, [], .answering .done⟩ := by
      simp only [Machine.enter, Machine.dropHandle, hw.none_of_ge hk]
      rfl
    rw [alter_of_ge hk]
    exact ⟨w, .enter rfl (hidle ▸ .refl _), h, hw⟩

theorem Staged.use (decide : Nat → List Value → Bool) (h : Staged n a w log)
    (hw : Handled a.seats.length w) (k : Nat) (u : Use) :
    ∃ w' r, (answers decide).Course ⟨⟨w, [], .calling (u.call k)⟩, rs, log⟩ []
        ⟨⟨w', [], .answering r⟩, rs, log⟩ ∧ r.number? = none ∧
      Staged n (a.alter k u.apply) w' log ∧ Handled a.seats.length w' := by
  cases u with
  | resume route =>
    cases route with
    | handle =>
      obtain ⟨w', hc, hstaged, hw'⟩ := h.use_handle hw (fun hk => (hw.enter_use hk _).1)
        (h.resume decide rs [.handle k 0] k)
      exact ⟨w', .done, hc, rfl, hstaged, hw'⟩
    | resumer =>
      obtain ⟨w', r, hc, hstaged, hw'⟩ := h.resume_alive decide hw k
      exact ⟨w', .flag r, hc, rfl, hstaged, hw'⟩
    | direct =>
      obtain ⟨w', hc, hstaged, hhandles⟩ := h.resume decide rs [] k
      exact ⟨w', .done, hc, rfl, hstaged, hw.of_handles hhandles⟩
  | cancel =>
    obtain ⟨w', hc, hstaged, hw'⟩ := h.use_handle hw (fun hk => (hw.enter_use hk _).2)
      (h.cancel decide rs [.handle k 0] k)
    exact ⟨w', .done, hc, rfl, hstaged, hw'⟩
  | cancelDirectly =>
    obtain ⟨w', hc, hstaged, hhandles⟩ := h.cancel decide rs [] k
    exact ⟨w', .done, hc, rfl, hstaged, hw.of_handles hhandles⟩
  | drop =>
    obtain ⟨w', hc, hstaged, hw'⟩ := h.drop decide hw k
    exact ⟨w', .done, hc, rfl, hstaged, hw'⟩

end Audience
end Sluice
