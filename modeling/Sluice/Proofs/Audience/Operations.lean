import Sluice.Proofs.Audience.Seating

/-!
# Operations on an audience

Between two operations the list of the subject holds those who are subscribed, in the order in
which they were attached. Each operation is followed from there to where it returns.
-/

namespace Sluice

namespace Audience

open Conduct

variable {decide : Nat → List Value → Bool} {n k : Nat} {a b : Audience} {seat : Seat}
  {s s' : Subject Outlet} {w w' : World} {log : List Question} {rs : List Reaction}
  {fs : List Frame}

/-- The subject lists those who are subscribed. -/
structure Lists (a : Audience) (s : Subject Outlet) : Prop where
  registered : s.registered = a.places Seat.live
  completion : s.completion = a.completion
  size_le : s.entries.size ≤ a.seats.length
  size_eq : a.completion = none → s.entries.size = a.seats.length
  ended : a.completion ≠ none → a.places Seat.live = []

/-- Listeners, entries and the lists of the subject agree with the bits. -/
def Staged (n : Nat) (a : Audience) (w : World) (log : List Question) : Prop :=
  ∃ s, w.subjects[n]? = some s ∧ Seated n a s w log ∧ Lists a s

theorem Staged.of_eq (h : Staged n a w log) (hx : w'.subscribers = w.subscribers)
    (hs : w'.subjects = w.subjects) : Staged n a w' log := by
  obtain ⟨s, hsubject, hseated, hlists⟩ := h
  exact ⟨s, hs ▸ hsubject, ⟨hx ▸ hseated.size, fun hk => hx ▸ hseated.body hk, hseated.booked,
    hseated.noted, hseated.unheard⟩, hlists⟩

theorem Lists.of_kept {t : Subject Outlet} (h : Lists a s) (hk : Kept s t)
    (hlen : b.seats.length = a.seats.length) (hc : b.completion = a.completion)
    (hlive : b.places Seat.live = a.places Seat.live) : Lists b t where
  registered := by rw [hk.registered, h.registered, hlive]
  completion := by rw [hk.completion, h.completion, hc]
  size_le := by
    rw [hk.size, hlen]
    exact h.size_le
  size_eq hb := by
    rw [hk.size, hlen]
    exact h.size_eq (hc ▸ hb)
  ended hb := hlive.trans (h.ended (hc ▸ hb))

theorem Lists.enter_send (h : Lists a s) (v : Value) :
    s.enter (.send v) = s.broadcast v 0 (a.places Seat.live) := by
  -- After a completion nobody is listed, so sending needs no case of its own.
  cases hc : s.completion with
  | none =>
    simp only [Subject.enter, hc, Option.isSome_none, Bool.false_eq_true, if_false, h.registered]
  | some c =>
    rw [h.ended (by simp [← h.completion, hc])]
    simp only [Subject.enter, hc, Option.isSome_some, if_true, Subject.broadcast]

theorem Staged.send (decide : Nat → List Value → Bool) (h : Staged n a w log) (v : Value) :
    ∃ w' log', (answers decide).Course ⟨⟨w, [], .calling (.send n v)⟩, [], log⟩
        (a.events (.send v))
        ⟨⟨w', [], .answering (.count (a.places Seat.armed).length)⟩, [], log'⟩ ∧
      Staged n (a.after decide (.send v)) w' log' ∧ w'.handles = w.handles := by
  obtain ⟨s, hs, hseated, hlists⟩ := h
  have hlt : ∀ i ∈ a.places Seat.live, i < a.seats.length := by
    intro i hi
    obtain ⟨seat, hk, -⟩ := has_iff.mp (mem_places.mp hi)
    exact (List.getElem?_eq_some_iff.mp hk).1
  obtain ⟨t, w', log', hc, hseated', ht, hhandles, hkept⟩ := hseated.course_broadcast decide [] v
    (.calling (.send n v)) (lt_size_of_getElem? hs) (places_nodup a Seat.live) hlt 0
  rw [places_armed, Nat.zero_add] at hc
  rw [after_send] at hseated'
  have hlive : (a.after decide (.send v)).places Seat.live = a.places Seat.live := by
    refine places_congr (length_after ..) fun k => ?_
    simp only [has, after, List.getElem?_mapIdx]
    cases a.seats[k]? with
    | none => rfl
    | some seat => exact live_value ..
  refine ⟨w', log', .enter rfl ?_,
    ⟨t, ht, hseated', hlists.of_kept hkept (length_after ..) rfl hlive⟩, hhandles⟩
  simp only [Machine.enter, Machine.enterSubject, hs, hlists.enter_send]
  exact hc

def closed (s : Subject Outlet) (c : Ending) : Subject Outlet :=
  if s.completion.isSome then s else { s with completion := some c, registered := [] }

theorem Lists.enter_complete (h : Lists a s) (c : Ending) :
    s.enter (.complete c) = (closed s c).concludeAll c (a.places Seat.live) := by
  cases hc : s.completion with
  | none =>
    simp only [Subject.enter, closed, hc, Option.isSome_none, Bool.false_eq_true, if_false,
      h.registered]
  | some c' =>
    rw [h.ended (by simp [← h.completion, hc])]
    simp only [Subject.enter, closed, hc, Option.isSome_some, if_true, Subject.concludeAll]

theorem Lists.closed (h : Lists a s) (decide : Nat → List Value → Bool) (c : Ending) :
    Lists (a.after decide (.complete c)) (closed s c) := by
  have hgone : (a.after decide (.complete c)).places Seat.live = [] := by
    refine List.eq_nil_iff_forall_not_mem.mpr fun k hk => ?_
    obtain ⟨seat, hs, hl⟩ := has_iff.mp (mem_places.mp hk)
    obtain ⟨seat, -, rfl⟩ := List.mem_map.mp (List.mem_of_getElem? hs)
    cases hl
  have hentries : (Audience.closed s c).entries = s.entries := by
    unfold Audience.closed
    split <;> rfl
  refine ⟨?_, ?_, ?_, by simp [after], fun _ => hgone⟩
  · rw [hgone, Audience.closed]
    split
    · next hc =>
      rw [h.registered, h.ended]
      rw [← h.completion]
      exact Option.isSome_iff_ne_none.mp hc
    · rfl
  · rw [Audience.closed, after, ← h.completion]
    cases hc : s.completion <;> simp [hc]
  · rw [hentries, length_after]
    exact h.size_le

theorem Staged.complete (decide : Nat → List Value → Bool) (h : Staged n a w log) (c : Ending) :
    ∃ w' log', (answers decide).Course ⟨⟨w, [], .calling (.complete n c)⟩, [], log⟩
        (a.events (.complete c)) ⟨⟨w', [], .answering .done⟩, [], log'⟩ ∧
      Staged n (a.after decide (.complete c)) w' log' ∧ w'.handles = w.handles := by
  obtain ⟨s, hs, hseated, hlists⟩ := h
  have hclosed : Seated n a (Audience.closed s c) w log := by
    have he (k : Nat) : (Audience.closed s c).entries[k]? = s.entries[k]? := by
      unfold Audience.closed
      split <;> rfl
    exact ⟨hseated.size, hseated.body, fun hk => (hseated.booked hk).of_entry (he _),
      hseated.noted, hseated.unheard⟩
  obtain ⟨t, w', log', hc, hseated', ht, hhandles, hkept⟩ := hclosed.course_completion decide [] c
    (.calling (.complete n c)) (lt_size_of_getElem? hs) (places_nodup a Seat.live)
    fun i hi => mem_places.mp hi
  refine ⟨w', log', .enter rfl ?_, ⟨t, ht, ?_, (hlists.closed decide c).of_kept hkept rfl rfl rfl⟩,
    hhandles⟩
  · simp only [Machine.enter, Machine.enterSubject, hs, hlists.enter_complete]
    exact hc
  · have hseats := after_complete decide a c
    exact ⟨hseats ▸ hseated'.size, fun hk => hseated'.body (hseats ▸ hk),
      fun hk => hseated'.booked (hseats ▸ hk), fun hk => hseated'.noted (hseats ▸ hk),
      fun hk => hseated'.unheard (hseats ▸ hk)⟩

theorem course_request {d : Demand} (hs : w.subjects[n]? = some s) (hd : s.onRequest k d = s') :
    (answers decide).Course ⟨⟨w, fs, .calling (.request (linkTo n k) d)⟩, rs, log⟩ []
      ⟨⟨w.setSubject n s', fs, .answering .done⟩, rs, log⟩ := by
  refine .enter rfl ?_
  simp only [Machine.enter, Machine.request, linkTo, World.audit, Machine.requestTap,
    Machine.enterSubject, hs, Subject.enter, hd]
  exact .refl _

theorem Staged.no_subscriber (h : Staged n a w log) (hk : a.seats[k]? = none) :
    w.subscribers[k]? = none := by
  obtain ⟨s, -, hseated, -⟩ := h
  rw [Array.getElem?_eq_none_iff, hseated.size]
  exact List.getElem?_eq_none_iff.mp hk

theorem course_nobody (hx : w.subscribers[k]? = none) (msg : Message Link) :
    (answers decide).Course ⟨⟨w, fs, .calling (.tell k msg)⟩, rs, log⟩ []
      ⟨⟨w, fs, .answering .done⟩, rs, log⟩ := by
  have htell : Machine.enter ⟨w, fs, .calling (.tell k msg)⟩ (.tell k msg) =
      ⟨w, fs, .answering .done⟩ := by
    simp only [Machine.enter, Machine.tell, hx]
    rfl
  exact .enter rfl (htell ▸ .refl _)

theorem Seat.resume_same (h : seat.bit ≠ some false) : seat.resume = seat := by
  obtain ⟨kind, bit, seen⟩ := seat
  cases bit with
  | none => rfl
  | some b =>
    obtain rfl : b = true := by simpa using h
    rfl

theorem Seat.leave_same (h : seat.live = false) : seat.leave = seat := by
  obtain ⟨kind, bit, seen⟩ := seat
  obtain rfl : bit = none := by simpa [Seat.live] using h
  rfl

theorem Staged.rearm (decide : Nat → List Value → Bool) (rs : List Reaction) (fs : List Frame)
    (h : Staged n a w log) (hk : a.seats[k]? = some seat) (hb : seat.bit = some false) :
    ∃ w', (answers decide).Course ⟨⟨w, fs, .calling (.tell k .resume)⟩, rs, log⟩ []
        ⟨⟨w', fs, .answering .done⟩, rs, log⟩ ∧
      Staged n (a.alter k Seat.resume) w' log ∧ w'.handles = w.handles := by
  obtain ⟨s, hs, hseated, hlists⟩ := h
  obtain ⟨x, hx, hbody⟩ := hseated.body hk
  obtain ⟨y, htell, hbody'⟩ := hbody.tell_resume hx hb fs (.calling (.tell k .resume))
  have he : s.entries[k]? = some ⟨some ⟨[], k⟩, .zero⟩ := by
    have hbooked := hseated.booked hk
    rwa [Seat.Booked, hb] at hbooked
  have hlt := Subject.lt_of_entry he
  let t := s.setEntry k ⟨some ⟨[], k⟩, .one⟩
  have hrequest : s.onRequest k .one = t := by
    rw [Subject.onRequest, he]
    rfl
  let w' := (w.setSubscriber k y).setSubject n t
  have hy : w'.subscribers[k]? = some y := lookup_setSubscriber hx y
  have hbook : (answers decide).Course ⟨⟨w.setSubscriber k y, seat.kind.passing k :: fs,
      .calling (.request (linkTo n k) .one)⟩, rs, log⟩ []
      ⟨⟨w', seat.kind.passing k :: fs, .answering .done⟩, rs, log⟩ := by
    have hs' : (w.setSubscriber k y).subjects[n]? = some s := hs
    exact course_request hs' hrequest
  have hnoted : seat.Noted k log := hseated.noted hk
  refine ⟨w', .enter rfl ?_, ⟨t, lookup_setSubject (lt_size_of_getElem? hs) t, ?_, ?_⟩, rfl⟩
  · rw [Machine.enter, htell]
    exact hbook.trans (hbody'.course_passed hy)
  · refine hseated.alter hk rfl hbody' ?_ ?_ hnoted fun _ _ => rfl
    · obtain ⟨kind, bit, seen⟩ := seat
      obtain rfl : bit = some false := hb
      exact Subject.entry_setEntry_self hlt
    · intro j hj
      exact Subject.entry_setEntry_ne (Ne.symm hj)
  · exact hlists.of_kept ⟨rfl, rfl, Subject.setEntry_size ..⟩ (length_alter ..) rfl
      (places_alter a k _ live_resume)

theorem Staged.resume (decide : Nat → List Value → Bool) (rs : List Reaction) (fs : List Frame)
    (h : Staged n a w log) (k : Nat) :
    ∃ w', (answers decide).Course ⟨⟨w, fs, .calling (.tell k .resume)⟩, rs, log⟩ []
        ⟨⟨w', fs, .answering .done⟩, rs, log⟩ ∧
      Staged n (a.alter k Seat.resume) w' log ∧ w'.handles = w.handles := by
  cases hk : a.seats[k]? with
  | none =>
    rw [alter_same (by simp [hk])]
    exact ⟨w, course_nobody (h.no_subscriber hk) _, h, rfl⟩
  | some seat =>
    by_cases hb : seat.bit = some false
    · exact h.rearm decide rs fs hk hb
    · obtain ⟨s, hs, hseated, hlists⟩ := h
      obtain ⟨x, hx, hbody⟩ := hseated.body hk
      have hsame : a.alter k Seat.resume = a := by
        refine alter_same fun t ht => ?_
        obtain rfl := Option.some.inj (hk.symm.trans ht)
        exact Seat.resume_same hb
      rw [hsame]
      refine ⟨w, .enter rfl ?_, ⟨s, hs, hseated, hlists⟩, rfl⟩
      rw [Machine.enter, hbody.tell_resume_idle hx hb]
      exact .refl _

theorem Lists.leave {d : Demand} (h : Lists a s) (hk : a.seats[k]? = some seat)
    (hl : seat.live = true) : Lists (a.alter k Seat.leave)
      { s.setEntry k ⟨none, d⟩ with registered := s.registered.erase k } where
  registered := by rw [places_live_leave, h.registered]
  completion := h.completion
  size_le := by
    rw [length_alter]
    exact (Subject.setEntry_size ..).le.trans h.size_le
  size_eq hc := by
    rw [length_alter]
    exact (Subject.setEntry_size ..).trans (h.size_eq hc)
  ended hc := by
    have hmem : k ∈ a.places Seat.live := mem_places.mpr (has_iff.mpr ⟨seat, hk, hl⟩)
    simp [h.ended hc] at hmem

theorem Staged.remove (decide : Nat → List Value → Bool) (rs : List Reaction) (fs : List Frame)
    (h : Staged n a w log) (hk : a.seats[k]? = some seat) (hl : seat.live = true) :
    ∃ w', (answers decide).Course ⟨⟨w, fs, .calling (.tell k .cancel)⟩, rs, log⟩ []
        ⟨⟨w', fs, .answering .done⟩, rs, log⟩ ∧
      Staged n (a.alter k Seat.leave) w' log ∧ w'.handles = w.handles := by
  obtain ⟨s, hs, hseated, hlists⟩ := h
  obtain ⟨x, hx, hbody⟩ := hseated.body hk
  obtain ⟨y, z, f, htell, hbody', hproceed⟩ :=
    hbody.tell_cancel hx hl fs (.calling (.tell k .cancel))
  obtain ⟨d, he⟩ := (hseated.booked hk).live hl
  have hlt := Subject.lt_of_entry he
  let t : Subject Outlet := { s.setEntry k ⟨none, d⟩ with registered := s.registered.erase k }
  have hcancel : s.onCancel k = t := by
    rw [Subject.onCancel, he]
    rfl
  let w₁ := (w.setSubscriber k y).setSubject n t
  have hcourse : (answers decide).Course ⟨⟨w.setSubscriber k y, f :: fs,
      .calling (.cancel (linkTo n k))⟩, rs, log⟩ []
      ⟨⟨w₁.setSubscriber k z, fs, .answering .done⟩, rs, log⟩ := by
    have henter : Machine.enter ⟨w.setSubscriber k y, f :: fs, .calling (.cancel (linkTo n k))⟩
        (.cancel (linkTo n k)) = ⟨w₁, f :: fs, .answering .done⟩ := by
      simp only [Machine.enter, linkTo, Machine.cancelTap, Machine.enterSubject,
        show (w.setSubscriber k y).subjects[n]? = some s from hs, Subject.enter, hcancel]
      rfl
    refine .enter rfl ?_
    rw [henter]
    refine .proceed ?_
    rw [hproceed w₁ (lookup_setSubscriber hx y)]
    exact .refl _
  have hnoted : seat.Noted k log := hseated.noted hk
  refine ⟨w₁.setSubscriber k z, .enter rfl ?_,
    ⟨t, lookup_setSubject (lt_size_of_getElem? hs) t, ?_, hlists.leave hk hl⟩, rfl⟩
  · rw [Machine.enter, htell]
    exact hcourse
  · refine hseated.alter hk ?_ hbody' ?_ ?_ hnoted fun _ _ => rfl
    · exact Array.setIfInBounds_setIfInBounds ..
    · exact (Subject.holds_setEntry_self hlt).trans rfl
    · intro j hj
      exact Subject.entry_setEntry_ne (Ne.symm hj)

theorem Staged.cancel (decide : Nat → List Value → Bool) (rs : List Reaction) (fs : List Frame)
    (h : Staged n a w log) (k : Nat) :
    ∃ w', (answers decide).Course ⟨⟨w, fs, .calling (.tell k .cancel)⟩, rs, log⟩ []
        ⟨⟨w', fs, .answering .done⟩, rs, log⟩ ∧
      Staged n (a.alter k Seat.leave) w' log ∧ w'.handles = w.handles := by
  cases hk : a.seats[k]? with
  | none =>
    rw [alter_same (by simp [hk])]
    exact ⟨w, course_nobody (h.no_subscriber hk) _, h, rfl⟩
  | some seat =>
    cases hl : seat.live with
    | true => exact h.remove decide rs fs hk hl
    | false =>
      obtain ⟨s, hs, hseated, hlists⟩ := h
      obtain ⟨x, hx, hbody⟩ := hseated.body hk
      have hsame : a.alter k Seat.leave = a := by
        refine alter_same fun t ht => ?_
        obtain rfl := Option.some.inj (hk.symm.trans ht)
        exact Seat.leave_same hl
      rw [hsame]
      refine ⟨w, .enter rfl ?_, ⟨s, hs, hseated, hlists⟩, rfl⟩
      rw [Machine.enter, hbody.tell_cancel_idle hx hl]
      exact .refl _

end Audience
end Sluice
