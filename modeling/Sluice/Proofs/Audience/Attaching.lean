import Sluice.Proofs.Audience.Handles
import Sluice.Proofs.Subject.Registry

/-!
# New listeners

A listener that is attached before the completion is entered into the books of the subject and
requests one value. One that comes later is subscribed to nothing and completed at once.
-/

namespace Sluice

namespace Audience

open Conduct

variable {n k : Nat} {a : Audience} {seat : Seat} {s t : Subject Outlet} {w w' : World}
  {log log' : List Question} {x : Subscriber} {kind : Kind}

theorem Seated.add (h : Seated n a s w log) (hx : w'.subscribers = w.subscribers.push x)
    (hbody : seat.Body (linkTo n a.seats.length) x) (hbooked : seat.Booked t a.seats.length)
    (hentry : ∀ j, j < a.seats.length → t.entries[j]? = s.entries[j]?) (hseen : seat.seen = [])
    (hlog : ∀ j, shownTo j log' = shownTo j log) : Seated n (a.add seat) t w' log' := by
  have hseat {j : Nat} {u : Seat} (hj : (a.add seat).seats[j]? = some u) :
      j = a.seats.length ∧ u = seat ∨ j < a.seats.length ∧ a.seats[j]? = some u := by
    rcases Nat.lt_trichotomy j a.seats.length with hlt | rfl | hgt
    · exact .inr ⟨hlt, by rwa [Audience.add, List.getElem?_append_left hlt] at hj⟩
    · rw [Audience.add, List.getElem?_concat_length] at hj
      exact .inl ⟨rfl, (Option.some.inj hj).symm⟩
    · have hlt := (List.getElem?_eq_some_iff.mp hj).1
      simp only [Audience.add, List.length_append, List.length_singleton] at hlt
      omega
  refine ⟨?_, fun hj => ?_, fun hj => ?_, fun hj => ?_, fun hj => ?_⟩
  · simp [hx, h.size, Audience.add]
  · obtain ⟨rfl, rfl⟩ | ⟨hlt, hj⟩ := hseat hj
    · exact ⟨x, by simp [hx, ← h.size], hbody⟩
    · obtain ⟨y, hy, hbody⟩ := h.body hj
      refine ⟨y, ?_, hbody⟩
      rw [hx, Array.getElem?_push, if_neg (Nat.ne_of_lt (lt_size_of_getElem? hy)), hy]
  · obtain ⟨rfl, rfl⟩ | ⟨hlt, hj⟩ := hseat hj
    · exact hbooked
    · exact (h.booked hj).of_entry (hentry _ hlt)
  · obtain ⟨rfl, rfl⟩ | ⟨hlt, hj⟩ := hseat hj
    · intro _
      rw [hlog, h.unheard (Nat.le_refl _), hseen]
    · exact fun hs => (hlog _).trans (h.noted hj hs)
  · rw [hlog]
    refine h.unheard ?_
    simp only [Audience.add, List.length_append, List.length_singleton] at hj
    omega

theorem onSubscribe_late {c : Ending} (hc : s.completion = some c) (dest : Outlet) :
    s.onSubscribe dest = (s, .call (.handOver dest none) (.refusing dest c)) := by
  simp only [Subject.onSubscribe, hc]

theorem course_attached (decide : Nat → List Value → Bool) (rs : List Reaction)
    (log : List Question) (k : Nat) (ht : w.subjects[n]? = some t) :
    ∃ w', (answers decide).Course
        ⟨⟨w, [.subject n (.passing ⟨[], k⟩), .attaching k], .answering .done⟩, rs, log⟩ []
        ⟨⟨w', [], .answering (.handle w.handles.size)⟩, rs, log⟩ ∧
      w'.subscribers = w.subscribers ∧ w'.subjects[n]? = some t ∧
      w'.handles = w.handles.push { subscriber := k } := by
  let w' := w.setSubject n t
  refine ⟨{ w' with handles := w.handles.push { subscriber := k } }, .proceed ?_, rfl,
    lookup_setSubject (lt_size_of_getElem? ht) t, rfl⟩
  simp only [Machine.proceed, Machine.proceedSubject, ht]
  exact .proceed (.refl _)

theorem setIfInBounds_push {α : Type} (xs : Array α) (x y : α) :
    (xs.push x).setIfInBounds xs.size y = xs.push y := by
  refine Array.ext_getElem? fun j => ?_
  simp only [Array.getElem?_setIfInBounds, Array.getElem?_push, Array.size_push]
  by_cases hj : xs.size = j
  · simp [← hj]
  · simp [hj, Ne.symm hj]

theorem course_offered (decide : Nat → List Value → Bool) (rs : List Reaction)
    (log : List Question) (hs : w.subjects[n]? = some s)
    (hx : w.subscribers[k]? = some kind.fresh) {out : Subject.Out Outlet} {f : Subject.Frame Outlet}
    {link : Link} (hsub : s.onSubscribe ⟨[], k⟩ = (t, .call out f))
    (hout : Machine.subjectCall n out = .tell k (.subscription link)) :
    ∃ y, Seat.Body link ⟨kind, some true, []⟩ y ∧
      (answers decide).Course ⟨⟨w, [], .calling (.attach ⟨[], .subject n⟩ k)⟩, rs, log⟩ []
        ⟨⟨(w.setSubject n t).setSubscriber k y, [kind.passing k, .subject n f, .attaching k],
          .calling (.request link .one)⟩, rs, log⟩ := by
  let below : List Frame := [.subject n f, .attaching k]
  let tell : Call := .tell k (.subscription link)
  obtain ⟨y, htell, hbody⟩ := kind.tell_subscription (w := w.setSubject n t) hx link below
    (.calling tell)
  have henter : Machine.enter ⟨w, [.attaching k], .calling (.subscribe ⟨[], .subject n⟩ k)⟩
      (.subscribe ⟨[], .subject n⟩ k) = ⟨w.setSubject n t, below, .calling tell⟩ := by
    simp only [Machine.enter, Machine.subscribe, Machine.enterSubject, hs, Subject.enter, hsub,
      Machine.subjectSection, Machine.move, hout, below, tell]
  refine ⟨y, hbody, .enter rfl (.enter (w := w) (c := .subscribe ⟨[], .subject n⟩ k) rfl ?_)⟩
  rw [henter]
  refine .enter rfl ?_
  rw [Machine.enter, htell]
  exact .refl _

def enlisted (s : Subject Outlet) : Subject Outlet :=
  { s with
    entries := s.entries.push ⟨some ⟨[], s.entries.size⟩, .one⟩
    registered := s.registered ++ [s.entries.size] }

theorem Lists.enlisted (h : Lists a s) (hc : a.completion = none) (kind : Kind) :
    Lists (a.add ⟨kind, some true, []⟩) (enlisted s) where
  registered := by
    rw [places_add, ← h.registered, ← h.size_eq hc]
    rfl
  completion := h.completion
  size_le := by simp [Audience.enlisted, add, h.size_eq hc]
  size_eq _ := by simp [Audience.enlisted, add, h.size_eq hc]
  ended hn := absurd hc hn

theorem Lists.late (h : Lists a s) (hc : a.completion ≠ none) (kind : Kind) :
    Lists (a.add ⟨kind, none, []⟩) s where
  registered := by
    rw [places_add, h.registered]
    exact (List.append_nil _).symm
  completion := h.completion
  size_le := by simpa [add] using Nat.le_succ_of_le h.size_le
  size_eq hn := absurd hn hc
  ended _ := by
    rw [places_add, h.ended hc]
    rfl

theorem onSubscribe_open (hc : s.completion = none) (dest : Outlet) :
    s.onSubscribe dest =
      (s.enlist dest, .call (.handOver dest (some s.entries.size)) (.passing dest)) := by
  rw [Subject.onSubscribe]
  split
  · next c hs =>
    rw [hc] at hs
    cases hs
  · rfl

theorem onRequest_enlist (s : Subject Outlet) :
    (s.enlist ⟨[], s.entries.size⟩).onRequest s.entries.size .one = enlisted s := by
  have he : (s.enlist ⟨[], s.entries.size⟩).entries[s.entries.size]? =
      some ⟨some ⟨[], s.entries.size⟩, .zero⟩ := Array.getElem?_push_size
  have hentries : (s.entries.push ⟨some ⟨[], s.entries.size⟩, .zero⟩).setIfInBounds
      s.entries.size ⟨some ⟨[], s.entries.size⟩, Demand.zero + Demand.one⟩ =
      s.entries.push ⟨some (⟨[], s.entries.size⟩ : Outlet), .one⟩ := by
    exact setIfInBounds_push s.entries _ _
  rw [Subject.onRequest, he]
  simp only [Option.isSome_some, if_true, Subject.setEntry, Subject.enlist, hentries, enlisted]

structure Attached (n : Nat) (w : World) (t : Subject Outlet) (y : Subscriber) (w' : World) :
    Prop where
  subscribers : w'.subscribers = w.subscribers.push y
  subject : w'.subjects[n]? = some t
  handles : w'.handles = w.handles.push { subscriber := w.subscribers.size }

theorem course_attach_open (decide : Nat → List Value → Bool) (rs : List Reaction)
    (log : List Question) (hs : w.subjects[n]? = some s) (hc : s.completion = none)
    (hk : s.entries.size = w.subscribers.size) (kind : Kind) :
    ∃ y w', (answers decide).Course ⟨⟨w.addSubscriber kind.fresh, [],
        .calling (.attach ⟨[], .subject n⟩ w.subscribers.size)⟩, rs, log⟩ []
        ⟨⟨w', [], .answering (.handle w.handles.size)⟩, rs, log⟩ ∧
      Seat.Body (linkTo n w.subscribers.size) ⟨kind, some true, []⟩ y ∧
      Attached n w (enlisted s) y w' := by
  have hs₀ : (w.addSubscriber kind.fresh).subjects[n]? = some s := hs
  obtain ⟨y, hbody, hoffered⟩ := course_offered decide rs log hs₀ Array.getElem?_push_size
    (onSubscribe_open hc ⟨[], w.subscribers.size⟩) rfl
  rw [hk] at hoffered hbody
  let enlist := s.enlist ⟨[], w.subscribers.size⟩
  have hrequest : enlist.onRequest w.subscribers.size .one = enlisted s := by
    simpa only [enlist, hk] using onRequest_enlist s
  let w₁ := ((w.addSubscriber kind.fresh).setSubject n enlist).setSubscriber w.subscribers.size y
  have hs₁ : w₁.subjects[n]? = some enlist := lookup_setSubject (lt_size_of_getElem? hs) _
  let w₂ := w₁.setSubject n (enlisted s)
  have hs₂ : w₂.subjects[n]? = some (enlisted s) := lookup_setSubject (lt_size_of_getElem? hs₁) _
  have hx₂ : w₂.subscribers = w.subscribers.push y :=
    setIfInBounds_push w.subscribers kind.fresh y
  have hy₂ : w₂.subscribers[w.subscribers.size]? = some y := by
    rw [hx₂, Array.getElem?_push_size]
  obtain ⟨w', hattached, hx', hs', hhandles⟩ :=
    course_attached decide rs log w.subscribers.size hs₂
  exact ⟨y, w', (hoffered.trans (course_request hs₁ hrequest)).trans
    ((hbody.course_passed hy₂).trans hattached), hbody, hx'.trans hx₂, hs', hhandles⟩

theorem course_attach_late (decide : Nat → List Value → Bool) (rs : List Reaction)
    (log : List Question) (hs : w.subjects[n]? = some s) {c : Ending}
    (hc : s.completion = some c) (kind : Kind) :
    ∃ y w' log', (answers decide).Course ⟨⟨w.addSubscriber kind.fresh, [],
        .calling (.attach ⟨[], .subject n⟩ w.subscribers.size)⟩, rs, log⟩
        (kind.closing w.subscribers.size c)
        ⟨⟨w', [], .answering (.handle w.handles.size)⟩, rs, log'⟩ ∧
      (∀ link, Seat.Body link ⟨kind, none, []⟩ y) ∧ Attached n w s y w' ∧
      ∀ j, shownTo j log' = shownTo j log := by
  have hs₀ : (w.addSubscriber kind.fresh).subjects[n]? = some s := hs
  obtain ⟨y, hbody, hoffered⟩ := course_offered decide rs log hs₀ Array.getElem?_push_size
    (onSubscribe_late hc ⟨[], w.subscribers.size⟩) rfl
  let w₁ := ((w.addSubscriber kind.fresh).setSubject n s).setSubscriber w.subscribers.size y
  have hs₁ : w₁.subjects[n]? = some s := lookup_setSubject (lt_size_of_getElem? hs) _
  have hx₁ : w₁.subscribers = w.subscribers.push y :=
    setIfInBounds_push w.subscribers kind.fresh y
  have hy₁ : w₁.subscribers[w.subscribers.size]? = some y := by
    rw [hx₁, Array.getElem?_push_size]
  let refusing : List Frame := [.subject n (.refusing ⟨[], w.subscribers.size⟩ c),
    .attaching w.subscribers.size]
  let passing : List Frame := [.subject n (.passing ⟨[], w.subscribers.size⟩),
    .attaching w.subscribers.size]
  -- The subscription that was handed out takes no notice of the request.
  have hinert : (answers decide).Course ⟨⟨w₁, kind.passing w.subscribers.size :: refusing,
      .calling (.request ⟨[], .inert⟩ .one)⟩, rs, log⟩ []
      ⟨⟨w₁, kind.passing w.subscribers.size :: refusing, .answering .done⟩, rs, log⟩ :=
    .enter rfl (.refl _)
  have hy₂ : (w₁.setSubject n s).subscribers[w.subscribers.size]? = some y := hy₁
  obtain ⟨z, w₃, log', hended, hgone, hw₃, hlog⟩ :=
    hbody.course_completion decide passing rs log c hy₂ rfl
  have hrefused : (answers decide).Course ⟨⟨w₁, refusing, .answering .done⟩, rs, log⟩
      (kind.closing w.subscribers.size c) ⟨⟨w₃, passing, .answering .done⟩, rs, log'⟩ := by
    refine .proceed ?_
    simp only [Machine.proceed, Machine.proceedSubject, hs₁, Subject.proceed]
    exact hended
  have hs₃ : w₃.subjects[n]? = some s :=
    hw₃.subjects ▸ lookup_setSubject (lt_size_of_getElem? hs₁) s
  have hx₃ : w₃.subscribers = w.subscribers.push z := by
    refine hw₃.subscribers.trans ?_
    change w₁.subscribers.setIfInBounds w.subscribers.size z = _
    rw [hx₁, setIfInBounds_push]
  obtain ⟨w', hattached, hx', hs', hhandles⟩ :=
    course_attached decide rs log' w.subscribers.size hs₃
  have hcourse := ((hoffered.trans hinert).trans (hbody.course_passed hy₁)).trans
    (hrefused.trans hattached)
  have hh₃ : w₃.handles = w.handles := hw₃.handles
  rw [hh₃] at hcourse hhandles
  simp only [List.append_nil, List.nil_append] at hcourse
  exact ⟨z, w', log', hcourse, hgone, ⟨hx'.trans hx₃, hs', hhandles⟩, hlog⟩

theorem Staged.attach (decide : Nat → List Value → Bool) (rs : List Reaction)
    (h : Staged n a w log) (kind : Kind) :
    ∃ w' log', (answers decide).Course ⟨⟨w.addSubscriber kind.fresh, [],
        .calling (.attach ⟨[], .subject n⟩ w.subscribers.size)⟩, rs, log⟩
        (a.events (.attach kind)) ⟨⟨w', [], .answering (.handle w.handles.size)⟩, rs, log'⟩ ∧
      Staged n (a.after decide (.attach kind)) w' log' ∧
      w'.handles = w.handles.push { subscriber := a.seats.length } := by
  obtain ⟨s, hs, hseated, hlists⟩ := h
  have hsize := hseated.size
  cases hc : a.completion with
  | none =>
    have hk := hlists.size_eq hc
    obtain ⟨y, w', hcourse, hbody, hnew⟩ := course_attach_open decide rs log hs
      (hlists.completion.trans hc) (hk.trans hsize.symm) kind
    have hadd : Seated n (a.add ⟨kind, some true, []⟩) (enlisted s) w' log := by
      refine hseated.add hnew.subscribers (hsize ▸ hbody) ?_ ?_ rfl fun _ => rfl
      · rw [← hk]
        exact Array.getElem?_push_size
      · intro j hj
        rw [enlisted, Array.getElem?_push, if_neg (by omega)]
    refine ⟨w', log, ?_, ?_, hsize ▸ hnew.handles⟩
    · rw [events, hc]
      exact hcourse
    · rw [after_attach_open hc]
      exact ⟨enlisted s, hnew.subject, hadd, hlists.enlisted hc kind⟩
  | some c =>
    obtain ⟨y, w', log', hcourse, hbody, hnew, hlog⟩ := course_attach_late decide rs log hs
      (hlists.completion.trans hc) kind
    have hadd : Seated n (a.add ⟨kind, none, []⟩) s w' log' := by
      have hnone : s.entries[a.seats.length]? = none :=
        Array.getElem?_eq_none_iff.mpr hlists.size_le
      have hholds : s.holds a.seats.length = false := by
        rw [Subject.holds, hnone]
        rfl
      exact hseated.add hnew.subscribers (hbody _) hholds (fun _ _ => rfl) rfl hlog
    refine ⟨w', log', ?_, ?_, hsize ▸ hnew.handles⟩
    · rw [events, hc]
      exact hsize ▸ hcourse
    · rw [after_attach_late hc]
      exact ⟨s, hnew.subject, hadd, hlists.late (by simp [hc]) kind⟩

end Audience
end Sluice
