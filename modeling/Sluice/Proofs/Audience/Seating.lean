import Sluice.Proofs.Audience.Listeners
import Sluice.Proofs.Audience.Places
import Sluice.Proofs.Subject

/-!
# Seating an audience at a subject

The bit of a listener is spread over three places: the demand that the subject has booked for
it, the pull flag of the listener, and the state of both. They are kept together one listener
at a time, so a broadcast and a completion can be followed through the list that they work on.
-/

namespace Sluice

namespace Audience

open Conduct
open Gate (outstanding)

/-- What the subject has booked for a listener. -/
def Seat.Booked (s : Subject Outlet) (k : Nat) (seat : Seat) : Prop :=
  match seat.bit with
  | some b => s.entries[k]? = some ⟨some ⟨[], k⟩, outstanding b⟩
  | none => s.holds k = false

/-- Every listener and its entry agree with its bit. -/
structure Seated (n : Nat) (a : Audience) (s : Subject Outlet) (w : World) (log : List Question) :
    Prop where
  size : w.subscribers.size = a.seats.length
  body {k : Nat} {seat : Seat} (hk : a.seats[k]? = some seat) :
    ∃ x, w.subscribers[k]? = some x ∧ seat.Body (linkTo n k) x
  booked {k : Nat} {seat : Seat} (hk : a.seats[k]? = some seat) : seat.Booked s k
  noted {k : Nat} {seat : Seat} (hk : a.seats[k]? = some seat) : seat.Noted k log
  unheard {k : Nat} (hk : a.seats.length ≤ k) : shownTo k log = []

variable {n k : Nat} {a : Audience} {seat : Seat} {s s' : Subject Outlet} {w w' : World}
  {log log' : List Question} {f : Seat → Seat} {x : Subscriber}

theorem Seat.Booked.armed (h : seat.Booked s k) (ha : seat.armed = true) :
    s.entries[k]? = some ⟨some ⟨[], k⟩, .one⟩ := by
  obtain ⟨kind, bit, seen⟩ := seat
  obtain rfl : bit = some true := by simpa [Seat.armed] using ha
  exact h

theorem Seat.Booked.live (h : seat.Booked s k) (hl : seat.live = true) :
    ∃ d, s.entries[k]? = some ⟨some ⟨[], k⟩, d⟩ := by
  obtain ⟨kind, bit, seen⟩ := seat
  cases bit with
  | none => simp [Seat.live] at hl
  | some b => exact ⟨_, h⟩

theorem Seat.Booked.spend?_none (h : seat.Booked s k) (ha : seat.armed = false) :
    s.spend? k = none := by
  obtain ⟨kind, bit, seen⟩ := seat
  cases bit with
  | some b =>
    obtain rfl : b = false := by simpa [Seat.armed] using ha
    have he : s.entries[k]? = some ⟨some ⟨[], k⟩, .zero⟩ := h
    rw [Subject.spend?, he]
    rfl
  | none =>
    have hh : s.holds k = false := h
    cases he : s.entries[k]? with
    | none => rw [Subject.spend?, he]
    | some e =>
      obtain ⟨sub, d⟩ := e
      cases sub with
      | none => rw [Subject.spend?, he]
      | some dest => simp [Subject.holds_of_entry he] at hh

theorem Seat.Booked.of_entry (h : seat.Booked s k) (he : s'.entries[k]? = s.entries[k]?) :
    seat.Booked s' k := by
  unfold Seat.Booked at *
  rwa [Subject.holds, he]

namespace Seated

theorem alter (h : Seated n a s w log) (hk : a.seats[k]? = some seat)
    (hx : w'.subscribers = w.subscribers.setIfInBounds k x) (hbody : (f seat).Body (linkTo n k) x)
    (hbooked : (f seat).Booked s' k) (hentry : ∀ j, j ≠ k → s'.entries[j]? = s.entries[j]?)
    (hnoted : (f seat).Noted k log') (hlog : ∀ j, j ≠ k → shownTo j log' = shownTo j log) :
    Seated n (a.alter k f) s' w' log' := by
  obtain ⟨y, hy, -⟩ := h.body hk
  have hlt : k < a.seats.length := (List.getElem?_eq_some_iff.mp hk).1
  -- The seats after the change are the changed one and the others as they were.
  have hseat {j : Nat} {t : Seat} (hj : (a.alter k f).seats[j]? = some t) :
      j = k ∧ t = f seat ∨ j ≠ k ∧ a.seats[j]? = some t := by
    rw [seats_alter] at hj
    split at hj
    · next he =>
      subst he
      rw [hk] at hj
      exact .inl ⟨rfl, (Option.some.inj hj).symm⟩
    · next he => exact .inr ⟨Ne.symm he, hj⟩
  refine ⟨?_, fun hj => ?_, fun hj => ?_, fun hj => ?_, fun hj => ?_⟩
  · rw [hx, Array.size_setIfInBounds, h.size, length_alter]
  · obtain ⟨rfl, rfl⟩ | ⟨hne, hj⟩ := hseat hj
    · exact ⟨x, by rw [hx, Array.getElem?_setIfInBounds_self_of_lt (lt_size_of_getElem? hy)],
        hbody⟩
    · rw [hx, Array.getElem?_setIfInBounds_ne (Ne.symm hne)]
      exact h.body hj
  · obtain ⟨rfl, rfl⟩ | ⟨hne, hj⟩ := hseat hj
    · exact hbooked
    · exact (h.booked hj).of_entry (hentry _ hne)
  · obtain ⟨rfl, rfl⟩ | ⟨hne, hj⟩ := hseat hj
    · exact hnoted
    · exact fun hs => (hlog _ hne).trans (h.noted hj hs)
  · rw [length_alter] at hj
    rw [hlog _ (Nat.ne_of_gt (Nat.lt_of_lt_of_le hlt hj)), h.unheard hj]

end Seated

theorem lookup_setSubject (hn : n < w.subjects.size) (s : Subject Outlet) :
    (w.setSubject n s).subjects[n]? = some s := by
  rw [World.setSubject, Array.getElem?_setIfInBounds_self_of_lt hn]

/-- Only entries that a subject has had before have changed. -/
structure Kept (s t : Subject Outlet) : Prop where
  registered : t.registered = s.registered
  completion : t.completion = s.completion
  size : t.entries.size = s.entries.size

theorem Kept.refl (s : Subject Outlet) : Kept s s := ⟨rfl, rfl, rfl⟩

theorem Kept.trans {t u : Subject Outlet} (h : Kept s t) (h' : Kept t u) : Kept s u :=
  ⟨h'.registered.trans h.registered, h'.completion.trans h.completion, h'.size.trans h.size⟩

theorem Seated.course_deliver (decide : Nat → List Value → Bool) (rs : List Reaction) (v : Value)
    (o : Control) (h : Seated n a s w log) (hn : n < w.subjects.size)
    (hk : a.seats[k]? = some seat) (ha : seat.armed = true) (rest : List Nat) (sent : Nat) :
    ∃ t w' log', (answers decide).Course
        ⟨Machine.subjectSection ⟨w, [], o⟩ n (s.broadcast v sent (k :: rest)), rs, log⟩
        [.value k v]
        ⟨Machine.subjectSection ⟨w', [], .answering .done⟩ n (t.broadcast v (sent + 1) rest), rs,
          log'⟩ ∧
      Seated n (a.alter k (Seat.value (decide k) v)) t w' log' ∧ n < w'.subjects.size ∧
      w'.handles = w.handles ∧ Kept s t := by
  have he := (h.booked hk).armed ha
  have hlt := Subject.lt_of_entry he
  let spent := s.setEntry k ⟨some ⟨[], k⟩, .zero⟩
  let frame : Frame := .subject n (.sending ⟨[], k⟩ k v rest sent)
  let pulls := seat.kind.pulls (decide k) (seat.seen ++ [v])
  have hsection : Machine.subjectSection ⟨w, [], o⟩ n (s.broadcast v sent (k :: rest)) =
      ⟨w.setSubject n spent, [frame], .calling (.tell k (.value v))⟩ := by
    have hspend : s.spend? k = some (⟨[], k⟩, spent) := by
      rw [Subject.spend?, he]
      rfl
    rw [Subject.broadcast, hspend]
    rfl
  obtain ⟨x, hx, hbody⟩ := h.body hk
  obtain ⟨y, w', log', hc, hbody', hw, hnoted, hlog⟩ := hbody.course_value decide rs v
    (show (w.setSubject n spent).subscribers[k]? = some x from hx) ha (h.noted hk)
    (show [frame].any (Machine.isDeciding k) = false from rfl)
  have hn' : n < w'.subjects.size := by
    rw [hw.subjects]
    exact (Array.size_setIfInBounds ..).symm ▸ hn
  have hsub : w'.subjects[n]? = some spent := hw.subjects ▸ lookup_setSubject hn spent
  -- What is granted comes on top of no demand.
  let t := s.setEntry k ⟨some ⟨[], k⟩, outstanding pulls⟩
  have hgrant : spent.grant k (outstanding pulls) = t := by
    have hspent : spent.entries[k]? = some ⟨some ⟨[], k⟩, .zero⟩ :=
      Subject.entry_setEntry_self hlt
    have hzero : Demand.zero + outstanding pulls = outstanding pulls := by cases pulls <;> rfl
    rw [Subject.grant, hspent]
    simp only [hzero, spent, t, Subject.setEntry, Array.setIfInBounds_setIfInBounds]
  refine ⟨t, w', log', ?_, ?_, hn', hw.handles, rfl, rfl,
    Subject.setEntry_size ..⟩
  · rw [hsection]
    refine hc.trans (.proceed ?_)
    simp only [Machine.proceed, Machine.proceedSubject, frame, hsub, Subject.proceed,
      Reply.granted]
    rw [hgrant]
    exact .refl _
  · refine h.alter hk hw.subscribers hbody' ?_ ?_ hnoted hlog
    · rw [Seat.value, if_pos ha]
      exact Subject.entry_setEntry_self hlt
    · intro j hj
      exact Subject.entry_setEntry_ne (Ne.symm hj)

/-- What a broadcast comes to: among the listeners on its list it reaches those whose bit is set,
in the order of the list, and counts them. -/
theorem Seated.course_broadcast (decide : Nat → List Value → Bool) (rs : List Reaction)
    (v : Value) (o : Control) (h : Seated n a s w log) (hn : n < w.subjects.size) {ws : List Nat}
    (hws : ws.Nodup) (hlt : ∀ i ∈ ws, i < a.seats.length) (sent : Nat) :
    ∃ t w' log', (answers decide).Course
        ⟨Machine.subjectSection ⟨w, [], o⟩ n (s.broadcast v sent ws), rs, log⟩
        ((ws.filter (a.has Seat.armed)).map (.value · v))
        ⟨⟨w', [], .answering (.count (sent + (ws.filter (a.has Seat.armed)).length))⟩, rs, log'⟩ ∧
      Seated n (ws.foldl (fun b i => b.alter i (Seat.value (decide i) v)) a) t w' log' ∧
      w'.subjects[n]? = some t ∧ w'.handles = w.handles ∧ Kept s t := by
  induction ws generalizing a s w log sent o with
  | nil =>
    exact ⟨s, w.setSubject n s, log, .refl _,
      ⟨h.size, h.body, h.booked, h.noted, h.unheard⟩, lookup_setSubject hn s, rfl, .refl s⟩
  | cons i ws ih =>
    obtain ⟨hi, hws⟩ := List.nodup_cons.mp hws
    obtain ⟨hlti, hlt⟩ := List.forall_mem_cons.mp hlt
    obtain ⟨seat, hk⟩ : ∃ seat, a.seats[i]? = some seat := ⟨_, List.getElem?_eq_getElem hlti⟩
    have hhas : a.has Seat.armed i = seat.armed := by rw [has, hk, Option.any_some]
    rw [List.foldl_cons, List.filter_cons, hhas]
    cases ha : seat.armed with
    | false =>
      have hsame : a.alter i (Seat.value (decide i) v) = a := by
        refine alter_same fun t ht => ?_
        obtain rfl := Option.some.inj (hk.symm.trans ht)
        rw [Seat.value, ha, if_neg Bool.false_ne_true]
      rw [if_neg Bool.false_ne_true, hsame, Subject.broadcast, (h.booked hk).spend?_none ha]
      exact ih o h hn hws hlt sent
    | true =>
      obtain ⟨t, w₁, log₁, hc₁, h₁, hn₁, hhandles₁, hkept₁⟩ :=
        h.course_deliver decide rs v o hn hk ha ws sent
      obtain ⟨u, w₂, log₂, hc₂, h₂, hu, hhandles₂, hkept₂⟩ := ih (.answering .done) h₁ hn₁ hws
        (by rwa [length_alter]) (sent + 1)
      rw [filter_has_alter hi] at hc₂
      refine ⟨u, w₂, log₂, ?_, h₂, hu, hhandles₂.trans hhandles₁, hkept₁.trans hkept₂⟩
      rw [if_pos rfl, List.map_cons, List.length_cons, ← Nat.add_assoc, Nat.add_right_comm]
      exact hc₁.trans hc₂

theorem Seated.course_conclude (decide : Nat → List Value → Bool) (rs : List Reaction) (c : Ending)
    (o : Control) (h : Seated n a s w log) (hn : n < w.subjects.size)
    (hk : a.seats[k]? = some seat) (hl : seat.live = true) (rest : List Nat) :
    ∃ t w' log', (answers decide).Course
        ⟨Machine.subjectSection ⟨w, [], o⟩ n (s.concludeAll c (k :: rest)), rs, log⟩
        (seat.kind.closing k c)
        ⟨Machine.subjectSection ⟨w', [], .answering .done⟩ n (t.concludeAll c rest), rs, log'⟩ ∧
      Seated n (a.alter k Seat.leave) t w' log' ∧ n < w'.subjects.size ∧
      w'.handles = w.handles ∧ Kept s t := by
  obtain ⟨d, he⟩ := (h.booked hk).live hl
  have hlt := Subject.lt_of_entry he
  let t := s.setEntry k ⟨none, d⟩
  let frame : Frame := .subject n (.completing ⟨[], k⟩ c rest)
  have hsection : Machine.subjectSection ⟨w, [], o⟩ n (s.concludeAll c (k :: rest)) =
      ⟨w.setSubject n t, [frame], .calling (.tell k (.completion c))⟩ := by
    have hdetach : s.detach? k = some (⟨[], k⟩, t) := by
      rw [Subject.detach?, he]
    rw [Subject.concludeAll, hdetach]
    rfl
  obtain ⟨x, hx, hbody⟩ := h.body hk
  obtain ⟨y, w', log', hc, hbody', hw, hlog⟩ := hbody.course_completion decide [frame] rs log c
    (show (w.setSubject n t).subscribers[k]? = some x from hx) hl
  have hn' : n < w'.subjects.size := by
    rw [hw.subjects]
    exact (Array.size_setIfInBounds ..).symm ▸ hn
  have hsub : w'.subjects[n]? = some t := hw.subjects ▸ lookup_setSubject hn t
  refine ⟨t, w', log', ?_, ?_, hn', hw.handles, rfl, rfl, Subject.setEntry_size ..⟩
  · rw [hsection, ← List.append_nil (seat.kind.closing k c)]
    refine hc.trans (.proceed ?_)
    simp only [Machine.proceed, Machine.proceedSubject, frame, hsub, Subject.proceed]
    exact .refl _
  · refine h.alter hk hw.subscribers (hbody' _) ?_ ?_ ?_ fun j _ => hlog j
    · exact (Subject.holds_setEntry_self hlt).trans rfl
    · intro j hj
      exact Subject.entry_setEntry_ne (Ne.symm hj)
    · have hnoted : seat.Noted k log := h.noted hk
      exact fun hs => (hlog k).trans (hnoted hs)

theorem Seated.course_completion (decide : Nat → List Value → Bool) (rs : List Reaction)
    (c : Ending) (o : Control) (h : Seated n a s w log) (hn : n < w.subjects.size) {ws : List Nat}
    (hws : ws.Nodup) (hl : ∀ i ∈ ws, a.has Seat.live i = true) :
    ∃ t w' log', (answers decide).Course
        ⟨Machine.subjectSection ⟨w, [], o⟩ n (s.concludeAll c ws), rs, log⟩
        (ws.flatMap fun i => a.seats[i]?.elim [] fun s => s.kind.closing i c)
        ⟨⟨w', [], .answering .done⟩, rs, log'⟩ ∧
      Seated n (ws.foldl (fun b i => b.alter i Seat.leave) a) t w' log' ∧
      w'.subjects[n]? = some t ∧ w'.handles = w.handles ∧ Kept s t := by
  induction ws generalizing a s w log o with
  | nil =>
    exact ⟨s, w.setSubject n s, log, .refl _,
      ⟨h.size, h.body, h.booked, h.noted, h.unheard⟩, lookup_setSubject hn s, rfl, .refl s⟩
  | cons i ws ih =>
    obtain ⟨hi, hws⟩ := List.nodup_cons.mp hws
    obtain ⟨hli, hl⟩ := List.forall_mem_cons.mp hl
    obtain ⟨seat, hk, hlive⟩ := has_iff.mp hli
    have hne {j : Nat} (hj : j ∈ ws) : i ≠ j := by
      rintro rfl
      exact hi hj
    obtain ⟨t, w₁, log₁, hc₁, h₁, hn₁, hhandles₁, hkept₁⟩ :=
      h.course_conclude decide rs c o hn hk hlive ws
    obtain ⟨u, w₂, log₂, hc₂, h₂, hu, hhandles₂, hkept₂⟩ := ih (.answering .done) h₁ hn₁ hws
      fun j hj => (has_alter_ne (hne hj)).trans (hl j hj)
    refine ⟨u, w₂, log₂, ?_, h₂, hu, hhandles₂.trans hhandles₁, hkept₁.trans hkept₂⟩
    have hevents : (ws.flatMap fun j => (a.alter i Seat.leave).seats[j]?.elim []
        fun s => s.kind.closing j c) =
        ws.flatMap fun j => a.seats[j]?.elim [] fun s => s.kind.closing j c := by
      refine List.flatMap_congr fun j hj => ?_
      rw [seats_alter, if_neg (hne hj)]
    rw [hevents] at hc₂
    rw [List.flatMap_cons, hk, Option.elim_some]
    exact hc₁.trans hc₂

end Audience
end Sluice
