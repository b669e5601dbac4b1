import Mathlib.Data.List.Basic
import Mathlib.Data.List.Nodup
import Sluice.Proofs.Audience.Bits

/-!
# Changes to one listener and to all

A subject works through a list of its listeners, and changes one after the other. Who is on the
list and whose bit is set there can be told from the audience before, and what comes of all the
changes together is an operation on the whole audience.
-/

namespace Sluice

namespace Audience

variable {a b : Audience} {k : Nat} {seat : Seat} {f : Seat → Seat} {p : Seat → Bool}
  {ws : List Nat}

def alter (a : Audience) (k : Nat) (f : Seat → Seat) : Audience :=
  { a with seats := a.seats.modify k f }

def add (a : Audience) (seat : Seat) : Audience := { a with seats := a.seats ++ [seat] }

theorem seats_alter (a : Audience) (k : Nat) (f : Seat → Seat) (j : Nat) :
    (a.alter k f).seats[j]? = if k = j then a.seats[j]?.map f else a.seats[j]? := by
  rw [alter, List.getElem?_modify]
  split
  · rfl
  · cases a.seats[j]? <;> rfl

theorem length_alter (a : Audience) (k : Nat) (f : Seat → Seat) :
    (a.alter k f).seats.length = a.seats.length := List.length_modify ..

theorem alter_same (h : ∀ seat, a.seats[k]? = some seat → f seat = seat) : a.alter k f = a := by
  obtain ⟨seats, c⟩ := a
  refine congrArg (Audience.mk · c) (List.ext_getElem? fun j => ?_)
  refine (seats_alter ⟨seats, c⟩ k f j).trans ?_
  split
  · next hj =>
    subst hj
    cases hk : seats[k]? with
    | none => rfl
    | some seat => exact congrArg some (h seat hk)
  · rfl

theorem alter_of_ge (h : ¬ k < a.seats.length) : a.alter k f = a := by
  refine alter_same fun seat hk => ?_
  exact absurd (List.getElem?_eq_some_iff.mp hk).1 h

theorem has_alter_ne {p : Seat → Bool} {i j : Nat} (h : i ≠ j) :
    (a.alter i f).has p j = a.has p j := by
  rw [has, has, seats_alter, if_neg h]

theorem filter_has_alter {p : Seat → Bool} {i : Nat} {ws : List Nat} (h : i ∉ ws) :
    ws.filter ((a.alter i f).has p) = ws.filter (a.has p) := by
  refine List.filter_congr fun j hj => has_alter_ne ?_
  rintro rfl
  exact h hj

theorem places_congr (hlen : b.seats.length = a.seats.length) (h : ∀ k, b.has p k = a.has p k) :
    b.places p = a.places p := by
  rw [places, places, hlen]
  exact List.filter_congr fun k _ => h k

theorem has_alter (a : Audience) (k : Nat) (f : Seat → Seat) (h : ∀ seat, p (f seat) = p seat)
    (j : Nat) : (a.alter k f).has p j = a.has p j := by
  rw [has, has, seats_alter]
  split
  · cases a.seats[j]? with
    | none => rfl
    | some seat => exact h seat
  · rfl

theorem places_alter (a : Audience) (k : Nat) (f : Seat → Seat) (h : ∀ seat, p (f seat) = p seat) :
    (a.alter k f).places p = a.places p :=
  places_congr (length_alter ..) (has_alter a k f h)

theorem live_of_armed (h : seat.armed = true) : seat.live = true := by
  obtain ⟨kind, bit, seen⟩ := seat
  obtain rfl : bit = some true := by simpa [Seat.armed] using h
  rfl

theorem live_value (decide : List Value → Bool) (v : Value) (seat : Seat) :
    (seat.value decide v).live = seat.live := by
  unfold Seat.value
  split
  · next h => exact (live_of_armed h).symm
  · rfl

theorem live_resume (seat : Seat) : seat.resume.live = seat.live := Option.isSome_map

theorem live_apply (u : Use) (h : seat.live = false) : (u.apply seat).live = false := by
  cases u with
  | resume route => rw [Use.apply, live_resume, h]
  | _ => rfl

theorem gone_for_good (decide : Nat → List Value → Bool) (hk : a.seats[k]? = some seat)
    (hl : seat.live = false) (ops : List Op) : (a.run decide ops).has Seat.live k = false := by
  induction ops generalizing a seat with
  | nil => rw [run, List.foldl_nil, has, hk, Option.any_some, hl]
  | cons op ops ih =>
    have hnext : ∃ t, (a.after decide op).seats[k]? = some t ∧ t.live = false := by
      cases op with
      | attach kind =>
        have hlt := (List.getElem?_eq_some_iff.mp hk).1
        exact ⟨seat, by rw [after, List.getElem?_append_left hlt, hk], hl⟩
      | send v =>
        refine ⟨seat.value (decide k) v, ?_, (live_value ..).trans hl⟩
        rw [after, List.getElem?_mapIdx, hk, Option.map_some]
      | complete c =>
        refine ⟨seat.leave, ?_, rfl⟩
        rw [after, List.getElem?_map, hk, Option.map_some]
      | use j u =>
        have hseat := seats_alter a j u.apply k
        rw [hk] at hseat
        split at hseat
        · exact ⟨u.apply seat, hseat, live_apply u hl⟩
        · exact ⟨seat, hseat, hl⟩
    obtain ⟨t, ht, hl⟩ := hnext
    exact ih ht hl

theorem places_live_leave (a : Audience) (k : Nat) :
    (a.alter k Seat.leave).places Seat.live = (a.places Seat.live).erase k := by
  rw [(places_nodup a _).erase_eq_filter, places, places, length_alter, List.filter_filter]
  refine List.filter_congr fun j _ => ?_
  by_cases hj : k = j
  · subst hj
    rw [has, seats_alter, if_pos rfl]
    cases a.seats[k]? <;> simp [Seat.live, Seat.leave]
  · rw [has_alter_ne hj]
    simp [Ne.symm hj]

theorem places_add (a : Audience) (seat : Seat) :
    (a.add seat).places p = a.places p ++ if p seat then [a.seats.length] else [] := by
  have hold : (List.range a.seats.length).filter ((a.add seat).has p) = a.places p := by
    refine List.filter_congr fun j hj => ?_
    rw [has, has, add, List.getElem?_append_left (List.mem_range.mp hj)]
  have hnew : (a.add seat).has p a.seats.length = p seat := by
    simp [has, add]
  rw [places, add, List.length_append, List.length_singleton, List.range_succ,
    List.filter_append, ← add, hold, List.filter_cons, hnew, List.filter_nil]

theorem places_armed (a : Audience) :
    (a.places Seat.live).filter (a.has Seat.armed) = a.places Seat.armed := by
  rw [places, places, List.filter_filter]
  refine List.filter_congr fun j _ => ?_
  cases h : a.has Seat.armed j with
  | false => rfl
  | true =>
    obtain ⟨seat, hj, ha⟩ := has_iff.mp h
    exact has_iff.mpr ⟨seat, hj, live_of_armed ha⟩

theorem seats_foldl (g : Nat → Seat → Seat) (hws : ws.Nodup) (a : Audience) (j : Nat) :
    (ws.foldl (fun b i => b.alter i (g i)) a).seats[j]? =
      if j ∈ ws then a.seats[j]?.map (g j) else a.seats[j]? := by
  induction ws generalizing a with
  | nil => rfl
  | cons i ws ih =>
    obtain ⟨hi, hws⟩ := List.nodup_cons.mp hws
    rw [List.foldl_cons, ih hws, seats_alter]
    by_cases hj : i = j
    · subst hj
      rw [if_neg hi, if_pos rfl, if_pos List.mem_cons_self]
    · simp only [if_neg hj, List.mem_cons, Ne.symm hj, false_or]

theorem completion_foldl (g : Nat → Seat → Seat) (ws : List Nat) (a : Audience) :
    (ws.foldl (fun b i => b.alter i (g i)) a).completion = a.completion := by
  induction ws generalizing a with
  | nil => rfl
  | cons i ws ih => exact ih _

theorem foldl_live (g : Nat → Seat → Seat) (a : Audience)
    (h : ∀ i seat, seat.live = false → g i seat = seat) :
    (a.places Seat.live).foldl (fun b i => b.alter i (g i)) a =
      { a with seats := a.seats.mapIdx g } := by
  have hseats : ((a.places Seat.live).foldl (fun b i => b.alter i (g i)) a).seats =
      a.seats.mapIdx g := by
    refine List.ext_getElem? fun j => ?_
    rw [seats_foldl g (places_nodup ..), List.getElem?_mapIdx]
    split
    · rfl
    · next hj =>
      cases hk : a.seats[j]? with
      | none => rfl
      | some seat =>
        have hl : seat.live = false := by simpa [mem_places, has, hk] using hj
        rw [Option.map_some, h j seat hl]
  have hcompletion := completion_foldl g (a.places Seat.live) a
  generalize (a.places Seat.live).foldl (fun b i => b.alter i (g i)) a = b at hseats hcompletion
  obtain ⟨seats, completion⟩ := b
  obtain rfl : seats = _ := hseats
  obtain rfl : completion = _ := hcompletion
  rfl

theorem after_attach_open {decide : Nat → List Value → Bool} (hc : a.completion = none)
    (kind : Kind) : a.after decide (.attach kind) = a.add ⟨kind, some true, []⟩ := by
  simp only [after, add, hc, Option.isNone_none, if_true]

theorem after_attach_late {decide : Nat → List Value → Bool} {c : Ending}
    (hc : a.completion = some c) (kind : Kind) :
    a.after decide (.attach kind) = a.add ⟨kind, none, []⟩ := by
  simp only [after, add, hc, Option.isNone_some, Bool.false_eq_true, if_false]

theorem after_send (decide : Nat → List Value → Bool) (a : Audience) (v : Value) :
    (a.places Seat.live).foldl (fun b i => b.alter i (Seat.value (decide i) v)) a =
      a.after decide (.send v) := by
  refine foldl_live (fun i => Seat.value (decide i) v) a fun i seat hl => ?_
  have ha : ¬ seat.armed = true := fun ha => by simp [live_of_armed ha] at hl
  rw [Seat.value, if_neg ha]

theorem after_complete (decide : Nat → List Value → Bool) (a : Audience) (c : Ending) :
    (a.after decide (.complete c)).seats =
      ((a.places Seat.live).foldl (fun b i => b.alter i Seat.leave) a).seats := by
  rw [foldl_live (fun _ => Seat.leave) a]
  · exact List.ext_getElem? fun j => by simp [after]
  · rintro i ⟨kind, bit, seen⟩ hl
    obtain rfl : bit = none := by simpa [Seat.live] using hl
    rfl

end Audience
end Sluice
