import Sluice.Machine.World

/-!
# An audience as bits

Seen from outside, a listener of a subject is one bit for as long as it is subscribed: whether
the next value reaches it. The bits are set when a listener is attached or resumed, and by the
listener's own decision when a value reaches it. Nothing that happens to one listener concerns
the bit of another.
-/

namespace Sluice.Audience

inductive Kind
  | sink
  | assign (mode : Assign.Mode) (target : Nat) (rule : WriteRule)

structure Seat where
  kind : Kind
  /-- Whether the next value reaches the listener, as long as it is subscribed. -/
  bit : Option Bool
  seen : List Value := []

inductive Route
  | handle
  | resumer
  | direct
deriving DecidableEq

inductive Use
  | resume (route : Route)
  | cancel
  | cancelDirectly
  | drop

/-- The listeners are numbered in the order in which they are attached. -/
inductive Op
  | attach (kind : Kind)
  | send (v : Value)
  | complete (c : Ending)
  | use (k : Nat) (u : Use)

def Op.arrivals : Op → Nat
  | attach _ => 1
  | _ => 0

inductive Event
  | value (k : Nat) (v : Value)
  | completion (k : Nat) (c : Ending)
deriving DecidableEq

/-- What is seen of an operation: the events in its course, and the number that it returns. -/
abbrev Report := List Event × Option Nat

namespace Kind

def fresh : Kind → Subscriber
  | sink => .sink {}
  | assign mode target rule => .assign { mode := mode, target := some target } rule

/-- Whether the listener wants another value, when `seen` reached it so far. -/
def pulls (decide : List Value → Bool) (seen : List Value) : Kind → Bool
  | sink => decide seen
  | assign .thenStop _ _ => false
  | assign .allTheTime _ _ => true

def closing (k : Nat) (c : Ending) : Kind → List Event
  | sink => [.completion k c]
  | assign _ _ _ => []

end Kind

namespace Seat

def armed (s : Seat) : Bool := s.bit == some true

def live (s : Seat) : Bool := s.bit.isSome

def value (decide : List Value → Bool) (v : Value) (s : Seat) : Seat :=
  if s.armed then
    { s with bit := some (s.kind.pulls decide (s.seen ++ [v])), seen := s.seen ++ [v] }
  else s

def resume (s : Seat) : Seat := { s with bit := s.bit.map fun _ => true }

def leave (s : Seat) : Seat := { s with bit := none }

end Seat

def Use.apply : Use → Seat → Seat
  | resume _ => Seat.resume
  | cancel | cancelDirectly | drop => Seat.leave

end Audience

structure Audience where
  seats : List Audience.Seat := []
  completion : Option Ending := none

namespace Audience

def has (a : Audience) (p : Seat → Bool) (k : Nat) : Bool := a.seats[k]?.any p

def places (a : Audience) (p : Seat → Bool) : List Nat :=
  (List.range a.seats.length).filter (a.has p)

/-- What an operation does to the bits. Whoever is attached before the completion has its bit set,
and whoever comes later is not subscribed; so after the completion nobody is. -/
def after (decide : Nat → List Value → Bool) (a : Audience) : Op → Audience
  | .attach kind =>
    { a with seats := a.seats ++ [⟨kind, if a.completion.isNone then some true else none, []⟩] }
  | .send v => { a with seats := a.seats.mapIdx fun k s => s.value (decide k) v }
  | .complete c => ⟨a.seats.map Seat.leave, some (a.completion.getD c)⟩
  | .use k u => { a with seats := a.seats.modify k u.apply }

def events (a : Audience) : Op → List Event
  | .attach kind => a.completion.elim [] fun c => kind.closing a.seats.length c
  | .send v => (a.places Seat.armed).map (.value · v)
  | .complete c => (a.places Seat.live).flatMap fun k =>
      a.seats[k]?.elim [] fun s => s.kind.closing k c
  | .use _ _ => []

/-- A send returns how many listeners it reached, an attachment the number of the handle. -/
def number (a : Audience) : Op → Option Nat
  | .attach _ => some a.seats.length
  | .send _ => some (a.places Seat.armed).length
  | .complete _ | .use _ _ => none

def run (decide : Nat → List Value → Bool) (a : Audience) (ops : List Op) : Audience :=
  ops.foldl (after decide) a

def reports (decide : Nat → List Value → Bool) : Audience → List Op → List Report
  | _, [] => []
  | a, op :: ops => (a.events op, a.number op) :: reports decide (a.after decide op) ops

def Event.value? (k : Nat) : Event → Option Value
  | value j v => if j = k then some v else none
  | completion _ _ => none

def valuesTo (k : Nat) (rs : List Report) : List Value :=
  (rs.flatMap Prod.fst).filterMap (Event.value? k)

def Seat.reached (s : Seat) : Op → List Value
  | .send v => if s.armed then [v] else []
  | _ => []

/-- What an operation is without the other listeners, when `n` were attached before. -/
def Op.alone? (k n : Nat) : Op → Option Op
  | attach kind => if n = k then some (attach kind) else none
  | send v => some (send v)
  | complete c => some (complete c)
  | use j u => if j = k then some (use 0 u) else none

def alone (k : Nat) : Nat → List Op → List Op
  | _, [] => []
  | n, op :: ops => (op.alone? k n).toList ++ alone k (n + op.arrivals) ops

variable {a b : Audience} {decide : Nat → List Value → Bool} {p : Seat → Bool} {k n : Nat}
  {v : Value} {es : List Event} {rs : List Report}

theorem has_iff : a.has p k = true ↔ ∃ s, a.seats[k]? = some s ∧ p s = true := by
  cases hk : a.seats[k]? <;> simp [has, hk]

theorem mem_places : k ∈ a.places p ↔ a.has p k = true := by
  rw [places, List.mem_filter, List.mem_range, and_iff_right_iff_imp]
  intro h
  obtain ⟨s, hs, -⟩ := has_iff.mp h
  exact (List.getElem?_eq_some_iff.mp hs).1

theorem places_nodup (a : Audience) (p : Seat → Bool) : (a.places p).Nodup :=
  List.nodup_range.filter _

theorem length_after (decide : Nat → List Value → Bool) (a : Audience) (op : Op) :
    (a.after decide op).seats.length = a.seats.length + op.arrivals := by
  cases op <;> simp [after, Op.arrivals]

theorem valuesTo_cons (k : Nat) (es : List Event) (n : Option Nat) (rs : List Report) :
    valuesTo k ((es, n) :: rs) = es.filterMap (Event.value? k) ++ valuesTo k rs := by
  simp [valuesTo]

theorem valuesTo_append (k : Nat) (rs rs' : List Report) :
    valuesTo k (rs ++ rs') = valuesTo k rs ++ valuesTo k rs' := by
  simp [valuesTo]

theorem reports_append (decide : Nat → List Value → Bool) (a : Audience) (ops more : List Op) :
    reports decide a (ops ++ more) =
      reports decide a ops ++ reports decide (a.run decide ops) more := by
  induction ops generalizing a with
  | nil => rfl
  | cons op ops ih => exact congrArg ((a.events op, a.number op) :: ·) (ih _)

theorem values_broadcast {ks : List Nat} (h : ks.Nodup) :
    (ks.map (Event.value · v)).filterMap (Event.value? k) = if k ∈ ks then [v] else [] := by
  induction ks with
  | nil => rfl
  | cons j ks ih =>
    obtain ⟨hj, hks⟩ := List.nodup_cons.mp h
    rw [List.map_cons, List.filterMap_cons, ih hks]
    by_cases hjk : j = k
    · subst hjk
      simp [Event.value?, hj]
    · simp [Event.value?, hjk, Ne.symm hjk]

theorem values_closing (kind : Kind) (j : Nat) (c : Ending) :
    (kind.closing j c).filterMap (Event.value? k) = [] := by
  cases kind <;> rfl

theorem values_events (k : Nat) (a : Audience) (op : Op) :
    (a.events op).filterMap (Event.value? k) =
      a.seats[k]?.elim [] fun s => s.reached op := by
  cases op with
  | attach kind =>
    cases hc : a.completion <;> cases hk : a.seats[k]? <;> simp [events, hc, values_closing,
      Seat.reached]
  | send v =>
    rw [events, values_broadcast (places_nodup _ _)]
    cases hk : a.seats[k]? with
    | none => simp [mem_places, has, hk]
    | some s => simp [mem_places, has, hk, Seat.reached]
  | complete c =>
    have hnone : (a.events (.complete c)).filterMap (Event.value? k) = [] := by
      rw [events, List.filterMap_flatMap]
      refine List.flatMap_eq_nil_iff.mpr fun j _ => ?_
      cases a.seats[j]? with
      | none => rfl
      | some s => exact values_closing _ _ _
    rw [hnone]
    cases a.seats[k]? <;> rfl
  | use j u => cases a.seats[k]? <;> rfl

/-- The second audience has the listener `k` of the first, and nobody else. -/
structure Mirrors (k : Nat) (a b : Audience) : Prop where
  seats : b.seats = a.seats[k]?.toList
  completion : b.completion = a.completion

namespace Mirrors

theorem after_attach (h : Mirrors k a b) (kind : Kind) :
    Mirrors k (a.after decide (.attach kind))
      (b.run (fun _ => decide k) (Op.alone? k a.seats.length (.attach kind)).toList) := by
  by_cases hk : a.seats.length = k
  · have hb : b.seats = [] := by
      rw [h.seats, List.getElem?_eq_none (Nat.le_of_eq hk), Option.toList_none]
    rw [Op.alone?, if_pos hk]
    refine ⟨?_, h.completion⟩
    subst hk
    simp [run, after, hb, h.completion]
  · rw [Op.alone?, if_neg hk]
    refine ⟨?_, h.completion⟩
    rw [Option.toList_none, run, List.foldl_nil, h.seats, after]
    rcases Nat.lt_or_gt_of_ne hk with hlt | hgt
    · have hle : (a.seats ++ [(⟨kind, if a.completion.isNone then some true else none, []⟩ :
          Seat)]).length ≤ k := by
        simpa using Nat.succ_le_of_lt hlt
      rw [List.getElem?_eq_none (Nat.le_of_lt hlt), List.getElem?_eq_none hle]
    · rw [List.getElem?_append_left hgt]

theorem after_use (h : Mirrors k a b) (j : Nat) (u : Use) :
    Mirrors k (a.after decide (.use j u))
      (b.run (fun _ => decide k) (Op.alone? k a.seats.length (.use j u)).toList) := by
  by_cases hj : j = k
  · subst hj
    rw [Op.alone?, if_pos rfl]
    refine ⟨?_, h.completion⟩
    simp only [Option.toList_some, run, List.foldl_cons, List.foldl_nil, after, h.seats,
      List.getElem?_modify_eq]
    cases a.seats[j]? <;> rfl
  · rw [Op.alone?, if_neg hj]
    refine ⟨?_, h.completion⟩
    simp only [Option.toList_none, run, List.foldl_nil, after, h.seats, List.getElem?_modify,
      if_neg hj]
    cases a.seats[k]? <;> rfl

theorem after (h : Mirrors k a b) (op : Op) :
    Mirrors k (a.after decide op)
      (b.run (fun _ => decide k) (op.alone? k a.seats.length).toList) := by
  cases op with
  | attach kind => exact h.after_attach kind
  | send v =>
    refine ⟨?_, h.completion⟩
    simp only [Op.alone?, Option.toList_some, run, List.foldl_cons, List.foldl_nil,
      Audience.after, h.seats, List.getElem?_mapIdx]
    cases a.seats[k]? <;> rfl
  | complete c =>
    refine ⟨?_, by simp [Op.alone?, run, Audience.after, h.completion]⟩
    simp only [Op.alone?, Option.toList_some, run, List.foldl_cons, List.foldl_nil,
      Audience.after, h.seats, List.getElem?_map]
    cases a.seats[k]? <;> rfl
  | use j u => exact h.after_use j u

theorem values (h : Mirrors k a b) (op : Op) :
    valuesTo 0 (reports (fun _ => decide k) b (op.alone? k a.seats.length).toList) =
      (a.events op).filterMap (Event.value? k) := by
  have hsame (op : Op) : valuesTo 0 (reports (fun _ => decide k) b [op]) =
      a.seats[k]?.elim [] fun s => s.reached op := by
    rw [reports, valuesTo_cons, values_events, h.seats, reports, valuesTo, List.flatMap_nil,
      List.filterMap_nil, List.append_nil]
    cases a.seats[k]? <;> rfl
  rw [values_events]
  cases op with
  | attach kind =>
    by_cases hk : a.seats.length = k
    · rw [Op.alone?, if_pos hk]
      exact hsame _
    · rw [Op.alone?, if_neg hk]
      cases a.seats[k]? <;> rfl
  | send v => exact hsame _
  | complete c => exact hsame _
  | use j u =>
    by_cases hj : j = k
    · rw [Op.alone?, if_pos hj]
      exact (hsame _).trans (by cases a.seats[k]? <;> rfl)
    · rw [Op.alone?, if_neg hj]
      cases a.seats[k]? <;> rfl

end Mirrors

theorem values_alone (h : Mirrors k a b) (ops : List Op) :
    valuesTo 0 (reports (fun _ => decide k) b (alone k a.seats.length ops)) =
      valuesTo k (reports decide a ops) := by
  induction ops generalizing a b with
  | nil => rfl
  | cons op ops ih =>
    rw [alone, reports_append, valuesTo_append, h.values, ← length_after decide a op,
      ih (h.after op), reports, valuesTo_cons]

end Audience
end Sluice
