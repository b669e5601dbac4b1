import Sluice.Proofs.Demand
import Sluice.Proofs.Session
import Sluice.Subject

/-!
# Subjects and their subscriptions

A subject in a session is sent values, and completed, from top level only. Its
subscribers may subscribe others to it, request and cancel from inside any
callback. The log tells which subscriptions were cancelled, what each of them
was granted, and which of the values sent it has received.
-/

namespace Sluice.Subject

variable {ρ : Type}

def component : Component (Subject ρ) (In ρ) (Out ρ) (Frame ρ) := ⟨enter, proceed⟩

abbrev Note (ρ : Type) := Sluice.Entry (Subject ρ) (In ρ) (Out ρ) (Frame ρ)
abbrev Play (ρ : Type) := Session (Subject ρ) (In ρ) (Out ρ) (Frame ρ)

def Frame.isSide : Frame ρ → Bool
  | passing _ | refusing _ _ => true
  | _ => false

section Entries

variable {s : Subject ρ} {i j : Nat} {x y : Entry ρ}

def holds (s : Subject ρ) (i : Nat) : Bool := (s.entries[i]?.bind Entry.subscriber).isSome

theorem holds_of_entry {dest : ρ} {d : Demand} (h : s.entries[i]? = some ⟨some dest, d⟩) :
    s.holds i = true := by
  rw [holds, h]
  rfl

theorem holds_iff : s.holds i = true ↔ ∃ dest d, s.entries[i]? = some ⟨some dest, d⟩ := by
  refine ⟨fun h => ?_, fun ⟨dest, d, h⟩ => holds_of_entry h⟩
  rw [holds] at h
  obtain ⟨dest, hd⟩ := Option.isSome_iff_exists.mp h
  obtain ⟨⟨sub, d⟩, he, hs⟩ := Option.bind_eq_some_iff.mp hd
  obtain rfl : sub = some dest := hs
  exact ⟨dest, d, he⟩

theorem lt_of_entry (h : s.entries[i]? = some x) : i < s.entries.size :=
  (Array.getElem?_eq_some_iff.mp h).1

theorem lt_of_holds (h : s.holds i = true) : i < s.entries.size := by
  obtain ⟨dest, d, he⟩ := holds_iff.mp h
  exact lt_of_entry he

@[simp] theorem setEntry_size (s : Subject ρ) (i : Nat) (x : Entry ρ) :
    (s.setEntry i x).entries.size = s.entries.size := Array.size_setIfInBounds

@[simp] theorem setEntry_registered (s : Subject ρ) (i : Nat) (x : Entry ρ) :
    (s.setEntry i x).registered = s.registered := rfl

@[simp] theorem setEntry_completion (s : Subject ρ) (i : Nat) (x : Entry ρ) :
    (s.setEntry i x).completion = s.completion := rfl

theorem entry_setEntry (h : i < s.entries.size) :
    (s.setEntry i x).entries[j]? = if i = j then some x else s.entries[j]? := by
  rw [setEntry, Array.getElem?_setIfInBounds]
  simp only [h, if_true]

theorem entry_setEntry_self (h : i < s.entries.size) :
    (s.setEntry i x).entries[i]? = some x := by
  rw [entry_setEntry h, if_pos rfl]

theorem entry_setEntry_ne (h : i ≠ j) : (s.setEntry i x).entries[j]? = s.entries[j]? := by
  rw [setEntry, Array.getElem?_setIfInBounds, if_neg h]

theorem holds_setEntry_self (h : i < s.entries.size) :
    (s.setEntry i x).holds i = x.subscriber.isSome := by
  rw [holds, entry_setEntry_self h]
  rfl

theorem holds_setEntry_ne (h : i ≠ j) : (s.setEntry i x).holds j = s.holds j := by
  rw [holds, holds, entry_setEntry_ne h]

theorem holds_setDemand (h : s.entries[i]? = some x) (d : Demand) (j : Nat) :
    (s.setEntry i ⟨x.subscriber, d⟩).holds j = s.holds j := by
  by_cases hj : i = j
  · subst hj
    rw [holds_setEntry_self (lt_of_entry h), holds, h]
    rfl
  · exact holds_setEntry_ne hj

theorem spend?_none (h : s.spend? i = none) {dest : ρ} {d : Demand}
    (he : s.entries[i]? = some ⟨some dest, d⟩) : d.isZero = true := by
  rw [spend?, he] at h
  exact Demand.takeOne?_eq_none.mp (Option.map_eq_none_iff.mp h)

theorem detach?_none (h : s.detach? i = none) : s.holds i = false := by
  by_contra hh
  obtain ⟨dest, d, he⟩ := holds_iff.mp (Bool.eq_true_of_not_eq_false hh)
  rw [detach?, he] at h
  cases h

theorem onCancel_eq_self (h : s.holds i = false) : s.onCancel i = s := by
  unfold onCancel
  split
  · next x hx =>
    split
    · next hs =>
      rw [holds, hx] at h
      cases hs.symm.trans h
    · rfl
  · rfl

theorem onCancel_registered (hn : s.registered.Nodup) (hs : ∀ j ∈ s.registered, s.holds j = true)
    (i : Nat) : (s.onCancel i).registered = s.registered.filter (· ≠ i) := by
  cases hh : s.holds i with
  | false =>
    have hi : i ∉ s.registered := fun hm => by cases hh.symm.trans (hs i hm)
    rw [onCancel_eq_self hh, List.filter_eq_self.mpr]
    intro j hj
    exact decide_eq_true fun hji => hi (hji ▸ hj)
  | true =>
    obtain ⟨dest, d, he⟩ := holds_iff.mp hh
    have hx : (s.onCancel i).registered = s.registered.erase i := by
      simp only [Subject.onCancel, he, Option.isSome_some, if_true]
    rw [hx, hn.erase_eq_filter]
    exact List.filter_congr fun j _ => by simp [bne, beq_eq_decide]

end Entries

inductive Broadcasts (s : Subject ρ) (v : Value) (n : Nat) (ws : List Nat) :
    Subject ρ → Move (Out ρ) (Frame ρ) → Prop
  | exhausted (h : ∀ j ∈ ws, s.spend? j = none) : Broadcasts s v n ws s (.answer (.count n))
  | deliver {passed rest : List Nat} {i : Nat} {dest : ρ} {d left : Demand}
      (hw : ws = passed ++ i :: rest) (hp : ∀ j ∈ passed, s.spend? j = none)
      (hi : s.entries[i]? = some ⟨some dest, d⟩) (hd : d.takeOne? = some left) :
      Broadcasts s v n ws (s.setEntry i ⟨some dest, left⟩)
        (.call (.deliver dest v) (.sending dest i v rest n))

theorem broadcasts (s : Subject ρ) (v : Value) (n : Nat) (ws : List Nat) :
    Broadcasts s v n ws (s.broadcast v n ws).1 (s.broadcast v n ws).2 := by
  induction ws with
  | nil => exact .exhausted (by simp)
  | cons i rest ih =>
    cases hs : s.spend? i with
    | none =>
      rw [broadcast, hs]
      dsimp only
      generalize (s.broadcast v n rest).1 = t, (s.broadcast v n rest).2 = mv at ih ⊢
      cases ih with
      | exhausted h => exact .exhausted (List.forall_mem_cons.mpr ⟨hs, h⟩)
      | deliver hw hp hi hd =>
        exact .deliver (hw ▸ rfl) (List.forall_mem_cons.mpr ⟨hs, hp⟩) hi hd
    | some r =>
      obtain ⟨dest, t⟩ := r
      rw [broadcast, hs]
      unfold spend? at hs
      split at hs
      · next dest' d he =>
        obtain ⟨left, hd, hr⟩ := Option.map_eq_some_iff.mp hs
        obtain ⟨rfl, rfl⟩ := Prod.mk.injEq .. ▸ hr
        exact .deliver (List.nil_append _).symm (by simp) he hd
      · cases hs

inductive Concludes (s : Subject ρ) (c : Ending) (ws : List Nat) :
    Subject ρ → Move (Out ρ) (Frame ρ) → Prop
  | exhausted (h : ∀ j ∈ ws, s.detach? j = none) : Concludes s c ws s (.answer .done)
  | conclude {passed rest : List Nat} {i : Nat} {dest : ρ} {d : Demand}
      (hw : ws = passed ++ i :: rest) (hp : ∀ j ∈ passed, s.detach? j = none)
      (hi : s.entries[i]? = some ⟨some dest, d⟩) :
      Concludes s c ws (s.setEntry i ⟨none, d⟩) (.call (.conclude dest c) (.completing dest c rest))

theorem concludes (s : Subject ρ) (c : Ending) (ws : List Nat) :
    Concludes s c ws (s.concludeAll c ws).1 (s.concludeAll c ws).2 := by
  induction ws with
  | nil => exact .exhausted (by simp)
  | cons i rest ih =>
    cases hs : s.detach? i with
    | none =>
      rw [concludeAll, hs]
      dsimp only
      generalize (s.concludeAll c rest).1 = t, (s.concludeAll c rest).2 = mv at ih ⊢
      cases ih with
      | exhausted h => exact .exhausted (List.forall_mem_cons.mpr ⟨hs, h⟩)
      | conclude hw hp hi => exact .conclude (hw ▸ rfl) (List.forall_mem_cons.mpr ⟨hs, hp⟩) hi
    | some r =>
      obtain ⟨dest, t⟩ := r
      rw [concludeAll, hs]
      unfold detach? at hs
      split at hs
      · next dest' d he =>
        obtain ⟨rfl, rfl⟩ := Prod.mk.injEq .. ▸ Option.some.inj hs
        exact .conclude (List.nil_append _).symm (by simp) he
      · cases hs

def Cancelled (i : Nat) (log : List (Note ρ)) : Prop := ∃ e ∈ log, e.turn = .enter (.cancel i)

/-- The calls that broadcasts make: all deliveries, and the completions of subscriptions. -/
def served? (e : Note ρ) : Option (Out ρ) :=
  match e.move with
  | some (.call (.deliver dest v) _) => some (.deliver dest v)
  | some (.call o (.completing _ _ _)) => some o
  | _ => none

/-- The environment sends and completes from top level, uses the subscriptions that exist, and
answers a delivery by a demand. No callback panics. -/
def Proper (p : Play ρ) : Turn (In ρ) → Prop
  | .enter (.subscribe _) => True
  | .enter (.request i _) | .enter (.cancel i) => i < p.state.entries.size
  | .enter (.send _) | .enter (.complete _) => p.frames = []
  | .reply r =>
    match p.frames.head? with
    | some (.sending ..) => ∃ d, r = .demand d
    | _ => r = .done
  | .raise => False

def Within (p : Play ρ) (x : Turn (In ρ)) : Prop := Proper p x ∧ p.frames ≠ []

theorem cancelled_cons {i : Nat} {e : Note ρ} {log : List (Note ρ)} :
    Cancelled i (e :: log) ↔ e.turn = .enter (.cancel i) ∨ Cancelled i log := by
  simp [Cancelled]

end Sluice.Subject
