import Sluice.Component

/-!
# Sessions

A session is one component in the hands of an environment that may do anything
with it. On its turn the environment enters the component, at top level or from
inside a call that the component has made, or it ends the innermost such call,
by a reply or by a panic. A panic takes the frame of the call away and runs no
section. The log keeps every turn with the state before and after it.
-/

namespace Sluice

structure Component (S In Out F : Type) where
  enter : S → In → S × Move Out F
  proceed : S → Reply → F → S × Move Out F

namespace Move

variable {Out F : Type}

def push (fs : List F) : Move Out F → List F
  | .answer _ => fs
  | .call _ f => f :: fs

@[simp] theorem push_answer (fs : List F) (r : Reply) :
    (Move.answer r : Move Out F).push fs = fs := rfl
@[simp] theorem push_call (fs : List F) (o : Out) (f : F) : (Move.call o f).push fs = f :: fs := rfl

end Move

inductive Turn (In : Type)
  | enter (input : In)
  | reply (r : Reply)
  | raise

structure Entry (S In Out F : Type) where
  turn : Turn In
  before : S
  after : S
  move : Option (Move Out F)

namespace Entry

variable {S In Out F : Type}

def call? (e : Entry S In Out F) : Option Out :=
  match e.move with
  | some (.call o _) => some o
  | _ => none

def answer? (e : Entry S In Out F) : Option Reply :=
  match e.move with
  | some (.answer r) => some r
  | _ => none

end Entry

/-- The newest entry of the log comes first, as does the innermost frame. -/
structure Session (S In Out F : Type) where
  state : S
  frames : List F := []
  log : List (Entry S In Out F) := []

namespace Session

variable {S In Out F : Type}

def start (state : S) : Session S In Out F := { state := state }

def advance (s : Session S In Out F) (turn : Turn In) (fs : List F) (r : S × Move Out F) :
    Session S In Out F :=
  { state := r.1, frames := r.2.push fs, log := ⟨turn, s.state, r.1, some r.2⟩ :: s.log }

def unwind (s : Session S In Out F) (fs : List F) : Session S In Out F :=
  { s with frames := fs, log := ⟨.raise, s.state, s.state, none⟩ :: s.log }

def take? (c : Component S In Out F) (s : Session S In Out F) :
    Turn In → Option (Session S In Out F)
  | .enter input => some (s.advance (.enter input) s.frames (c.enter s.state input))
  | .reply r =>
    match s.frames with
    | [] => none
    | f :: fs => some (s.advance (.reply r) fs (c.proceed s.state r f))
  | .raise =>
    match s.frames with
    | [] => none
    | _ :: fs => some (s.unwind fs)

def play? (c : Component S In Out F) (s : Session S In Out F) :
    List (Turn In) → Option (Session S In Out F)
  | [] => some s
  | x :: xs => (s.take? c x).bind fun t => t.play? c xs

/-- The sessions that come of a session when the environment takes turns that it may take. -/
inductive Reaches (c : Component S In Out F) (may : Session S In Out F → Turn In → Prop)
    (s : Session S In Out F) : Session S In Out F → Prop
  | refl : Reaches c may s s
  | turn {t u : Session S In Out F} {x : Turn In} (h : Reaches c may s t) (ht : may t x)
      (hu : t.take? c x = some u) : Reaches c may s u

namespace Reaches

variable {c : Component S In Out F} {may : Session S In Out F → Turn In → Prop}
  {s t : Session S In Out F}

theorem invariant {P : Session S In Out F → Prop} (h : Reaches c may s t) (start : P s)
    (enter : ∀ {t : Session S In Out F} (i : In), P t → may t (.enter i) →
      P (t.advance (.enter i) t.frames (c.enter t.state i)))
    (reply : ∀ {t : Session S In Out F} {f : F} {fs : List F} (r : Reply), P t →
      may t (.reply r) → t.frames = f :: fs → P (t.advance (.reply r) fs (c.proceed t.state r f)))
    (raise : ∀ {t : Session S In Out F} {f : F} {fs : List F}, P t → may t .raise →
      t.frames = f :: fs → P (t.unwind fs)) : P t := by
  induction h with
  | refl => exact start
  | @turn t u x _ ht hu ih =>
    cases x with
    | enter i =>
      obtain rfl := Option.some.inj hu
      exact enter i ih ht
    | reply r =>
      cases hf : t.frames with
      | nil => simp [take?, hf] at hu
      | cons f fs =>
        simp only [take?, hf, Option.some.injEq] at hu
        exact hu ▸ reply r ih ht hf
    | raise =>
      cases hf : t.frames with
      | nil => simp [take?, hf] at hu
      | cons f fs =>
        simp only [take?, hf, Option.some.injEq] at hu
        exact hu ▸ raise ih ht hf

theorem reply {f : F} {fs : List F} {r : Reply} (h : Reaches c may s t) (ht : may t (.reply r))
    (hf : t.frames = f :: fs) : Reaches c may s (t.advance (.reply r) fs (c.proceed t.state r f)) :=
  .turn h ht (by simp only [take?, hf])

theorem raise {f : F} {fs : List F} (h : Reaches c may s t) (ht : may t .raise)
    (hf : t.frames = f :: fs) : Reaches c may s (t.unwind fs) :=
  .turn h ht (by simp only [take?, hf])

theorem mono {may' : Session S In Out F → Turn In → Prop} (hm : ∀ t x, may t x → may' t x)
    (h : Reaches c may s t) : Reaches c may' s t := by
  induction h with
  | refl => exact .refl
  | turn _ ht hu ih => exact .turn ih (hm _ _ ht) hu

theorem trans {u : Session S In Out F} (h : Reaches c may s t) (h' : Reaches c may t u) :
    Reaches c may s u := by
  induction h' with
  | refl => exact h
  | turn _ ht hu ih => exact .turn ih ht hu

theorem of_play {xs : List (Turn In)} (hm : ∀ x ∈ xs, ∀ t, may t x)
    (h : s.play? c xs = some t) : Reaches c may s t := by
  induction xs generalizing s with
  | nil =>
    obtain rfl := Option.some.inj h
    exact .refl
  | cons x xs ih =>
    obtain ⟨u, hu, h⟩ := Option.bind_eq_some_iff.mp h
    obtain ⟨hx, hxs⟩ := List.forall_mem_cons.mp hm
    exact trans (.turn .refl (hx s) hu) (ih hxs h)

end Reaches

end Session

end Sluice
