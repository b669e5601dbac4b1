import Sluice.Proofs.Machine.Conduct
import Sluice.Proofs.Audience.Bits

/-!
# What a subject's listeners are seen to do

In the course of a call listeners are reached by values and by completions: a sink runs its
predicate or its completion handler, an assign writes. The environment answers each question
at once and makes no call before it does, so the course of a call is determined.
-/

namespace Sluice

open Audience

def Machine.event? (m : Machine) : Option Event :=
  match m.control, m.stack with
  | .calling (.ask (.predicate k v)), _ => some (.value k v)
  | .calling (.ask (.handler k c)), _ => some (.completion k c)
  | .calling (.write _ _ v), .assign k _ :: _ => some (.value k v)
  | _, _ => none

def Question.shownTo? (k : Nat) : Question → Option Value
  | predicate j v => if j = k then some v else none
  | _ => none

namespace Audience

def shownTo (k : Nat) (log : List Question) : List Value := log.filterMap (Question.shownTo? k)

/-- Every predicate decides by the values that it was shown, the newest last. -/
def answers (decide : Nat → List Value → Bool) : Conduct := fun log q =>
  match q with
  | .predicate k v => { reply := .pull (decide k (shownTo k log ++ [v])) }
  | _ => {}

theorem shownTo_append (k : Nat) (log more : List Question) :
    shownTo k (log ++ more) = shownTo k log ++ shownTo k more := List.filterMap_append

theorem answers_asides (decide : Nat → List Value → Bool) (log : List Question) (q : Question) :
    (answers decide log q).asides = [] := by
  cases q <;> rfl

end Audience

def Reply.number? : Reply → Option Nat
  | count n => some n
  | handle h => some h
  | _ => none

namespace Conduct

variable {k : Conduct} {p p' p'' : Performance} {es es' : List Event} {w : World}
  {fs : List Frame} {rs : List Reaction} {log : List Question}

/-- The moves from one performance to another, with the events in their course. -/
inductive Course (k : Conduct) : Performance → List Event → Performance → Prop
  | refl (p : Performance) : Course k p [] p
  | move {p p' : Performance} {es : List Event} (h : Course k (k.play p) es p') :
      Course k p (p.machine.event?.toList ++ es) p'

namespace Course

theorem trans (h : k.Course p es p') (h' : k.Course p' es' p'') : k.Course p (es ++ es') p'' := by
  induction h with
  | refl => exact h'
  | move _ ih =>
    rw [List.append_assoc]
    exact .move (ih h')

theorem event?_of_rests (hp : p.Rests) : p.machine.event? = none := by
  obtain ⟨-, -, r, hr⟩ := hp
  simp only [Machine.event?, hr]

theorem of_rests (h : k.Course p es p') (hp : p.Rests) : es = [] ∧ p' = p := by
  induction h with
  | refl => exact ⟨rfl, rfl⟩
  | move _ ih =>
    rw [event?_of_rests hp]
    rw [Rests.play_eq hp] at ih
    exact ih hp

theorem unique (h : k.Course p es p') (hp : p'.Rests) (h' : k.Course p es' p'')
    (hp' : p''.Rests) : es = es' ∧ p' = p'' := by
  induction h generalizing es' with
  | refl =>
    obtain ⟨rfl, rfl⟩ := h'.of_rests hp
    exact ⟨rfl, rfl⟩
  | move h ih =>
    cases h' with
    | refl =>
      obtain ⟨he, rfl⟩ := (Course.move h).of_rests hp'
      exact ⟨he, rfl⟩
    | move h' =>
      obtain ⟨rfl, rfl⟩ := ih hp h'
      exact ⟨rfl, rfl⟩

theorem enter {c : Call} (hc : Machine.event? ⟨w, fs, .calling c⟩ = none)
    (h : k.Course ⟨Machine.enter ⟨w, fs, .calling c⟩ c, rs, log⟩ es p') :
    k.Course ⟨⟨w, fs, .calling c⟩, rs, log⟩ es p' := by
  have hm := Course.move (k := k) (p := ⟨⟨w, fs, .calling c⟩, rs, log⟩) h
  rwa [hc] at hm

theorem proceed {f : Frame} {r : Reply}
    (h : k.Course ⟨Machine.proceed ⟨w, fs, .answering r⟩ r f, rs, log⟩ es p') :
    k.Course ⟨⟨w, f :: fs, .answering r⟩, rs, log⟩ es p' :=
  .move (p := ⟨⟨w, f :: fs, .answering r⟩, rs, log⟩) h

theorem returned (r : Reply) : k.Course ⟨⟨w, [], .answering r⟩, rs, log⟩ []
    ⟨⟨w, [], .idle (.returned r)⟩, rs, log⟩ :=
  .move (p := ⟨⟨w, [], .answering r⟩, rs, log⟩) (.refl _)

theorem ask {q : Question} (hq : (k log q).asides = []) :
    k.Course ⟨⟨w, fs, .calling (.ask q)⟩, rs, log⟩
      (Machine.event? ⟨w, fs, .calling (.ask q)⟩).toList
      ⟨⟨w.signal (.asked q), fs, .answering (k log q).reply⟩, rs, log ++ [q]⟩ := by
  have hanswer : k.Course
      ⟨⟨w.signal (.asked q), .asked q :: fs, .idle .start⟩, k log q :: rs, log ++ [q]⟩ []
      ⟨⟨w.signal (.asked q), fs, .answering (k log q).reply⟩, rs, log ++ [q]⟩ := by
    generalize k log q = x at hq
    obtain ⟨asides, reply⟩ := x
    obtain rfl : asides = [] := hq
    exact .move (p := ⟨⟨_, .asked q :: fs, .idle .start⟩, ⟨[], reply⟩ :: rs, _⟩) (.refl _)
  have hask : k.Course ⟨⟨w.signal (.asked q), .asked q :: fs, .idle (.asked q)⟩, rs, log⟩ []
      ⟨⟨w.signal (.asked q), fs, .answering (k log q).reply⟩, rs, log ++ [q]⟩ :=
    .move (p := ⟨⟨_, .asked q :: fs, .idle (.asked q)⟩, rs, log⟩) hanswer
  have hcall := Course.move (k := k) (p := ⟨⟨w, fs, .calling (.ask q)⟩, rs, log⟩) hask
  rwa [List.append_nil] at hcall

end Course
end Conduct

namespace Audience

namespace Use

def call (k : Nat) : Use → Call
  | resume .handle => .useHandle k (.resume 1)
  | resume .resumer => .resumeAlive k 1
  | resume .direct => .tell k .resume
  | cancel => .useHandle k .cancel
  | cancelDirectly => .tell k .cancel
  | drop => .dropHandle k

end Use

/-- An operation on the subject `n` and its listeners is begun. A listener is attached when it is
new. -/
def Op.start (n : Nat) (m : Machine) : Op → Machine
  | attach kind =>
    { m with
      world := m.world.addSubscriber kind.fresh
      control := .calling (.attach ⟨[], .subject n⟩ m.world.subscribers.size) }
  | send v => m.invoke (.send n v)
  | complete c => m.invoke (.complete n c)
  | use k u => m.invoke (u.call k)

end Audience

namespace Performance

def begin (n : Nat) (p : Performance) (op : Op) : Performance :=
  { p with machine := op.start n p.machine }

end Performance

namespace Conduct

/-- The operations are begun one after the other, and each of them returns. -/
inductive Operates (k : Conduct) (n : Nat) :
    Performance → List Op → List Report → Performance → Prop
  | nil (p : Performance) : Operates k n p [] [] p
  | cons {op : Op} {ops : List Op} {es : List Event} {r : Reply} {rs : List Report}
      {p p' p'' : Performance} (h : k.Course (p.begin n op) es p') (hp : p'.Rests)
      (hr : p'.machine.control = .idle (.returned r)) (hops : Operates k n p' ops rs p'') :
      Operates k n p (op :: ops) ((es, r.number?) :: rs) p''

theorem Operates.unique {k : Conduct} {n : Nat} {ops : List Op} {p p' p'' : Performance}
    {rs rs' : List Report} (h : k.Operates n p ops rs p') (h' : k.Operates n p ops rs' p'') :
    rs = rs' ∧ p' = p'' := by
  induction h generalizing rs' with
  | nil =>
    cases h'
    exact ⟨rfl, rfl⟩
  | cons h hp hr _ ih =>
    cases h' with
    | cons hu hpu hru hops =>
      obtain ⟨rfl, rfl⟩ := hu.unique hpu h hp
      rw [hru] at hr
      cases hr
      obtain ⟨rfl, rfl⟩ := ih hops
      exact ⟨rfl, rfl⟩

end Conduct
end Sluice
