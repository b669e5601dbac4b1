import Sluice.Assign
import Sluice.Sink
import Sluice.Proofs.Session

/-!
# Resumable subscribers

Sinks and assigns as one kind of component. They differ in what they make of a
value: a sink asks its predicate whether to pull the next one, an assign writes
the value and pulls by its mode. The relations below say what each section of
either can do; later laws are read off them.
-/

namespace Sluice

inductive Resumable (σ τ : Type)
  | sink (s : Sink σ)
  | assign (s : Assign σ τ)

namespace Resumable

open Assign (Mode)

variable {σ τ : Type}

inductive Kind (τ : Type)
  | sink
  | assign (mode : Mode) (target : τ)

def Kind.mode? : Kind τ → Option Mode
  | .sink => none
  | .assign mode _ => some mode

def fresh : Kind τ → Resumable σ τ
  | .sink => .sink {}
  | .assign mode target => .assign { mode := mode, target := some target }

inductive Out (σ τ : Type)
  | request (link : σ) (d : Demand)
  | cancel (link : σ)
  | predicate (v : Value)
  | write (target : τ) (v : Value)
  | handler (c : Ending)

def Out.ofSink : Sink.Out σ → Out σ τ
  | .request link d => .request link d
  | .cancel link => .cancel link
  | .predicate v => .predicate v
  | .handler c => .handler c

def Out.ofAssign : Assign.Out σ τ → Out σ τ
  | .request link d => .request link d
  | .cancel link => .cancel link
  | .write t v => .write t v

inductive Frame (τ : Type)
  | sink (f : Sink.Frame)
  | assign (f : Assign.Frame τ)

def lifecycle : Resumable σ τ → Lifecycle σ
  | sink s => s.lifecycle
  | assign s => s.lifecycle

def status (s : Resumable σ τ) : Status := s.lifecycle.status

@[simp] theorem status_sink (s : Sink σ) :
    (sink s : Resumable σ τ).status = s.lifecycle.status := rfl
@[simp] theorem status_assign (s : Assign σ τ) :
    (assign s : Resumable σ τ).status = s.lifecycle.status := rfl

def pending : Resumable σ τ → Bool
  | sink s => s.pending
  | assign s => s.pending

def mode? : Resumable σ τ → Option Mode
  | sink _ => none
  | assign s => some s.mode

def target? : Resumable σ τ → Option τ
  | sink _ => none
  | assign s => s.target

def handler : Resumable σ τ → Bool
  | sink s => s.handler
  | assign _ => false

@[simp] theorem fresh_lifecycle (k : Kind τ) : (fresh k : Resumable σ τ).lifecycle = .awaiting := by
  cases k <;> rfl

@[simp] theorem fresh_pending (k : Kind τ) : (fresh k : Resumable σ τ).pending = false := by
  cases k <;> rfl

@[simp] theorem fresh_mode? (k : Kind τ) : (fresh k : Resumable σ τ).mode? = k.mode? := by
  cases k <;> rfl

def ofSink (r : Sink σ × Move (Sink.Out σ) Sink.Frame) :
    Resumable σ τ × Move (Out σ τ) (Frame τ) :=
  match r with
  | (s, .answer r) => (.sink s, .answer r)
  | (s, .call o f) => (.sink s, .call (.ofSink o) (.sink f))

def ofAssign (r : Assign σ τ × Move (Assign.Out σ τ) (Assign.Frame τ)) :
    Resumable σ τ × Move (Out σ τ) (Frame τ) :=
  match r with
  | (s, .answer r) => (.assign s, .answer r)
  | (s, .call o f) => (.assign s, .call (.ofAssign o) (.assign f))

def enter (s : Resumable σ τ) (msg : Message σ) : Resumable σ τ × Move (Out σ τ) (Frame τ) :=
  match s with
  | sink s => ofSink (s.enter msg)
  | assign s => ofAssign (s.enter msg)

/-- A frame is only ever resumed on the kind of subscriber that left it. -/
def proceed (s : Resumable σ τ) (r : Reply) (f : Frame τ) :
    Resumable σ τ × Move (Out σ τ) (Frame τ) :=
  match s, f with
  | sink s, .sink f => ofSink (s.proceed r f)
  | assign s, .assign f => ofAssign (s.proceed f)
  | s, _ => (s, .answer .done)

def component : Component (Resumable σ τ) (Message σ) (Out σ τ) (Frame τ) := ⟨enter, proceed⟩

theorem ofSink_mode? (r : Sink σ × Move (Sink.Out σ) Sink.Frame) :
    (ofSink r : Resumable σ τ × Move (Out σ τ) (Frame τ)).1.mode? = none := by
  obtain ⟨s, m⟩ := r
  cases m <;> rfl

theorem enter_mode? (s : Resumable σ τ) (msg : Message σ) : (s.enter msg).1.mode? = s.mode? := by
  cases s with
  | sink s => exact ofSink_mode? _
  | assign s =>
    obtain ⟨m, x, l, p⟩ := s
    cases msg <;> cases l <;> cases m <;> cases p <;> cases x <;> rfl

theorem proceed_mode? (s : Resumable σ τ) (r : Reply) (f : Frame τ) :
    (s.proceed r f).1.mode? = s.mode? := by
  cases s with
  | sink s =>
    cases f with
    | sink f => exact ofSink_mode? _
    | assign f => rfl
  | assign s =>
    cases f with
    | sink f => rfl
    | assign f => cases f <;> rfl

namespace Frame

def Fits (mode : Option Mode) : Frame τ → Prop
  | .sink _ => mode = none
  | .assign .passing => mode.isSome
  | .assign (.writing _ d) => mode.map Assign.granted = some d

/-- How many values the frame may still grant when it is resumed. -/
def promise : Frame τ → Nat
  | .sink .deciding => 1
  | .assign (.writing _ (.upTo n)) => n.toNat
  | _ => 0

end Frame

def passing : Resumable σ τ → Frame τ
  | sink _ => .sink .passing
  | assign _ => .assign .passing

@[simp] theorem passing_fits (s : Resumable σ τ) : s.passing.Fits s.mode? := by
  cases s <;> rfl

@[simp] theorem passing_promise (s : Resumable σ τ) : s.passing.promise = 0 := by
  cases s <;> rfl

theorem passing_congr {s t : Resumable σ τ} (h : s.mode? = t.mode?) : s.passing = t.passing := by
  cases s <;> cases t <;> first | rfl | simp [mode?] at h

theorem proceed_passing (s t : Resumable σ τ) (r : Reply) :
    t.proceed r s.passing = (t, .answer .done) := by
  cases s <;> cases t <;> rfl

/-- What the arrival of a message can do to a subscriber `s` that is `t` afterwards. -/
inductive Entered (s t : Resumable σ τ) : Message σ → Move (Out σ τ) (Frame τ) → Prop
  | accept {link : σ} (hs : s.lifecycle = .awaiting) (ht : t.lifecycle = .subscribed link)
      (hp : t.pending = true) (hh : t.handler = s.handler) (hx : t.target? = s.target?) :
      Entered s t (.subscription link) (.call (.request link .one) s.passing)
  | refuse {link : σ} (hs : s.status ≠ .awaiting) (ht : t = s) :
      Entered s t (.subscription link) (.call (.cancel link) s.passing)
  | decide {v : Value} (hs : s.status = .subscribed) (ht : t = s) (hm : s.mode? = none) :
      Entered s t (.value v) (.call (.predicate v) (.sink .deciding))
  | write {v : Value} {x : τ} {m : Mode} (hs : s.status = .subscribed)
      (ht : t.lifecycle = s.lifecycle) (hp : t.pending = (s.pending && m == .allTheTime))
      (hm : s.mode? = some m) (hh : t.handler = s.handler) (hx : s.target? = some x)
      (hx' : t.target? = some x) :
      Entered s t (.value v) (.call (.write x v) (.assign (.writing x (Assign.granted m))))
  | discard {v : Value} {d : Demand} (hs : s.status ≠ .subscribed ∨ s.mode?.isSome)
      (ht : t.lifecycle = s.lifecycle)
      (hp : t.pending = (s.pending && s.mode? != some .thenStop))
      (hd : d = ((s.mode?.map Assign.granted).getD .zero)) (hh : t.handler = s.handler)
      (hx : t.target? = s.target?) :
      Entered s t (.value v) (.answer (.demand d))
  | conclude {c : Ending} (hs : s.status ≠ .terminal) (hh : s.handler = true)
      (ht : t.lifecycle = .terminal) (hp : t.pending = s.pending) :
      Entered s t (.completion c) (.call (.handler c) s.passing)
  | finish {c : Ending} (hs : s.status = .terminal ∨ s.handler = false)
      (ht : t.lifecycle = .terminal) (hp : t.pending = s.pending) (hx : t.target? = none) :
      Entered s t (.completion c) (.answer .done)
  | pull {link : σ} (hs : s.lifecycle = .subscribed link) (hf : s.pending = false)
      (hm : s.mode? ≠ some .allTheTime) (ht : t.lifecycle = s.lifecycle) (hp : t.pending = true)
      (hh : t.handler = s.handler) (hx : t.target? = s.target?) :
      Entered s t .resume (.call (.request link .one) s.passing)
  | stay (hs : s.status ≠ .subscribed ∨ s.pending = true ∨ s.mode? = some .allTheTime)
      (ht : t = s) : Entered s t .resume (.answer .done)
  | release {link : σ} {f : Frame τ} (hs : s.lifecycle = .subscribed link)
      (ht : t.lifecycle = .terminal) (hp : t.pending = s.pending) (hf : f.Fits s.mode?)
      (hf' : f.promise = 0) (hh : t.handler = s.handler) (hx : t.target? = none) :
      Entered s t .cancel (.call (.cancel link) f)
  | ignore (hs : s.status ≠ .subscribed) (ht : t = s) : Entered s t .cancel (.answer .done)

theorem sink_entered (s : Sink σ) (msg : Message σ) :
    Entered (.sink s : Resumable σ τ) (enter (.sink s) msg).1 msg (enter (.sink s) msg).2 := by
  obtain ⟨l, p, h⟩ := s
  cases msg with
  | subscription link =>
    cases l with
    | awaiting => exact .accept rfl rfl rfl rfl rfl
    | subscribed _ => exact .refuse (by simp [Lifecycle.status]) rfl
    | terminal => exact .refuse (by simp [Lifecycle.status]) rfl
  | value v =>
    have hp : p = (p && none != some Mode.thenStop) := by cases p <;> rfl
    cases l with
    | awaiting => exact .discard (.inl (by simp [Lifecycle.status])) rfl hp rfl rfl rfl
    | subscribed _ => exact .decide rfl rfl rfl
    | terminal => exact .discard (.inl (by simp [Lifecycle.status])) rfl hp rfl rfl rfl
  | completion c =>
    cases l with
    | terminal => exact .finish (.inl rfl) rfl rfl rfl
    | awaiting =>
      cases h with
      | true => exact .conclude (by simp [Lifecycle.status]) rfl rfl rfl
      | false => exact .finish (.inr rfl) rfl rfl rfl
    | subscribed _ =>
      cases h with
      | true => exact .conclude (by simp [Lifecycle.status]) rfl rfl rfl
      | false => exact .finish (.inr rfl) rfl rfl rfl
  | resume =>
    cases l with
    | awaiting => exact .stay (.inl (by simp [Lifecycle.status])) rfl
    | terminal => exact .stay (.inl (by simp [Lifecycle.status])) rfl
    | subscribed _ =>
      cases p with
      | true => exact .stay (.inr (.inl rfl)) rfl
      | false => exact .pull rfl rfl (by simp [mode?]) rfl rfl rfl rfl
  | cancel =>
    cases l with
    | awaiting => exact .ignore (by simp [Lifecycle.status]) rfl
    | subscribed _ => exact .release rfl rfl rfl rfl rfl rfl rfl
    | terminal => exact .ignore (by simp [Lifecycle.status]) rfl

theorem assign_entered (s : Assign σ τ) (msg : Message σ) :
    Entered (.assign s : Resumable σ τ) (enter (.assign s) msg).1 msg
      (enter (.assign s) msg).2 := by
  obtain ⟨m, x, l, p⟩ := s
  cases msg with
  | subscription link =>
    cases l with
    | awaiting => exact .accept rfl rfl rfl rfl rfl
    | subscribed _ => exact .refuse (by simp [Lifecycle.status]) rfl
    | terminal => exact .refuse (by simp [Lifecycle.status]) rfl
  | value v =>
    have hp : (p && m == .allTheTime) = (p && some m != some Mode.thenStop) := by
      cases m <;> rfl
    cases l with
    | awaiting => exact .discard (.inr rfl) rfl hp rfl rfl rfl
    | terminal => exact .discard (.inr rfl) rfl hp rfl rfl rfl
    | subscribed _ =>
      cases x with
      | none => exact .discard (.inr rfl) rfl hp rfl rfl rfl
      | some x => exact .write rfl rfl rfl rfl rfl rfl rfl
  | completion c => cases l <;> exact .finish (.inr rfl) rfl rfl rfl
  | resume =>
    cases m with
    | allTheTime => exact .stay (.inr (.inr rfl)) rfl
    | thenStop =>
      cases l with
      | awaiting => exact .stay (.inl (by simp [Lifecycle.status])) rfl
      | terminal => exact .stay (.inl (by simp [Lifecycle.status])) rfl
      | subscribed _ =>
        cases p with
        | true => exact .stay (.inr (.inl rfl)) rfl
        | false => exact .pull rfl rfl (by simp [mode?]) rfl rfl rfl rfl
  | cancel =>
    cases l with
    | awaiting => exact .ignore (by simp [Lifecycle.status]) rfl
    | subscribed _ => exact .release rfl rfl rfl rfl rfl rfl rfl
    | terminal => exact .ignore (by simp [Lifecycle.status]) rfl

theorem entered (s : Resumable σ τ) (msg : Message σ) :
    Entered s (s.enter msg).1 msg (s.enter msg).2 := by
  cases s with
  | sink s => exact sink_entered s msg
  | assign s => exact assign_entered s msg

inductive Proceeded (s t : Resumable σ τ) (r : Reply) : Frame τ → Move (Out σ τ) (Frame τ) → Prop
  | pass {f : Frame τ} (ht : t = s) (hf : f.promise = 0) : Proceeded s t r f (.answer .done)
  | decided (ht : t.lifecycle = s.lifecycle) (hp : t.pending = r.pulls) (hm : s.mode? = none)
      (hm' : t.mode? = none) (hh : t.handler = s.handler) :
      Proceeded s t r (.sink .deciding) (.answer (.demand (if r.pulls then .one else .zero)))
  | released (ht : t.lifecycle = s.lifecycle) (hp : t.pending = s.pending) (hm : s.mode? = none)
      (hm' : t.mode? = none) (hh : t.handler = false) :
      Proceeded s t r (.sink .releasing) (.answer .done)
  | written {x : τ} {d : Demand} (ht : t = s) :
      Proceeded s t r (.assign (.writing x d)) (.answer (.demand d))

theorem proceeded (s : Resumable σ τ) (r : Reply) {f : Frame τ} (hf : f.Fits s.mode?) :
    Proceeded s (s.proceed r f).1 r f (s.proceed r f).2 := by
  cases s with
  | sink s =>
    cases f with
    | sink f =>
      cases f with
      | passing => exact .pass rfl rfl
      | deciding => exact .decided rfl rfl rfl rfl rfl
      | releasing => exact .released rfl rfl rfl rfl rfl
    | assign f => cases f <;> simp [Frame.Fits, mode?] at hf
  | assign s =>
    cases f with
    | sink f => simp [Frame.Fits, mode?] at hf
    | assign f =>
      cases f with
      | passing => exact .pass rfl rfl
      | writing x d => exact .written rfl

end Resumable
end Sluice
