import Mathlib
import Sluice.Proofs.Gates.Gate

/-!
# Sinks and assigns as gates
-/

namespace Sluice.Gate

open Conduct

def deciding (R : Nat → Bool) (asides : Nat → List Call) : Conduct := fun log q =>
  match q with
  | .predicate _ _ => ⟨asides (values log).length, .pull (R (values log).length)⟩
  | _ => {}

inductive Route
  | handle
  | resumer
deriving DecidableEq

def Route.resume : Route → Call
  | handle => .useHandle 0 (.resume 1)
  | resumer => .resumeAlive 0 1

def OneHandle (b : World) : Prop := b.handles = #[] ∨ b.handles = #[{ subscriber := 0 }]

variable {k : Conduct} {b : World} {q : Question} {fs : List Frame} {log : List Question}

theorem idleAside_resume (hb : OneHandle b) (link : Link) (x : Route) :
    k.IdleAside b (.sink ⟨.subscribed link, true, true⟩) q fs log x.resume := by
  rintro rs p ⟨ts, t, rfl⟩
  cases x with
  | handle =>
    obtain ⟨_, _, _, _, _, _, _, _, _, _, handles, _, _, _, _⟩ := b
    obtain rfl | rfl : handles = _ ∨ handles = _ := hb
    · exact ⟨.done, _, ⟨ts, t, rfl⟩, 2, by cbv⟩
    · exact ⟨.done, _, ⟨ts, t, rfl⟩, 4, by cbv⟩
  | resumer =>
    let m : Machine := ⟨b.hosting (.sink ⟨.subscribed link, true, true⟩) ts t, .asked q :: fs,
      .calling (.resumeAlive 0 1)⟩
    have hstep : m.step = if m.alive 0 then m.call (.resumer 0 0) (.tell 0 .resume)
      else m.answer (.flag false) := rfl
    cases ha : m.alive 0 with
    | true =>
      rw [ha] at hstep
      refine ⟨.flag true, _, ⟨ts, t, rfl⟩, .cons ?_⟩
      change k.Leads ⟨m.step, rs, log⟩ _
      rw [hstep]
      exact ⟨3, by cbv⟩
    | false =>
      rw [ha] at hstep
      refine ⟨.flag false, _, ⟨ts, t, rfl⟩, .cons ?_⟩
      change k.Leads ⟨m.step, rs, log⟩ _
      rw [hstep]
      exact ⟨1, by cbv⟩

theorem takes_asking (hf : fs.any (Machine.isDeciding 0) = false) (s : Sink Link) (link : Link)
    (v : Value) (hs : s.lifecycle = .subscribed link) :
    k.Takes ⟨b, .sink s, fs, .calling (.tell 0 (.value v)), log⟩
      ⟨b, .sink s, .sink 0 .deciding :: fs, .calling (.ask (.predicate 0 v)), log⟩ := by
  obtain ⟨l, p, h⟩ := s
  obtain rfl : l = _ := hs
  rintro rs p ⟨ts, t, rfl⟩
  refine ⟨_, ⟨ts, t, rfl⟩, 1, ?_⟩
  change Performance.mk (if fs.any (Machine.isDeciding 0) = true then _ else _) _ _ = _
  rw [hf]
  rfl

def sink : Gate where
  fresh := .sink {}
  held p link := .sink ⟨.subscribed link, p, true⟩
  leaving p := .sink ⟨.terminal, p, true⟩
  gone p := .sink ⟨.terminal, p, false⟩
  passing := .sink 0 .passing
  releasing := .sink 0 .releasing
  ask v := .predicate 0 v
  closing c := [.handler 0 c]

theorem sink_regular (R : Nat → Bool) (asides : Nat → List Call) :
    sink.Regular (deciding R asides) where
  value?_ask _ := rfl
  values_closing _ := rfl
  status_fresh := rfl
  status_held _ _ := rfl
  status_gone _ := rfl
  undecided := rfl
  subscription _ _ _ _ := by
    rintro rs p ⟨ts, t, rfl⟩
    exact ⟨_, ⟨ts, t, rfl⟩, 1, by cbv⟩
  passed _ _ _ _ _ _ := by
    rintro rs p ⟨ts, t, rfl⟩
    exact ⟨_, ⟨ts, t, rfl⟩, 1, by cbv⟩
  passed_gone _ _ _ _ _ := by
    rintro rs p ⟨ts, t, rfl⟩
    exact ⟨_, ⟨ts, t, rfl⟩, 1, by cbv⟩
  resume_idle hs _ _ _ := by
    obtain rfl | ⟨link, rfl⟩ | ⟨p, rfl⟩ := hs <;> rintro rs p ⟨ts, t, rfl⟩ <;>
      exact ⟨_, ⟨ts, t, rfl⟩, 1, by cbv⟩
  cancel _ _ _ _ _ := by
    rintro rs p ⟨ts, t, rfl⟩
    exact ⟨_, ⟨ts, t, rfl⟩, 1, by cbv⟩
  released _ _ _ _ _ := by
    rintro rs p ⟨ts, t, rfl⟩
    exact ⟨_, ⟨ts, t, rfl⟩, 1, by cbv⟩
  cancel_idle hs _ _ _ := by
    obtain rfl | ⟨p, rfl⟩ := hs <;> rintro rs p ⟨ts, t, rfl⟩ <;>
      exact ⟨_, ⟨ts, t, rfl⟩, 1, by cbv⟩
  completion _ _ _ _ _ c := by
    rintro rs p ⟨ts, t, rfl⟩
    exact ⟨_, ⟨ts, t.push (.asked (.handler 0 c)), rfl⟩, 5, by cbv⟩

theorem sink_lets (R : Nat → Bool) (routes : Nat → List Route) :
    sink.Lets (deciding R fun n => (routes n).map Route.resume) R OneHandle where
  toRegular := sink_regular R _
  resume _ _ _ _ _ := by
    rintro rs p ⟨ts, t, rfl⟩
    exact ⟨_, ⟨ts, t, rfl⟩, 1, by cbv⟩
  value {b b' hb fs} hf {link} _ log v := by
    refine ⟨b, _, ?_, .inl ⟨rfl, rfl⟩⟩
    refine (takes_asking hf _ link v rfl).trans ((Takes.asked ?_).trans ?_)
    · intro c hc
      obtain ⟨x, -, rfl⟩ := List.mem_map.mp hc
      exact idleAside_resume hb link x
    · rintro rs p ⟨ts, t, rfl⟩
      exact ⟨_, ⟨ts, t, rfl⟩, 1, rfl⟩

/-- The setter resumes its assign a number of times that depends on the position. -/
def resuming (times : Nat → Nat) : Conduct := fun log q =>
  match q with
  | .setter _ _ => ⟨List.replicate (times (values log).length) (.tell 0 .resume), .done⟩
  | _ => {}

theorem takes_writing (mode : Assign.Mode) (link : Link) (p : Bool) (v : Value) :
    k.Takes ⟨b, .assign ⟨mode, some 0, .subscribed link, p⟩ (.setter 0), fs,
        .calling (.tell 0 (.value v)), log⟩
      ⟨b, .assign ⟨mode, some 0, .subscribed link, p && mode == .allTheTime⟩ (.setter 0),
        .setting 0 :: .assign 0 (.writing 0 (Assign.granted mode)) :: fs,
        .calling (.ask (.setter 0 v)), log⟩ := by
  rintro rs p ⟨ts, t, rfl⟩
  exact ⟨_, ⟨_, t, rfl⟩, 2, rfl⟩

theorem takes_written (s : Assign Link Nat) (d : Demand) (r : Reply) :
    k.Takes ⟨b, .assign s (.setter 0), .setting 0 :: .assign 0 (.writing 0 d) :: fs,
        .answering r, log⟩
      ⟨b, .assign s (.setter 0), fs, .answering (.demand d), log⟩ := by
  rintro rs p ⟨ts, t, rfl⟩
  exact ⟨_, ⟨_, t, rfl⟩, 2, rfl⟩

def assign (mode : Assign.Mode) : Gate where
  fresh := .assign { mode := mode, target := some 0 } (.setter 0)
  held p link := .assign ⟨mode, some 0, .subscribed link, p⟩ (.setter 0)
  leaving p := .assign ⟨mode, none, .terminal, p⟩ (.setter 0)
  gone p := .assign ⟨mode, none, .terminal, p⟩ (.setter 0)
  passing := .assign 0 .passing
  releasing := .assign 0 .passing
  ask v := .setter 0 v
  closing _ := []

theorem assign_regular (mode : Assign.Mode) (k : Conduct) : (assign mode).Regular k where
  value?_ask _ := rfl
  values_closing _ := rfl
  status_fresh := rfl
  status_held _ _ := rfl
  status_gone _ := rfl
  undecided := rfl
  subscription _ _ _ _ := by
    rintro rs p ⟨ts, t, rfl⟩
    exact ⟨_, ⟨ts, t, rfl⟩, 1, by cbv⟩
  passed _ _ _ _ _ _ := by
    rintro rs p ⟨ts, t, rfl⟩
    exact ⟨_, ⟨ts, t, rfl⟩, 1, by cbv⟩
  passed_gone _ _ _ _ _ := by
    rintro rs p ⟨ts, t, rfl⟩
    exact ⟨_, ⟨ts, t, rfl⟩, 1, by cbv⟩
  resume_idle hs _ _ _ := by
    obtain rfl | ⟨link, rfl⟩ | ⟨p, rfl⟩ := hs <;> rintro rs p ⟨ts, t, rfl⟩ <;>
      exact ⟨_, ⟨ts, t, rfl⟩, 1, by cases mode <;> cbv⟩
  cancel _ _ _ _ _ := by
    rintro rs p ⟨ts, t, rfl⟩
    exact ⟨_, ⟨ts, t, rfl⟩, 1, by cbv⟩
  released _ _ _ _ _ := by
    rintro rs p ⟨ts, t, rfl⟩
    exact ⟨_, ⟨ts, t, rfl⟩, 1, by cbv⟩
  cancel_idle hs _ _ _ := by
    obtain rfl | ⟨p, rfl⟩ := hs <;> rintro rs p ⟨ts, t, rfl⟩ <;>
      exact ⟨_, ⟨ts, t, rfl⟩, 1, by cbv⟩
  completion _ _ _ _ _ _ := by
    simp only [assign, List.append_nil]
    rintro rs p ⟨ts, t, rfl⟩
    exact ⟨_, ⟨ts, t, rfl⟩, 1, by cbv⟩

theorem idleAside_tell (link : Link) :
    k.IdleAside b (.assign ⟨.thenStop, some 0, .subscribed link, true⟩ (.setter 0)) q fs log
      (.tell 0 .resume) := by
  rintro rs p ⟨ts, t, rfl⟩
  exact ⟨.done, _, ⟨ts, t, rfl⟩, 2, by cbv⟩

theorem takes_booked {b' : World} {link : Link} (hbook : Books k b b' link) :
    k.Takes ⟨b, .assign ⟨.thenStop, some 0, .subscribed link, false⟩ (.setter 0), .asked q :: fs,
        .calling (.tell 0 .resume), log⟩
      ⟨b', .assign ⟨.thenStop, some 0, .subscribed link, true⟩ (.setter 0), .asked q :: fs,
        .idle (.returned .done), log⟩ := by
  refine Takes.trans (y := ⟨b, .assign ⟨.thenStop, some 0, .subscribed link, true⟩ (.setter 0),
    .assign 0 .passing :: .asked q :: fs, .calling (.request link .one), log⟩) ?_
    ((hbook _ _ _).trans ?_) <;> rintro rs p ⟨ts, t, rfl⟩
  · exact ⟨_, ⟨ts, t, rfl⟩, 1, by cbv⟩
  · exact ⟨_, ⟨ts, t, rfl⟩, 2, by cbv⟩

theorem thenStop_lets (times : Nat → Nat) :
    (assign .thenStop).Lets (resuming times) (fun n => decide (0 < times n)) fun _ => True where
  toRegular := assign_regular _ _
  resume _ _ _ _ _ := by
    rintro rs p ⟨ts, t, rfl⟩
    exact ⟨_, ⟨ts, t, rfl⟩, 1, by cbv⟩
  value {b b' _ fs} _ {link} hbook log v := by
    cases ht : times (values log).length with
    | zero =>
      refine ⟨b, .zero, (takes_writing .thenStop link true v).trans ((Takes.asked ?_).trans
        (takes_written _ _ _)), .inl ⟨rfl, rfl⟩⟩
      simp [resuming, ht]
    | succ n =>
      refine ⟨b', .zero, (takes_writing .thenStop link true v).trans (Takes.trans ?_
        (takes_written _ _ .done)), .inr ⟨rfl, rfl, rfl⟩⟩
      intro rs p hp
      obtain ⟨p₁, hp₁, hl₁⟩ := Conduct.asked (k := resuming times) hp
      simp only [resuming, ht, List.replicate_succ] at hp₁
      obtain ⟨p₂, hp₂, hl₂⟩ := aside (k := resuming times) hp₁
      obtain ⟨p₃, hp₃, hl₃⟩ := takes_booked hbook _ _ hp₂
      have hidle : ∀ c ∈ List.replicate n (Call.tell 0 .resume), (resuming times).IdleAside b'
          (.assign ⟨.thenStop, some 0, .subscribed link, true⟩ (.setter 0)) (.setter 0 v)
          (.setting 0 :: .assign 0 (.writing 0 .zero) :: fs) (log ++ [.setter 0 v]) c := by
        intro c hc
        obtain rfl := List.eq_of_mem_replicate hc
        exact idleAside_tell link
      obtain ⟨p₄, hp₄, hl₄⟩ := asides_idle hidle (by simp) hp₃
      exact ⟨p₄, hp₄, hl₁.trans (hl₂.trans (hl₃.trans hl₄))⟩

theorem allTheTime_lets :
    (assign .allTheTime).Lets (resuming fun _ => 0) (fun _ => true) fun _ => True where
  toRegular := assign_regular _ _
  resume hR := by simp at hR
  value {b b' _ fs} _ {link} _ log v := by
    refine ⟨b, .one, (takes_writing .allTheTime link true v).trans ((Takes.asked ?_).trans
      (takes_written _ _ _)), .inl ⟨rfl, rfl⟩⟩
    simp [resuming]

end Sluice.Gate
