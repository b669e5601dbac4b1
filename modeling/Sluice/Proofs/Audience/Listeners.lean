import Sluice.Proofs.Audience.Course
import Sluice.Proofs.Gates.Subject
import Sluice.Proofs.Machine.Subscribers

/-!
# Listeners at their publisher

What a sink or an assign does when it is called, told by the bit that it stands for: its pull
flag is the bit as long as it holds its subscription, and all that a call changes beside the
listener are targets and the trace.
-/

namespace Sluice

namespace Audience

open Conduct
open Gate (outstanding)
open Machine (setSubscriber_same)

/-- Nothing but targets and the trace has changed. -/
structure Unmoved (w w' : World) : Prop where
  subscribers : w'.subscribers = w.subscribers
  subjects : w'.subjects = w.subjects
  handles : w'.handles = w.handles

def linkTo (n k : Nat) : Link := ⟨[], .subject n k⟩

/-- The state of a listener. One that always asks for the next value never has its bit unset. -/
inductive Seat.Body (link : Link) : Seat → Subscriber → Prop
  | sink (b : Bool) (seen : List Value) :
      Body link ⟨.sink, some b, seen⟩ (.sink ⟨.subscribed link, b, true⟩)
  | assign {mode : Assign.Mode} (t : Nat) (rule : WriteRule) {b : Bool} (seen : List Value)
      (hb : mode = .allTheTime → b = true) :
      Body link ⟨.assign mode t rule, some b, seen⟩
        (.assign ⟨mode, some t, .subscribed link, b⟩ rule)
  | goneSink (p : Bool) (seen : List Value) :
      Body link ⟨.sink, none, seen⟩ (.sink ⟨.terminal, p, false⟩)
  | goneAssign (mode : Assign.Mode) (t : Nat) (rule : WriteRule) (p : Bool) (seen : List Value) :
      Body link ⟨.assign mode t rule, none, seen⟩ (.assign ⟨mode, none, .terminal, p⟩ rule)

def Kind.passing (k : Nat) : Kind → Frame
  | sink => .sink k .passing
  | assign _ _ _ => .assign k .passing

def Seat.Noted (k : Nat) (log : List Question) (s : Seat) : Prop :=
  s.kind = .sink → shownTo k log = s.seen

variable {decide : Nat → List Value → Bool} {k : Nat} {seat : Seat} {x : Subscriber} {w : World}
  {fs : List Frame} {rs : List Reaction} {log : List Question} {link : Link} {v : Value} {r : Reply}

theorem Seat.Body.status (h : seat.Body link x) :
    x.status = if seat.live then .subscribed else .terminal := by
  cases h <;> rfl

theorem lookup_setSubscriber (hx : w.subscribers[k]? = some x) (y : Subscriber) :
    (w.setSubscriber k y).subscribers[k]? = some y := by
  rw [World.setSubscriber, Array.getElem?_setIfInBounds_self_of_lt (lt_size_of_getElem? hx)]

theorem Seat.Body.course_passed (h : seat.Body link x) (hx : w.subscribers[k]? = some x) :
    (answers decide).Course ⟨⟨w, seat.kind.passing k :: fs, .answering r⟩, rs, log⟩ []
      ⟨⟨w, fs, .answering .done⟩, rs, log⟩ := by
  have hpass : Machine.proceed ⟨w, fs, .answering r⟩ r (seat.kind.passing k) =
      ⟨w, fs, .answering .done⟩ := by
    cases h <;>
      simp only [Kind.passing, Machine.proceed, Machine.proceedSink, Machine.proceedAssign, hx,
        Sink.proceed, Assign.proceed, Machine.sinkSection, Machine.assignSection, Machine.move,
        setSubscriber_same hx]
  exact .proceed (hpass ▸ .refl _)

theorem course_predicate (hf : fs.any (Machine.isDeciding k) = false)
    (hx : w.subscribers[k]? = some (.sink ⟨.subscribed link, true, true⟩)) :
    (answers decide).Course ⟨⟨w, fs, .calling (.tell k (.value v))⟩, rs, log⟩ [.value k v]
      ⟨⟨(w.signal (.asked (.predicate k v))).setSubscriber k
        (.sink ⟨.subscribed link, decide k (shownTo k log ++ [v]), true⟩), fs,
        .answering (.demand (outstanding (decide k (shownTo k log ++ [v]))))⟩, rs,
        log ++ [.predicate k v]⟩ := by
  have htell : Machine.enter ⟨w, fs, .calling (.tell k (.value v))⟩ (.tell k (.value v)) =
      ⟨w, .sink k .deciding :: fs, .calling (.ask (.predicate k v))⟩ := by
    simp only [Machine.enter, Machine.tell, hx, Sink.enter, Sink.onValue, Lifecycle.link?, hf,
      Bool.false_eq_true, if_false, Machine.sinkSection, Machine.move, setSubscriber_same hx,
      Machine.sinkCall]
  have hx' : (w.signal (.asked (.predicate k v))).subscribers[k]? = _ := hx
  refine .enter rfl (htell ▸ (Course.ask (answers_asides ..)).trans (.proceed ?_))
  simp only [Machine.proceed, Machine.proceedSink, hx']
  exact .refl _

theorem course_write (decide : Nat → List Value → Bool) (w : World) (fs : List Frame)
    (rs : List Reaction) (log : List Question) (k : Nat) (f : Assign.Frame Nat) (t : Nat)
    (rule : WriteRule) (v : Value) :
    ∃ w' log', (answers decide).Course
        ⟨⟨w, .assign k f :: fs, .calling (.write t rule v)⟩, rs, log⟩ [.value k v]
        ⟨⟨w', .assign k f :: fs, .answering .done⟩, rs, log'⟩ ∧
      Unmoved w w' ∧ ∀ j, shownTo j log' = shownTo j log := by
  cases rule with
  | cell cl =>
    exact ⟨_, log, .move (p := ⟨⟨w, .assign k f :: fs, .calling (.write t (.cell cl) v)⟩, rs, log⟩)
      (.refl _), ⟨rfl, rfl, rfl⟩, fun _ => rfl⟩
  | setter id =>
    let stored := (w.modifyTarget t (·.store v .first)).signal (.asked (.setter id v))
    refine ⟨stored.modifyTarget t Target.countUp, log ++ [.setter id v], .move
      (p := ⟨⟨w, .assign k f :: fs, .calling (.write t (.setter id) v)⟩, rs, log⟩)
      ((Course.ask (answers_asides ..)).trans (.proceed (.refl _))), ⟨rfl, rfl, rfl⟩, fun j => ?_⟩
    rw [shownTo_append]
    exact List.append_nil _

theorem course_assign (decide : Nat → List Value → Bool) (fs : List Frame) (rs : List Reaction)
    (log : List Question) (v : Value) {mode : Assign.Mode} {t : Nat} {rule : WriteRule}
    (hx : w.subscribers[k]? = some (.assign ⟨mode, some t, .subscribed link, true⟩ rule)) :
    ∃ w' log', (answers decide).Course
        ⟨⟨w, fs, .calling (.tell k (.value v))⟩, rs, log⟩ [.value k v]
        ⟨⟨w', fs, .answering (.demand (Assign.granted mode))⟩, rs, log'⟩ ∧
      Unmoved (w.setSubscriber k
        (.assign ⟨mode, some t, .subscribed link, mode == .allTheTime⟩ rule)) w' ∧
      ∀ j, shownTo j log' = shownTo j log := by
  have htell : Machine.enter ⟨w, fs, .calling (.tell k (.value v))⟩ (.tell k (.value v)) =
      ⟨w.setSubscriber k (.assign ⟨mode, some t, .subscribed link, mode == .allTheTime⟩ rule),
        .assign k (.writing t (Assign.granted mode)) :: fs, .calling (.write t rule v)⟩ := by
    simp only [Machine.enter, Machine.tell, hx, Assign.enter, Assign.onValue, Assign.writable,
      Lifecycle.link?, Option.bind_some, Machine.assignSection, Machine.move, Machine.assignCall,
      Bool.true_and]
  obtain ⟨w', log', hwrite, hw, hlog⟩ := course_write decide
    (w.setSubscriber k (.assign ⟨mode, some t, .subscribed link, mode == .allTheTime⟩ rule)) fs
    rs log k (.writing t (Assign.granted mode)) t rule v
  have hx' : w'.subscribers[k]? = _ := hw.subscribers ▸ lookup_setSubscriber hx _
  refine ⟨w', log', .enter rfl (htell ▸ hwrite.trans (.proceed ?_)), hw, hlog⟩
  simp only [Machine.proceed, Machine.proceedAssign, hx', Assign.proceed, Machine.assignSection,
    Machine.move, setSubscriber_same hx']
  exact .refl _

theorem Seat.Body.course_value (decide : Nat → List Value → Bool) (rs : List Reaction) (v : Value)
    (h : seat.Body link x) (hx : w.subscribers[k]? = some x)
    (ha : seat.armed = true) (hn : seat.Noted k log)
    (hf : fs.any (Machine.isDeciding k) = false) :
    ∃ y w' log', (answers decide).Course
        ⟨⟨w, fs, .calling (.tell k (.value v))⟩, rs, log⟩ [.value k v]
        ⟨⟨w', fs, .answering (.demand
          (outstanding (seat.kind.pulls (decide k) (seat.seen ++ [v]))))⟩, rs, log'⟩ ∧
      (seat.value (decide k) v).Body link y ∧ Unmoved (w.setSubscriber k y) w' ∧
      (seat.value (decide k) v).Noted k log' ∧ ∀ j, j ≠ k → shownTo j log' = shownTo j log := by
  rw [Seat.value, if_pos ha]
  cases h with
  | sink b seen =>
    obtain rfl : b = true := by simpa [Seat.armed] using ha
    obtain rfl : shownTo k log = seen := hn rfl
    refine ⟨_, _, _, course_predicate hf hx, .sink _ _, ⟨rfl, rfl, rfl⟩, fun _ => ?_, ?_⟩
    · rw [shownTo_append]
      simp [shownTo, Question.shownTo?]
    · intro j hj
      rw [shownTo_append]
      simp [shownTo, Question.shownTo?, Ne.symm hj]
  | @assign mode t rule b seen hb =>
    obtain rfl : b = true := by simpa [Seat.armed] using ha
    obtain ⟨w', log', hc, hw, hlog⟩ := course_assign decide fs rs log v hx
    refine ⟨_, w', log', ?_, ?_, hw, by simp [Noted], fun j _ => hlog j⟩
    · cases mode <;> exact hc
    · cases mode
      · exact .assign t rule _ fun _ => rfl
      · exact .assign t rule _ (by simp)
  | goneSink p seen => simp [Seat.armed] at ha
  | goneAssign mode t rule p seen => simp [Seat.armed] at ha

theorem Seat.Body.course_completion (decide : Nat → List Value → Bool) (fs : List Frame)
    (rs : List Reaction) (log : List Question) (c : Ending) (h : seat.Body link x)
    (hx : w.subscribers[k]? = some x) (hl : seat.live = true) :
    ∃ y w' log', (answers decide).Course ⟨⟨w, fs, .calling (.tell k (.completion c))⟩, rs, log⟩
        (seat.kind.closing k c) ⟨⟨w', fs, .answering .done⟩, rs, log'⟩ ∧
      (∀ link, seat.leave.Body link y) ∧ Unmoved (w.setSubscriber k y) w' ∧
      ∀ j, shownTo j log' = shownTo j log := by
  cases h with
  | sink b seen =>
    have htell : Machine.enter ⟨w, fs, .calling (.tell k (.completion c))⟩
        (.tell k (.completion c)) = ⟨w.setSubscriber k (.sink ⟨.terminal, b, false⟩),
          .sink k .passing :: fs, .calling (.ask (.handler k c))⟩ := by
      simp only [Machine.enter, Machine.tell, hx, Sink.enter, Sink.onCompletion,
        Lifecycle.terminate, Bool.and_self, if_true, Machine.sinkSection, Machine.move,
        Machine.sinkCall]
    let ended := (w.setSubscriber k (.sink ⟨.terminal, b, false⟩)).signal (.asked (.handler k c))
    have hx' : ended.subscribers[k]? = some (.sink ⟨.terminal, b, false⟩) :=
      lookup_setSubscriber hx _
    refine ⟨_, ended, log ++ [.handler k c], .enter rfl ?_, fun _ => .goneSink b seen,
      ⟨rfl, rfl, rfl⟩, fun j => ?_⟩
    · rw [htell]
      exact (Course.ask (answers_asides ..)).trans
        ((Seat.Body.goneSink b seen : Seat.Body link ⟨.sink, none, seen⟩ _).course_passed hx')
    · rw [shownTo_append]
      exact List.append_nil _
  | @assign mode t rule b seen hb =>
    have htell : Machine.enter ⟨w, fs, .calling (.tell k (.completion c))⟩
        (.tell k (.completion c)) =
          ⟨w.setSubscriber k (.assign ⟨mode, none, .terminal, b⟩ rule), fs, .answering .done⟩ := by
      simp only [Machine.enter, Machine.tell, hx, Assign.enter, Assign.onCompletion,
        Lifecycle.terminate, Machine.assignSection, Machine.move]
    exact ⟨_, _, log, .enter rfl (htell ▸ .refl _), fun _ => .goneAssign mode t rule b seen,
      ⟨rfl, rfl, rfl⟩, fun _ => rfl⟩
  | goneSink p seen => simp [Seat.live] at hl
  | goneAssign mode t rule p seen => simp [Seat.live] at hl

theorem Kind.tell_subscription (kind : Kind) (hx : w.subscribers[k]? = some kind.fresh)
    (link : Link) (fs : List Frame) (o : Control) :
    ∃ y, Machine.tell ⟨w, fs, o⟩ k (.subscription link) =
      ⟨w.setSubscriber k y, kind.passing k :: fs, .calling (.request link .one)⟩ ∧
      Seat.Body link ⟨kind, some true, []⟩ y := by
  cases kind with
  | sink =>
    refine ⟨_, ?_, .sink true []⟩
    simp only [Machine.tell, hx, Kind.fresh, Sink.enter, Sink.onSubscription, Lifecycle.accept?,
      Machine.sinkSection, Machine.move, Machine.sinkCall, Kind.passing]
  | assign mode t rule =>
    refine ⟨_, ?_, .assign t rule [] fun _ => rfl⟩
    simp only [Machine.tell, hx, Kind.fresh, Assign.enter, Assign.onSubscription,
      Lifecycle.accept?, Machine.assignSection, Machine.move, Machine.assignCall, Kind.passing]

theorem Seat.Body.tell_resume_idle (h : seat.Body link x) (hx : w.subscribers[k]? = some x)
    (hb : seat.bit ≠ some false) (fs : List Frame) (o : Control) :
    Machine.tell ⟨w, fs, o⟩ k .resume = ⟨w, fs, .answering .done⟩ := by
  cases h with
  | sink b seen =>
    obtain rfl : b = true := by simpa using hb
    simp only [Machine.tell, hx, Sink.enter, Sink.onResume, Lifecycle.link?, if_true,
      Machine.sinkSection, Machine.move, setSubscriber_same hx]
  | @assign mode t rule b seen _ =>
    obtain rfl : b = true := by simpa using hb
    cases mode <;>
      simp only [Machine.tell, hx, Assign.enter, Assign.onResume, Lifecycle.link?, if_true,
        Machine.assignSection, Machine.move, setSubscriber_same hx]
  | goneSink p seen =>
    simp only [Machine.tell, hx, Sink.enter, Sink.onResume, Lifecycle.link?, Machine.sinkSection,
      Machine.move, setSubscriber_same hx]
  | goneAssign mode t rule p seen =>
    cases mode <;>
      simp only [Machine.tell, hx, Assign.enter, Assign.onResume, Lifecycle.link?,
        Machine.assignSection, Machine.move, setSubscriber_same hx]

theorem Seat.Body.tell_resume (h : seat.Body link x) (hx : w.subscribers[k]? = some x)
    (hb : seat.bit = some false) (fs : List Frame) (o : Control) :
    ∃ y, Machine.tell ⟨w, fs, o⟩ k .resume =
      ⟨w.setSubscriber k y, seat.kind.passing k :: fs, .calling (.request link .one)⟩ ∧
      seat.resume.Body link y := by
  cases h with
  | sink b seen =>
    obtain rfl : b = false := by simpa using hb
    refine ⟨_, ?_, .sink true seen⟩
    simp only [Machine.tell, hx, Sink.enter, Sink.onResume, Lifecycle.link?, Bool.false_eq_true,
      if_false, Machine.sinkSection, Machine.move, Machine.sinkCall, Kind.passing]
  | @assign mode t rule b seen ht =>
    obtain rfl : b = false := by simpa using hb
    cases mode with
    | allTheTime => simp at ht
    | thenStop =>
      refine ⟨_, ?_, .assign t rule seen fun _ => rfl⟩
      simp only [Machine.tell, hx, Assign.enter, Assign.onResume, Lifecycle.link?,
        Bool.false_eq_true, if_false, Machine.assignSection, Machine.move, Machine.assignCall,
        Kind.passing]
  | goneSink p seen => simp at hb
  | goneAssign mode t rule p seen => simp at hb

theorem Seat.Body.tell_cancel_idle (h : seat.Body link x) (hx : w.subscribers[k]? = some x)
    (hl : seat.live = false) (fs : List Frame) (o : Control) :
    Machine.tell ⟨w, fs, o⟩ k .cancel = ⟨w, fs, .answering .done⟩ := by
  cases h with
  | sink b seen => simp [Seat.live] at hl
  | assign t rule seen _ => simp [Seat.live] at hl
  | goneSink p seen =>
    simp only [Machine.tell, hx, Sink.enter, Sink.onCancel, Lifecycle.release,
      Machine.sinkSection, Machine.move, setSubscriber_same hx]
  | goneAssign mode t rule p seen =>
    simp only [Machine.tell, hx, Assign.enter, Assign.onCancel, Lifecycle.release,
      Machine.assignSection, Machine.move, setSubscriber_same hx]

theorem Seat.Body.tell_cancel (h : seat.Body link x) (hx : w.subscribers[k]? = some x)
    (hl : seat.live = true) (fs : List Frame) (o : Control) :
    ∃ y z f, Machine.tell ⟨w, fs, o⟩ k .cancel =
        ⟨w.setSubscriber k y, f :: fs, .calling (.cancel link)⟩ ∧
      seat.leave.Body link z ∧ ∀ w', w'.subscribers[k]? = some y → ∀ o,
        Machine.proceed ⟨w', fs, o⟩ .done f = ⟨w'.setSubscriber k z, fs, .answering .done⟩ := by
  cases h with
  | sink b seen =>
    refine ⟨.sink ⟨.terminal, b, true⟩, _, .sink k .releasing, ?_, .goneSink b seen, ?_⟩
    · simp only [Machine.tell, hx, Sink.enter, Sink.onCancel, Lifecycle.release,
        Machine.sinkSection, Machine.move, Machine.sinkCall]
    · intro w' hy o
      simp only [Machine.proceed, Machine.proceedSink, hy, Sink.proceed, Machine.sinkSection,
        Machine.move]
  | @assign mode t rule b seen _ =>
    refine ⟨.assign ⟨mode, none, .terminal, b⟩ rule, _, .assign k .passing, ?_,
      .goneAssign mode t rule b seen, ?_⟩
    · simp only [Machine.tell, hx, Assign.enter, Assign.onCancel, Lifecycle.release,
        Machine.assignSection, Machine.move, Machine.assignCall]
    · intro w' hy o
      simp only [Machine.proceed, Machine.proceedAssign, hy, Assign.proceed,
        Machine.assignSection, Machine.move]
  | goneSink p seen => simp [Seat.live] at hl
  | goneAssign mode t rule p seen => simp [Seat.live] at hl

end Audience
end Sluice
