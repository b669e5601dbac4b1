import Sluice.Proofs.Machine.KeepsRoll
import Sluice.Proofs.Machine.Stopping
import Sluice.Proofs.Machine.Subscribers

/-!
# How the roll changes

A move of a machine, or of its environment, is a step of its outline. The step says
who was subscribed, cancelled or completed by the move, and what is left to be done
for them.
-/

namespace Sluice

structure Roll.Change (l l' : Roll) : Prop where
  subscribers : ∀ (i : Nat) s, l.subscribers[i]? = some s → l'.subscribers[i]? = some s
  sequences : ∀ n : Nat, l'.sequences[n]?.join = l.sequences[n]?.join
  subjects : ∀ (n : Nat) s, l.subjects[n]? = some s → l'.subjects[n]? = some s
  fresh : ∀ (n : Nat) s, l'.subjects[n]? = some s → l.subjects[n]? = some s ∨ s = {}
  drivers : l'.drivers = l.drivers
  manuals : ∀ (n : Nat) kept, l'.manuals[n]? = some kept → l.manuals[n]? = some kept ∨ kept = []
  handles : l'.handles = l.handles

/-- The next step changes nothing of the roll. -/
def Control.Idles (l : Roll) : Control → Prop
  | calling (.cancel _) => False
  | calling (.tell i _) => ∀ s, l.subscribers[i]? = some s → s.lifecycle = .awaiting
  | _ => True

def Control.Heeds : Option Link → Control → Prop
  | some link, k => k = .calling (.cancel link)
  | none, k => k.commits? = none

def Frame.refuses? : Frame → Option Nat
  | sequence _ (.refusing dest) | subject _ (.refusing dest _) => some dest.subscriber
  | _ => none

def Frame.Lapses : Frame → Prop
  | sequence _ _ | subject _ _ | driver _ (.opening _) => True
  | _ => False

open Machine in
inductive Outline.Step : Outline → Outline → Prop
  | keepsRoll {l : Roll} {b : List Frame} {k k' : Control} (hk : k.Idles l)
      (hk' : k'.commits? = none) : Step ⟨l, b, k⟩ ⟨l, b, k'⟩
  | begins {l : Roll} {b : List Frame} {o : Outcome} {c : Call} :
      Step ⟨l, b, .idle o⟩ ⟨l, b, .calling c⟩
  | change {l l' : Roll} {b : List Frame} {o : Outcome} (h : l.Change l') :
      Step ⟨l, b, .idle o⟩ ⟨l', b, .idle o⟩
  -- A subscriber of the library takes a message.
  | heard {l : Roll} {b : List Frame} {i : Nat} {s : Standing} {msg : Message Link} {k : Control}
      (hs : l.subscribers[i]? = some s) (hk : k.Heeds (s.hear msg).2) :
      Step ⟨l, b, .calling (.tell i msg)⟩ ⟨l.setSubscriber i (s.hear msg).1, b, k⟩
  -- A subscriber is taken on, or turned away.
  | attach {l : Roll} {b : List Frame} {source : Source} {i : Nat} :
      Step ⟨l, b, .calling (.attach source i)⟩ ⟨l, b, .calling (.subscribe source i)⟩
  | opening {l : Roll} {b : List Frame} {source : Source} {i n : Nat} {k : Control}
      (hk : k.commits? = none) : Step ⟨l, b, .calling (.subscribe source i)⟩
        ⟨l, .sequence n (.opening ⟨source.audits, i⟩) :: b, k⟩
  | opened {l : Roll} {b : List Frame} {n : Nat} {dest : Outlet} {r : Reply} :
      Step ⟨l, .sequence n (.opening dest) :: b, .answering r⟩
        ⟨l.setSequence n (some dest.subscriber), b, .calling (handOver dest (.sequence n))⟩
  | exhausted {l : Roll} {b : List Frame} {n : Nat} {dest : Outlet} {r : Reply} :
      Step ⟨l, .sequence n (.opening dest) :: b, .answering r⟩
        ⟨l, .sequence n (.refusing dest) :: b, .calling (handOver dest .inert)⟩
  | enlisted {l : Roll} {b : List Frame} {source : Source} {i n : Nat} {s : SubjectRoll}
      (hs : l.subjects[n]? = some s) (hc : s.completed = false) :
      Step ⟨l, b, .calling (.subscribe source i)⟩ ⟨l.setSubject n (s.enlist i), b,
        .calling (handOver ⟨source.audits, i⟩ (.subject n s.entries.size))⟩
  | late {l : Roll} {b : List Frame} {source : Source} {i n : Nat} {c : Ending} :
      Step ⟨l, b, .calling (.subscribe source i)⟩
        ⟨l, .subject n (.refusing ⟨source.audits, i⟩ c) :: b,
          .calling (handOver ⟨source.audits, i⟩ .inert)⟩
  | kept {l : Roll} {b : List Frame} {source : Source} {i n : Nat} {r : Reply} :
      Step ⟨l, b, .calling (.subscribe source i)⟩
        ⟨{ l with manuals := l.manuals.modify n fun kept => kept ++ [i] }, b, .answering r⟩
  | driven {l : Roll} {b : List Frame} {source : Source} {i n : Nat} :
      Step ⟨l, b, .calling (.subscribe source i)⟩
        ⟨{ l with drivers := l.drivers.push ⟨some i, false, false, n⟩ },
          .driver l.drivers.size (.opening ⟨source.audits, i⟩) :: b,
          .calling (handOver ⟨source.audits, i⟩ (.driver l.drivers.size))⟩
  -- A subscription ends: by its subscriber, or by its publisher.
  | cancelled {l : Roll} {b : List Frame} {link : Link} {k : Control} (hk : k.commits? = none) :
      Step ⟨l, b, .calling (.cancel link)⟩ ⟨l.release link.tap, b, k⟩
  | rejected {l : Roll} {b : List Frame} {f : Frame} {i : Nat} {c : Ending} {r : Reply}
      (hf : f.refuses? = some i) :
      Step ⟨l, f :: b, .answering r⟩ ⟨l, b, .calling (.tell i (.completion c))⟩
  | finished {l : Roll} {b : List Frame} {n i : Nat} {c : Ending} {r : Reply}
      (hq : l.sequences[n]? = some (some i)) : Step ⟨l, b, .answering r⟩
        ⟨l.setSequence n none, b, .calling (.tell i (.completion c))⟩
  | closed {l : Roll} {b : List Frame} {n : Nat} {s : SubjectRoll} {c : Ending} {r : Reply}
      (hs : l.subjects[n]? = some s) :
      Step ⟨l, b, .calling (.complete n c)⟩ ⟨l.setSubject n s.close, b, .answering r⟩
  | completes {l : Roll} {b : List Frame} {n e : Nat} {s : SubjectRoll} {dest : Outlet}
      {c : Ending} {rest : List Nat} (hs : l.subjects[n]? = some s)
      (he : s.entries[e]? = some (some dest.subscriber)) :
      Step ⟨l, b, .calling (.complete n c)⟩ ⟨l.setSubject n (s.close.detach e),
        .subject n (.completing dest c rest) :: b,
        .calling (.tell dest.subscriber (.completion c))⟩
  | goesOn {l : Roll} {b : List Frame} {n e : Nat} {s : SubjectRoll} {dest dest' : Outlet}
      {c : Ending} {rest rest' : List Nat} {r : Reply} (hs : l.subjects[n]? = some s)
      (he : s.entries[e]? = some (some dest'.subscriber)) :
      Step ⟨l, .subject n (.completing dest c rest) :: b, .answering r⟩
        ⟨l.setSubject n (s.detach e), .subject n (.completing dest' c rest') :: b,
          .calling (.tell dest'.subscriber (.completion c))⟩
  | concludes {l : Roll} {b : List Frame} {d i : Nat} {x : DriverRoll} {c : Ending}
      {k : Control} (hx : l.drivers[d]? = some x) (hi : x.subscriber = some i) (hk : k.Idles l) :
      Step ⟨l, b, k⟩ ⟨l, .driver d .concluding :: b, .calling (.tell i (.completion c))⟩
  | stopped {l : Roll} {b : List Frame} {d : Nat} {x : DriverRoll} {k k' : Control}
      (hx : l.drivers[d]? = some x) (hk : k.Idles l) (hk' : k'.commits? = none) :
      Step ⟨l, b, k⟩ ⟨l.setDriver d x.stop, b, k'⟩
  | parted {l : Roll} {b : List Frame} {d : Nat} {x : DriverRoll} {f : Driver.Frame Outlet}
      {r r' : Reply} (hx : l.drivers[d]? = some x) :
      Step ⟨l, .driver d f :: b, .answering r⟩ ⟨l.setDriver d x.stop, b, .answering r'⟩
  | lapsed {l : Roll} {b : List Frame} {f : Frame} {r : Reply} {k : Control}
      (hf : f.Lapses) (hk : k.commits? = none) : Step ⟨l, f :: b, .answering r⟩ ⟨l, b, k⟩
  -- A handle comes and goes.
  | attached {l : Roll} {b : List Frame} {i : Nat} {r r' : Reply} :
      Step ⟨l, b, .answering r⟩
        ⟨{ l with handles := l.handles.push { subscriber := i } }, b, .answering r'⟩
  | uses {l : Roll} {b : List Frame} {h left : Nat} {k k' : Control} (hk : k.Idles l)
      (hk' : k'.commits? = none) : Step ⟨l, b, k⟩ ⟨l, .handle h left :: b, k'⟩
  | usesOn {l : Roll} {b : List Frame} {h left left' : Nat} {r : Reply} {k : Control}
      (hk : k.commits? = none) :
      Step ⟨l, .handle h left :: b, .answering r⟩ ⟨l, .handle h left' :: b, k⟩
  | used {l : Roll} {b : List Frame} {h left : Nat} {r r' : Reply}
      (hx : ∀ x, l.handles[h]? = some x → x.state = .dropped → ∃ n, Frame.handle h n ∈ b) :
      Step ⟨l, .handle h left :: b, .answering r⟩ ⟨l, b, .answering r'⟩
  | lastUsed {l : Roll} {b : List Frame} {h left : Nat} {x : Handle} {r : Reply}
      (hx : l.handles[h]? = some x) : Step ⟨l, .handle h left :: b, .answering r⟩
        ⟨l, .closing h :: b, .calling (.tell x.subscriber .cancel)⟩
  | dropped {l : Roll} {b : List Frame} {h left : Nat} {r : Reply}
      (hf : Frame.handle h left ∈ b) :
      Step ⟨l, b, .calling (.dropHandle h)⟩ ⟨l.setHandle h .dropped, b, .answering r⟩
  | closes {l : Roll} {b : List Frame} {h : Nat} {x : Handle} {k : Control}
      (hx : l.handles[h]? = some x) (hk : k.Idles l) : Step ⟨l, b, k⟩
        ⟨l.setHandle h .dropped, .closing h :: b, .calling (.tell x.subscriber .cancel)⟩
  | shut {l : Roll} {b : List Frame} {h : Nat} {r r' : Reply} :
      Step ⟨l, .closing h :: b, .answering r⟩ ⟨l.setHandle h .closed, b, .answering r'⟩

theorem Sink.enter_predicate {s : Sink Link} {msg : Message Link} {v : Value} {f : Sink.Frame}
    (h : (s.enter msg).2 = .call (.predicate v) f) : ∃ w, msg = .value w := by
  obtain ⟨l, p, b⟩ := s
  cases msg with
  | value w => exact ⟨w, rfl⟩
  | subscription link => cases l <;> cases h
  | completion c => cases l <;> cases b <;> cases h
  | resume => cases l <;> cases p <;> cases h
  | cancel => cases l <;> cases h

namespace Machine

variable {m m' : Machine} {rest : List Frame} {f : Frame} {r : Reply} {d : Nat} {x : StreamTask}

theorem outline_of {k : Control} (hc : m.control = k) : m.outline = ⟨m.world.roll, m.bonds, k⟩ := by
  rw [outline, hc]

theorem outline_skip (hc : m.control = .answering r) (hs : m.stack = f :: rest)
    (hf : f.binds = false) :
    m.outline = ⟨m.world.roll, bonds { m with stack := rest }, .answering r⟩ := by
  rw [outline, hc, bonds, hs, List.filter_cons_of_neg (by simp [hf])]
  rfl

theorem outline_pop (hc : m.control = .answering r) (hs : m.stack = f :: rest)
    (hf : f.binds = true) :
    m.outline = ⟨m.world.roll, f :: bonds { m with stack := rest }, .answering r⟩ := by
  rw [outline, hc, bonds, hs, List.filter_cons_of_pos hf]
  rfl

theorem outlineStep_of_eq {o : Outline} {l : Roll} {b : List Frame} {k : Control}
    (hs : o.Step ⟨l, b, k⟩) (hl : m'.world.roll = l) (hb : m'.bonds = b) (hk : m'.control = k) :
    o.Step m'.outline := by
  rw [outline, hl, hb, hk]
  exact hs

theorem KeepsRoll.outlineStep (h : KeepsRoll m.world.roll m.bonds m')
    (hk : m.control.Idles m.world.roll) : m.outline.Step m'.outline := by
  rw [outline, outline, h.roll, h.bonds]
  exact .keepsRoll hk h.control

theorem outlineStep_of_keepsRoll (hc : m.control = .answering r) (hs : m.stack = f :: rest)
    (hf : f.binds = false) (h : KeepsRoll m.world.roll (bonds { m with stack := rest }) m') :
    m.outline.Step m'.outline := by
  rw [outline_skip hc hs hf]
  exact outlineStep_of_eq (.keepsRoll trivial h.control) h.roll h.bonds rfl

/-- `m'` comes of subscriber `i`, who stood as in `s`, taking the message. -/
structure Hearing (m : Machine) (i : Nat) (s : Standing) (msg : Message Link) (m' : Machine) :
    Prop where
  roll : m'.world.roll = m.world.roll.setSubscriber i (s.hear msg).1
  bonds : m'.bonds = m.bonds
  control : m'.control.Heeds (s.hear msg).2

theorem Hearing.outlineStep {i : Nat} {s : Standing} {msg : Message Link} (h : Hearing m i s msg m')
    (hs : m.world.roll.subscribers[i]? = some s) (hc : m.control = .calling (.tell i msg)) :
    m.outline.Step m'.outline := by
  rw [outline, outline, h.roll, h.bonds, hc]
  exact .heard hs h.control

theorem sinkSection_heard (m : Machine) (i : Nat) (s : Sink Link) (msg : Message Link) :
    Hearing m i (Subscriber.sink s).standing msg (m.sinkSection i (s.enter msg)) := by
  obtain ⟨l, p, b⟩ := s
  have hroll (t : Sink Link) := m.world.roll_setSubscriber i (.sink t)
  cases msg with
  | subscription link => cases l <;> exact ⟨hroll _, rfl, rfl⟩
  | value v => cases l <;> exact ⟨hroll _, rfl, rfl⟩
  | completion c => cases l <;> cases b <;> exact ⟨hroll _, rfl, rfl⟩
  | resume => cases l <;> cases p <;> exact ⟨hroll _, rfl, rfl⟩
  | cancel => cases l <;> exact ⟨hroll _, rfl, rfl⟩

theorem assignSection_heard (m : Machine) (i : Nat) (s : Assign Link Nat) (rule : WriteRule)
    (msg : Message Link) : Hearing m i (Subscriber.assign s rule).standing msg
      (m.assignSection i rule (s.enter msg)) := by
  obtain ⟨mode, t, l, p⟩ := s
  have hroll (t : Assign Link Nat) := m.world.roll_setSubscriber i (.assign t rule)
  cases msg with
  | subscription link => cases l <;> exact ⟨hroll _, rfl, rfl⟩
  | value v => cases l <;> cases t <;> exact ⟨hroll _, rfl, rfl⟩
  | completion c => cases l <;> exact ⟨hroll _, rfl, rfl⟩
  | resume => cases mode <;> cases l <;> cases p <;> exact ⟨hroll _, rfl, rfl⟩
  | cancel => cases l <;> exact ⟨hroll _, rfl, rfl⟩

theorem tell_outlineStep {i : Nat} {msg : Message Link} (hc : m.control = .calling (.tell i msg)) :
    m.outline.Step (m.tell i msg).outline := by
  unfold tell
  split
  · next s hs =>
    have hroll := World.roll_subscriber hs
    have hheard := sinkSection_heard m i s msg
    split
    · next t v f he =>
      rw [he] at hheard
      split
      · -- The predicate is running already, so the message gets nowhere.
        obtain ⟨w, rfl⟩ := Sink.enter_predicate (congrArg Prod.snd he)
        have hkept : m.world.roll.setSubscriber i (Subscriber.sink s).standing = m.world.roll := by
          rw [Roll.setSubscriber, setIfInBounds_same hroll]
        have hheard : Hearing m i (Subscriber.sink s).standing (.value w)
            { m with control := .stuck } := ⟨hkept.symm, rfl, rfl⟩
        exact hheard.outlineStep hroll hc
      · exact hheard.outlineStep hroll hc
    · exact hheard.outlineStep hroll hc
  · next s rule hs =>
    exact (assignSection_heard m i s rule msg).outlineStep (World.roll_subscriber hs) hc
  · next hs =>
    have hidle : m.control.Idles m.world.roll := by
      rw [hc]
      intro s hs'
      obtain rfl := Option.some.inj ((World.roll_subscriber hs).symm.trans hs')
      rfl
    split
    · exact (call_keepsRoll m rfl rfl).outlineStep hidle
    · exact (answer_keepsRoll m _).outlineStep hidle
  · next hs =>
    refine (answer_keepsRoll m _).outlineStep ?_
    rw [hc]
    intro s hs'
    simp [World.roll, hs] at hs'

theorem enlist_roll (s : Subject Outlet) (dest : Outlet) : Subject.roll { s with
    entries := s.entries.push ⟨some dest, .zero⟩
    registered := s.registered ++ [s.entries.size] } = s.roll.enlist dest.subscriber := by
  simp only [Subject.roll, SubjectRoll.enlist, Array.map_push, Array.size_map]
  rfl

theorem subscribed_subject (source : Source) (i : Nat) {n : Nat} {s : Subject Outlet}
    (hs : m.world.subjects[n]? = some s) :
    ((m.subjectSection n (s.onSubscribe ⟨source.audits, i⟩)).outline =
        ⟨m.world.roll.setSubject n (s.roll.enlist i), m.bonds,
          .calling (handOver ⟨source.audits, i⟩ (.subject n s.roll.entries.size))⟩ ∧
      s.roll.completed = false) ∨
      ∃ c, (m.subjectSection n (s.onSubscribe ⟨source.audits, i⟩)).outline =
        ⟨m.world.roll, .subject n (.refusing ⟨source.audits, i⟩ c) :: m.bonds,
          .calling (handOver ⟨source.audits, i⟩ .inert)⟩ := by
  unfold Subject.onSubscribe
  split
  · next c hcomp =>
    refine .inr ⟨c, ?_⟩
    rw [outline, subjectSection, move, World.roll_keepSubject hs rfl]
    rfl
  · next hcomp =>
    refine .inl ⟨?_, by rw [Subject.roll, hcomp]; rfl⟩
    have hsize : s.roll.entries.size = s.entries.size := Array.size_map
    rw [outline, subjectSection, move, World.roll_setSubject, enlist_roll s ⟨source.audits, i⟩,
      hsize]
    rfl

theorem manual_roll (w : World) (n : Nat) (dest : Outlet) :
    World.roll { w with manuals := w.manuals.modify n fun kept => kept ++ [dest] } =
      { w.roll with
        manuals := w.roll.manuals.modify n fun kept => kept ++ [dest.subscriber] } := by
  simp only [World.roll]
  congr 1
  apply Array.ext_getElem?
  intro k
  rw [Array.getElem?_map, Array.getElem?_modify, Array.getElem?_modify, Array.getElem?_map]
  by_cases hk : n = k
  · cases w.manuals[k]? <;> simp [hk]
  · simp [hk]

theorem driven_roll (w : World) (x : StreamTask) (s : Driver Outlet) :
    (World.setDriver { w with drivers := w.drivers.push x } w.drivers.size s).roll =
      { w.roll with drivers := w.roll.drivers.push (StreamTask.roll { x with driver := s }) } := by
  have hpush : (w.drivers.push x).modify w.drivers.size (fun y => { y with driver := s }) =
      w.drivers.push { x with driver := s } := by
    apply Array.ext_getElem?
    intro e
    rw [Array.getElem?_modify, Array.getElem?_push, Array.getElem?_push]
    by_cases he : w.drivers.size = e
    · simp [he]
    · rw [if_neg he, if_neg (Ne.symm he), if_neg (Ne.symm he)]
  simp only [World.setDriver, hpush, World.roll, Array.map_push]

theorem subscribed_sequence {source : Source} {i n : Nat} {q : Sequence Outlet}
    (hq : m.world.sequences[n]? = some q) :
    (m.sequenceSection n (q.enter (.subscribe ⟨source.audits, i⟩))).outline =
      ⟨m.world.roll, .sequence n (.opening ⟨source.audits, i⟩) :: m.bonds,
        .calling (.advance n)⟩ := by
  rw [outline, sequenceSection, Sequence.enter, move, World.roll_keepSequence hq rfl]
  rfl

theorem subscribed_stream {source : Source} {i n : Nat} {pace : Driver.Pace}
    (ho : source.origin = .stream n pace) : (m.subscribe source i).outline =
      ⟨{ m.world.roll with drivers := m.world.roll.drivers.push ⟨some i, false, false, n⟩ },
        .driver m.world.roll.drivers.size (.opening ⟨source.audits, i⟩) :: m.bonds,
        .calling (handOver ⟨source.audits, i⟩ (.driver m.world.roll.drivers.size))⟩ := by
  have hroll := driven_roll m.world { driver := { pace := pace }, stream := n }
    { pace := pace, subscriber := some ⟨source.audits, i⟩ }
  have hsize : m.world.roll.drivers.size = m.world.drivers.size := Array.size_map
  simp only [Machine.subscribe, ho, enterDriver, Array.getElem?_push_size, hsize]
  rw [outline, driverSection, Driver.enter, move]
  exact congrArg (Outline.mk · _ _) hroll

theorem subscribe_outlineStep {source : Source} {i : Nat}
    (hc : m.control = .calling (.subscribe source i)) :
    m.outline.Step (m.subscribe source i).outline := by
  have hidle : m.control.Idles m.world.roll := by
    rw [hc]
    trivial
  cases ho : source.origin with
  | sequence n =>
    simp only [Machine.subscribe, ho, enterSequence]
    split
    · next q hq =>
      rw [outline_of hc, subscribed_sequence hq]
      exact .opening rfl
    · exact (answer_keepsRoll m _).outlineStep hidle
  | subject n =>
    simp only [Machine.subscribe, ho, enterSubject]
    split
    · next s hs =>
      rw [outline_of hc]
      rcases subscribed_subject source i hs with ⟨hnew, hlive⟩ | ⟨c, hlate⟩
      · exact hnew ▸ .enlisted (World.roll_subject hs) hlive
      · exact hlate ▸ .late
    · exact (answer_keepsRoll m _).outlineStep hidle
  | manual n =>
    simp only [Machine.subscribe, ho]
    rw [outline_of hc]
    exact outlineStep_of_eq .kept (manual_roll m.world n ⟨source.audits, i⟩) rfl rfl
  | stream n pace =>
    rw [outline_of hc, subscribed_stream ho]
    exact .driven

theorem onCancel_roll (s : Subject Outlet) (e : Nat) :
    (s.onCancel e).roll = s.roll.release e := by
  have hheld : s.roll.entries[e]? = s.entries[e]?.map Subject.Entry.held := Array.getElem?_map
  unfold Subject.onCancel SubjectRoll.release
  rw [hheld]
  cases hx : s.entries[e]? with
  | none => rfl
  | some x =>
    obtain ⟨_ | dest, d⟩ := x
    · rfl
    · exact congrArg (fun t : SubjectRoll => { t with registered := s.registered.erase e })
        (Subject.roll_setEntry s e ⟨none, d⟩)

theorem driver_onCancel_keepsRoll (d : Nat) (s : Driver Outlet) :
    DriverKeepsRoll d { s with cancelled := true } s.onCancel := by
  unfold Driver.onCancel
  split
  · next hcan => exact ⟨rfl, hcan, .rfl, trivial⟩
  · exact notify_keepsRoll d { s with cancelled := true }

theorem cancelled_driver_keepsRoll (hx : m.world.drivers[d]? = some x) :
    KeepsRoll (m.world.roll.setDriver d x.roll.cancel) m.bonds
      (m.driverSection d x.driver.onCancel) := by
  have h := driver_onCancel_keepsRoll d x.driver
  have hroll : StreamTask.roll { x with driver := x.driver.onCancel.1 } = x.roll.cancel :=
    StreamTask.roll_eq (x := { x with driver := { x.driver with cancelled := true } })
      h.subscriber h.cancelled h.ended
  exact move_keepsRoll m ((World.roll_setDriver hx _).trans (congrArg _ hroll)) h.move

theorem cancel_outlineStep {link : Link} (hc : m.control = .calling (.cancel link)) :
    m.outline.Step (m.cancelTap link.tap).outline := by
  rw [outline_of hc]
  have hsame {m' : Machine} (h : KeepsRoll (m.world.roll.release link.tap) m.bonds m') :
      Outline.Step ⟨m.world.roll, m.bonds, .calling (.cancel link)⟩ m'.outline :=
    outlineStep_of_eq (.cancelled h.control) h.roll h.bonds rfl
  apply hsame
  cases link.tap with
  | inert => exact answer_keepsRoll m _
  | sequence n =>
    simp only [cancelTap, enterSequence]
    split
    · exact ⟨World.roll_setSequence .., rfl, rfl⟩
    · next hq =>
      have hout : m.world.roll.sequences.setIfInBounds n none = m.world.roll.sequences := by
        apply Array.setIfInBounds_eq_of_size_le
        simpa [World.roll] using hq
      rw [Roll.release, Roll.setSequence, hout]
      exact answer_keepsRoll m _
  | subject n e =>
    simp only [cancelTap, enterSubject]
    split
    · next s hs =>
      simp only [Roll.release, World.roll_subject hs]
      exact ⟨(World.roll_setSubject ..).trans (congrArg _ (onCancel_roll s e)), rfl, rfl⟩
    · next hs =>
      have hnone : m.world.roll.subjects[n]? = none := by simpa [World.roll] using hs
      simp only [Roll.release, hnone]
      exact answer_keepsRoll m _
  | driver d =>
    simp only [cancelTap, enterDriver]
    split
    · next x hx =>
      simp only [Roll.release, World.roll_driver hx]
      exact cancelled_driver_keepsRoll hx
    · next hx =>
      have hnone : m.world.roll.drivers[d]? = none := by simpa [World.roll] using hx
      simp only [Roll.release, hnone]
      exact answer_keepsRoll m _
  | custom n => exact tail_keepsRoll m rfl

end Machine
end Sluice
