import Sluice.Sink
import Sluice.Assign
import Sluice.Sequence
import Sluice.Subject
import Sluice.Driver

/-!
# Components do not look into their links

A subscriber only hands on the subscription it was given, and a publisher the
subscriber. So whatever stands for them, a component does the same: replacing them
before a section or after it comes to the same.
-/

namespace Sluice

namespace Move

variable {Out Out' F F' : Type}

def map (o : Out → Out') (f : F → F') : Move Out F → Move Out' F'
  | answer r => answer r
  | call out frame => call (o out) (f frame)

end Move

variable {σ σ' τ ρ ρ' : Type}

namespace Lifecycle

def map (g : σ → σ') : Lifecycle σ → Lifecycle σ'
  | awaiting => awaiting
  | subscribed link => subscribed (g link)
  | terminal => terminal

theorem status_map (g : σ → σ') (l : Lifecycle σ) : (l.map g).status = l.status := by
  cases l <;> rfl

end Lifecycle

namespace Message

def map (g : σ → σ') : Message σ → Message σ'
  | subscription link => subscription (g link)
  | value v => value v
  | completion c => completion c
  | resume => resume
  | cancel => cancel

end Message

namespace Sink

def map (g : σ → σ') (s : Sink σ) : Sink σ' where
  lifecycle := s.lifecycle.map g
  pending := s.pending
  handler := s.handler

def Out.map (g : σ → σ') : Out σ → Out σ'
  | request link d => request (g link) d
  | cancel link => cancel (g link)
  | predicate v => predicate v
  | handler c => handler c

def onLinks (g : σ → σ') : Sink σ × Move (Out σ) Frame → Sink σ' × Move (Out σ') Frame :=
  Prod.map (map g) (Move.map (Out.map g) id)

theorem enter_map (g : σ → σ') (s : Sink σ) (msg : Message σ) :
    (s.map g).enter (msg.map g) = onLinks g (s.enter msg) := by
  obtain ⟨l, p, b⟩ := s
  cases msg <;> cases l <;> cases p <;> cases b <;> rfl

theorem proceed_map (g : σ → σ') (s : Sink σ) (r : Reply) (f : Frame) :
    (s.map g).proceed r f = onLinks g (s.proceed r f) := by
  cases f <;> rfl

end Sink

namespace Assign

def map (g : σ → σ') (s : Assign σ τ) : Assign σ' τ where
  mode := s.mode
  target := s.target
  lifecycle := s.lifecycle.map g
  pending := s.pending

def Out.map (g : σ → σ') : Out σ τ → Out σ' τ
  | request link d => request (g link) d
  | cancel link => cancel (g link)
  | write t v => write t v

def onLinks (g : σ → σ') :
    Assign σ τ × Move (Out σ τ) (Frame τ) → Assign σ' τ × Move (Out σ' τ) (Frame τ) :=
  Prod.map (map g) (Move.map (Out.map g) id)

theorem enter_map (g : σ → σ') (s : Assign σ τ) (msg : Message σ) :
    (s.map g).enter (msg.map g) = onLinks g (s.enter msg) := by
  obtain ⟨mode, t, l, p⟩ := s
  cases msg <;> cases l <;> cases mode <;> cases p <;> cases t <;> rfl

theorem proceed_map (g : σ → σ') (s : Assign σ τ) (f : Frame τ) :
    (s.map g).proceed f = onLinks g (s.proceed f) := by
  cases f <;> rfl

end Assign

namespace Sequence

def map (g : ρ → ρ') (s : Sequence ρ) : Sequence ρ' where
  subscriber := s.subscriber.map g
  demand := s.demand
  emitting := s.emitting
  ahead := s.ahead

def In.map (g : ρ → ρ') : In ρ → In ρ'
  | subscribe dest => subscribe (g dest)
  | request d => request d
  | cancel => cancel

def Out.map (g : ρ → ρ') : Out ρ → Out ρ'
  | advance => advance
  | handOver dest live => handOver (g dest) live
  | deliver dest v => deliver (g dest) v
  | conclude dest => conclude (g dest)

def Frame.map (g : ρ → ρ') : Frame ρ → Frame ρ'
  | opening dest => opening (g dest)
  | refusing dest => refusing (g dest)
  | drawing dest => drawing (g dest)
  | delivering dest => delivering (g dest)
  | peeking => peeking
  | passing dest => passing (g dest)

def onOutlets (g : ρ → ρ') :
    Sequence ρ × Move (Out ρ) (Frame ρ) → Sequence ρ' × Move (Out ρ') (Frame ρ') :=
  Prod.map (map g) (Move.map (Out.map g) (Frame.map g))

theorem drain_map (g : ρ → ρ') (s : Sequence ρ) : (s.map g).drain = onOutlets g s.drain := by
  obtain ⟨dest, d, e, ahead⟩ := s
  cases dest with
  | none => rfl
  | some dest => cases hd : d.takeOne? <;> cases ahead <;> simp only [drain, map, hd] <;> rfl

theorem onRequest_map (g : ρ → ρ') (s : Sequence ρ) (d : Demand) :
    (s.map g).onRequest d = onOutlets g (s.onRequest d) := by
  simp only [onRequest, map, Option.isNone_map]
  by_cases hn : s.subscriber.isNone
  · simp only [hn, if_true]
    rfl
  · simp only [hn, Bool.false_eq_true, if_false]
    by_cases he : s.emitting || (s.demand + d).isZero
    · simp only [he, if_true]
      rfl
    · simp only [he, Bool.false_eq_true, if_false]
      exact drain_map g { s with demand := s.demand + d, emitting := true }

theorem onDelivered_map (g : ρ → ρ') (s : Sequence ρ) (d : Demand) :
    (s.map g).onDelivered d = onOutlets g (s.onDelivered d) := by
  simp only [onDelivered, map, Option.isSome_map]
  by_cases hp : s.subscriber.isSome && s.ahead.isNone
  · simp only [hp, if_true]
    rfl
  · simp only [hp, Bool.false_eq_true, if_false]
    exact drain_map g { s with demand := s.demand + d }

theorem onPeeked_map (g : ρ → ρ') (s : Sequence ρ) (v : Option Value) :
    (s.map g).onPeeked v = onOutlets g (s.onPeeked v) := by
  cases v with
  | some v => exact drain_map g { s with ahead := some v }
  | none =>
    obtain ⟨dest, d, e, ahead⟩ := s
    cases dest <;> rfl

theorem enter_map (g : ρ → ρ') (s : Sequence ρ) (input : In ρ) :
    (s.map g).enter (input.map g) = onOutlets g (s.enter input) := by
  cases input with
  | subscribe dest => rfl
  | request d => exact onRequest_map g s d
  | cancel => rfl

theorem proceed_map (g : ρ → ρ') (s : Sequence ρ) (r : Reply) (f : Frame ρ) :
    (s.map g).proceed r (f.map g) = onOutlets g (s.proceed r f) := by
  cases f with
  | opening dest => cases hv : r.item? <;> simp only [proceed, Frame.map, hv] <;> rfl
  | refusing dest => rfl
  | drawing dest => cases hv : r.item? <;> simp only [proceed, Frame.map, hv] <;> rfl
  | delivering dest => exact onDelivered_map g s r.granted
  | peeking => exact onPeeked_map g s r.item?
  | passing dest => rfl

end Sequence

namespace Subject

def Entry.map (g : ρ → ρ') (e : Entry ρ) : Entry ρ' := ⟨e.subscriber.map g, e.demand⟩

def map (g : ρ → ρ') (s : Subject ρ) : Subject ρ' where
  entries := s.entries.map (Entry.map g)
  registered := s.registered
  completion := s.completion

def In.map (g : ρ → ρ') : In ρ → In ρ'
  | subscribe dest => subscribe (g dest)
  | request i d => request i d
  | cancel i => cancel i
  | send v => send v
  | complete c => complete c

def Out.map (g : ρ → ρ') : Out ρ → Out ρ'
  | handOver dest entry => handOver (g dest) entry
  | deliver dest v => deliver (g dest) v
  | conclude dest c => conclude (g dest) c

def Frame.map (g : ρ → ρ') : Frame ρ → Frame ρ'
  | passing dest => passing (g dest)
  | refusing dest c => refusing (g dest) c
  | sending dest i v rest sent => sending (g dest) i v rest sent
  | completing dest c rest => completing (g dest) c rest

def onOutlets (g : ρ → ρ') :
    Subject ρ × Move (Out ρ) (Frame ρ) → Subject ρ' × Move (Out ρ') (Frame ρ') :=
  Prod.map (map g) (Move.map (Out.map g) (Frame.map g))

variable (g : ρ → ρ') (s : Subject ρ)

theorem getElem?_map (i : Nat) : (s.map g).entries[i]? = s.entries[i]?.map (Entry.map g) :=
  Array.getElem?_map

theorem setEntry_map (i : Nat) (e : Entry ρ) :
    (s.map g).setEntry i (e.map g) = (s.setEntry i e).map g := by
  simp only [setEntry, map, Array.map_setIfInBounds]

theorem onSubscribe_map (dest : ρ) :
    (s.map g).onSubscribe (g dest) = onOutlets g (s.onSubscribe dest) := by
  cases hc : s.completion with
  | some c => simp only [onSubscribe, map, hc, onOutlets, Prod.map, Move.map, Out.map, Frame.map]
  | none =>
    simp only [onSubscribe, map, hc, onOutlets, Prod.map, Move.map, Out.map, Frame.map,
      Array.map_push, Array.size_map]
    rfl

theorem onRequest_map (i : Nat) (d : Demand) :
    (s.map g).onRequest i d = (s.onRequest i d).map g := by
  simp only [onRequest, getElem?_map]
  cases s.entries[i]? with
  | none => rfl
  | some e =>
    obtain ⟨dest, demand⟩ := e
    cases dest with
    | none => rfl
    | some dest => exact setEntry_map g s i ⟨some dest, demand + d⟩

theorem onCancel_map (i : Nat) : (s.map g).onCancel i = (s.onCancel i).map g := by
  simp only [onCancel, getElem?_map]
  cases s.entries[i]? with
  | none => rfl
  | some e =>
    obtain ⟨dest, demand⟩ := e
    cases dest with
    | none => rfl
    | some dest =>
      simp only [Entry.map, Option.isSome_some, if_true, Option.map]
      exact congrArg (fun x : Subject ρ' => { x with registered := s.registered.erase i })
        (setEntry_map g s i ⟨none, demand⟩)

theorem grant_map (i : Nat) (d : Demand) : (s.map g).grant i d = (s.grant i d).map g := by
  simp only [grant, getElem?_map]
  cases s.entries[i]? with
  | none => rfl
  | some e => exact setEntry_map g s i { e with demand := e.demand + d }

theorem spend?_map (i : Nat) :
    (s.map g).spend? i = (s.spend? i).map (Prod.map g (map g)) := by
  simp only [spend?, getElem?_map]
  cases s.entries[i]? with
  | none => rfl
  | some e =>
    obtain ⟨dest, demand⟩ := e
    cases dest with
    | none => rfl
    | some dest =>
      cases hd : demand.takeOne? with
      | none => simp [Entry.map, hd]
      | some rest =>
        simp only [Option.map_some, Entry.map, hd, Prod.map]
        exact congrArg (fun x => some (g dest, x)) (setEntry_map g s i ⟨some dest, rest⟩)

theorem detach?_map (i : Nat) :
    (s.map g).detach? i = (s.detach? i).map (Prod.map g (map g)) := by
  simp only [detach?, getElem?_map]
  cases s.entries[i]? with
  | none => rfl
  | some e =>
    obtain ⟨dest, demand⟩ := e
    cases dest with
    | none => rfl
    | some dest =>
      exact congrArg (fun x => some (g dest, x)) (setEntry_map g s i ⟨none, demand⟩)

theorem broadcast_map (v : Value) (sent : Nat) (is : List Nat) :
    (s.map g).broadcast v sent is = onOutlets g (s.broadcast v sent is) := by
  induction is with
  | nil => rfl
  | cons i is ih =>
    simp only [broadcast, spend?_map]
    cases s.spend? i with
    | none => exact ih
    | some x => rfl

theorem concludeAll_map (c : Ending) (is : List Nat) :
    (s.map g).concludeAll c is = onOutlets g (s.concludeAll c is) := by
  induction is with
  | nil => rfl
  | cons i is ih =>
    simp only [concludeAll, detach?_map]
    cases s.detach? i with
    | none => exact ih
    | some x => rfl

theorem enter_map (input : In ρ) :
    (s.map g).enter (input.map g) = onOutlets g (s.enter input) := by
  cases input with
  | subscribe dest => exact onSubscribe_map g s dest
  | request i d => exact congrArg (·, Move.answer .done) (onRequest_map g s i d)
  | cancel i => exact congrArg (·, Move.answer .done) (onCancel_map g s i)
  | send v =>
    simp only [enter, In.map, map]
    by_cases hc : s.completion.isSome
    · simp only [hc, if_true]
      rfl
    · simp only [hc, Bool.false_eq_true, if_false]
      exact broadcast_map g s v 0 s.registered
  | complete c =>
    simp only [enter, In.map, map]
    by_cases hc : s.completion.isSome
    · simp only [hc, if_true]
      rfl
    · simp only [hc, Bool.false_eq_true, if_false]
      exact concludeAll_map g { s with completion := some c, registered := [] } c s.registered

theorem proceed_map (r : Reply) (f : Frame ρ) :
    (s.map g).proceed r (f.map g) = onOutlets g (s.proceed r f) := by
  cases f with
  | passing dest => rfl
  | refusing dest c => rfl
  | sending dest i v rest sent =>
    simp only [proceed, Frame.map, grant_map]
    exact broadcast_map g (s.grant i r.granted) v (sent + 1) rest
  | completing dest c rest => exact concludeAll_map g s c rest

end Subject

namespace Driver

def map (g : ρ → ρ') (s : Driver ρ) : Driver ρ' where
  pace := s.pace
  subscriber := s.subscriber.map g
  demand := s.demand
  cancelled := s.cancelled
  wakeup := s.wakeup
  phase := s.phase
  delivered := s.delivered

def In.map (g : ρ → ρ') : In ρ → In ρ'
  | subscribe dest => subscribe (g dest)
  | request d => request d
  | cancel => cancel
  | run => run

def Out.map (g : ρ → ρ') : Out ρ → Out ρ'
  | handOver dest => handOver (g dest)
  | spawn => spawn
  | wake => wake
  | poll => poll
  | deliver dest v => deliver (g dest) v
  | conclude dest c => conclude (g dest) c

def Frame.map (g : ρ → ρ') : Frame ρ → Frame ρ'
  | opening dest => opening (g dest)
  | passing => passing
  | polling => polling
  | delivering => delivering
  | concluding => concluding

def onOutlets (g : ρ → ρ') :
    Driver ρ × Move (Out ρ) (Frame ρ) → Driver ρ' × Move (Out ρ') (Frame ρ') :=
  Prod.map (map g) (Move.map (Out.map g) (Frame.map g))

variable (g : ρ → ρ') (s : Driver ρ)

theorem select_map : (s.map g).select = onOutlets g s.select := by
  obtain ⟨pace, dest, d, c, w, ph, n⟩ := s
  simp only [select, map]
  rcases w.await with ⟨awaited, w'⟩
  cases awaited <;> cases c <;> rfl

theorem seek_map : (s.map g).seek = onOutlets g s.seek := by
  obtain ⟨pace, dest, d, c, w, ph, n⟩ := s
  cases c with
  | true => rfl
  | false =>
    simp only [seek, map, Bool.false_eq_true, if_false]
    cases d.takeOne? with
    | some rest => exact select_map g ⟨pace, dest, rest, false, w, ph, n⟩
    | none => rfl

theorem notify_map : (s.map g).notify = onOutlets g s.notify := by
  simp only [notify, map]
  split <;> rfl

theorem onRequest_map (d : Demand) : (s.map g).onRequest d = onOutlets g (s.onRequest d) := by
  by_cases hd : d.isZero || s.cancelled
  · simp only [onRequest, map, hd, if_true]
    rfl
  · simp only [onRequest, map, hd, Bool.false_eq_true, if_false]
    exact notify_map g { s with demand := s.demand + d }

theorem onCancel_map : (s.map g).onCancel = onOutlets g s.onCancel := by
  obtain ⟨pace, dest, d, c, w, ph, n⟩ := s
  cases c with
  | true => rfl
  | false => exact notify_map g ⟨pace, dest, d, true, w, ph, n⟩

theorem onRun_map : (s.map g).onRun = onOutlets g s.onRun := by
  obtain ⟨pace, dest, d, c, w, ph, n⟩ := s
  cases ph with
  | unstarted => rfl
  | ended => rfl
  | seeking => exact seek_map g ⟨pace, dest, d, c, w, .seeking, n⟩
  | parked =>
    simp only [onRun, map]
    cases w.consume? with
    | none => rfl
    | some w' => exact seek_map g ⟨pace, dest, d, c, w', .parked, n⟩
  | polling =>
    simp only [onRun, map]
    cases w.consume? with
    | none => rfl
    | some w' =>
      cases c with
      | true => rfl
      | false => exact select_map g ⟨pace, dest, d, false, w', .polling, n⟩

theorem onPolled_map (p : Poll) : (s.map g).onPolled p = onOutlets g (s.onPolled p) := by
  obtain ⟨pace, dest, d, c, w, ph, n⟩ := s
  cases p <;> cases dest <;> cases c <;> rfl

theorem onDelivered_map (d : Demand) :
    (s.map g).onDelivered d = onOutlets g (s.onDelivered d) := by
  by_cases hy : (s.delivered + 1) % s.pace.burst = 0
  · simp only [onDelivered, map, hy, if_true]
    rfl
  · simp only [onDelivered, map, hy, if_false]
    exact seek_map g { s with demand := s.demand + d, delivered := s.delivered + 1 }

theorem enter_map (input : In ρ) :
    (s.map g).enter (input.map g) = onOutlets g (s.enter input) := by
  cases input with
  | subscribe dest => rfl
  | request d => exact onRequest_map g s d
  | cancel => exact onCancel_map g s
  | run => exact onRun_map g s

theorem proceed_map (r : Reply) (f : Frame ρ) :
    (s.map g).proceed r (f.map g) = onOutlets g (s.proceed r f) := by
  cases f with
  | opening dest =>
    obtain ⟨pace, dest, d, c, w, ph, n⟩ := s
    cases c <;> rfl
  | passing => rfl
  | polling => exact onPolled_map g s r.polled
  | delivering => exact onDelivered_map g s r.granted
  | concluding => rfl

end Driver
end Sluice
