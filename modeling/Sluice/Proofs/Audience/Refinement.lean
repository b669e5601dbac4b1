import Sluice.Proofs.Audience.Attaching

/-!
# A subject and its listeners behave as bits

Every operation takes the subject and its listeners from one state that agrees with the bits to
another. By induction on the operations, all that can be seen of them is what the bits say. The
bits of one listener can be computed without the others, so the others do not matter to what a
listener sees.
-/

namespace Sluice

namespace Audience

open Conduct

variable {decide : Nat → List Value → Bool} {n k : Nat} {a : Audience} {w w' : World}
  {p : Performance}

/-- A subject that nobody has subscribed to, in a world without subscribers and handles. All else
that the world may hold is of no concern. -/
structure Unattended (n : Nat) (w : World) : Prop where
  subject : w.subjects[n]? = some {}
  subscribers : w.subscribers = #[]
  handles : w.handles = #[]

/-- The performance stands between two operations. -/
structure Stands (n : Nat) (a : Audience) (p : Performance) : Prop where
  reactions : p.reactions = []
  stack : p.machine.stack = []
  staged : Staged n a p.machine.world p.log
  handled : Handled a.seats.length p.machine.world

/-- Whoever is subscribed has the status of a subscriber and is counted by the subject, and
everybody else is terminal. -/
structure Shows (n : Nat) (a : Audience) (w : World) : Prop where
  status {k : Nat} {seat : Seat} (hk : a.seats[k]? = some seat) :
    w.subscribers[k]?.map Subscriber.status = some (if seat.live then .subscribed else .terminal)
  count : w.subjects[n]?.map (·.registered.length) = some (a.places Seat.live).length

theorem Stands.shows (h : Stands n a p) : Shows n a p.machine.world := by
  obtain ⟨s, hs, hseated, hlists⟩ := h.staged
  refine ⟨fun {k seat} hk => ?_, ?_⟩
  · obtain ⟨x, hx, hbody⟩ := hseated.body hk
    rw [hx, Option.map_some, hbody.status]
  · rw [hs, Option.map_some, hlists.registered]

theorem Stands.start (hw : Unattended n w) : Stands n {} ⟨⟨w, [], .idle .start⟩, [], []⟩ where
  reactions := rfl
  stack := rfl
  staged := by
    refine ⟨{}, hw.subject, ⟨by simp [hw.subscribers], ?_, ?_, ?_, fun _ => rfl⟩, ⟨rfl, rfl,
      Nat.le_refl _, fun _ => rfl, fun _ => rfl⟩⟩ <;> simp
  handled := ⟨by simp [hw.handles], by simp⟩

theorem Handled.push (h : Handled k w) (hw : w'.handles = w.handles.push { subscriber := k }) :
    Handled (k + 1) w' where
  size := by rw [hw, Array.size_push, h.size]
  handle j hj := by
    rw [hw, Array.getElem?_push, h.size]
    rcases Nat.lt_succ_iff_lt_or_eq.mp hj with hlt | rfl
    · rw [if_neg (Nat.ne_of_lt hlt)]
      exact h.handle j hlt
    · exact ⟨.kept, if_pos rfl, by simp⟩

theorem stands_of_answer {op : Op} {r : Reply} {log : List Question}
    (hc : (answers decide).Course (p.begin n op) (a.events op) ⟨⟨w, [], .answering r⟩, [], log⟩)
    (hn : r.number? = a.number op) (hs : Staged n (a.after decide op) w log)
    (hh : Handled (a.seats.length + op.arrivals) w) :
    ∃ p' r, (answers decide).Course (p.begin n op) (a.events op) p' ∧ p'.Rests ∧
      p'.machine.control = .idle (.returned r) ∧ r.number? = a.number op ∧
      Stands n (a.after decide op) p' := by
  rw [← length_after decide] at hh
  have hreturned := hc.trans (.returned r)
  rw [List.append_nil] at hreturned
  exact ⟨_, r, hreturned, ⟨rfl, rfl, r, rfl⟩, rfl, hn, rfl, rfl, hs, hh⟩

theorem Stands.op (decide : Nat → List Value → Bool) (h : Stands n a p) (op : Op) :
    ∃ p' r, (answers decide).Course (p.begin n op) (a.events op) p' ∧ p'.Rests ∧
      p'.machine.control = .idle (.returned r) ∧ r.number? = a.number op ∧
      Stands n (a.after decide op) p' := by
  obtain ⟨⟨w, fs, o⟩, rs, log⟩ := p
  obtain ⟨hr, hf, hstaged, hhandled⟩ := h
  obtain rfl : rs = [] := hr
  obtain rfl : fs = [] := hf
  cases op with
  | attach kind =>
    obtain ⟨w', log', hc, hs, hh⟩ := hstaged.attach decide [] kind
    exact stands_of_answer hc (congrArg some hhandled.size) hs (hhandled.push hh)
  | send v =>
    obtain ⟨w', log', hc, hs, hh⟩ := hstaged.send decide v
    exact stands_of_answer hc rfl hs (hhandled.of_handles hh)
  | complete c =>
    obtain ⟨w', log', hc, hs, hh⟩ := hstaged.complete decide c
    exact stands_of_answer hc rfl hs (hhandled.of_handles hh)
  | use k u =>
    obtain ⟨w', r, hc, hn, hs, hh⟩ := hstaged.use decide hhandled k u
    exact stands_of_answer hc hn hs hh

theorem Stands.run (decide : Nat → List Value → Bool) (h : Stands n a p) (ops : List Op) :
    ∃ p', (answers decide).Operates n p ops (reports decide a ops) p' ∧
      Stands n (a.run decide ops) p' := by
  induction ops generalizing a p with
  | nil => exact ⟨p, .nil p, h⟩
  | cons op ops ih =>
    obtain ⟨p', r, hc, hrests, hr, hn, hstands⟩ := h.op decide op
    obtain ⟨p'', hops, hend⟩ := ih hstands
    rw [reports, ← hn]
    exact ⟨p'', .cons hc hrests hr hops, hend⟩

def outset (w : World) : Performance := ⟨⟨w, [], .idle .start⟩, [], []⟩

/-- A subject and its listeners behave as one bit for each listener, whatever the predicates
decide: each operation has the events and returns the number that the bits say. Whoever has been
cancelled, dropped or completed never comes back, and the values that reach a listener are those
that would reach it if there were no others. -/
theorem one_bit_each (decide : Nat → List Value → Bool) (hw : Unattended n w) (ops : List Op) :
    (∃ p, (answers decide).Operates n (outset w) ops (reports decide {} ops) p ∧
      Shows n (run decide {} ops) p.machine.world) ∧
    (∀ k more, k < (run decide {} ops).seats.length → (run decide {} ops).has Seat.live k = false →
      (run decide {} (ops ++ more)).has Seat.live k = false) ∧
    ∀ k rs p rs' p', (answers decide).Operates n (outset w) ops rs p →
      (answers fun _ => decide k).Operates n (outset w) (alone k 0 ops) rs' p' →
      valuesTo 0 rs' = valuesTo k rs := by
  refine ⟨?_, fun k more hk hl => ?_, fun k rs p rs' p' hp hp' => ?_⟩
  · obtain ⟨p, hp, hstands⟩ := (Stands.start hw).run decide ops
    exact ⟨p, hp, hstands.shows⟩
  · have hseat : (run decide {} ops).seats[k]? = some _ := List.getElem?_eq_getElem hk
    rw [has, hseat, Option.any_some] at hl
    rw [run, List.foldl_append]
    exact gone_for_good decide hseat hl more
  · obtain ⟨q, hq, -⟩ := (Stands.start hw).run decide ops
    obtain ⟨q', hq', -⟩ := (Stands.start hw).run (fun _ => decide k) (alone k 0 ops)
    obtain ⟨rfl, -⟩ := hp.unique hq
    obtain ⟨rfl, -⟩ := hp'.unique hq'
    exact values_alone (a := {}) ⟨by simp, rfl⟩ ops

def unheard : World := ({} : World).addSubject.addTarget ⟨0, 0⟩

/-- A sink that always pauses misses what is sent until it is resumed; beside it there are an
assign that is dropped and one that always asks for more, and a sink that comes too late. -/
def rehearsal : List Op :=
  [.attach .sink, .attach (.assign .thenStop 0 (.cell .first)), .send 1, .send 2,
    .use 0 (.resume .handle), .attach (.assign .allTheTime 0 (.setter 3)), .send 3, .use 1 .drop,
    .use 1 (.resume .resumer), .send 4, .complete .finished, .attach .sink, .send 5]

theorem one_bit_each_rehearsal : Unattended 0 unheard ∧
    reports (fun _ _ => false) {} rehearsal =
      [([], some 0), ([], some 1), ([.value 0 1, .value 1 1], some 2), ([], some 0), ([], none),
        ([], some 2), ([.value 0 3, .value 2 3], some 2), ([], none), ([], none),
        ([.value 2 4], some 1), ([.completion 0 .finished], none),
        ([.completion 3 .finished], some 3), ([], some 0)] ∧
    ∃ rs p rs' p', (answers fun _ _ => false).Operates 0 (outset unheard) rehearsal rs p ∧
      (answers fun _ _ => false).Operates 0 (outset unheard) (alone 0 0 rehearsal) rs' p' ∧
      valuesTo 0 rs = [1, 3] ∧ valuesTo 0 rs' = [1, 3] := by
  have hw : Unattended 0 unheard := ⟨rfl, rfl, rfl⟩
  obtain ⟨⟨p, hp, -⟩, -, halone⟩ := one_bit_each (fun _ _ => false) hw rehearsal
  obtain ⟨⟨p', hp', -⟩, -⟩ := one_bit_each (fun _ _ => false) hw (alone 0 0 rehearsal)
  have hvalues : valuesTo 0 (reports (fun _ _ => false) {} rehearsal) = [1, 3] := by decide
  exact ⟨hw, by decide, _, p, _, p', hp, hp', hvalues, (halone 0 _ _ _ _ hp hp').trans hvalues⟩

end Audience
end Sluice
