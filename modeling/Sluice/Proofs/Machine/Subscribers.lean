import Sluice.Proofs.Machine.Effects

/-!
# Sections of subscribers

Only a message to a subscriber and the end of one of its calls change it, and only
these make it request, write or ask. All other sections leave the whole table of
subscribers as it is and hand the turn to nobody's predicate or handler.
-/

namespace Sluice

theorem lt_size_of_getElem? {α : Type} {xs : Array α} {i : Nat} {x : α} (h : xs[i]? = some x) :
    i < xs.size :=
  (Array.getElem?_eq_some_iff.mp h).1

theorem setIfInBounds_same {α : Type} {xs : Array α} {i : Nat} {x : α} (h : xs[i]? = some x) :
    xs.setIfInBounds i x = xs := by
  apply Array.ext_getElem?
  intro j
  rw [Array.getElem?_setIfInBounds]
  split
  · rename_i hj
    subst hj
    rw [if_pos (lt_size_of_getElem? h), h]
  · rfl

def Frame.Foreign : Frame → Prop
  | .sink _ _ | .assign _ _ => False
  | _ => True

def Call.Foreign : Call → Prop
  | .ask (.predicate _ _) | .ask (.handler _ _) => False
  | _ => True

namespace Machine

/-- The sink or assign that is making a call other than a cancellation: it requests, it runs its
predicate or its completion handler, or it writes. -/
def acting? (m : Machine) : Option Nat :=
  match m.control, m.stack with
  | .calling (.ask (.predicate i _)), _ => some i
  | .calling (.ask (.handler i _)), _ => some i
  | .calling (.request _ _), .sink i _ :: _ => some i
  | .calling (.request _ _), .assign i _ :: _ => some i
  | .calling (.write _ _ _), .assign i _ :: _ => some i
  | _, _ => none

/-- Sink `i` is cancelling the subscription that it has held. -/
def Releases (m : Machine) (i : Nat) (link : Link) : Prop :=
  m.control = .calling (.cancel link) ∧ ∃ rest, m.stack = .sink i .releasing :: rest

def Seated (m : Machine) : Prop := m.Idle → ∀ f ∈ m.stack.head?, f.Foreign

/-- `m'` comes of a section of no subscriber, with the table `subs` before it. -/
structure Aloof (subs : Array Subscriber) (m' : Machine) : Prop where
  subscribers : m'.world.subscribers = subs
  acting : m'.acting? = none
  releases : ∀ i link, ¬m'.Releases i link
  seated : m'.Seated

theorem seated_of_not_idle {m : Machine} (h : ∀ o, m.control ≠ .idle o) : m.Seated := by
  intro hi
  obtain ⟨o, ho⟩ := hi
  exact absurd ho (h o)

theorem acting_foreign (w : World) (rest : List Frame) {f : Frame} {c : Call} (hf : f.Foreign)
    (hc : c.Foreign) : (Machine.mk w (f :: rest) (.calling c)).acting? = none := by
  unfold acting?
  split
  · rename_i h
    obtain rfl := Control.calling.inj h
    exact hc.elim
  · rename_i h
    obtain rfl := Control.calling.inj h
    exact hc.elim
  · rename_i h
    obtain rfl := (List.cons.inj h).1
    exact hf.elim
  · rename_i h
    obtain rfl := (List.cons.inj h).1
    exact hf.elim
  · rename_i h
    obtain rfl := (List.cons.inj h).1
    exact hf.elim
  · rfl

theorem not_releases_foreign {w : World} {rest : List Frame} {f : Frame} {k : Control}
    (hf : f.Foreign) (i : Nat) (link : Link) : ¬(Machine.mk w (f :: rest) k).Releases i link := by
  rintro ⟨-, fs, hs⟩
  obtain rfl := (List.cons.inj hs).1
  exact hf

variable {subs : Array Subscriber} {m m' : Machine} {i : Nat}

theorem Aloof.of_eq {subs' : Array Subscriber} (h : Aloof subs m') (hs : subs = subs') :
    Aloof subs' m' :=
  hs ▸ h

theorem Aloof.answering {r : Reply} (hs : m'.world.subscribers = subs)
    (hc : m'.control = .answering r) : Aloof subs m' :=
  ⟨hs, by simp [acting?, hc], by simp [Releases, hc], seated_of_not_idle (by simp [hc])⟩

theorem Aloof.unwinding {why : Panic} (hs : m'.world.subscribers = subs)
    (hc : m'.control = .unwinding why) : Aloof subs m' :=
  ⟨hs, by simp [acting?, hc], by simp [Releases, hc], seated_of_not_idle (by simp [hc])⟩

theorem Aloof.calling {f : Frame} {rest : List Frame} {c : Call}
    (hs : m'.world.subscribers = subs) (hf : m'.stack = f :: rest) (hc : m'.control = .calling c)
    (hf' : f.Foreign) (hc' : c.Foreign) : Aloof subs m' := by
  obtain ⟨w, stack, control⟩ := m'
  subst hf hc
  exact ⟨hs, acting_foreign w rest hf' hc', not_releases_foreign hf', seated_of_not_idle (by simp)⟩

theorem answer_aloof (m : Machine) (r : Reply) : Aloof m.world.subscribers (m.answer r) :=
  .answering rfl rfl

theorem move_aloof {Out F : Type} (m : Machine) {w : World} {out : Out → Call} {g : F → Frame}
    (hw : w.subscribers = subs) (ho : ∀ o, (out o).Foreign) (hg : ∀ f, (g f).Foreign)
    (mv : Move Out F) : Aloof subs (m.move w out g mv) := by
  cases mv with
  | answer r => exact .answering hw rfl
  | call o f => exact .calling hw rfl rfl (hg f) (ho o)

theorem sequenceCall_foreign (i : Nat) (o : Sequence.Out Outlet) : (sequenceCall i o).Foreign := by
  cases o <;> trivial

theorem subjectCall_foreign (i : Nat) (o : Subject.Out Outlet) : (subjectCall i o).Foreign := by
  cases o with
  | handOver dest entry => cases entry <;> trivial
  | _ => trivial

theorem driverCall_foreign (i : Nat) (o : Driver.Out Outlet) : (driverCall i o).Foreign := by
  cases o <;> trivial

theorem tickerCall_foreign (i : Nat) (o : Ticker.Out) : (tickerCall i o).Foreign := by
  cases o <;> trivial

theorem Effect.aloof {p : Part} (h : Effect m p m') (hp : p ≠ .subscribers) :
    Aloof m.world.subscribers m' := by
  cases h with
  | sink | assign | stuck | custom => exact absurd rfl hp
  | sequence n => exact move_aloof m (by rfl) (sequenceCall_foreign n) (fun _ => by trivial) _
  | subject n => exact move_aloof m (by rfl) (subjectCall_foreign n) (fun _ => by trivial) _
  | driver d => exact move_aloof m (by rfl) (driverCall_foreign d) (fun _ => by trivial) _
  | ticker n => exact move_aloof m (by rfl) (tickerCall_foreign n) (fun _ => by trivial) _
  | unwind => exact .unwinding rfl rfl
  | ask | asked =>
    refine ⟨rfl, rfl, by simp [Releases, Machine.ask], fun _ f hf => ?_⟩
    obtain rfl := Option.some.inj hf
    trivial
  | request | cancel | jump =>
    exact ⟨rfl, rfl, by simp [Releases, tail], seated_of_not_idle (by simp [tail])⟩
  | set | resumes | cancels | close | lastUse | resume | poll | turn | settle | advanceClock
  | jumpClock | stop => exact .calling rfl rfl rfl trivial trivial
  | _ => exact .answering rfl rfl

theorem subscribe_aloof (m : Machine) (source : Source) (i : Nat) :
    Aloof m.world.subscribers (m.subscribe source i) := by
  obtain ⟨ds, h⟩ := subscribe_effect m source i
  exact h.aloof (by cases source.origin <;> nofun)

theorem run_aloof (m : Machine) (t : Nat) : Aloof m.world.subscribers (m.run t) := by
  unfold run
  split
  · simp only
    split
    · exact ((enterDriver_effect _ _ _).aloof nofun).of_eq rfl
    · exact ((enterTicker_effect _ _ _).aloof nofun).of_eq rfl
  · exact .answering rfl rfl

theorem enter_aloof (m : Machine) {c : Call} (hc : ∀ i msg, c ≠ .tell i msg) :
    Aloof m.world.subscribers (m.enter c) := by
  cases c with
  | tell i msg => exact absurd rfl (hc i msg)
  | subscribe source i => exact subscribe_aloof m source i
  | attach source i => exact .calling rfl rfl rfl trivial trivial
  | request link d =>
    obtain ⟨rs, h⟩ := request_effect m link d
    exact h.aloof (by cases link.tap <;> nofun)
  | cancel link => exact (cancelTap_effect m link.tap).aloof (by cases link.tap <;> nofun)
  | run t => exact run_aloof m t
  | _ => exact (enter_effect m rfl).aloof nofun

theorem Aloof.with_world {w : World} (h : Aloof subs m') (hw : w.subscribers = subs) :
    Aloof subs { m' with world := w } :=
  ⟨hw, h.acting, h.releases, h.seated⟩

theorem dropJob_subscribers (w : World) (j : Job) : (dropJob w j).subscribers = w.subscribers := by
  unfold dropJob
  split <;> split <;> rfl

theorem endTask_subscribers (w : World) (t : Nat) : (endTask w t).subscribers = w.subscribers := by
  unfold endTask
  simp only
  split
  · exact dropJob_subscribers _ _
  · rfl

theorem proceedDriver_aloof (m : Machine) (i : Nat) (f : Driver.Frame Outlet) (r : Reply) :
    Aloof m.world.subscribers (m.proceedDriver i f r) := by
  unfold proceedDriver
  split
  · have h := (Effect.driver (m := m) i (‹StreamTask›.driver.proceed r f)).aloof nofun
    simp only
    split
    · exact h.with_world h.subscribers
    · exact h
  · exact .answering rfl rfl

theorem stopTask_aloof (m : Machine) (t : Nat) (p : Pause) :
    Aloof m.world.subscribers (m.stopTask t p) := by
  refine .answering ?_ rfl
  cases p with
  | ended => exact endTask_subscribers m.world t
  | waiting => rfl
  | yielded => rfl

theorem proceed_aloof (m : Machine) (r : Reply) {f : Frame} (hf : f.Foreign) :
    Aloof m.world.subscribers (m.proceed r f) := by
  cases f with
  | sink i f => exact hf.elim
  | assign i f => exact hf.elim
  | custom i => exact .answering rfl rfl
  | driver i f => exact proceedDriver_aloof m i f r
  | task t => exact stopTask_aloof m t _
  | _ => exact (proceed_effect m r rfl).aloof nofun

theorem unwound_aloof (m : Machine) (why : Panic) (f : Frame) :
    Aloof m.world.subscribers (m.unwound why f) := by
  unfold unwound
  split
  · split
    · exact .unwinding rfl rfl
    · exact .unwinding rfl rfl
  · exact .answering (endTask_subscribers m.world _) rfl
  · split
    · exact .calling rfl rfl rfl trivial trivial
    · exact .unwinding rfl rfl
  · exact .unwinding rfl rfl
  · exact .unwinding rfl rfl

/-- `m'` comes of a section of subscriber `j`, with the table `subs` before it. -/
structure Sectioned (j : Nat) (subs : Array Subscriber) (m' : Machine) : Prop where
  others : ∀ i, i ≠ j → m'.world.subscribers[i]? = subs[i]?
  acting : m'.acting? = none ∨ m'.acting? = some j
  seated : m'.Seated

theorem Aloof.sectioned (h : Aloof subs m') (j : Nat) : Sectioned j subs m' :=
  ⟨fun i _ => by rw [h.subscribers], .inl h.acting, h.seated⟩

theorem setSubscriber_ne (w : World) {i j : Nat} (s : Subscriber) (h : i ≠ j) :
    (w.setSubscriber j s).subscribers[i]? = w.subscribers[i]? := by
  simp [World.setSubscriber, h.symm]

theorem sinkSection_sectioned (m : Machine) (j : Nat)
    (r : Sink Link × Move (Sink.Out Link) Sink.Frame) :
    Sectioned j m.world.subscribers (m.sinkSection j r) := by
  obtain ⟨s, mv⟩ := r
  have ho (i : Nat) (hi : i ≠ j) := setSubscriber_ne m.world (.sink s) hi
  cases mv with
  | answer r => exact ⟨ho, .inl rfl, seated_of_not_idle (by simp [sinkSection, move])⟩
  | call o f =>
    refine ⟨ho, ?_, seated_of_not_idle (by simp [sinkSection, move])⟩
    cases o with
    | cancel link => exact .inl rfl
    | _ => exact .inr rfl

theorem assignSection_sectioned (m : Machine) (j : Nat) (rule : WriteRule)
    (r : Assign Link Nat × Move (Assign.Out Link Nat) (Assign.Frame Nat)) :
    Sectioned j m.world.subscribers (m.assignSection j rule r) := by
  obtain ⟨s, mv⟩ := r
  have ho (i : Nat) (hi : i ≠ j) := setSubscriber_ne m.world (.assign s rule) hi
  cases mv with
  | answer r => exact ⟨ho, .inl rfl, seated_of_not_idle (by simp [assignSection, move])⟩
  | call o f =>
    refine ⟨ho, ?_, seated_of_not_idle (by simp [assignSection, move])⟩
    cases o with
    | cancel link => exact .inl rfl
    | _ => exact .inr rfl

theorem customQuestion_foreign {i : Nat} {msg : Message Link} {q : Question}
    (h : customQuestion i msg = some q) : (Call.ask q).Foreign := by
  cases msg <;> simp only [customQuestion, Option.some.injEq, reduceCtorEq] at h <;> subst h <;>
    trivial

theorem tell_sectioned (m : Machine) (j : Nat) (msg : Message Link) :
    Sectioned j m.world.subscribers (m.tell j msg) := by
  unfold tell
  split
  · split
    · split
      · exact ⟨fun _ _ => rfl, .inl rfl, seated_of_not_idle (by simp)⟩
      · exact sinkSection_sectioned m j _
    · exact sinkSection_sectioned m j _
  · exact assignSection_sectioned m j _ _
  · split
    · rename_i q hq
      have h : Aloof m.world.subscribers (m.call (.custom j) (.ask q)) :=
        .calling rfl rfl rfl trivial (customQuestion_foreign hq)
      exact h.sectioned j
    · exact (answer_aloof m _).sectioned j
  · exact (answer_aloof m _).sectioned j

theorem proceedSink_sectioned (m : Machine) (j : Nat) (f : Sink.Frame) (r : Reply) :
    Sectioned j m.world.subscribers (m.proceedSink j f r) := by
  unfold proceedSink
  split
  · exact sinkSection_sectioned m j _
  · exact (answer_aloof m _).sectioned j

theorem proceedAssign_sectioned (m : Machine) (j : Nat) (f : Assign.Frame Nat) :
    Sectioned j m.world.subscribers (m.proceedAssign j f) := by
  unfold proceedAssign
  split
  · exact assignSection_sectioned m j _ _
  · exact (answer_aloof m _).sectioned j

theorem setSubscriber_same {w : World} {s : Subscriber} (h : w.subscribers[i]? = some s) :
    w.setSubscriber i s = w := by
  rw [World.setSubscriber, setIfInBounds_same h]

theorem tell_sink {s : Sink Link} (hs : m.world.subscribers[i]? = some (.sink s))
    {msg : Message Link} (hp : ∀ v f, (s.enter msg).2 ≠ .call (.predicate v) f) :
    m.tell i msg = m.sinkSection i (s.enter msg) := by
  unfold tell
  rw [hs]
  simp only
  split
  · rename_i t v f h
    exact absurd (congrArg Prod.snd h) (hp v f)
  · rfl

theorem tell_assign {s : Assign Link Nat} {rule : WriteRule}
    (hs : m.world.subscribers[i]? = some (.assign s rule)) (msg : Message Link) :
    m.tell i msg = m.assignSection i rule (s.enter msg) := by
  simp only [Machine.tell, hs]

/-- What a move of the machine or of its environment is to the subscribers. -/
inductive Moved (m : Machine) : Machine → Prop
  | aloof {m' : Machine} (h : Aloof m.world.subscribers m') : Moved m m'
  | added {m' : Machine} {s : Subscriber} (h : Aloof (m.world.subscribers.push s) m') : Moved m m'
  | message {i : Nat} {msg : Message Link} (hc : m.control = .calling (.tell i msg)) :
      Moved m (m.tell i msg)
  | sink {i : Nat} {f : Sink.Frame} {rest : List Frame} {r : Reply}
      (hs : m.stack = .sink i f :: rest) :
      Moved m (proceedSink { m with stack := rest } i f r)
  | assign {i : Nat} {f : Assign.Frame Nat} {rest : List Frame}
      (hs : m.stack = .assign i f :: rest) :
      Moved m (proceedAssign { m with stack := rest } i f)

theorem idle_aloof (hm : m.Seated) (hi : m.Idle) : Aloof m.world.subscribers m := by
  obtain ⟨o, ho⟩ := hi
  exact ⟨rfl, by simp [acting?, ho], by simp [Releases, ho], hm⟩

theorem step_moved (hm : m.Seated) : m.Moved m.step := by
  unfold step
  cases hc : m.control with
  | calling c =>
    -- Of all calls, only a message to a subscriber is answered by a subscriber.
    by_cases ht : ∃ i msg, c = .tell i msg
    · obtain ⟨i, msg, rfl⟩ := ht
      exact .message hc
    · exact .aloof (enter_aloof m fun i msg h => ht ⟨i, msg, h⟩)
  | answering r =>
    cases hs : m.stack with
    | nil => exact .aloof ⟨rfl, rfl, by simp [Releases], by simp [Seated]⟩
    | cons f rest =>
      by_cases hf : f.Foreign
      · exact .aloof ((proceed_aloof _ r hf).of_eq rfl)
      · cases f with
        | sink i f => exact .sink hs
        | assign i f => exact .assign hs
        | _ => exact absurd trivial hf
  | unwinding why =>
    cases hs : m.stack with
    | nil => exact .aloof ⟨rfl, rfl, by simp [Releases], by simp [Seated]⟩
    | cons f rest => exact .aloof ((unwound_aloof _ why f).of_eq rfl)
  | idle o => exact .aloof (idle_aloof hm ⟨o, hc⟩)
  | stuck => exact .aloof ⟨rfl, by simp [acting?, hc], by simp [Releases, hc], hm⟩

theorem invoke_aloof {c : Call} (hm : m.Seated) (hi : m.Idle) (hc : c.Public m.world) :
    Aloof m.world.subscribers (m.invoke c) := by
  have hf := hm hi
  obtain ⟨w, stack, control⟩ := m
  cases stack with
  | nil =>
    refine ⟨rfl, ?_, by simp [Releases, invoke], seated_of_not_idle (by simp [invoke])⟩
    cases c with
    | ask q => exact hc.elim
    | _ => rfl
  | cons f rest =>
    refine .calling rfl rfl rfl (hf f rfl) ?_
    cases c with
    | ask q => exact hc.elim
    | _ => trivial

theorem change_moved {w : World} (hm : m.Seated) (hi : m.Idle) (hw : m.world.Change w) :
    m.Moved { m with world := w } := by
  have h := idle_aloof hm hi
  cases hw with
  | subscriber hs => exact .added ⟨rfl, h.acting, h.releases, h.seated⟩
  | _ => exact .aloof (h.with_world rfl)

theorem Next.moved (h : m.Next m') (hm : m.Seated) : m.Moved m' := by
  cases h with
  | step => exact step_moved hm
  | attend hi => exact .aloof ⟨rfl, rfl, by simp [Releases, Machine.attend], fun _ => hm hi⟩
  | invoke hi hc => exact .aloof (invoke_aloof hm hi hc)
  | begin hi ht =>
    exact .aloof ⟨rfl, rfl, by simp [Releases, Machine.begin],
      seated_of_not_idle (by simp [Machine.begin])⟩
  | reply hi r =>
    unfold Machine.reply
    split
    · exact .aloof (.answering rfl rfl)
    · exact .aloof (idle_aloof hm hi)
  | raise hi why =>
    unfold Machine.raise
    split
    · exact .aloof (.unwinding rfl rfl)
    · exact .aloof (idle_aloof hm hi)
  | change hi hw => exact change_moved hm hi hw

end Machine
end Sluice
