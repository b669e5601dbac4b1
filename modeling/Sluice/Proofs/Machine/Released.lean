import Sluice.Proofs.Machine.Cancelled
import Sluice.Proofs.Machine.Disposal
import Sluice.Proofs.Machine.Handover

/-!
# No subscriber is leaked

A subscriber that was attached to a publisher is forgotten once its handle was dropped
and no call to it is under way, whoever ended the subscription, and from inside of
whichever call.
-/

namespace Sluice
namespace Machine

/-- A move without a panic in which the environment neither subscribes subscriber `i` nor completes
it by hand. -/
structure HandsOff (i : Nat) (m m' : Machine) : Prop where
  next : m.Next m'
  calm : m'.Calm
  free : m.Idle → m'.control.commits? ≠ some i

def Undisturbed (i : Nat) (m m' : Machine) : Prop := Relation.ReflTransGen (HandsOff i) m m'

variable {m m' m'' : Machine} {i k : Nat} {τ : Tap} {P Q : Machine → Prop} {source : Source}

theorem Undisturbed.next (h : m.Undisturbed i m') (hn : m'.Next m'') (hc : m''.Calm)
    (hf : m''.control.commits? ≠ some i) : m.Undisturbed i m'' :=
  Relation.ReflTransGen.tail h ⟨hn, hc, fun _ => hf⟩

theorem HandsOff.of_step (hc : m.step.Calm) : HandsOff i m m.step := by
  refine ⟨.step, hc, ?_⟩
  rintro ⟨o, ho⟩
  have hstep : m.step = m := by simp only [step, ho]
  rw [hstep, ho]
  simp [Control.commits?]

theorem Undisturbed.steps (h : m.Undisturbed i m') (n : Nat)
    (hc : ∀ k < n, (m'.steps (k + 1)).Calm) : m.Undisturbed i (m'.steps n) := by
  induction n with
  | zero => exact h
  | succ n ih =>
    exact Relation.ReflTransGen.tail (ih fun k hk => hc k (by omega)) (.of_step (hc n (by omega)))

theorem Next.eq_step_of_busy (h : m.Next m') (hm : ¬m.Idle) : m' = m.step := by
  cases h with
  | step => rfl
  | attend hi | invoke hi | begin hi | reply hi | raise hi | change hi => exact absurd hi hm

theorem Arrives.trans (h : Arrives P m) (hPQ : ∀ m, P m → Arrives Q m) : Arrives Q m := by
  induction h with
  | here h => exact hPQ _ h
  | step hm _ ih => exact .step hm ih

theorem Arrives.on_run (h : Arrives P m) (hr : m.Undisturbed i m') (hi : m'.Idle) :
    ∃ m₁, P m₁ ∧ m.Undisturbed i m₁ ∧ m₁.Undisturbed i m' := by
  induction h with
  | here h => exact ⟨_, h, .refl, hr⟩
  | step hm _ ih =>
    rcases hr.cases_head with rfl | ⟨m₁, hfirst, hrest⟩
    · exact absurd hi hm
    · obtain rfl := hfirst.next.eq_step_of_busy hm
      obtain ⟨m₂, hP, hto, hfrom⟩ := ih hrest
      exact ⟨m₂, hP, .head hfirst hto, hfrom⟩

theorem Newcomer.tethers (h : m.Newcomer i) (hr : Reached Calm m) (hs : source.Offered m.world) :
    Arrives (fun m' => ∃ τ k, Tethered i τ k m'.outline ∧ source.Feeds τ k)
      (m.invoke (.attach source i)) := by
  refine (h.served hr hs).trans fun m' ⟨τ, k, hover, hfeeds⟩ => ?_
  obtain ⟨audits, hc⟩ := hover.control
  exact .step (not_idle_calling hc) (.here ⟨τ, k, hover.tethered, hfeeds⟩)

theorem Reached.undisturbed (h : Reached Calm m) (hr : m.Undisturbed i m') : Reached Calm m' := by
  induction hr with
  | refl => exact h
  | tail _ hn ih => exact ih.next hn.next hn.calm

theorem tethered_of_undisturbed (h : Reached Calm m) (ht : Tethered i τ k m.outline)
    (hr : m.Undisturbed i m') : Tethered i τ k m'.outline := by
  induction hr with
  | refl => exact ht
  | tail hr hn ih =>
    obtain ⟨hatt, hcalm⟩ := (h.undisturbed hr).attentive
    exact ih.outlineStep (hn.next.outlineStep hatt hcalm) hn.free

structure Dropped (m : Machine) (i : Nat) : Prop where
  exists_handle : ∃ (h : Nat) (x : Handle), m.world.handles[h]? = some x ∧ x.subscriber = i
  not_kept : ∀ (h : Nat) x, m.world.handles[h]? = some x → x.subscriber = i → x.state ≠ .kept

/-- A call to subscriber `i` or through its handle is under way. -/
def InCall (m : Machine) (i : Nat) : Prop :=
  ∃ f ∈ m.stack, i ∈ f.subscribers ∨
    ∃ h x, f.handle? = some h ∧ m.world.handles[h]? = some x ∧ x.subscriber = i

theorem Dropped.closed (h : m.Dropped i) (hr : Reached Calm m) (he : ¬m.InCall i) {n : Nat}
    {x : Handle} (hx : m.world.handles[n]? = some x) (hi : x.subscriber = i) :
    x.state = .closed := by
  cases hs : x.state with
  | kept => exact absurd hs (h.not_kept n x hx hi)
  | dropped =>
    obtain ⟨f, hf, hn⟩ := hr.disposes n x hx hs
    exact absurd ⟨f, (List.mem_filter.mp hf).1, .inr ⟨n, x, hn, hx, hi⟩⟩ he
  | closed => rfl

structure Forgets (m : Machine) (i : Nat) : Prop where
  dead : m.alive i = false
  resumed : ∀ n, (m.invoke (.resumeAlive i n)).step = m.answer (.flag false)
  terminated : m.terminated i = true
  target : m.world.subscribers[i]?.bind Subscriber.target? = none
  counted : ∀ (n : Nat) s, m.world.subjects[n]? = some s → ∀ e ∈ s.registered,
    ∃ dest d, s.entries[e]? = some ⟨some dest, d⟩ ∧ dest.subscriber ≠ i

theorem resumeAlive_dead (h : m.alive i = false) (n : Nat) :
    m.resumeAlive i n = m.answer (.flag false) := by
  cases n with
  | zero => rw [resumeAlive, h]
  | succ n => simp [resumeAlive, h]

theorem forgets_of_dead (hr : Reached Calm m) (hterm : m.outline.Terminal i)
    (hdead : m.alive i = false) : m.Forgets i := by
  have hfree : ¬m.world.referred i = true := by simp [(Bool.or_eq_false_iff.mp hdead).1]
  rw [World.referred_iff, not_or, not_or, not_or] at hfree
  obtain ⟨-, -, hholder, -⟩ := hfree
  refine ⟨hdead, fun n => ?_, by simp [terminated, hdead], ?_, fun n s hs e he => ?_⟩
  · exact resumeAlive_dead (m := m.invoke (.resumeAlive i n)) hdead n
  · obtain ⟨s, hs, hst⟩ := Option.map_eq_some_iff.mp (Array.getElem?_map.symm.trans hterm)
    rw [hs]
    cases s with
    | assign s rule => exact congrArg Standing.target hst
    | sink s => rfl
    | custom => rfl
  · obtain ⟨j, hj⟩ := (hr.orderly.enrolled n _ (World.roll_subject hs)).held e he
    obtain ⟨⟨held, d⟩, hx, hheld⟩ := Option.map_eq_some_iff.mp (Array.getElem?_map.symm.trans hj)
    obtain ⟨dest, rfl, rfl⟩ := Option.map_eq_some_iff.mp hheld
    refine ⟨dest, d, hx, fun hi => hholder ⟨.subject n e, ?_⟩⟩
    rw [← hi]
    exact (Roll.holder_subject (World.roll_subject hs)).mpr hj

theorem Reached.weaken (h : Reached Calm m) : Reached (fun _ => True) m := by
  induction h with
  | start => exact .start
  | next _ hn _ ih => exact ih.next hn trivial

end Machine

theorem World.Linked.exists_task {w : World} {stack : List Frame} {d : Nat} (h : w.Linked stack)
    (hm : Frame.driver d .concluding ∈ stack) : ∃ t, Frame.task t ∈ stack := by
  induction stack with
  | nil => cases hm
  | cons f rest ih =>
    rcases List.mem_cons.mp hm with rfl | hm
    · obtain ⟨t, rest', x, rfl, -⟩ := h.1
      exact ⟨t, .tail _ List.mem_cons_self⟩
    · obtain ⟨t, ht⟩ := ih h.2 hm
      exact ⟨t, .tail _ ht⟩

namespace Tethered

open Machine

variable {m : Machine} {i k d : Nat} {τ : Tap}

theorem ended_of_parting (ht : Tethered i (.driver d) k m.outline) (hr : Reached Calm m)
    (hi : m.Idle) (hq : m.Quiet) (hcall : ¬m.InCall i) (hpart : m.outline.Parting (.driver d)) :
    ∃ y, m.world.drivers[d]? = some y ∧ y.driver.phase = .ended := by
  obtain ⟨e, heq, ⟨x, hx, hcan⟩ | hf⟩ := hpart
  · obtain rfl := Tap.driver.inj heq
    obtain ⟨y, hy, rfl⟩ := Option.map_eq_some_iff.mp (Array.getElem?_map.symm.trans hx)
    obtain ⟨o, hidle⟩ := hi
    have hcalled : m.CalledOff d y := ⟨hr.weaken.tended, hy, hcan, by simp [hidle], hq.spawn d⟩
    refine ⟨y, hy, hcalled.ended_of_quiet hq fun dest hm => hcall ⟨_, hm, .inl ?_⟩⟩
    rw [Frame.subscribers, ht.launching d dest (List.mem_filter.mpr ⟨hm, rfl⟩) rfl]
    exact List.mem_singleton_self i
  · obtain ⟨t, htask⟩ := hr.attentive.1.linked.exists_task (List.mem_filter.mp hf).1
    exact absurd htask (hq.stack t)

theorem stopped (ht : Tethered i (.driver d) k m.outline) (hr : Reached Calm m) (hi : m.Idle)
    (hq : m.Quiet) (hcall : ¬m.InCall i) (hterm : m.outline.Terminal i) :
    m.world.roll.holder (.driver d) ≠ some i ∧ m.world.Gone k := by
  obtain ⟨x, hx, rfl, hsub⟩ := ht.driver d rfl
  obtain ⟨y, hy, rfl⟩ := Option.map_eq_some_iff.mp (Array.getElem?_map.symm.trans hx)
  obtain ⟨o, hidle⟩ := hi
  have hholder : m.world.roll.holder (.driver d) = y.roll.subscriber :=
    congrArg (Option.bind · DriverRoll.subscriber) hx
  have hstopped : y.roll.subscriber = none ∧ y.roll.ended = true := by
    rcases hsub with ⟨hheld, hlive⟩ | hstopped
    · -- The driver still holds a subscriber that is terminal, so it is about to end.
      rcases ht.held (hholder.trans hheld) hterm with ⟨link, hc, -⟩ | hpart
      · cases hidle.symm.trans hc
      · obtain ⟨z, hz, hended⟩ := ht.ended_of_parting hr ⟨o, hidle⟩ hq hcall hpart
        obtain rfl := Option.some.inj (hy.symm.trans hz)
        simp [StreamTask.roll, hended] at hlive
    · exact hstopped
  refine ⟨by rw [hholder, hstopped.1]; simp, ?_⟩
  rcases hr.weaken.tended.parted d y hy (by simpa [StreamTask.roll] using hstopped.2) with
    hgone | ⟨t, rest, -, -, hc⟩
  · exact hgone
  · cases hidle.symm.trans hc

theorem unheld (ht : Tethered i τ k m.outline) (hr : Reached Calm m) (hi : m.Idle)
    (hcall : ¬m.InCall i) (hterm : m.outline.Terminal i) (hq : ∀ d, τ = .driver d → m.Quiet)
    (t : Tap) : m.world.roll.holder t ≠ some i := by
  intro hheld
  obtain rfl := ht.tap t hheld
  obtain ⟨o, hidle⟩ := hi
  rcases ht.held hheld hterm with ⟨link, hc, -⟩ | ⟨d, rfl, hpart⟩
  · cases hidle.symm.trans hc
  · exact (ht.stopped hr ⟨o, hidle⟩ (hq d rfl) hcall hterm).1 hheld

theorem dead (ht : Tethered i τ k m.outline) (hr : Reached Calm m) (hdrop : m.Dropped i)
    (hcall : ¬m.InCall i) (howned : i ∉ m.world.owned)
    (hheld : ∀ t, m.world.roll.holder t ≠ some i) : m.alive i = false := by
  refine Bool.or_eq_false_iff.mpr ⟨?_, ?_⟩
  · rw [← Bool.not_eq_true, World.referred_iff]
    rintro (hown | ⟨h, x, hx, hi, hopen⟩ | ⟨t, hi⟩ | ⟨n, kept, hk, hi⟩)
    · exact howned hown
    · exact hopen (hdrop.closed hr hcall hx hi)
    · exact hheld t hi
    · exact ht.manuals n kept hk hi
  · refine List.any_eq_false.mpr fun f hf hi => hcall ⟨f, hf, .inl ?_⟩
    simpa using hi

end Tethered

namespace Machine

variable {i : Nat} {m₀ m : Machine} {source : Source}

/-- A sink or an assign is attached to a sequence, a subject or a stream, and the environment never
subscribes it or completes it by hand. Whatever else it does, with the handle dropped, no call to
the subscriber under way and, for a stream, no task runnable, nothing refers to the subscriber any
more, and the stream was dropped. -/
theorem nobody_leaked (hr : Reached Calm m₀) (hi₀ : m₀.Idle) (hnew : m₀.Newcomer i)
    (hs : source.Offered m₀.world) (hrun : (m₀.invoke (.attach source i)).Undisturbed i m)
    (hi : m.Idle) (hdrop : m.Dropped i) (hcall : ¬m.InCall i) (howned : i ∉ m.world.owned)
    (hq : ∀ n pace, source.origin = .stream n pace → m.Quiet) :
    m.Forgets i ∧ ∀ n pace, source.origin = .stream n pace → m.world.Gone n := by
  have hpublic : (Call.attach source i).Public m₀.world := hs.fresh
  have hr₁ : Reached Calm (m₀.invoke (.attach source i)) := hr.next (.invoke hi₀ hpublic) trivial
  obtain ⟨m₁, ⟨τ, k, ht, hfeeds⟩, hto, hfrom⟩ := (hnew.tethers hr hs).on_run hrun hi
  have hr₂ := hr₁.undisturbed hrun
  have ht' := tethered_of_undisturbed (hr₁.undisturbed hto) ht hfrom
  have hterm : m.outline.Terminal i := by
    obtain ⟨h, x, hx, hxi⟩ := hdrop.exists_handle
    exact ht'.closed h x hx hxi (hdrop.closed hr₂ hcall hx hxi)
  have hquiet (d : Nat) (hd : τ = .driver d) : m.Quiet := by
    cases ho : source.origin with
    | stream n pace => exact hq n pace ho
    | _ =>
      rw [Source.Feeds, ho] at hfeeds
      exact absurd hd (hfeeds d)
  have hdead := ht'.dead hr₂ hdrop hcall howned (ht'.unheld hr₂ hi hcall hterm hquiet)
  refine ⟨forgets_of_dead hr₂ hterm hdead, fun n pace ho => ?_⟩
  rw [Source.Feeds, ho] at hfeeds
  obtain ⟨rfl, d, rfl⟩ := hfeeds
  exact (ht'.stopped hr₂ hi (hquiet d rfl) hcall hterm).2

/-- A sink that is new to a stream of one item. -/
def newcomerToStream : Machine where
  world := (({} : World).addStream [.value 7] false).addSubscriber (.sink {})

/-- The handle is dropped from inside of the sink's predicate, which then asks for more. -/
theorem nobody_leaked_dropped_in_predicate :
    ∃ m : Machine, Reached Calm newcomerToStream ∧ newcomerToStream.Newcomer 0 ∧
      (newcomerToStream.invoke (.attach ⟨[], .stream 0 .standard⟩ 0)).Undisturbed 0 m ∧
      m.Idle ∧ m.Dropped 0 ∧ ¬m.InCall 0 ∧ m.Quiet ∧ m.Forgets 0 ∧ m.world.Gone 0 := by
  have h : Reached Calm {} := .start
  have h1 := h.next (.change ⟨_, rfl⟩ (.stream [.value 7] false)) trivial
  have h2 : Reached Calm newcomerToStream :=
    h1.next (.change ⟨_, rfl⟩ (.subscriber .sink)) trivial
  have hnew : newcomerToStream.Newcomer 0 := by
    refine ⟨⟨.sink {}, rfl, .sink, by simp⟩, ?_, fun n x hx => ?_⟩
    · simp [alive, World.referred, newcomerToStream, World.addSubscriber, World.addStream]
    · simp [newcomerToStream, World.addSubscriber, World.addStream] at hx
  have hoffered : Source.Offered ⟨[], .stream 0 .standard⟩ newcomerToStream.world :=
    ⟨by decide, by simp [newcomerToStream, World.addSubscriber, World.addStream]⟩
  have hstart : (newcomerToStream.invoke (.attach ⟨[], .stream 0 .standard⟩ 0)).Undisturbed 0
      (newcomerToStream.invoke (.attach ⟨[], .stream 0 .standard⟩ 0)) := .refl
  have hattached := hstart.steps 10 (by decide)
  have hpolled := (hattached.next (.begin (t := 0) ⟨_, rfl⟩ (by decide)) trivial
    (by decide)).steps 3 (by decide)
  have hasked := (hpolled.next (.reply ⟨_, rfl⟩ .done) trivial (by decide)).steps 4 (by decide)
  have hdropped := (hasked.next (.invoke (c := .dropHandle 0) ⟨_, rfl⟩ trivial) trivial
    (by decide)).steps 6 (by decide)
  have hrun := (hdropped.next (.reply ⟨_, rfl⟩ (.pull true)) trivial (by decide)).steps 4
    (by decide)
  obtain ⟨m, hstack, hhandles, howned, hi, hq, hrun⟩ : ∃ m : Machine, m.stack = [] ∧
      m.world.handles = #[⟨0, .closed⟩] ∧ m.world.owned = [] ∧ m.Idle ∧ m.Quiet ∧
      (newcomerToStream.invoke (.attach ⟨[], .stream 0 .standard⟩ 0)).Undisturbed 0 m :=
    ⟨_, rfl, rfl, rfl, ⟨_, rfl⟩, .of_idle ⟨_, rfl⟩ rfl rfl rfl, hrun⟩
  have hdrop : m.Dropped 0 := by
    refine ⟨⟨0, _, by rw [hhandles]; rfl, rfl⟩, fun n x hx hi hk => ?_⟩
    rw [hhandles, Array.getElem?_singleton] at hx
    split at hx
    · obtain rfl := Option.some.inj hx
      cases hk
    · cases hx
  have hcall : ¬m.InCall 0 := by
    rintro ⟨f, hf, -⟩
    simp [hstack] at hf
  obtain ⟨hforgets, hgone⟩ := nobody_leaked h2 ⟨_, rfl⟩ hnew hoffered hrun hi hdrop hcall
    (by simp [howned]) fun _ _ _ => hq
  exact ⟨m, h2, hnew, hrun, hi, hdrop, hcall, hq, hforgets, hgone 0 .standard rfl⟩

end Machine
end Sluice
