import Sluice.Proofs.Machine.Tethered

/-!
# Taking a subscriber on

A subscriber that nothing refers to is attached to a publisher. The publisher takes it
on or turns it away, and hands it a subscription either way. From then on the
subscriber is tethered.
-/

namespace Sluice

namespace World

variable {w : World} {i : Nat}

theorem outlet_any {held : Option Outlet} :
    held.any (·.subscriber == i) = true ↔ held.map Outlet.subscriber = some i := by
  cases held <;> simp

theorem sequences_any : w.sequences.any (fun q => q.subscriber.any (·.subscriber == i)) = true ↔
    ∃ n, w.roll.holder (.sequence n) = some i := by
  rw [Array.any_eq_true']
  constructor
  · rintro ⟨q, hq, hi⟩
    obtain ⟨n, hn⟩ := Array.mem_iff_getElem?.mp hq
    exact ⟨n, Option.join_eq_some_iff.mpr ((roll_sequence hn).trans
      (congrArg some (outlet_any.mp hi)))⟩
  · rintro ⟨n, hn⟩
    obtain ⟨q, hq, hi⟩ := Option.map_eq_some_iff.mp
      (Array.getElem?_map.symm.trans (Option.join_eq_some_iff.mp hn))
    exact ⟨q, Array.mem_of_getElem? hq, outlet_any.mpr hi⟩

theorem entries_any {s : Subject Outlet} :
    s.entries.any (fun e => e.subscriber.any (·.subscriber == i)) = true ↔
      ∃ e : Nat, s.roll.entries[e]? = some (some i) := by
  rw [Array.any_eq_true']
  constructor
  · rintro ⟨x, hx, hi⟩
    obtain ⟨e, he⟩ := Array.mem_iff_getElem?.mp hx
    exact ⟨e, (Array.getElem?_map.trans (congrArg _ he)).trans (congrArg some (outlet_any.mp hi))⟩
  · rintro ⟨e, he⟩
    obtain ⟨x, hx, hi⟩ := Option.map_eq_some_iff.mp (Array.getElem?_map.symm.trans he)
    exact ⟨x, Array.mem_of_getElem? hx, outlet_any.mpr hi⟩

theorem subjects_any :
    w.subjects.any (fun s => s.entries.any fun e => e.subscriber.any (·.subscriber == i)) = true ↔
      ∃ n e, w.roll.holder (.subject n e) = some i := by
  rw [Array.any_eq_true']
  constructor
  · rintro ⟨s, hs, hi⟩
    obtain ⟨n, hn⟩ := Array.mem_iff_getElem?.mp hs
    obtain ⟨e, he⟩ := entries_any.mp hi
    exact ⟨n, e, (Roll.holder_subject (roll_subject hn)).mpr he⟩
  · rintro ⟨n, e, hn⟩
    obtain ⟨t, ht, he⟩ := Option.bind_eq_some_iff.mp hn
    obtain ⟨s, hs, rfl⟩ := Option.map_eq_some_iff.mp (Array.getElem?_map.symm.trans ht)
    exact ⟨s, Array.mem_of_getElem? hs, entries_any.mpr ⟨e, Option.join_eq_some_iff.mp he⟩⟩

theorem drivers_any : w.drivers.any (fun x => x.driver.subscriber.any (·.subscriber == i)) = true ↔
    ∃ d, w.roll.holder (.driver d) = some i := by
  rw [Array.any_eq_true']
  constructor
  · rintro ⟨x, hx, hi⟩
    obtain ⟨d, hd⟩ := Array.mem_iff_getElem?.mp hx
    exact ⟨d, Option.bind_eq_some_iff.mpr ⟨_, roll_driver hd, outlet_any.mp hi⟩⟩
  · rintro ⟨d, hd⟩
    obtain ⟨y, hy, hi⟩ := Option.bind_eq_some_iff.mp hd
    obtain ⟨x, hx, rfl⟩ := Option.map_eq_some_iff.mp (Array.getElem?_map.symm.trans hy)
    exact ⟨x, Array.mem_of_getElem? hx, outlet_any.mpr hi⟩

theorem manuals_any : w.manuals.any (fun kept => kept.any (·.subscriber == i)) = true ↔
    ∃ (n : Nat) (kept : List Nat), w.roll.manuals[n]? = some kept ∧ i ∈ kept := by
  rw [Array.any_eq_true']
  constructor
  · rintro ⟨kept, hk, hi⟩
    obtain ⟨n, hn⟩ := Array.mem_iff_getElem?.mp hk
    exact ⟨n, _, Array.getElem?_map.trans (congrArg _ hn), by simpa using hi⟩
  · rintro ⟨n, kept, hn, hi⟩
    obtain ⟨old, hold, rfl⟩ := Option.map_eq_some_iff.mp (Array.getElem?_map.symm.trans hn)
    exact ⟨old, Array.mem_of_getElem? hold, by simpa using hi⟩

theorem handles_any : w.handles.any (fun h => h.subscriber == i && h.state != .closed) = true ↔
    ∃ (h : Nat) (x : Handle), w.roll.handles[h]? = some x ∧ x.subscriber = i ∧
      x.state ≠ .closed := by
  rw [Array.any_eq_true']
  constructor
  · rintro ⟨x, hx, hi⟩
    obtain ⟨h, hh⟩ := Array.mem_iff_getElem?.mp hx
    exact ⟨h, x, hh, by simpa using hi⟩
  · rintro ⟨h, x, hx, hi⟩
    exact ⟨x, Array.mem_of_getElem? hx, by simpa using hi⟩

theorem referred_iff : w.referred i = true ↔ i ∈ w.owned ∨
    (∃ (h : Nat) (x : Handle), w.roll.handles[h]? = some x ∧ x.subscriber = i ∧
      x.state ≠ .closed) ∨ (∃ t, w.roll.holder t = some i) ∨
    ∃ (n : Nat) (kept : List Nat), w.roll.manuals[n]? = some kept ∧ i ∈ kept := by
  have hholder : (∃ t, w.roll.holder t = some i) ↔ (∃ n, w.roll.holder (.sequence n) = some i) ∨
      (∃ n e, w.roll.holder (.subject n e) = some i) ∨
      ∃ d, w.roll.holder (.driver d) = some i := by
    constructor
    · rintro ⟨t, ht⟩
      cases t with
      | sequence n => exact .inl ⟨n, ht⟩
      | subject n e => exact .inr (.inl ⟨n, e, ht⟩)
      | driver d => exact .inr (.inr ⟨d, ht⟩)
      | inert => cases ht
      | custom n => cases ht
    · rintro (⟨n, hn⟩ | ⟨n, e, hn⟩ | ⟨d, hd⟩)
      · exact ⟨_, hn⟩
      · exact ⟨_, hn⟩
      · exact ⟨_, hd⟩
  simp only [referred, Bool.or_eq_true, handles_any, sequences_any, subjects_any, manuals_any,
    drivers_any, hholder, List.contains_iff_mem, or_assoc]
  exact or_congr_right (or_congr_right (or_congr_right (or_congr_right or_comm)))

end World

structure Unhandled (i : Nat) (l : Roll) (b : List Frame) : Prop where
  handles : ∀ (h : Nat) x, l.handles[h]? = some x → x.subscriber ≠ i
  closing : ∀ h, Frame.closing h ∈ b → h < l.handles.size

theorem Unhandled.push {i : Nat} {l l' : Roll} {b : List Frame} (h : Unhandled i l b)
    (hl : l'.handles = l.handles) {f : Frame} (hf : ∀ n, f ≠ .closing n) :
    Unhandled i l' (f :: b) where
  handles := fun n x hx => h.handles n x (hl ▸ hx)
  closing := fun n hn => by
    rw [hl]
    exact h.closing n (List.mem_of_ne_of_mem (hf n).symm hn)

structure Untaken (i : Nat) (l : Roll) (b : List Frame) : Prop where
  holder : ∀ t, l.holder t ≠ some i
  manuals : ∀ (n : Nat) kept, l.manuals[n]? = some kept → i ∉ kept
  opening : ∀ n dest, Frame.sequence n (.opening dest) ∈ b → dest.subscriber ≠ i
  refuses : ∀ f ∈ b, f.refuses? ≠ some i
  launching : ∀ d dest, Frame.driver d (.opening dest) ∈ b → d < l.drivers.size

variable {i k n : Nat} {τ : Tap} {l : Roll} {b : List Frame}

namespace Untaken

theorem turnedAway (h : Untaken i l b) (k : Nat) {f : Frame}
    (hf : ∀ n dest, f ≠ .sequence n (.opening dest)) : Engaged i .inert k l (f :: b) where
  tap := fun t ht => absurd ht (h.holder t)
  manuals := h.manuals
  driver := nofun
  opening := fun n dest hm => h.opening n dest (List.mem_of_ne_of_mem (hf n dest).symm hm)
  refusing := fun _ _ _ => nofun
  launching := nofun

theorem opened (h : Untaken i l b) (k n : Nat) :
    Engaged i (.sequence n) k (l.setSequence n (some i)) b where
  tap := by
    intro t ht
    cases t with
    | sequence n' =>
      by_cases hn : n = n'
      · rw [hn]
      · have hold : (l.setSequence n (some i)).holder (.sequence n') = l.holder (.sequence n') :=
          congrArg Option.join (Array.getElem?_setIfInBounds_ne hn)
        exact absurd (hold ▸ ht) (h.holder _)
    | inert => cases ht
    | subject n' e => exact absurd ht (h.holder (.subject n' e))
    | driver d => exact absurd ht (h.holder (.driver d))
    | custom n' => cases ht
  manuals := h.manuals
  driver := nofun
  opening := h.opening
  refusing := fun f hf hi => absurd hi (h.refuses f hf)
  launching := nofun

theorem enlisted {s : SubjectRoll} (h : Untaken i l b) (k : Nat) (hs : l.subjects[n]? = some s) :
    Engaged i (.subject n s.entries.size) k (l.setSubject n (s.enlist i)) b where
  tap := by
    intro t ht
    rcases Roll.holder_setSubject hs t ht with ⟨e, rfl, he⟩ | ⟨hold, -⟩
    · rw [SubjectRoll.enlist, Array.getElem?_push] at he
      split at he
      · next heq => rw [heq]
      · exact absurd ((Roll.holder_subject hs).mpr he) (h.holder _)
    · exact absurd hold (h.holder t)
  manuals := h.manuals
  driver := nofun
  opening := h.opening
  refusing := fun f hf hi => absurd hi (h.refuses f hf)
  launching := nofun

theorem driven (h : Untaken i l b) (k : Nat) (audits : List Nat) :
    Engaged i (.driver l.drivers.size) k
      { l with drivers := l.drivers.push ⟨some i, false, false, k⟩ }
      (.driver l.drivers.size (.opening ⟨audits, i⟩) :: b) where
  tap := by
    intro t ht
    cases t with
    | driver d =>
      simp only [Roll.holder, Array.getElem?_push] at ht
      split at ht
      · next heq => rw [heq]
      · exact absurd ht (h.holder (.driver d))
    | inert => cases ht
    | sequence n => exact absurd ht (h.holder (.sequence n))
    | subject n e => exact absurd ht (h.holder (.subject n e))
    | custom n => cases ht
  manuals := h.manuals
  driver := by
    intro d hd
    obtain rfl := Tap.driver.inj hd
    exact ⟨_, Array.getElem?_push_size, rfl, .inl ⟨rfl, rfl⟩⟩
  opening := fun n dest hm => h.opening n dest (List.mem_of_ne_of_mem (by simp) hm)
  refusing := fun f hm hi => by
    rcases List.mem_cons.mp hm with rfl | hm
    · cases hi
    · exact absurd hi (h.refuses f hm)
  launching := fun d dest hm hd => by
    obtain rfl := Tap.driver.inj hd
    rcases List.mem_cons.mp hm with heq | hm
    · obtain rfl : dest = ⟨audits, i⟩ := by simpa using heq
      rfl
    · exact absurd (h.launching _ dest hm) (Nat.lt_irrefl _)

end Untaken

theorem Engaged.tethered {s : Standing} {target : Option Nat} {audits : List Nat} {c : Control}
    (h : Engaged i τ k l b) (hu : Unhandled i l b) (hs : l.subscribers[i]? = some s)
    (hc : c.commits? = none) :
    Tethered i τ k ⟨l.setSubscriber i ⟨.subscribed ⟨audits, τ⟩, target⟩, b, c⟩ := by
  have hself : (l.setSubscriber i ⟨.subscribed ⟨audits, τ⟩, target⟩).subscribers[i]? =
      some ⟨.subscribed ⟨audits, τ⟩, target⟩ :=
    Array.getElem?_setIfInBounds_self_of_lt (Array.getElem?_eq_some_iff.mp hs).1
  refine { h.rebase _ _ with
    standing := ⟨_, hself, .subscribed rfl⟩, held := fun _ ht => ?_, commits := ?_
    closing := fun n hn => ?_, closed := fun n x hx hi => absurd hi (hu.handles n x hx) }
  · cases hself.symm.trans ht
  · simp [hc]
  · have hlt := hu.closing n hn
    exact ⟨_, Array.getElem?_eq_getElem hlt,
      fun hi => absurd hi (hu.handles n _ (Array.getElem?_eq_getElem hlt))⟩

def World.Unsubscribed (w : World) (i : Nat) : Prop :=
  ∃ s, w.subscribers[i]? = some s ∧ s.Fresh ∧ s ≠ .custom

def Source.Offered (source : Source) (w : World) : Prop :=
  match source.origin with
  | .sequence n => n < w.sequences.size
  | .subject n => n < w.subjects.size
  | .manual _ => False
  | .stream _ _ => source.Fresh w

theorem Source.Offered.fresh {source : Source} {w : World} (h : source.Offered w) :
    source.Fresh w := by
  cases ho : source.origin with
  | stream n pace => simpa only [Source.Offered, ho] using h
  | _ => simp only [Source.Fresh, ho]

/-- If the source is made from a stream, it is `k`, and `τ` is the tap of its driver. -/
def Source.Feeds (source : Source) (τ : Tap) (k : Nat) : Prop :=
  match source.origin with
  | .stream n _ => n = k ∧ ∃ d, τ = .driver d
  | _ => ∀ d, τ ≠ .driver d

theorem Frame.mem_subscribers_of_refuses {f : Frame} (h : f.refuses? = some i) :
    i ∈ f.subscribers := by
  unfold Frame.refuses? at h
  split at h
  · obtain rfl := Option.some.inj h
    exact List.mem_singleton_self _
  · obtain rfl := Option.some.inj h
    exact List.mem_singleton_self _
  · cases h

namespace Machine

structure Newcomer (m : Machine) (i : Nat) : Prop where
  fresh : m.world.Unsubscribed i
  unknown : m.alive i = false
  handles : ∀ (h : Nat) x, m.world.handles[h]? = some x → x.subscriber ≠ i

/-- The machine is about to hand the subscription at the tap to subscriber `i`. -/
structure HandsOver (m : Machine) (i : Nat) (τ : Tap) (k : Nat) : Prop where
  fresh : m.world.Unsubscribed i
  engaged : Engaged i τ k m.world.roll m.bonds
  unhandled : Unhandled i m.world.roll m.bonds
  control : ∃ audits, m.control = .calling (.tell i (.subscription ⟨audits, τ⟩))

variable {m : Machine} {audits : List Nat} {source : Source}

theorem handsOver_of_outline (ho : m.outline = ⟨l, b, .calling (handOver ⟨audits, i⟩ τ)⟩)
    (hs : m.world.Unsubscribed i) (he : Engaged i τ k l b) (hu : Unhandled i l b) :
    m.HandsOver i τ k := by
  obtain ⟨rfl, rfl, hc⟩ := Outline.mk.inj ho
  exact ⟨hs, he, hu, audits, hc⟩

theorem tell_subscription_heard {s : Subscriber} (hs : m.world.subscribers[i]? = some s)
    (hne : s ≠ .custom) (link : Link) :
    Hearing m i s.standing (.subscription link) (m.tell i (.subscription link)) := by
  cases s with
  | sink s =>
    have hask (v : Value) (f : Sink.Frame) :
        (s.enter (.subscription link)).2 ≠ .call (.predicate v) f := by
      intro he
      obtain ⟨w, hw⟩ := Sink.enter_predicate he
      cases hw
    rw [tell_sink hs hask]
    exact sinkSection_heard m i s _
  | assign s rule =>
    rw [tell_assign hs]
    exact assignSection_heard m i s rule _
  | custom => exact absurd rfl hne

theorem HandsOver.tethered (h : m.HandsOver i τ k) : Tethered i τ k m.step.outline := by
  obtain ⟨s, hs, hfresh, hne⟩ := h.fresh
  obtain ⟨audits, hc⟩ := h.control
  have hstep : m.step = m.tell i (.subscription ⟨audits, τ⟩) := by simp only [step, hc, enter]
  have hheard := tell_subscription_heard hs hne ⟨audits, τ⟩
  obtain ⟨target, hstanding⟩ : ∃ target, s.standing = ⟨.awaiting, target⟩ := by
    cases hfresh with
    | sink => exact ⟨none, rfl⟩
    | assign mode target rule => exact ⟨some target, rfl⟩
    | custom => exact absurd rfl hne
  rw [hstanding] at hheard
  rw [hstep, outline, hheard.roll, hheard.bonds]
  exact h.engaged.tethered h.unhandled (World.roll_subscriber hs) hheard.control

theorem Newcomer.unhandled (h : m.Newcomer i) (hr : Reached Calm m) :
    Unhandled i m.world.roll m.bonds :=
  ⟨h.handles, hr.orderly.closing⟩

theorem Newcomer.untaken (h : m.Newcomer i) (hr : Reached Calm m) :
    Untaken i m.world.roll m.bonds := by
  obtain ⟨hreferred, hstack⟩ := Bool.or_eq_false_iff.mp h.unknown
  have hfree : ¬m.world.referred i = true := by simp [hreferred]
  rw [World.referred_iff, not_or, not_or, not_or] at hfree
  obtain ⟨-, -, hholder, hmanuals⟩ := hfree
  have hnot {f : Frame} (hf : f ∈ m.bonds) : i ∉ f.subscribers := by
    have hno := List.any_eq_false.mp hstack f (List.mem_filter.mp hf).1
    simpa using hno
  refine ⟨not_exists.mp hholder, fun n kept hn hi => hmanuals ⟨n, kept, hn, hi⟩, ?_, ?_, ?_⟩
  · rintro n dest hf rfl
    exact hnot hf (by simp [Frame.subscribers])
  · exact fun f hf hi => hnot hf (Frame.mem_subscribers_of_refuses hi)
  · intro d dest hf
    obtain ⟨x, hx, -⟩ := hr.attentive.1.linked.opening (List.mem_filter.mp hf).1
    exact (Array.getElem?_eq_some_iff.mp (World.roll_driver hx)).1

theorem advance_roll (m : Machine) (n : Nat) : (m.advance n).world.roll = m.world.roll ∧
    (m.advance n).world.subscribers = m.world.subscribers ∧
    (m.advance n).world.sequences = m.world.sequences ∧ (m.advance n).stack = m.stack ∧
    ∃ r, (m.advance n).control = .answering r := by
  unfold advance
  split
  · exact ⟨rfl, rfl, rfl, rfl, _, rfl⟩
  · exact ⟨rfl, rfl, rfl, rfl, _, rfl⟩

theorem handsOver_of_opening {rest : List Frame} {r : Reply} (hc : m.control = .answering r)
    (hs : m.stack = .sequence n (.opening ⟨audits, i⟩) :: rest) (hn : n < m.world.sequences.size)
    (hf : m.world.Unsubscribed i) (ht : Untaken i m.world.roll (rest.filter Frame.binds))
    (hu : Unhandled i m.world.roll (rest.filter Frame.binds)) :
    ∃ τ, m.step.HandsOver i τ k ∧ ∀ d, τ ≠ .driver d := by
  obtain ⟨q, hq⟩ : ∃ q, m.world.sequences[n]? = some q := ⟨_, Array.getElem?_eq_getElem hn⟩
  have hstep : m.step = sequenceSection { m with stack := rest } n
      (q.onOpened ⟨audits, i⟩ r.item?) := by
    simp only [step, hc, hs, proceed, proceedSequence, hq, Sequence.proceed]
  have hfresh : m.step.world.Unsubscribed i := by
    rw [hstep]
    cases r.item? <;> exact hf
  rcases opened_sequence (m := { m with stack := rest }) hq ⟨audits, i⟩ r.item? with ho | ho
  · exact ⟨_, handsOver_of_outline (hstep ▸ ho) hfresh (ht.opened k n) ⟨hu.handles, hu.closing⟩,
      by simp⟩
  · exact ⟨_, handsOver_of_outline (hstep ▸ ho) hfresh (ht.turnedAway k (by simp))
      (hu.push rfl (by simp)), by simp⟩

/-- The machine arrives at such a state before it is the environment's turn. -/
inductive Arrives (P : Machine → Prop) : Machine → Prop
  | here {m : Machine} (h : P m) : Arrives P m
  | step {m : Machine} (hm : ¬m.Idle) (h : Arrives P m.step) : Arrives P m

theorem not_idle_calling {c : Call} (hc : m.control = .calling c) : ¬m.Idle := by
  rintro ⟨o, ho⟩
  cases hc.symm.trans ho

theorem not_idle_answering {r : Reply} (hc : m.control = .answering r) : ¬m.Idle := by
  rintro ⟨o, ho⟩
  cases hc.symm.trans ho

def Served (source : Source) (i : Nat) (m : Machine) : Prop :=
  ∃ τ k, m.HandsOver i τ k ∧ source.Feeds τ k

theorem served_of_advance {rest : List Frame} (ho : source.origin = .sequence n)
    (hc : m.control = .calling (.advance n))
    (hs : m.stack = .sequence n (.opening ⟨audits, i⟩) :: rest) (hn : n < m.world.sequences.size)
    (hf : m.world.Unsubscribed i) (ht : Untaken i m.world.roll (rest.filter Frame.binds))
    (hu : Unhandled i m.world.roll (rest.filter Frame.binds)) : Arrives (Served source i) m := by
  have hstep : m.step = m.advance n := by simp only [step, hc, enter]
  obtain ⟨hroll, hsubs, hseqs, hstack, r, hr⟩ := advance_roll m n
  rw [← hstep] at hroll hsubs hseqs hstack hr
  have hf' : m.step.world.Unsubscribed i := by
    rw [World.Unsubscribed, hsubs]
    exact hf
  obtain ⟨τ, hτ, hdriven⟩ := handsOver_of_opening (k := 0) hr (hstack.trans hs) (hseqs ▸ hn) hf'
    (hroll ▸ ht) (hroll ▸ hu)
  have hfeeds : source.Feeds τ 0 := by
    rw [Source.Feeds, ho]
    exact hdriven
  exact .step (not_idle_calling hc) (.step (not_idle_answering hr) (.here ⟨τ, 0, hτ, hfeeds⟩))

theorem served_of_sequence (ho : source.origin = .sequence n)
    (hc : m.control = .calling (.subscribe source i)) (hn : n < m.world.sequences.size)
    (hf : m.world.Unsubscribed i) (ht : Untaken i m.world.roll m.bonds)
    (hu : Unhandled i m.world.roll m.bonds) : Arrives (Served source i) m := by
  obtain ⟨q, hq⟩ : ∃ q, m.world.sequences[n]? = some q := ⟨_, Array.getElem?_eq_getElem hn⟩
  have hsame : (m.world.setSequence n q).roll = m.world.roll := World.roll_keepSequence hq rfl
  -- The sequence is read one item ahead before the subscriber gets its subscription.
  have hstep : m.step = ⟨m.world.setSequence n q,
      .sequence n (.opening ⟨source.audits, i⟩) :: m.stack, .calling (.advance n)⟩ := by
    simp only [step, hc, enter, Machine.subscribe, ho, enterSequence, hq]
    rfl
  refine .step (not_idle_calling hc) ?_
  rw [hstep]
  exact served_of_advance ho rfl rfl (by simpa [World.setSequence] using hn) hf (hsame ▸ ht)
    (hsame ▸ hu)

theorem served_of_subscribe (hc : m.control = .calling (.subscribe source i))
    (hs : source.Offered m.world) (hf : m.world.Unsubscribed i)
    (ht : Untaken i m.world.roll m.bonds) (hu : Unhandled i m.world.roll m.bonds) :
    Arrives (Served source i) m := by
  have hstep : m.step = m.subscribe source i := by simp only [step, hc, enter]
  have hfresh : m.step.world.Unsubscribed i := by
    rw [hstep, World.Unsubscribed, (subscribe_aloof m source i).subscribers]
    exact hf
  cases ho : source.origin with
  | sequence n =>
    rw [Source.Offered, ho] at hs
    exact served_of_sequence ho hc hs hf ht hu
  | subject n =>
    rw [Source.Offered, ho] at hs
    have hget := Array.getElem?_eq_getElem hs
    have hsub : m.step = m.subjectSection n
        (m.world.subjects[n].onSubscribe ⟨source.audits, i⟩) := by
      rw [hstep]
      simp only [Machine.subscribe, ho, enterSubject, hget, Subject.enter]
    have hfeeds {τ : Tap} (hτ : ∀ d, τ ≠ .driver d) : source.Feeds τ 0 := by
      rw [Source.Feeds, ho]
      exact hτ
    refine .step (not_idle_calling hc) (.here ?_)
    rcases subscribed_subject source i hget with ⟨hnew, -⟩ | ⟨c, hlate⟩
    · have hengaged := ht.enlisted 0 (World.roll_subject hget)
      exact ⟨_, 0, handsOver_of_outline (hsub ▸ hnew) hfresh hengaged ⟨hu.handles, hu.closing⟩,
        hfeeds (by simp)⟩
    · exact ⟨_, 0, handsOver_of_outline (hsub ▸ hlate) hfresh (ht.turnedAway 0 (by simp))
        (hu.push rfl (by simp)), hfeeds (by simp)⟩
  | manual n =>
    rw [Source.Offered, ho] at hs
    exact hs.elim
  | stream n pace =>
    refine .step (not_idle_calling hc) (.here ⟨_, n, handsOver_of_outline
      ((congrArg outline hstep).trans (subscribed_stream ho)) hfresh (ht.driven n source.audits) ?_,
      ?_⟩)
    · exact hu.push (by rfl) (by simp)
    · rw [Source.Feeds, ho]
      exact ⟨rfl, _, rfl⟩

theorem Newcomer.served (h : m.Newcomer i) (hr : Reached Calm m) (hs : source.Offered m.world) :
    Arrives (Served source i) (m.invoke (.attach source i)) :=
  .step (not_idle_calling rfl)
    (served_of_subscribe (m := (m.invoke (.attach source i)).step) rfl hs h.fresh (h.untaken hr)
      (h.unhandled hr))

end Machine
end Sluice
