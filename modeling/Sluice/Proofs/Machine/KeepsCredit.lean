import Sluice.Proofs.Machine.Effects
import Sluice.Proofs.Machine.Ration

/-!
# Sections that leave all credit alone

Most calls of a machine concern nobody's credit. They change other tables of the world,
leave at most a frame that nothing is spent in, and make no call that could deliver,
request or subscribe.
-/

namespace Sluice

/-- Everything that concerns credit is the same. -/
structure World.KeepsCredit (w w' : World) : Prop where
  subscribers : w'.subscribers = w.subscribers
  credit : w'.credit? = w.credit?
  trace : ∀ s ∈ w.trace, s ∈ w'.trace

theorem World.KeepsCredit.refl (w : World) : w.KeepsCredit w := ⟨rfl, rfl, fun _ => id⟩

theorem World.KeepsCredit.signal (w : World) (s : Signal) : w.KeepsCredit (w.signal s) :=
  ⟨rfl, rfl, fun _ h => Array.mem_push_of_mem s h⟩

theorem World.KeepsCredit.read {w w' : World} (h : w.KeepsCredit w') (n : Nat) (hr : w.Read n) :
    w'.Read n := by
  obtain ⟨v, hv⟩ := hr
  exact ⟨v, h.trace _ hv⟩

def Frame.OffCredit : Frame → Prop
  | sink _ _ | assign _ _ | sequence _ _ | subject _ _ | driver _ _ => False
  | _ => True

def Call.OffCredit : Call → Prop
  | tell _ (.value _) | tell _ (.subscription _) | subscribe _ _ | attach _ _ | request _ _ => False
  | _ => True

def Part.OffCredit : Part → Prop
  | subscribers | sequences | subjects | drivers => False
  | _ => True

namespace Machine

/-- `m'` comes of a section that leaves all credit alone. It began in `w`, above `rest`. -/
inductive KeepsCredit (w : World) (rest : List Frame) : Machine → Prop
  | answer {w' : World} {r : Reply} (h : w.KeepsCredit w') :
      KeepsCredit w rest ⟨w', rest, .answering r⟩
  | unwind {w' : World} {why : Panic} (h : w.KeepsCredit w') :
      KeepsCredit w rest ⟨w', rest, .unwinding why⟩
  | rethrow {w' : World} {why why' : Panic} (h : w.KeepsCredit w') :
      KeepsCredit w rest ⟨w', .rethrow why :: rest, .unwinding why'⟩
  | call {w' : World} {f : Frame} {c : Call} (h : w.KeepsCredit w') (hf : f.OffCredit)
      (hc : c.OffCredit) : KeepsCredit w rest ⟨w', f :: rest, .calling c⟩
  | tail {w' : World} {c : Call} (h : w.KeepsCredit w') (hc : c.OffCredit) :
      KeepsCredit w rest ⟨w', rest, .calling c⟩
  | ask {w' : World} {q : Question} {o : Outcome} (h : w.KeepsCredit w') :
      KeepsCredit w rest ⟨w', .asked q :: rest, .idle o⟩
  | wait {w' : World} {o : Outcome} (h : w.KeepsCredit w') : KeepsCredit w rest ⟨w', rest, .idle o⟩

variable {m m' : Machine} {w : World} {rest : List Frame} {i : Nat}

theorem answer_keepsCredit (m : Machine) (r : Reply) : KeepsCredit m.world m.stack (m.answer r) :=
  .answer (.refl _)

theorem move_keepsCredit {Out F : Type} (m : Machine) {w : World} (hw : m.world.KeepsCredit w)
    {out : Out → Call} {frame : F → Frame} (mv : Move Out F) (hf : ∀ f, (frame f).OffCredit)
    (ho : ∀ o, (out o).OffCredit) : KeepsCredit m.world m.stack (m.move w out frame mv) := by
  cases mv with
  | answer r => exact .answer hw
  | call o f => exact .call hw (hf f) (ho o)

theorem tickerCall_offCredit (i : Nat) (o : Ticker.Out) : (tickerCall i o).OffCredit := by
  cases o <;> trivial

theorem spawn_keepsCredit (m : Machine) (d : Nat) : KeepsCredit m.world m.stack (m.spawn d) := by
  refine .answer ⟨rfl, ?_, fun _ => id⟩
  funext τ
  cases τ with
  | driver e =>
    simp only [World.credit?, Array.getElem?_modify]
    split
    · rw [Option.map_map]
      rfl
    · rfl
  | _ => rfl

theorem Effect.keepsCredit {p : Part} (h : Effect m p m') (hp : p.OffCredit) :
    KeepsCredit m.world m.stack m' := by
  cases h with
  | sink | assign | stuck | custom | sequence | subject | driver => exact hp.elim
  | ticker n r =>
    have hw : m.world.KeepsCredit (m.world.setTicker n r.1) := ⟨rfl, rfl, fun _ => id⟩
    exact move_keepsCredit m hw r.2 (fun _ => trivial) (tickerCall_offCredit n)
  | answer r => exact answer_keepsCredit m r
  | unwind why => exact .unwind (.refl _)
  | ask q => exact .ask (.signal ..)
  | asked q => exact .ask (.refl _)
  | request | cancel => exact .tail (.refl _) trivial
  | spawn d => exact spawn_keepsCredit m d
  | advance => exact .answer ⟨rfl, rfl, fun _ h => Array.mem_push_of_mem _ h⟩
  | poll => exact .call ⟨rfl, rfl, fun _ h => Array.mem_push_of_mem _ h⟩ trivial trivial
  | keep | store | written | attached | drop | closed | push | pushWaking | wake | setTimer | turned
  | arrive => exact .answer ⟨rfl, rfl, fun _ => id⟩
  | set | resumes | cancels | close | lastUse | resume | turn | settle | advanceClock | jumpClock
  | stop => exact .call ⟨rfl, rfl, fun _ => id⟩ trivial trivial
  | jump => exact .tail ⟨rfl, rfl, fun _ => id⟩ trivial

end Machine

/-- A call that concerns no subscriber, no publisher and no task. -/
def Call.Peripheral : Call → Prop
  | tell _ _ | subscribe _ _ | attach _ _ | request _ _ | cancel _ => False
  | send _ _ | complete _ _ | run _ => False
  | _ => True

namespace Machine

theorem enter_keepsCredit (m : Machine) {c : Call} (hc : c.Peripheral) :
    KeepsCredit m.world m.stack (m.enter c) := by
  cases c with
  | tell | subscribe | attach | request | cancel | send | complete | run => exact hc.elim
  | _ => exact (enter_effect m rfl).keepsCredit (by trivial)

theorem proceed_keepsCredit (m : Machine) (r : Reply) {f : Frame} (hf : f.OffCredit)
    (ht : ∀ t, f ≠ .task t) : KeepsCredit m.world m.stack (m.proceed r f) := by
  cases f with
  | sink | assign | sequence | subject | driver => exact hf.elim
  | custom n => exact answer_keepsCredit m _
  | task t => exact absurd rfl (ht t)
  | _ => exact (proceed_effect m r rfl).keepsCredit (by trivial)

end Machine

theorem Call.OffCredit.ne_value {c : Call} (hc : c.OffCredit) (i : Nat) (v : Value) :
    c ≠ .tell i (.value v) := by
  rintro rfl
  exact hc

theorem Frame.OffCredit.not_guarded {f : Frame} (hf : f.OffCredit) (i : Nat) : ¬f.Guarded i := by
  cases f with
  | sink j f => exact hf.elim
  | sequence n f => exact hf.elim
  | _ => exact id

namespace World

variable {w w' : World} {f : Frame}

theorem spent?_of_offCredit (w : World) (hf : f.OffCredit) : w.spent? f = none := by
  cases f with
  | sequence n f => exact hf.elim
  | subject n f => exact hf.elim
  | driver d f => exact hf.elim
  | _ => rfl

namespace KeepsCredit

theorem link? (h : w.KeepsCredit w') (i : Nat) : w'.link? i = w.link? i := by
  rw [World.link?, World.link?, h.subscribers]

theorem allowance (h : w.KeepsCredit w') (i : Nat) : w'.allowance i = w.allowance i := by
  rw [World.allowance, World.allowance, h.subscribers]

end KeepsCredit
end World

namespace Machine

variable {m m' : Machine} {rest : List Frame} {i : Nat} {g : Option Frame} {k : Control}
  {failed : Prop}

theorem offers_of_offCredit {w : World} {stack : List Frame} {c : Call} (hc : c.OffCredit) :
    Offers ⟨w, stack, .calling c⟩ i := by
  unfold Offers
  cases c with
  | tell j msg =>
    cases msg with
    | subscription link => exact hc.elim
    | _ => trivial
  | request link d => exact hc.elim
  | subscribe source j => exact hc.elim
  | attach source j => exact hc.elim
  | _ => trivial

theorem told_calling {w : World} {stack : List Frame} {c : Call}
    (hc : ∀ v, c ≠ .tell i (.value v)) (hs : ∀ f ∈ stack.head?, ¬w.Serves i f) :
    Told ⟨w, stack, .calling c⟩ i := by
  refine ⟨?_, ?_⟩
  · rintro ⟨v, rfl⟩
    exact absurd rfl (hc v)
  · rintro ⟨f, hf, hserves⟩
    exact absurd hserves (hs f hf)

/-- The end of a section that left the frame `g`, with no call of it that could deliver, request
or subscribe. -/
inductive EndsOffCredit : Option Frame → Control → Prop
  | answer {r : Reply} : EndsOffCredit none (.answering r)
  | unwind {g : Option Frame} {why : Panic} : EndsOffCredit g (.unwinding why)
  | call {g : Option Frame} {c : Call} (hc : c.OffCredit) : EndsOffCredit g (.calling c)
  | wait {g : Option Frame} {o : Outcome} : EndsOffCredit g (.idle o)
  | stuck {g : Option Frame} : EndsOffCredit g .stuck

namespace EndsOffCredit

theorem offers {w : World} {stack : List Frame} (h : EndsOffCredit g k) :
    Offers ⟨w, stack, k⟩ i := by
  cases h with
  | call hc => exact offers_of_offCredit hc
  | _ => trivial

theorem told {w : World} {stack : List Frame} (h : EndsOffCredit g k)
    (hs : ∀ f ∈ stack.head?, ¬w.Serves i f) : Told ⟨w, stack, k⟩ i := by
  cases h with
  | call hc => exact told_calling (hc.ne_value i) hs
  | wait => exact hs
  | _ => trivial

theorem not_request (h : EndsOffCredit g k) (link : Link) (d : Demand) :
    k ≠ .calling (.request link d) := by
  rintro rfl
  cases h with
  | call hc => exact hc

theorem of_answering {r : Reply} (h : EndsOffCredit g k) (hr : k = .answering r) : g = none := by
  subst hr
  cases h
  rfl

end EndsOffCredit

theorem Rationed.endsOffCredit {w' : World} (h : m.Rationed failed i) (hl : m.Leaves i rest)
    (hcredit : w'.credit? = m.world.credit?) (hread : ∀ n, m.world.Read n → w'.Read n)
    (hlinks : ∀ j link, j ≠ i → w'.link? j = some link →
      m.world.link? j = some link ∨ w'.Apart i link.tap)
    (hlink : ∀ link, w'.link? i = some link → m.world.link? i = some link)
    (hallow : m.world.allowance i ≤ w'.allowance i)
    (hg : ∀ f ∈ g, ¬f.Guarded i ∧ w'.spent? f = none) (hk : EndsOffCredit g k)
    (hc : ∀ τ, m.world.loads i τ rest ≤ m.carried i τ) :
    Rationed ⟨w', g.toList ++ rest, k⟩ failed i := by
  have hclear (f : Frame) (hf : f ∈ (g.toList ++ rest).head?) : ¬w'.Serves i f := by
    cases g with
    | none => exact fun hserves =>
        hl.clear f hf ((World.serves_congr (World.spent?_congr hcredit)).mp hserves)
    | some g =>
      obtain rfl := Option.some.inj hf
      exact World.not_serves (hg g rfl).2
  exact h.steady hl hcredit hread hlinks hlink hallow rfl hg hk.offers (hk.told hclear)
    (fun link d hreq => absurd hreq (hk.not_request link d)) (fun r => hk.of_answering) hc

theorem Rationed.of_world {w' : World} (h : m.Rationed failed i) (hl : m.Leaves i rest)
    (hw : m.world.KeepsCredit w') (hg : ∀ f ∈ g, ¬f.Guarded i ∧ w'.spent? f = none)
    (hk : EndsOffCredit g k) (hc : ∀ τ, m.world.loads i τ rest ≤ m.carried i τ) :
    Rationed ⟨w', g.toList ++ rest, k⟩ failed i :=
  h.endsOffCredit hl hw.credit hw.read (fun j _ _ hj => .inl (hw.link? j ▸ hj))
    (fun _ hlink => hw.link? i ▸ hlink) (hw.allowance i).ge hg hk hc

theorem Rationed.keepsCredit (h : m.Rationed failed i) (hl : m.Leaves i rest)
    (hd : KeepsCredit m.world rest m') (hc : ∀ τ, m.world.loads i τ rest ≤ m.carried i τ) :
    m'.Rationed failed i := by
  have hleft {w' : World} {f : Frame} (hf : f.OffCredit) :
      ∀ g ∈ some f, ¬g.Guarded i ∧ w'.spent? g = none := by
    rintro g ⟨⟩
    exact ⟨hf.not_guarded i, w'.spent?_of_offCredit hf⟩
  cases hd with
  | answer hw => exact h.of_world (g := none) hl hw (by simp) .answer hc
  | unwind hw => exact h.of_world (g := none) hl hw (by simp) .unwind hc
  | rethrow hw => exact h.of_world hl hw (hleft (f := .rethrow _) trivial) .unwind hc
  | call hw hf hcall => exact h.of_world hl hw (hleft hf) (.call hcall) hc
  | tail hw hcall => exact h.of_world (g := none) hl hw (by simp) (.call hcall) hc
  | ask hw => exact h.of_world hl hw (hleft (f := .asked _) trivial) .wait hc
  | wait hw => exact h.of_world (g := none) hl hw (by simp) .wait hc

theorem Offers.with_world {w : World} (h : m.Offers i) (hr : ∀ n, w.Read n → m.world.Read n)
    (hlasts : m.world.Lasts w) (hholder : ∀ τ, w.holder? τ = m.world.holder? τ) :
    Offers { m with world := w } i := by
  unfold Offers at h ⊢
  dsimp only
  split
  · next j link hc =>
    rw [hc] at h
    exact fun hj => hlasts.apart (h hj)
  · next link d hc =>
    rw [hc] at h
    rwa [hholder]
  · next source j hc =>
    rw [hc] at h
    exact fun n hn hread => h n hn (hr n hread)
  · next source j hc =>
    rw [hc] at h
    exact fun n hn hread => h n hn (hr n hread)
  · trivial

theorem Told.with_world {w : World} (h : m.Told i)
    (hserves : ∀ f, w.Serves i f ↔ m.world.Serves i f) : Told { m with world := w } i := by
  unfold Told at h ⊢
  dsimp only
  split
  · next k hc =>
    rw [hc] at h
    simpa only [hserves] using h
  · next o hc =>
    rw [hc] at h
    simpa only [hserves] using h
  · trivial

theorem Rationed.with_taps {w : World} (h : m.Rationed failed i)
    (hread : ∀ n, w.Read n ↔ m.world.Read n)
    (hplace : ∀ τ, (m.world.credit? τ).isSome → (w.credit? τ).isSome)
    (hholder : ∀ τ, w.holder? τ = m.world.holder? τ) (hunits : ∀ τ, w.units τ = m.world.units τ)
    (hlink : ∀ j link, w.link? j = some link → m.world.link? j = some link)
    (hallow : m.world.allowance i ≤ w.allowance i ∨ ¬failed ∧ ∀ τ, m.worth i τ = 0) :
    Rationed { m with world := w } failed i := by
  have hlasts : m.world.Lasts w :=
    { read := fun n => (hread n).mpr
      place := hplace
      holder := fun τ k _ hk => hholder τ ▸ hk
      fresh := fun τ _ => (hunits τ).le
      unread := fun n k _ hk => hholder (.sequence n) ▸ hk
      polling := fun d x _ _ _ => hholder (.driver d) }
  have hspent (f : Frame) : w.spent? f = m.world.spent? f := by
    unfold World.spent?
    simp only [hholder]
  have hworth (τ : Tap) : worth { m with world := w } i τ = m.worth i τ := by
    have hcarried : carried { m with world := w } i τ = m.carried i τ := by
      unfold carried
      dsimp only
      simp only [hspent, World.loads_congr fun f _ => hspent f]
    rw [worth, worth, hcarried, World.purse, World.purse, hholder, hunits]
  have hordered : Ordered { m with world := w } i :=
    { fresh := by
        intro n hn
        rw [hholder, hunits]
        exact h.fresh n fun hr => hn ((hread n).mpr hr)
      kept := by
        intro f hf τ j hsp
        rw [hspent] at hsp
        obtain ⟨hk, hj⟩ := h.kept f hf τ j hsp
        exact ⟨hlasts.known hk, fun k hh => hj k (hholder τ ▸ hh)⟩
      links := fun j link hj hl => hlasts.apart (h.links j link hj (hlink j link hl))
      offers := h.offers.with_world (fun n => (hread n).mp) hlasts hholder
      nested := h.nested.congr fun f _ => hspent f
      told := h.told.with_world fun f => World.serves_congr (hspent f)
      settled := h.settled }
  exact h.of_worth_le hordered (fun τ => (hworth τ).le) (hlink i)
    (hallow.imp id fun hz => ⟨hz.1, fun τ => (hworth τ).trans (hz.2 τ)⟩)

theorem Rationed.with_world {w : World} (h : m.Rationed failed i) (hw : m.world.KeepsCredit w)
    (hr : ∀ n, w.Read n → m.world.Read n) : Rationed { m with world := w } failed i :=
  h.with_taps (fun n => ⟨hr n, hw.read n⟩) (fun τ => by rw [hw.credit]; exact id)
    (fun τ => World.holder?_congr hw.credit) (fun τ => World.units_congr hw.credit)
    (fun j link hl => hw.link? j ▸ hl) (.inl (hw.allowance i).ge)

end Machine
end Sluice
