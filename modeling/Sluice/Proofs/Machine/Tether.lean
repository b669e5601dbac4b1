import Sluice.Proofs.Machine.Spares

/-!
# Tethered subscribers

A subscriber that was handed one subscription, at one tap, is held by nobody but the
publisher at that tap. As long as it is held, it is subscribed, its cancellation is
about to reach the tap, or the driver at the tap is about to end.
-/

namespace Sluice

inductive Standing.Bound (τ : Tap) : Standing → Prop
  | subscribed {link : Link} {target : Option Nat} (h : link.tap = τ) :
      Bound τ ⟨.subscribed link, target⟩
  | terminal : Bound τ ⟨.terminal, none⟩

namespace Outline

def Terminal (o : Outline) (i : Nat) : Prop := o.roll.subscribers[i]? = some ⟨.terminal, none⟩

/-- The driver at the tap was cancelled or has completed its subscriber, so it is about to end. -/
def Parting (o : Outline) (τ : Tap) : Prop :=
  ∃ d, τ = .driver d ∧
    ((∃ x, o.roll.drivers[d]? = some x ∧ x.cancelled = true) ∨
      Frame.driver d .concluding ∈ o.bonds)

end Outline

/-- Publishers hold subscriber `i` at the tap `τ` at most, and no frame below is to hand it a
subscription. If `τ` is the tap of a driver, `k` is the driver's stream. -/
structure Engaged (i : Nat) (τ : Tap) (k : Nat) (l : Roll) (b : List Frame) : Prop where
  tap : ∀ t, l.holder t = some i → t = τ
  manuals : ∀ (n : Nat) kept, l.manuals[n]? = some kept → i ∉ kept
  driver : ∀ d, τ = .driver d → ∃ x, l.drivers[d]? = some x ∧ x.stream = k ∧
    (x.subscriber = some i ∧ x.ended = false ∨ x.subscriber = none ∧ x.ended = true)
  opening : ∀ n dest, Frame.sequence n (.opening dest) ∈ b → dest.subscriber ≠ i
  refusing : ∀ f ∈ b, f.refuses? = some i → l.holder τ ≠ some i
  launching : ∀ d dest, Frame.driver d (.opening dest) ∈ b → τ = .driver d → dest.subscriber = i

/-- Subscriber `i` was handed the subscription at `τ`, and no other. -/
structure Tethered (i : Nat) (τ : Tap) (k : Nat) (o : Outline) : Prop
    extends Engaged i τ k o.roll o.bonds where
  standing : ∃ s, o.roll.subscribers[i]? = some s ∧ s.Bound τ
  held : o.roll.holder τ = some i → o.Terminal i →
    (∃ link, o.control = .calling (.cancel link) ∧ link.tap = τ) ∨ o.Parting τ
  commits : o.control.commits? = some i → (∃ e, o.control = .calling (.tell i (.completion e))) ∧
    (o.roll.holder τ = some i → o.Parting τ)
  closing : ∀ h, Frame.closing h ∈ o.bonds → ∃ x, o.roll.handles[h]? = some x ∧
    (x.subscriber = i → o.Terminal i ∨ o.control = .calling (.tell i .cancel))
  closed : ∀ (h : Nat) x, o.roll.handles[h]? = some x → x.subscriber = i → x.state = .closed →
    o.Terminal i

def Frame.Spares (i : Nat) (τ : Tap) : Frame → Prop
  | sequence _ (.opening dest) | sequence _ (.refusing dest) | subject _ (.refusing dest _) =>
    dest.subscriber ≠ i
  | driver d (.opening _) => τ ≠ .driver d
  | closing _ => False
  | _ => True

theorem Frame.Spares.refuses {i : Nat} {τ : Tap} {f : Frame} (h : f.Spares i τ) :
    f.refuses? ≠ some i := by
  cases f with
  | sequence n f =>
    cases f with
    | refusing dest => exact fun he => h (Option.some.inj he)
    | _ => simp [Frame.refuses?]
  | subject n f =>
    cases f with
    | refusing dest c => exact fun he => h (Option.some.inj he)
    | _ => simp [Frame.refuses?]
  | _ => simp [Frame.refuses?]

variable {i j k n : Nat} {τ : Tap} {l l' : Roll} {b b' : List Frame} {c c' : Control}

theorem Engaged.spared (h : Engaged i τ k l b) (hl : l.Spares i l')
    (hb : ∀ f ∈ b', f ∈ b ∨ f.Spares i τ) : Engaged i τ k l' b' where
  tap := fun t ht => h.tap t (hl.holder t ht)
  manuals := by
    intro n kept hkept hi
    obtain ⟨kept', hold, hi'⟩ := hl.manuals n kept hkept hi
    exact h.manuals n kept' hold hi'
  driver := by
    intro d hd
    obtain ⟨x, hx, hstream, hsub⟩ := h.driver d hd
    obtain ⟨x', hx', hfol⟩ := hl.drivers d x hx
    refine ⟨x', hx', hfol.stream.trans hstream, ?_⟩
    rcases hfol.held with ⟨hsame, hended⟩ | hgone
    · rwa [hsame, hended]
    · exact .inr hgone
  opening := by
    intro n dest hf
    rcases hb _ hf with hold | hspares
    · exact h.opening n dest hold
    · exact hspares
  refusing := by
    intro f hf hi hheld
    rcases hb f hf with hold | hspares
    · exact h.refusing f hold hi (hl.holder τ hheld)
    · exact hspares.refuses hi
  launching := by
    intro d dest hf hd
    rcases hb _ hf with hold | hspares
    · exact h.launching d dest hold hd
    · exact absurd hd hspares

theorem Engaged.rebase (h : Engaged i τ k l b) (subscribers : Array Standing)
    (handles : Array Handle) :
    Engaged i τ k { l with subscribers := subscribers, handles := handles } b :=
  ⟨h.tap, h.manuals, h.driver, h.opening, h.refusing, h.launching⟩

theorem engaged_closing_cons : Engaged i τ k l (.closing n :: b) ↔ Engaged i τ k l b := by
  constructor
  · intro h
    exact ⟨h.tap, h.manuals, h.driver, fun _ _ hf => h.opening _ _ (.tail _ hf),
      fun f hf => h.refusing f (.tail _ hf), fun _ _ hf => h.launching _ _ (.tail _ hf)⟩
  · intro h
    refine ⟨h.tap, h.manuals, h.driver, fun _ _ hf => h.opening _ _ (by simpa using hf),
      fun f hf hi => ?_, fun _ _ hf => h.launching _ _ (by simpa using hf)⟩
    rcases List.mem_cons.mp hf with rfl | hf
    · cases hi
    · exact h.refusing f hf hi

theorem Control.Heeds.commits {link : Option Link} (h : c.Heeds link) : c.commits? = none := by
  cases link with
  | none => exact h
  | some link =>
    obtain rfl : c = _ := h
    rfl

namespace Tethered

theorem parting_of_spares (hl : l.Spares i l')
    (hconc : ∀ d, Frame.driver d .concluding ∈ b →
      Frame.driver d .concluding ∈ b' ∨ l'.holder (.driver d) ≠ some i)
    (hheld : l'.holder τ = some i) (h : Outline.Parting ⟨l, b, c⟩ τ) :
    Outline.Parting ⟨l', b', c'⟩ τ := by
  obtain ⟨d, rfl, ⟨x, hx, hcan⟩ | hf⟩ := h
  · obtain ⟨x', hx', hfol⟩ := hl.drivers d x hx
    exact ⟨d, rfl, .inl ⟨x', hx', hfol.cancelled hcan⟩⟩
  · exact ⟨d, rfl, .inr ((hconc d hf).resolve_right fun hne => hne hheld)⟩

theorem spared (h : Tethered i τ k ⟨l, b, c⟩) (hl : l.Spares i l')
    (hb : ∀ f ∈ b', f ∈ b ∨ f.Spares i τ)
    (hconc : ∀ d, Frame.driver d .concluding ∈ b →
      Frame.driver d .concluding ∈ b' ∨ l'.holder (.driver d) ≠ some i)
    (hcan : ∀ link, c = .calling (.cancel link) → link.tap = τ → l'.holder τ = some i →
      Outline.Parting ⟨l', b', c'⟩ τ)
    (htell : c ≠ .calling (.tell i .cancel))
    (hcommits : c'.commits? = some i → (∃ e, c' = .calling (.tell i (.completion e))) ∧
      (l'.holder τ = some i → Outline.Parting ⟨l', b', c'⟩ τ)) : Tethered i τ k ⟨l', b', c'⟩ := by
  have hterminal : Outline.Terminal ⟨l', b', c'⟩ i ↔ Outline.Terminal ⟨l, b, c⟩ i := by
    rw [Outline.Terminal, Outline.Terminal, hl.subscriber]
  refine { h.toEngaged.spared hl hb with
    standing := ?_, held := ?_, commits := hcommits, closing := ?_, closed := ?_ }
  · obtain ⟨s, hs, hbound⟩ := h.standing
    exact ⟨s, hl.subscriber.trans hs, hbound⟩
  · intro hheld hterm
    rcases h.held (hl.holder τ hheld) (hterminal.mp hterm) with ⟨link, hc, htap⟩ | hpart
    · exact .inr (hcan link hc htap hheld)
    · exact .inr (parting_of_spares hl hconc hheld hpart)
  · intro n hf
    rcases hb _ hf with hold | hspares
    · obtain ⟨x, hx, hi⟩ := h.closing n hold
      obtain ⟨x', hx', hsame⟩ := hl.owner n x hx
      refine ⟨x', hx', fun hx'i => .inl ?_⟩
      exact hterminal.mpr ((hi (hsame ▸ hx'i)).resolve_right htell)
    · exact hspares.elim
  · intro n x hx hi hstate
    obtain ⟨x', hx', hsame, hstate'⟩ := hl.closed n x hx hstate
    exact hterminal.mpr (h.closed n x' hx' (hsame.trans hi) hstate')

end Tethered
end Sluice
