import Sluice.Proofs.Machine.Tether

/-!
# Tethered through a run

Whatever a machine does, and whatever its environment does but for subscribing or
completing the subscriber itself, a tethered subscriber stays tethered.
-/

namespace Sluice

variable {i j k n : Nat} {τ : Tap} {l l' : Roll} {b b' : List Frame} {c c' : Control}

/-- No frame is pushed that is of concern to subscriber `i`, and no driver that is about to end is
forgotten. -/
structure BondsSpare (i : Nat) (τ : Tap) (b b' : List Frame) : Prop where
  pushed : ∀ f ∈ b', f ∈ b ∨ f.Spares i τ
  concluding : ∀ d, Frame.driver d .concluding ∈ b → Frame.driver d .concluding ∈ b'

namespace BondsSpare

theorem refl (i : Nat) (τ : Tap) (b : List Frame) : BondsSpare i τ b b :=
  ⟨fun _ => .inl, fun _ => id⟩

theorem push {f : Frame} (hf : f.Spares i τ) : BondsSpare i τ b (f :: b) where
  pushed := fun g hg => by
    rcases List.mem_cons.mp hg with rfl | hg
    · exact .inr hf
    · exact .inl hg
  concluding := fun _ => .tail _

theorem pop {f : Frame} (hf : ∀ d, f ≠ .driver d .concluding) : BondsSpare i τ (f :: b) b :=
  ⟨fun _ hg => .inl (.tail _ hg), fun d => List.mem_of_ne_of_mem (hf d).symm⟩

theorem trans (h : BondsSpare i τ b b') {b'' : List Frame} (h' : BondsSpare i τ b' b'') :
    BondsSpare i τ b b'' where
  pushed := fun f hf => by
    rcases h'.pushed f hf with hold | hspares
    · exact h.pushed f hold
    · exact .inr hspares
  concluding := fun d hd => h'.concluding d (h.concluding d hd)

theorem swap {f g : Frame} (hf : ∀ d, f ≠ .driver d .concluding) (hg : g.Spares i τ) :
    BondsSpare i τ (f :: b) (g :: b) :=
  (pop hf).trans (push hg)

end BondsSpare

theorem Frame.ne_concluding_of_refuses {f : Frame} (hf : f.refuses? = some j) (d : Nat) :
    f ≠ .driver d .concluding := by
  rintro rfl
  cases hf

theorem Frame.Lapses.ne_concluding {f : Frame} (hf : f.Lapses) (d : Nat) :
    f ≠ .driver d .concluding := by
  rintro rfl
  exact hf

theorem Engaged.left {s u : SubjectRoll} {e : Nat} (h : Engaged i τ k l b)
    (hs : l.subjects[n]? = some s) (he : s.entries[e]? = some (some i))
    (hu : ∀ e' : Nat, u.entries[e']? = some (some i) → e' ≠ e) :
    (l.setSubject n u).holder τ ≠ some i := by
  obtain rfl := h.tap _ ((Roll.holder_subject hs).mpr he)
  intro hheld
  rcases Roll.holder_setSubject hs _ hheld with ⟨e', heq, he'⟩ | ⟨-, hne⟩
  · obtain ⟨-, rfl⟩ := Tap.subject.inj heq
    exact hu e he' rfl
  · exact hne e rfl

namespace Tethered

theorem idly (h : Tethered i τ k ⟨l, b, c⟩) (hc : c.Idles l) (hl : l.Spares i l')
    (hb : BondsSpare i τ b b')
    (hcommits : c'.commits? = some i → (∃ e, c' = .calling (.tell i (.completion e))) ∧
      (l'.holder τ = some i → Outline.Parting ⟨l', b', c'⟩ τ)) : Tethered i τ k ⟨l', b', c'⟩ := by
  refine h.spared hl hb.pushed (fun d hd => .inl (hb.concluding d hd)) ?_ ?_ hcommits
  · rintro link rfl
    exact hc.elim
  · rintro rfl
    obtain ⟨s, hs, hbound⟩ := h.standing
    have hawaiting := hc s hs
    cases hbound with
    | subscribed htap => cases hawaiting
    | terminal => cases hawaiting

theorem idly_uncommitted (h : Tethered i τ k ⟨l, b, c⟩) (hc : c.Idles l) (hl : l.Spares i l')
    (hb : BondsSpare i τ b b') (hc' : c'.commits? ≠ some i) : Tethered i τ k ⟨l', b', c'⟩ :=
  h.idly hc hl hb fun hi => absurd hi hc'

theorem idly_completing {e : Ending} (h : Tethered i τ k ⟨l, b, c⟩) (hc : c.Idles l)
    (hl : l.Spares i l') (hb : BondsSpare i τ b b')
    (hpart : j = i → l'.holder τ = some i →
      Outline.Parting ⟨l', b', .calling (.tell j (.completion e))⟩ τ) :
    Tethered i τ k ⟨l', b', .calling (.tell j (.completion e))⟩ := by
  refine h.idly hc hl hb fun hi => ?_
  obtain rfl := Option.some.inj hi
  exact ⟨⟨e, rfl⟩, hpart rfl⟩

theorem ne_of_commits (h : Tethered i τ k ⟨l, b, c⟩) (hc : c.commits? = some j)
    (hnot : ∀ e, c ≠ .calling (.tell j (.completion e))) : j ≠ i := by
  rintro rfl
  obtain ⟨⟨e, he⟩, -⟩ := h.commits hc
  exact hnot e he

theorem ended (h : Tethered i τ k ⟨l, b, c⟩) (hc' : c'.commits? = none)
    (hheld : l.holder τ = some i →
      (∃ link, c' = .calling (.cancel link) ∧ link.tap = τ) ∨ Outline.Parting ⟨l, b, c⟩ τ) :
    Tethered i τ k ⟨l.setSubscriber i ⟨.terminal, none⟩, b, c'⟩ := by
  obtain ⟨s, hs, -⟩ := h.standing
  have hterm : Outline.Terminal ⟨l.setSubscriber i ⟨.terminal, none⟩, b, c'⟩ i :=
    Array.getElem?_setIfInBounds_self_of_lt (Array.getElem?_eq_some_iff.mp hs).1
  refine { h.toEngaged.rebase _ _ with
    standing := ⟨_, hterm, .terminal⟩, held := fun hi _ => hheld hi, commits := ?_
    closing := fun n hn => ?_, closed := fun _ _ _ _ _ => hterm }
  · simp [hc']
  · obtain ⟨x, hx, -⟩ := h.closing n hn
    exact ⟨x, hx, fun _ => .inl hterm⟩

theorem told {s : Standing} {msg : Message Link}
    (h : Tethered i τ k ⟨l, b, .calling (.tell i msg)⟩) (hs : l.subscribers[i]? = some s)
    (hc : c.Heeds (s.hear msg).2) :
    Tethered i τ k ⟨l.setSubscriber i (s.hear msg).1, b, c⟩ := by
  obtain ⟨s', hs', hbound⟩ := h.standing
  obtain rfl := Option.some.inj (hs.symm.trans hs')
  have hnone := hc.commits
  have hsame : l.setSubscriber i s = l := by rw [Roll.setSubscriber, setIfInBounds_same hs]
  have hunheard (hmsg : msg ≠ .cancel) : Tethered i τ k ⟨l.setSubscriber i s, b, c⟩ := by
    rw [hsame]
    refine h.spared (.refl i l) (fun _ => .inl) (fun _ => .inl) (by simp) (by simpa using hmsg) ?_
    simp [hnone]
  cases msg with
  | subscription link => exact absurd rfl (h.ne_of_commits rfl (by simp))
  | value v => exact hunheard (by simp)
  | resume => exact hunheard (by simp)
  | completion e => exact h.ended hnone fun hi => .inr ((h.commits rfl).2 hi)
  | cancel =>
    cases hbound with
    | @subscribed link target htap =>
      obtain rfl : c = .calling (.cancel link) := hc
      exact h.ended rfl fun _ => .inl ⟨link, rfl, htap⟩
    | terminal =>
      refine h.ended hnone fun hi => ?_
      rcases h.held hi hs with ⟨link, hcall, -⟩ | hpart
      · simp at hcall
      · exact .inr hpart

theorem heard {s : Standing} {msg : Message Link}
    (h : Tethered i τ k ⟨l, b, .calling (.tell j msg)⟩) (hs : l.subscribers[j]? = some s)
    (hc : c.Heeds (s.hear msg).2) :
    Tethered i τ k ⟨l.setSubscriber j (s.hear msg).1, b, c⟩ := by
  by_cases hj : j = i
  · subst hj
    exact h.told hs hc
  · have hnone := hc.commits
    exact h.spared (l.spares_setSubscriber _ hj) (fun _ => .inl) (fun _ => .inl) (by simp)
      (by simp [hj]) (by simp [hnone])

theorem closes {x : Handle} (h : Tethered i τ k ⟨l, b, .calling (.tell j .cancel)⟩)
    (hx : l.handles[n]? = some x) (hj : x.subscriber = j) :
    Tethered i τ k ⟨l, .closing n :: b, .calling (.tell j .cancel)⟩ := by
  refine { engaged_closing_cons.mpr h.toEngaged with
    standing := h.standing, held := fun hi ht => ?_, commits := fun he => by cases he
    closing := fun n' hf => ?_, closed := h.closed }
  · rcases h.held hi ht with ⟨link, hcall, -⟩ | ⟨d, hd, hpart⟩
    · simp at hcall
    · exact .inr ⟨d, hd, hpart.imp_right (.tail _)⟩
  · rcases List.mem_cons.mp hf with heq | hf
    · obtain rfl := Frame.closing.inj heq
      exact ⟨x, hx, fun hi => .inr (by rw [← hj, hi])⟩
    · exact h.closing n' hf

theorem shut {r r' : Reply} (h : Tethered i τ k ⟨l, .closing n :: b, .answering r⟩) :
    Tethered i τ k ⟨l.setHandle n .closed, b, .answering r'⟩ := by
  refine { (engaged_closing_cons.mp h.toEngaged).rebase _ _ with
    standing := h.standing, held := fun hi ht => ?_, commits := fun he => by cases he
    closing := fun n' hf => ?_, closed := fun n' x hx hi hstate => ?_ }
  · rcases h.held hi ht with ⟨link, hcall, -⟩ | ⟨d, hd, hpart⟩
    · cases hcall
    · exact .inr ⟨d, hd, hpart.imp_right (List.mem_of_ne_of_mem (by simp))⟩
  · obtain ⟨x, hx, hi⟩ := h.closing n' (.tail _ hf)
    obtain ⟨x', hx', hsame⟩ := l.owner_setHandle n .closed n' x hx
    refine ⟨x', hx', fun hx'i => .inl ?_⟩
    exact (hi (hsame ▸ hx'i)).resolve_right (by simp)
  · obtain ⟨y, hy, rfl⟩ :=
      Option.map_eq_some_iff.mp ((l.getElem?_setHandle n .closed n').symm.trans hx)
    by_cases hn : n = n'
    · subst hn
      obtain ⟨z, hz, hterm⟩ := h.closing n List.mem_cons_self
      obtain rfl := Option.some.inj (hy.symm.trans hz)
      rw [if_pos rfl] at hi
      exact (hterm hi).resolve_right (by simp)
    · rw [if_neg hn] at hi hstate
      exact h.closed n' y hy hi hstate

theorem cancelled {link : Link} (h : Tethered i τ k ⟨l, b, .calling (.cancel link)⟩)
    (hc : c.commits? = none) : Tethered i τ k ⟨l.release link.tap, b, c⟩ := by
  refine h.spared (l.spares_release link.tap) (fun _ => .inl) (fun _ => .inl) ?_ (by simp)
    (by simp [hc])
  intro link' hcall htap hheld
  obtain rfl := Call.cancel.inj (Control.calling.inj hcall)
  subst htap
  obtain ⟨d, x, hd, hx⟩ := Roll.holder_release hheld
  exact ⟨d, hd, .inl ⟨x, hx⟩⟩

theorem parted {d : Nat} {x : DriverRoll} {f : Driver.Frame Outlet} {r r' : Reply}
    (h : Tethered i τ k ⟨l, .driver d f :: b, .answering r⟩) (hx : l.drivers[d]? = some x) :
    Tethered i τ k ⟨l.setDriver d x.stop, b, .answering r'⟩ := by
  refine h.spared (Roll.spares_setDriver hx x.follows_stop) (fun _ hg => .inl (.tail _ hg))
    (fun e he => ?_) (by simp) (by simp) (fun he => by cases he)
  rcases List.mem_cons.mp he with heq | he
  · obtain ⟨rfl, -⟩ := Frame.driver.inj heq
    refine .inr ?_
    rw [Roll.holder, Roll.drivers_setDriver hx, if_pos rfl]
    simp [DriverRoll.stop]
  · exact .inl he

theorem outlineStep {o o' : Outline} (h : Tethered i τ k o) (hs : o.Step o')
    (hfree : (∃ out, o.control = .idle out) → o'.control.commits? ≠ some i) :
    Tethered i τ k o' := by
  cases hs with
  | keepsRoll hk hk' => exact h.idly_uncommitted hk (.refl i _) (.refl i τ _) (by simp [hk'])
  | begins => exact h.idly_uncommitted trivial (.refl i _) (.refl i τ _) (hfree ⟨_, rfl⟩)
  | change hl =>
    obtain ⟨s, hs, -⟩ := h.standing
    exact h.idly_uncommitted trivial (hl.spares hs) (.refl i τ _)
      (fun he => by cases he)
  | heard hs hk => exact h.heard hs hk
  | attach =>
    have hne := h.ne_of_commits rfl (by simp)
    exact h.idly_uncommitted trivial (.refl i _) (.refl i τ _) fun hi => hne (Option.some.inj hi)
  | opening hk =>
    have hne := h.ne_of_commits rfl (by simp)
    exact h.idly_uncommitted trivial (.refl i _) (.push hne) (by simp [hk])
  | opened =>
    have hne := h.opening _ _ List.mem_cons_self
    have hother : some _ ≠ some i := fun hi => hne (Option.some.inj hi)
    exact h.idly_uncommitted trivial (Roll.spares_setSequence _ _ hother) (.pop (by simp)) hother
  | exhausted =>
    have hne := h.opening _ _ List.mem_cons_self
    exact h.idly_uncommitted trivial (.refl i _) (.swap (by simp) hne)
      fun hi => hne (Option.some.inj hi)
  | enlisted hs hc =>
    have hne := h.ne_of_commits rfl (by simp)
    refine h.idly_uncommitted trivial (Roll.spares_setSubject hs fun e he => ?_) (.refl i τ _)
      fun hi => hne (Option.some.inj hi)
    rw [SubjectRoll.enlist, Array.getElem?_push] at he
    split at he
    · exact absurd (Option.some.inj (Option.some.inj he)) hne
    · exact he
  | late =>
    have hne := h.ne_of_commits rfl (by simp)
    exact h.idly_uncommitted trivial (.refl i _) (.push hne) fun hi => hne (Option.some.inj hi)
  | kept =>
    have hne := h.ne_of_commits rfl (by simp)
    exact h.idly_uncommitted trivial (Roll.spares_kept _ _ hne) (.refl i τ _)
      (fun he => by cases he)
  | @driven l b source j n =>
    have hne := h.ne_of_commits rfl (by simp)
    have hspares : Frame.Spares i τ (.driver l.drivers.size (.opening ⟨source.audits, j⟩)) := by
      rintro rfl
      obtain ⟨x, hx, -⟩ := h.driver _ rfl
      exact absurd (Array.getElem?_eq_some_iff.mp hx).1 (Nat.lt_irrefl _)
    exact h.idly_uncommitted trivial (l.spares_driven fun hi => hne (Option.some.inj hi))
      (.push hspares) fun hi => hne (Option.some.inj hi)
  | cancelled hk => exact h.cancelled hk
  | rejected hf =>
    refine h.idly_completing trivial (.refl i _) (.pop (Frame.ne_concluding_of_refuses hf)) ?_
    rintro rfl hheld
    exact absurd hheld (h.refusing _ List.mem_cons_self hf)
  | finished hq =>
    refine h.idly_completing trivial (Roll.spares_setSequence _ _ (by simp)) (.refl i τ _) ?_
    rintro rfl hheld
    have htap := h.tap (.sequence _) (congrArg Option.join hq)
    exact absurd htap.symm (Roll.holder_setSequence _ _ (by simp) _ hheld).2
  | closed hs =>
    exact h.idly_uncommitted trivial (Roll.spares_setSubject hs fun _ => id) (.refl i τ _)
      (fun he => by cases he)
  | completes hs he =>
    refine h.idly_completing trivial
      (Roll.spares_setSubject hs fun e' he' => (Roll.entries_detach he').1) (.push trivial) ?_
    rintro rfl hheld
    exact absurd hheld (h.toEngaged.left hs he fun e' he' => (Roll.entries_detach he').2)
  | goesOn hs he =>
    refine h.idly_completing trivial
      (Roll.spares_setSubject hs fun e' he' => (Roll.entries_detach he').1)
      (.swap (by simp) trivial) ?_
    rintro rfl hheld
    exact absurd hheld (h.toEngaged.left hs he fun e' he' => (Roll.entries_detach he').2)
  | concludes hx hi hk =>
    refine h.idly_completing hk (.refl i _) (.push trivial) ?_
    rintro rfl -
    have htap := h.tap (.driver _) (Option.bind_eq_some_iff.mpr ⟨_, hx, hi⟩)
    exact ⟨_, htap.symm, .inr List.mem_cons_self⟩
  | stopped hx hk hk' =>
    exact h.idly_uncommitted hk (Roll.spares_setDriver hx (DriverRoll.follows_stop _))
      (.refl i τ _) (by simp [hk'])
  | parted hx => exact h.parted hx
  | lapsed hf hk =>
    exact h.idly_uncommitted trivial (.refl i _) (.pop hf.ne_concluding) (by simp [hk])
  | attached =>
    exact h.idly_uncommitted trivial (Roll.spares_attached _ _) (.refl i τ _)
      (fun he => by cases he)
  | uses hk hk' =>
    exact h.idly_uncommitted hk (.refl i _) (.push trivial) (by simp [hk'])
  | usesOn hk =>
    exact h.idly_uncommitted trivial (.refl i _) (.swap (by simp) trivial) (by simp [hk])
  | used => exact h.idly_uncommitted trivial (.refl i _) (.pop (by simp)) (fun he => by cases he)
  | @lastUsed l b n left x r hx =>
    have hpopped : Tethered i τ _ ⟨l, b, .calling (.tell x.subscriber .cancel)⟩ :=
      h.idly_uncommitted trivial (.refl i _) (.pop (by simp)) (fun he => by cases he)
    exact hpopped.closes hx rfl
  | dropped =>
    exact h.idly_uncommitted trivial (Roll.spares_dropped _ _) (.refl i τ _)
      (fun he => by cases he)
  | @closes l b n x k hx hk =>
    have hx' : (l.setHandle n .dropped).handles[n]? = some { x with state := .dropped } := by
      rw [Roll.getElem?_setHandle, hx, Option.map_some, if_pos rfl]
    have hkept : Tethered i τ _
        ⟨l.setHandle n .dropped, b, .calling (.tell x.subscriber .cancel)⟩ :=
      h.idly_uncommitted hk (l.spares_dropped n) (.refl i τ _)
      (fun he => by cases he)
    exact hkept.closes hx' rfl
  | shut => exact h.shut

end Tethered
end Sluice
