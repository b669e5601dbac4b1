import Sluice.Proofs.Subject.Registry

/-!
# The course of a broadcast

A broadcast takes a list of subscriptions in turn. The log that grows while it is
under way decides who is served: a subscription whose turn comes is served unless
it was cancelled by then or asks for nothing, and the subscriptions that a
callback adds are not on the list. Between two servings the list stays as it is,
however deep the callbacks nest.
-/

namespace Sluice.Subject

variable {ρ : Type}

structure Listed (s : Subject ρ) (ws : List Nat) : Prop where
  ordered : ws.Pairwise (· < ·)
  inside : ∀ i ∈ ws, i < s.entries.size

def Fits (s : Subject ρ) (log : List (Note ρ)) : Frame ρ → Prop
  | .passing _ => True
  | .refusing _ c => s.completion = some c
  | .sending _ i _ rest _ => s.completion = none ∧ Listed s (i :: rest)
  | .completing _ c rest =>
    s.completion = some c ∧ Listed s rest ∧ ∀ j ∈ rest, s.holds j = true ∨ Cancelled j log

/-- What the turn of `e` keeps of a subject `s` that it leaves as `t`. -/
structure Aside (s t : Subject ρ) (e : Note ρ) : Prop where
  size : s.entries.size ≤ t.entries.size
  completion : t.completion = s.completion
  holds : ∀ i, s.holds i = true → t.holds i = true ∨ e.turn = .enter (.cancel i)

section Keeping

variable {s t : Subject ρ} {log : List (Note ρ)} {e : Note ρ} {ws passed rest : List Nat} {i : Nat}

theorem Listed.of_append (h : Listed s (passed ++ ws)) : Listed s ws where
  ordered := (List.pairwise_append.mp h.ordered).2.1
  inside j hj := h.inside j (List.mem_append_right _ hj)

theorem Listed.tail (h : Listed s (i :: rest)) : Listed s rest where
  ordered := h.ordered.of_cons
  inside j hj := h.inside j (List.mem_cons_of_mem i hj)

theorem Listed.mono (h : Listed s ws) (hs : s.entries.size ≤ t.entries.size) : Listed t ws where
  ordered := h.ordered
  inside j hj := (h.inside j hj).trans_le hs

theorem Listed.head_ne (h : Listed s (i :: rest)) {j : Nat} (hj : j ∈ rest) : i ≠ j :=
  (List.rel_of_pairwise_cons h.ordered hj).ne

theorem Registry.listed (h : Registry s log) : Listed s s.registered where
  ordered := h.ordered
  inside _ hj := h.lt_size hj

theorem Fits.aside {fr : Frame ρ} (h : Fits s log fr) (ha : Aside s t e) :
    Fits t (e :: log) fr := by
  cases fr with
  | passing dest => trivial
  | refusing dest c => exact ha.completion.trans h
  | sending dest i v rest n => exact ⟨ha.completion.trans h.1, h.2.mono ha.size⟩
  | completing dest c rest =>
    refine ⟨ha.completion.trans h.1, h.2.1.mono ha.size, fun j hj => ?_⟩
    rcases h.2.2 j hj with hh | hx
    · exact (ha.holds j hh).imp_right fun he => cancelled_cons.mpr (.inl he)
    · exact .inr (cancelled_cons.mpr (.inr hx))

theorem Aside.refl (s : Subject ρ) (e : Note ρ) : Aside s s e := ⟨le_rfl, rfl, fun _ => .inl⟩

theorem aside_onRequest (s : Subject ρ) (i : Nat) (d : Demand) (e : Note ρ) :
    Aside s (s.onRequest i d) e := by
  unfold onRequest
  split
  · next x hx =>
    split
    · exact ⟨(setEntry_size ..).ge, rfl, fun j hj => .inl (holds_setDemand hx _ j ▸ hj)⟩
    · exact .refl s e
  · exact .refl s e

theorem aside_onCancel (s : Subject ρ) (he : e.turn = .enter (.cancel i)) :
    Aside s (s.onCancel i) e := by
  unfold onCancel
  split
  · next x hx =>
    split
    · refine ⟨(setEntry_size ..).ge, rfl, fun j hj => ?_⟩
      by_cases hij : i = j
      · exact .inr (hij ▸ he)
      · exact .inl ((Registry.holds_detached (lt_of_entry hx) j).mpr ⟨Ne.symm hij, hj⟩)
    · exact .refl s e
  · exact .refl s e

theorem Beside.aside {fs fs' : List (Frame ρ)} {x : Turn (In ρ)} {mv : Move (Out ρ) (Frame ρ)}
    (h : Beside s fs x fs' t mv) (he : e.turn = x) : Aside s t e := by
  cases h with
  | enlist dest fs hc =>
    refine ⟨?_, rfl, fun j hj => .inl ((Registry.holds_enlist s dest j).mpr (.inr hj))⟩
    exact (Array.size_push ..).symm ▸ Nat.le_succ _
  | request i d fs hi => exact aside_onRequest s i d e
  | cancel i fs hi => exact aside_onCancel s he
  | _ => exact .refl s e

def broadcasting (fs : List (Frame ρ)) : List (Frame ρ) := fs.filter fun fr => !fr.isSide

theorem Beside.broadcasting {fs fs' : List (Frame ρ)} {x : Turn (In ρ)}
    {mv : Move (Out ρ) (Frame ρ)} (h : Beside s fs x fs' t mv) :
    Subject.broadcasting (mv.push fs') = Subject.broadcasting fs := by
  cases h <;> rfl

theorem Beside.nested {fs fs' : List (Frame ρ)} {x : Turn (In ρ)} {mv : Move (Out ρ) (Frame ρ)}
    (h : Beside s fs x fs' t mv) (hn : Nested fs) : Nested (mv.push fs') := by
  cases h with
  | enlist => exact ⟨by simp [Frame.isSide], hn⟩
  | refuse => exact ⟨by simp [Frame.isSide], hn⟩
  | request => exact hn
  | cancel => exact hn
  | sendLate => exact hn
  | completeLate => exact hn
  | passed => exact hn.2
  | refused => exact ⟨by simp [Frame.isSide], hn.2⟩

theorem Beside.fits {fs fs' : List (Frame ρ)} {x : Turn (In ρ)} {mv : Move (Out ρ) (Frame ρ)}
    (h : Beside s fs x fs' t mv) (he : e.turn = x) (hf : ∀ fr ∈ fs, Fits s log fr) :
    ∀ fr ∈ mv.push fs', Fits t (e :: log) fr := by
  have keep (fr : Frame ρ) (hfr : fr ∈ fs) : Fits t (e :: log) fr :=
    (hf fr hfr).aside (h.aside he)
  cases h with
  | enlist => exact List.forall_mem_cons.mpr ⟨trivial, keep⟩
  | refuse dest c fs hc => exact List.forall_mem_cons.mpr ⟨hc, keep⟩
  | request => exact keep
  | cancel => exact keep
  | sendLate => exact keep
  | completeLate => exact keep
  | passed => exact (List.forall_mem_cons.mp keep).2
  | refused => exact List.forall_mem_cons.mpr ⟨trivial, (List.forall_mem_cons.mp keep).2⟩

end Keeping

structure Sound (p : Play ρ) : Prop where
  registry : Registry p.state p.log
  nested : Nested p.frames
  fits : ∀ fr ∈ p.frames, Fits p.state p.log fr

namespace Sound

variable {p q : Play ρ} {x : Turn (In ρ)} {fs : List (Frame ρ)} {s : Subject ρ}
  {mv : Move (Out ρ) (Frame ρ)}

theorem start : Sound (Session.start {} : Play ρ) := ⟨.start, trivial, by simp [Session.start]⟩

theorem grant_size (s : Subject ρ) (i : Nat) (d : Demand) :
    (s.grant i d).entries.size = s.entries.size := by
  unfold grant
  split
  · exact setEntry_size ..
  · rfl

theorem grant_completion (s : Subject ρ) (i : Nat) (d : Demand) :
    (s.grant i d).completion = s.completion := by
  unfold grant
  split <;> rfl

theorem entry_grant_ne {s : Subject ρ} {i j : Nat} (d : Demand) (h : i ≠ j) :
    (s.grant i d).entries[j]? = s.entries[j]? := by
  unfold grant
  split
  · exact entry_setEntry_ne h
  · rfl

theorem fits_broadcasts {t : Subject ρ} {v : Value} {n : Nat} {ws : List Nat}
    {log : List (Note ρ)} (hc : t.completion = none) (hw : Listed t ws)
    (hb : Broadcasts t v n ws s mv) : ∀ fr ∈ mv.push [], Fits s log fr := by
  cases hb with
  | exhausted => simp
  | deliver hws hp hi hd =>
    refine List.forall_mem_singleton.mpr ⟨hc, ?_⟩
    subst hws
    exact hw.of_append.mono (setEntry_size ..).ge

theorem fits_concludes {t : Subject ρ} {c : Ending} {ws : List Nat} {log : List (Note ρ)}
    (hc : t.completion = some c) (hw : Listed t ws)
    (hl : ∀ j ∈ ws, t.holds j = true ∨ Cancelled j log) (hb : Concludes t c ws s mv) :
    ∀ fr ∈ mv.push [], Fits s log fr := by
  cases hb with
  | exhausted => simp
  | conclude hws hp hi =>
    subst hws
    have hr := hw.of_append
    refine List.forall_mem_singleton.mpr ⟨hc, hr.tail.mono (setEntry_size ..).ge, fun j hj => ?_⟩
    refine (hl j (by simp [hj])).imp_left fun hh => ?_
    exact (Registry.holds_detached (lt_of_entry hi) j).mpr ⟨(hr.head_ne hj).symm, hh⟩

theorem nested_broadcasts {t : Subject ρ} {v : Value} {n : Nat} {ws : List Nat}
    (hb : Broadcasts t v n ws s mv) : Nested (mv.push []) := by
  cases hb with
  | exhausted => trivial
  | deliver => exact ⟨fun _ => rfl, trivial⟩

theorem nested_concludes {t : Subject ρ} {c : Ending} {ws : List Nat}
    (hb : Concludes t c ws s mv) : Nested (mv.push []) := by
  cases hb with
  | exhausted => trivial
  | conclude => exact ⟨fun _ => rfl, trivial⟩

theorem turned (h : Sound p) (ht : Turned p x fs s mv) : Sound (p.advance x fs (s, mv)) := by
  cases ht with
  | beside hb =>
    exact ⟨h.registry.beside hb rfl, hb.nested h.nested, hb.fits rfl h.fits⟩
  | @send v _ _ hf hc hb =>
    have hr := h.registry
    exact ⟨(hr.broadcasts hb).cons (by simp), nested_broadcasts hb, fits_broadcasts hc hr.listed hb⟩
  | @returned dest i v rest n d _ _ hf hb =>
    obtain ⟨hc, hw⟩ := h.fits (.sending dest i v rest n) (by simp [hf])
    refine ⟨((h.registry.grant d).broadcasts hb).cons (by simp), nested_broadcasts hb, ?_⟩
    exact fits_broadcasts ((grant_completion ..).trans hc) (hw.tail.mono (grant_size ..).ge) hb
  | @complete c _ _ hf hc hb =>
    have hr := (h.registry.close c).cons (e := ⟨.enter (.complete c), p.state, s, some mv⟩)
      (by simp)
    refine ⟨hr.concludes rfl hb, nested_concludes hb, fits_concludes rfl ?_ ?_ hb⟩
    · exact ⟨h.registry.ordered, fun _ hj => h.registry.lt_size hj⟩
    · exact fun j hj => .inl ((h.registry.member j).mp hj).2
  | @concluded dest c rest _ _ hf hb =>
    obtain ⟨hc, hw, hl⟩ := h.fits (.completing dest c rest) (by simp [hf])
    have hr := h.registry.cons (e := ⟨.reply .done, p.state, s, some mv⟩) (by simp)
    refine ⟨hr.concludes hc hb, nested_concludes hb, fits_concludes hc hw (fun j hj => ?_) hb⟩
    exact (hl j hj).imp_right fun hx => cancelled_cons.mpr (.inr hx)

theorem invariant {may : Play ρ → Turn (In ρ) → Prop} {P : Play ρ → Prop}
    (hq : Session.Reaches component may p q) (hm : ∀ t x, may t x → Proper t x) (hs : Sound p)
    (hp : P p)
    (step : ∀ {t : Play ρ} {x : Turn (In ρ)} {fs : List (Frame ρ)} {s : Subject ρ}
      {mv : Move (Out ρ) (Frame ρ)}, Sound t → P t → may t x → Turned t x fs s mv →
      P (t.advance x fs (s, mv))) : Sound q ∧ P q := by
  refine hq.invariant (P := fun t => Sound t ∧ P t) ⟨hs, hp⟩ ?_ ?_ ?_
  · intro t i ⟨ht, hpt⟩ hmay
    have hx := turned_enter (hm _ _ hmay)
    exact ⟨ht.turned hx, step ht hpt hmay hx⟩
  · intro t fr fs r ⟨ht, hpt⟩ hmay hf
    have hx := turned_reply ht.nested (hm _ _ hmay) hf
    exact ⟨ht.turned hx, step ht hpt hmay hx⟩
  · intro t fr fs _ hmay
    exact (hm _ _ hmay).elim

end Sound

theorem sound {p : Play ρ} (h : Session.Reaches component Proper (Session.start {}) p) : Sound p :=
  (Sound.invariant (P := fun _ => True) h (fun _ _ => id) .start trivial
    fun _ _ _ _ => trivial).1

structure Broadcast (ρ : Type) where
  call : ρ → Out ρ
  due : Demand → Prop
  result : Nat → Reply

namespace Broadcast

def ofValue (v : Value) : Broadcast ρ :=
  { call := fun dest => .deliver dest v
    due := fun d => d.isZero = false
    result := .count }

def ofEnding (c : Ending) : Broadcast ρ :=
  { call := fun dest => .conclude dest c
    due := fun _ => True
    result := fun _ => .done }

def Serves (b : Broadcast ρ) (log : List (Note ρ)) (s : Subject ρ) (i : Nat) (dest : ρ) : Prop :=
  ¬ Cancelled i log ∧ ∃ d, s.entries[i]? = some ⟨some dest, d⟩ ∧ b.due d

def Skips (b : Broadcast ρ) (log : List (Note ρ)) (s : Subject ρ) (i : Nat) : Prop :=
  Cancelled i log ∨ ∃ x, s.entries[i]? = some x ∧ ¬ b.due x.demand

end Broadcast

/-- How a broadcast fares over a log that grows from `base`: it began with the subscriptions `all`,
`left` are those whose turn is still to come unless it is over, and it has served `n`. -/
inductive Course (b : Broadcast ρ) (base : List (Note ρ)) (all : List Nat) :
    List (Note ρ) → Option (List Nat) → Nat → Prop
  | begin : Course b base all base (some all) 0
  | aside {log : List (Note ρ)} {left : Option (List Nat)} {n : Nat} {e : Note ρ}
      (h : Course b base all log left n) (he : served? e = none) :
      Course b base all (e :: log) left n
  | serve {log : List (Note ρ)} {passed left : List Nat} {i n : Nat} {dest : ρ} {e : Note ρ}
      (h : Course b base all log (some (passed ++ i :: left)) n)
      (hp : ∀ j ∈ passed, b.Skips log e.before j) (hi : b.Serves log e.before i dest)
      (he : served? e = some (b.call dest)) : Course b base all (e :: log) (some left) (n + 1)
  | finish {log : List (Note ρ)} {left : List Nat} {n : Nat} {e : Note ρ}
      (h : Course b base all log (some left) n) (hl : ∀ j ∈ left, b.Skips log e.before j)
      (he : served? e = none) (ha : e.answer? = some (b.result n)) :
      Course b base all (e :: log) none n

theorem Course.length_served {b : Broadcast ρ} {base log : List (Note ρ)} {all : List Nat}
    {left : Option (List Nat)} {n : Nat} (h : Course b base all log left n) :
    (log.filterMap served?).length = (base.filterMap served?).length + n := by
  induction h with
  | begin => rfl
  | aside _ he ih => rw [List.filterMap_cons_none he, ih]
  | serve _ _ _ he ih => rw [List.filterMap_cons_some he, List.length_cons, ih, Nat.add_assoc]
  | finish _ _ he _ ih => rw [List.filterMap_cons_none he, ih]

theorem Beside.served {s t : Subject ρ} {fs fs' : List (Frame ρ)} {x : Turn (In ρ)}
    {mv : Move (Out ρ) (Frame ρ)} (h : Beside s fs x fs' t mv) (u u' : Subject ρ) :
    served? ⟨x, u, u', some mv⟩ = none := by
  cases h <;> rfl

end Sluice.Subject
