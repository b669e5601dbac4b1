import Sluice.Proofs.Resumable.Ledger

/-!
# One value at a time

A subscriber grants demand on three paths: with its first request, with what it
returns for a value, and when it is resumed. The pending flag guards them. What
carries the bound is not the flag alone but the flag together with the frames
under way: while a predicate runs its unit is spent and not yet granted anew,
yet the flag is still up.
-/

namespace Sluice.Resumable

open Assign (Mode)

variable {σ τ : Type} {mode : Option Mode} {s : Play σ τ}

/-- A request is for one value of the subscription that is held, and an answer grants at most
one. -/
def Modest (e : Note σ τ) : Prop :=
  (∀ link d, e.call? = some (.request link d) → d = .one ∧ e.after.lifecycle = .subscribed link) ∧
    ∀ r, e.answer? = some r → r.granted ≤ .one

/-- What holds between any two sections, panics included: what was granted and may still be granted
by the calls under way exceeds the deliveries by one at most, and not at all without the flag. -/
structure Gated (mode : Option Mode) (s : Play σ τ) : Prop where
  keeps : s.state.mode? = mode
  fits : ∀ f ∈ s.frames, f.Fits mode
  early : s.state.status = .awaiting → s.state.pending = false ∧ promised s.frames = 0
  total : ∃ g : Nat, granted s.log = g ∧ g + promised s.frames ≤ delivered s.log + 1 ∧
    (s.state.pending = false → g + promised s.frames ≤ delivered s.log)
  modest : ∀ e ∈ s.log, Modest e

theorem writing_promise_allTheTime (x : τ) :
    (Frame.assign (.writing x (Assign.granted .allTheTime))).promise = 1 := rfl

theorem writing_promise_thenStop (x : τ) :
    (Frame.assign (.writing x (Assign.granted .thenStop))).promise = 0 := rfl

theorem writing_amount (x : τ) (m : Mode) :
    (Assign.granted m).amount = (Frame.assign (.writing x (Assign.granted m))).promise := by
  cases m <;> rfl

theorem granted_le_one (m : Mode) : Assign.granted m ≤ .one := by cases m <;> decide

theorem gated_fresh (k : Kind τ) : Gated k.mode? (Session.start (fresh k) : Play σ τ) where
  keeps := fresh_mode? k
  fits := by simp [Session.start]
  early := by simp [Session.start]
  total := ⟨0, rfl, by simp [Session.start], by simp [Session.start]⟩
  modest := by simp [Session.start]

theorem Gated.advance (h : Gated mode s) {turn : Turn (Message σ)} {fs : List (Frame τ)}
    {u : Resumable σ τ} {mv : Move (Out σ τ) (Frame τ)} (n : Nat)
    (hn : grantOf ⟨turn, s.state, u, some mv⟩ = n) (hm : u.mode? = mode)
    (hfs : ∀ f ∈ mv.push fs, f.Fits mode)
    (he : u.status = .awaiting → u.pending = false ∧ promised (mv.push fs) = 0)
    (hmod : Modest ⟨turn, s.state, u, some mv⟩)
    (hle : ∀ g : Nat, g + promised s.frames ≤ delivered s.log + 1 →
      (s.state.pending = false → g + promised s.frames ≤ delivered s.log) →
      n + g + promised (mv.push fs) ≤ delivered s.log + (isDelivery turn).toNat + 1 ∧
      (u.pending = false →
        n + g + promised (mv.push fs) ≤ delivered s.log + (isDelivery turn).toNat)) :
    Gated mode (s.advance turn fs (u, mv)) where
  keeps := hm
  fits := hfs
  early := he
  total := by
    obtain ⟨g, hg, hb, hlow⟩ := h.total
    obtain ⟨h1, h2⟩ := hle g hb hlow
    refine ⟨n + g, ?_, ?_, ?_⟩
    · simp only [Session.advance, granted_cons, hn, hg, Nat.cast_add]
    · simpa only [Session.advance, delivered_cons] using h1
    · simpa only [Session.advance, delivered_cons] using h2
  modest := by
    intro e hmem
    rcases List.mem_cons.mp hmem with rfl | hmem
    · exact hmod
    · exact h.modest e hmem

theorem modest_request {turn : Turn (Message σ)} {s u : Resumable σ τ} {link : σ} {f : Frame τ}
    (hu : u.lifecycle = .subscribed link) :
    Modest ⟨turn, s, u, some (.call (.request link .one) f)⟩ := by
  refine ⟨?_, by simp [Entry.answer?]⟩
  intro l d hc
  obtain ⟨rfl, rfl⟩ : link = l ∧ Demand.one = d := by simpa [Entry.call?] using hc
  exact ⟨rfl, hu⟩

theorem modest_answer {turn : Turn (Message σ)} {s u : Resumable σ τ} {r : Reply}
    (hr : r.granted ≤ .one) : Modest ⟨turn, s, u, some (.answer r)⟩ := by
  refine ⟨by simp [Entry.call?], ?_⟩
  intro r' hr'
  obtain rfl : r = r' := by simpa [Entry.answer?] using hr'
  exact hr

theorem modest_other {turn : Turn (Message σ)} {s u : Resumable σ τ} {o : Out σ τ} {f : Frame τ}
    (ho : ∀ link d, o ≠ .request link d) : Modest ⟨turn, s, u, some (.call o f)⟩ := by
  refine ⟨?_, by simp [Entry.answer?]⟩
  intro l d hc
  exact absurd (by simpa [Entry.call?] using hc) (ho l d)

theorem Gated.neutral (h : Gated mode s) {turn : Turn (Message σ)} {fs : List (Frame τ)}
    {u : Resumable σ τ} {mv : Move (Out σ τ) (Frame τ)} (hd : isDelivery turn = false)
    (hn : grantOf ⟨turn, s.state, u, some mv⟩ = 0) (hm : u.mode? = mode)
    (hfs : ∀ f ∈ mv.push fs, f.Fits mode) (hpr : promised (mv.push fs) = promised s.frames)
    (hs : u.status = .awaiting → s.state.status = .awaiting) (hp : u.pending = s.state.pending)
    (hmod : Modest ⟨turn, s.state, u, some mv⟩) : Gated mode (s.advance turn fs (u, mv)) := by
  refine h.advance 0 hn hm hfs ?_ hmod ?_
  · intro ha
    rw [hp, hpr]
    exact h.early (hs ha)
  · intro g hb hlow
    rw [hp, hpr, hd, Bool.toNat_false]
    exact ⟨by omega, fun hq => by have := hlow hq; omega⟩

theorem Gated.unwind (h : Gated mode s) {f : Frame τ} {fs : List (Frame τ)}
    (hf : s.frames = f :: fs) : Gated mode (s.unwind fs) where
  keeps := h.keeps
  fits := fun f' hf' => h.fits f' (hf ▸ List.mem_cons_of_mem _ hf')
  early := by
    intro he
    have hp := h.early he
    rw [hf, promised_cons] at hp
    exact ⟨hp.1, by simp only [Session.unwind]; omega⟩
  total := by
    obtain ⟨g, hg, hb, hlow⟩ := h.total
    rw [hf, promised_cons] at hb hlow
    refine ⟨g, ?_, ?_, ?_⟩
    · simp [Session.unwind, granted_cons, grantOf, hg]
    · simp only [Session.unwind, delivered_cons, isDelivery, Bool.toNat_false]; omega
    · intro hp
      have := hlow hp
      simp only [Session.unwind, delivered_cons, isDelivery, Bool.toNat_false]; omega
  modest := by
    intro e hmem
    rcases List.mem_cons.mp hmem with rfl | hmem
    · exact ⟨by simp [Entry.call?], by simp [Entry.answer?]⟩
    · exact h.modest e hmem

theorem Gated.write (h : Gated mode s) {u : Resumable σ τ} {v : Value} {x : τ} {m : Mode}
    (hm : u.mode? = mode) (hs : s.state.status = .subscribed)
    (ht : u.lifecycle = s.state.lifecycle)
    (hp : u.pending = (s.state.pending && m == .allTheTime)) (hk : s.state.mode? = some m) :
    Gated mode (s.advance (.enter (.value v)) s.frames
      (u, .call (.write x v) (.assign (.writing x (Assign.granted m))))) := by
  -- The flag goes down in the one mode whose frame promises nothing.
  refine h.advance 0 rfl hm (List.forall_mem_cons.mpr ⟨?_, h.fits⟩) ?_ (modest_other (by simp)) ?_
  · rw [← h.keeps, hk]
    rfl
  · simp [status, ht, show s.state.lifecycle.status = .subscribed from hs]
  · intro g hb hlow
    simp only [Move.push_call, promised_cons, isDelivery, Bool.toNat_true, hp]
    cases m with
    | allTheTime =>
      simp only [writing_promise_allTheTime, beq_self_eq_true, Bool.and_true]
      exact ⟨by omega, fun hq => by have := hlow hq; omega⟩
    | thenStop =>
      simp only [writing_promise_thenStop]
      exact ⟨by omega, fun _ => by omega⟩

theorem Gated.discard (h : Gated mode s) {u : Resumable σ τ} {v : Value} {d : Demand}
    (hm : u.mode? = mode) (ht : u.lifecycle = s.state.lifecycle)
    (hp : u.pending = (s.state.pending && s.state.mode? != some .thenStop))
    (hd : d = ((s.state.mode?.map Assign.granted).getD .zero)) :
    Gated mode (s.advance (.enter (.value v)) s.frames (u, .answer (.demand d))) := by
  have hearly : u.status = .awaiting → u.pending = false ∧ promised s.frames = 0 := by
    intro ha
    have := h.early (by simpa [status, ht] using ha)
    exact ⟨by simp [hp, this.1], this.2⟩
  by_cases hk : s.state.mode? = some .allTheTime
  · obtain rfl : d = .one := by simpa [hk, Assign.granted] using hd
    refine h.advance 1 rfl hm h.fits hearly (modest_answer Demand.one_le_one) ?_
    intro g hb hlow
    simp only [Move.push_answer, isDelivery, Bool.toNat_true]
    refine ⟨by omega, fun hq => ?_⟩
    have := hlow (by simpa [hp, hk] using hq)
    omega
  · obtain rfl : d = .zero := by
      rw [hd]
      cases hm' : s.state.mode? with
      | none => rfl
      | some m =>
        cases m with
        | allTheTime => exact absurd hm' hk
        | thenStop => rfl
    refine h.advance 0 rfl hm h.fits hearly (modest_answer Demand.zero_le_one) ?_
    intro g hb hlow
    simp only [Move.push_answer, isDelivery, Bool.toNat_true]
    exact ⟨by omega, fun _ => by omega⟩

theorem Gated.enter (h : Gated mode s) (msg : Message σ) :
    Gated mode (s.advance (.enter msg) s.frames (component.enter s.state msg)) := by
  have hm : (s.state.enter msg).1.mode? = mode := (enter_mode? _ _).trans h.keeps
  have hfs := h.fits
  have he := entered s.state msg
  change Gated mode (s.advance (.enter msg) s.frames (s.state.enter msg))
  generalize s.state.enter msg = r at hm he ⊢
  obtain ⟨u, mv⟩ := r
  have hpass : ∀ f ∈ s.state.passing :: s.frames, f.Fits mode :=
    List.forall_mem_cons.mpr ⟨h.keeps ▸ passing_fits _, hfs⟩
  cases he with
  | accept hs ht hp =>
    have ha := h.early (by simp [status, hs, Lifecycle.status])
    refine h.advance 1 rfl hm hpass (by simp [status, ht, Lifecycle.status])
      (modest_request ht) ?_
    intro g _ hlow
    have := hlow ha.1
    simp only [Move.push_call, promised_cons, passing_promise, isDelivery, Bool.toNat_false]
    exact ⟨by omega, by simp [hp]⟩
  | refuse hs ht =>
    subst ht
    exact h.neutral rfl rfl hm hpass (by simp) id rfl (modest_other (by simp))
  | decide hs ht hk =>
    subst ht
    refine h.advance 0 rfl hm (List.forall_mem_cons.mpr ⟨h.keeps ▸ hk, hfs⟩)
      (by simp [hs]) (modest_other (by simp)) ?_
    intro g hb hlow
    simp only [Move.push_call, promised_cons, Frame.promise, isDelivery, Bool.toNat_true]
    exact ⟨by omega, fun hp => by have := hlow hp; omega⟩
  | write hs ht hp hk => exact h.write hm hs ht hp hk
  | discard hs ht hp hd => exact h.discard hm ht hp hd
  | conclude hs hh ht hp =>
    exact h.neutral rfl rfl hm hpass (by simp) (by simp [status, ht, Lifecycle.status]) hp
      (modest_other (by simp))
  | finish hs ht hp =>
    exact h.neutral rfl rfl hm hfs rfl (by simp [status, ht, Lifecycle.status]) hp
      (modest_answer Demand.zero_le_one)
  | pull hs hf hk ht hp =>
    refine h.advance 1 rfl hm hpass (by simp [status, ht, hs, Lifecycle.status])
      (modest_request (ht.trans hs)) ?_
    intro g _ hlow
    have := hlow hf
    simp only [Move.push_call, promised_cons, passing_promise, isDelivery, Bool.toNat_false]
    exact ⟨by omega, by simp [hp]⟩
  | stay hs ht =>
    subst ht
    exact h.neutral rfl rfl hm hfs rfl id rfl (modest_answer Demand.zero_le_one)
  | release hs ht hp hf hf' =>
    exact h.neutral rfl rfl hm (List.forall_mem_cons.mpr ⟨h.keeps ▸ hf, hfs⟩) (by simp [hf'])
      (by simp [status, ht, Lifecycle.status]) hp (modest_other (by simp))
  | ignore hs ht =>
    subst ht
    exact h.neutral rfl rfl hm hfs rfl id rfl (modest_answer Demand.zero_le_one)

theorem Gated.reply (h : Gated mode s) (r : Reply) {f : Frame τ} {fs : List (Frame τ)}
    (hf : s.frames = f :: fs) :
    Gated mode (s.advance (.reply r) fs (component.proceed s.state r f)) := by
  have hm : (s.state.proceed r f).1.mode? = mode := (proceed_mode? _ _ _).trans h.keeps
  have hfits : f.Fits mode := h.fits f (hf ▸ List.mem_cons_self)
  have hfs : ∀ f' ∈ fs, f'.Fits mode := fun f' hf' => h.fits f' (hf ▸ List.mem_cons_of_mem _ hf')
  have hsum : promised s.frames = f.promise + promised fs := by rw [hf, promised_cons]
  have hp := proceeded s.state r (h.keeps ▸ hfits)
  change Gated mode (s.advance (.reply r) fs (s.state.proceed r f))
  generalize s.state.proceed r f = x at hm hp ⊢
  obtain ⟨u, mv⟩ := x
  cases hp with
  | pass ht hz =>
    subst ht
    exact h.neutral rfl rfl hm hfs (by simp [hsum, hz]) id rfl (modest_answer Demand.zero_le_one)
  | decided ht hq =>
    have hone : (Frame.sink .deciding : Frame τ).promise = 1 := rfl
    have hlate : u.status ≠ .awaiting := by
      intro ha
      have := (h.early (by simpa [status, ht] using ha)).2
      omega
    cases hr : r.pulls with
    | true =>
      refine h.advance 1 (by simp [grantOf, Reply.granted]) hm hfs (absurd · hlate)
        (modest_answer (by simp [Reply.granted, Demand.one_le_one])) ?_
      intro g hb hlow
      simp only [Move.push_answer, isDelivery, Bool.toNat_false, hq, hr]
      exact ⟨by omega, by simp⟩
    | false =>
      refine h.advance 0 (by simp [grantOf, Reply.granted]) hm hfs (absurd · hlate)
        (modest_answer (by simp [Reply.granted, Demand.zero_le_one])) ?_
      intro g hb hlow
      simp only [Move.push_answer, isDelivery, Bool.toNat_false]
      exact ⟨by omega, fun _ => by omega⟩
  | released ht hq =>
    exact h.neutral rfl rfl hm hfs (by simp [hsum, Frame.promise]) (by simp [status, ht]) hq
      (modest_answer Demand.zero_le_one)
  | @written x d ht =>
    subst ht
    obtain ⟨m, -, rfl⟩ := Option.map_eq_some_iff.mp hfits
    refine h.advance _ (writing_amount x m) hm hfs ?_ (modest_answer (granted_le_one m)) ?_
    · intro ha
      have := h.early ha
      exact ⟨this.1, by simp only [Move.push_answer]; omega⟩
    · intro g hb hlow
      simp only [Move.push_answer, isDelivery, Bool.toNat_false]
      exact ⟨by omega, fun hq => by have := hlow hq; omega⟩

theorem gated {k : Kind τ} {may : Play σ τ → Turn (Message σ) → Prop}
    (h : Session.Reaches component may (Session.start (fresh k)) s) : Gated k.mode? s :=
  h.invariant (gated_fresh k) (fun msg ht _ => ht.enter msg) (fun r ht _ hf => ht.reply r hf)
    (fun ht _ hf => ht.unwind hf)

/-- Whatever the environment does, at most one value is outstanding, every request is for one value
of the subscription that is held, and no value is answered with more than one. -/
theorem outstanding_le_one (k : Kind τ) {may : Play σ τ → Turn (Message σ) → Prop}
    (h : Session.Reaches component may (Session.start (fresh k)) s) :
    outstanding s.log ≤ 1 ∧
      (∀ e ∈ s.log, ∀ link d, e.call? = some (.request link d) →
        d = .one ∧ e.after.lifecycle = .subscribed link) ∧
      ∀ e ∈ s.log, ∀ r, e.answer? = some r → r.granted ≤ .one := by
  have hg := gated h
  obtain ⟨g, hlog, hle, -⟩ := hg.total
  refine ⟨?_, fun e he => (hg.modest e he).1, fun e he => (hg.modest e he).2⟩
  rw [outstanding_eq hlog]
  exact_mod_cast (by omega : g - delivered s.log ≤ 1)

/-- A setter that resumes its own assign, whose request panics, as does the first one. -/
theorem outstanding_le_one_resuming_setter :
    ∃ s : Play Nat Nat,
      Session.play? component (Session.start (fresh (.assign .thenStop 0)))
        [.enter (.subscription 7), .enter (.value 5), .enter .resume, .raise, .reply .done,
          .raise] = some s ∧ s.frames = [] ∧ outstanding s.log ≤ 1 := by
  have hp : Session.play? component
    (Session.start (fresh (.assign .thenStop 0) : Resumable Nat Nat))
    [.enter (.subscription 7), .enter (.value 5), .enter .resume, .raise, .reply .done,
      .raise] = some _ := rfl
  have hr : Session.Reaches component (fun _ _ => True) _ _ := .of_play (by simp) hp
  exact ⟨_, hp, rfl, (outstanding_le_one _ hr).1⟩

end Sluice.Resumable
