import Sluice.Proofs.Resumable.Pull

/-!
# The gate opens exactly when nothing is outstanding

Without panics, and as long as values are only delivered for demand that was
granted, the pending flag of an idle subscriber says exactly whether a unit is
outstanding. So resumes neither stall nor ask twice, however many there are.
-/

namespace Sluice.Resumable

open Assign (Mode)

variable {σ τ : Type} {mode : Option Mode} {s t : Play σ τ}

/-- The environment delivers a value only for demand that is outstanding. -/
def Fair (s : Play σ τ) (x : Turn (Message σ)) : Prop :=
  isDelivery x = true → 1 ≤ outstanding s.log

def Calm (s : Play σ τ) (x : Turn (Message σ)) : Prop := Fair s x ∧ x ≠ .raise

/-- The environment does nothing but resume, and return from the requests that this causes. -/
def Resuming (_ : Play σ τ) : Turn (Message σ) → Prop
  | .enter .resume | .reply _ => True
  | _ => False

/-- The other half of the balance: no delivery is ahead of the grants, and a subscriber that is
subscribed with its flag up has a unit granted or promised. -/
structure Stocked (mode : Option Mode) (s : Play σ τ) : Prop where
  gated : Gated mode s
  covered : ∀ g : Nat, granted s.log = g → delivered s.log ≤ g
  stock : ∀ g : Nat, granted s.log = g → s.state.status = .subscribed → s.state.pending = true →
    delivered s.log + 1 ≤ g + promised s.frames
  always : mode = some .allTheTime → s.state.status = .subscribed → s.state.pending = true

theorem stocked_fresh (k : Kind τ) : Stocked k.mode? (Session.start (fresh k) : Play σ τ) where
  gated := gated_fresh k
  covered := by simp [Session.start]
  stock := by simp [Session.start]
  always := by simp [Session.start, status, Lifecycle.status]

theorem Stocked.advance (h : Stocked mode s) {turn : Turn (Message σ)} {fs : List (Frame τ)}
    {u : Resumable σ τ} {mv : Move (Out σ τ) (Frame τ)} (n : Nat)
    (hu : Gated mode (s.advance turn fs (u, mv)))
    (hn : grantOf ⟨turn, s.state, u, some mv⟩ = n)
    (hle : ∀ g : Nat, granted s.log = g → delivered s.log ≤ g →
      delivered s.log + (isDelivery turn).toNat ≤ n + g ∧
      (u.status = .subscribed → u.pending = true →
        delivered s.log + (isDelivery turn).toNat + 1 ≤ n + g + promised (mv.push fs)))
    (ha : mode = some .allTheTime → u.status = .subscribed → u.pending = true) :
    Stocked mode (s.advance turn fs (u, mv)) := by
  obtain ⟨g, hg, -⟩ := h.gated.total
  have hsum : granted (s.advance turn fs (u, mv)).log = ((n + g : Nat) : ℕ∞) := by
    simp only [Session.advance, granted_cons, hn, hg, Nat.cast_add]
  obtain ⟨h1, h2⟩ := hle g hg (h.covered g hg)
  refine ⟨hu, ?_, ?_, ha⟩
  · intro g' hg'
    obtain rfl : n + g = g' := by exact_mod_cast hsum.symm.trans hg'
    simpa only [Session.advance, delivered_cons] using h1
  · intro g' hg' hs hp
    obtain rfl : n + g = g' := by exact_mod_cast hsum.symm.trans hg'
    simpa only [Session.advance, delivered_cons] using h2 hs hp

theorem Stocked.neutral (h : Stocked mode s) {turn : Turn (Message σ)} {fs : List (Frame τ)}
    {u : Resumable σ τ} {mv : Move (Out σ τ) (Frame τ)}
    (hu : Gated mode (s.advance turn fs (u, mv))) (hd : isDelivery turn = false)
    (hn : grantOf ⟨turn, s.state, u, some mv⟩ = 0) (hpr : promised (mv.push fs) = promised s.frames)
    (hs : u.status = .subscribed → s.state.status = .subscribed ∧ u.pending = s.state.pending) :
    Stocked mode (s.advance turn fs (u, mv)) := by
  refine h.advance 0 hu hn ?_ ?_
  · intro g hg hc
    rw [hd, hpr, Bool.toNat_false]
    refine ⟨by omega, fun hsub hp => ?_⟩
    have := h.stock g hg (hs hsub).1 ((hs hsub).2 ▸ hp)
    omega
  · intro hm hsub
    rw [(hs hsub).2]
    exact h.always hm (hs hsub).1

theorem Fair.covered {x : Turn (Message σ)} (hf : Fair s x) (hx : isDelivery x = true) {g : Nat}
    (hg : granted s.log = g) : delivered s.log + 1 ≤ g := by
  have hle := hf hx
  rw [outstanding_eq hg] at hle
  have : 1 ≤ g - delivered s.log := by exact_mod_cast hle
  omega

theorem Stocked.write (h : Stocked mode s) {u : Resumable σ τ} {v : Value} {x : τ} {m : Mode}
    (hf : Fair s (.enter (.value v)))
    (hu : Gated mode (s.advance (.enter (.value v)) s.frames
      (u, .call (.write x v) (.assign (.writing x (Assign.granted m))))))
    (hs : s.state.status = .subscribed)
    (hp : u.pending = (s.state.pending && m == .allTheTime)) (hm : s.state.mode? = some m) :
    Stocked mode (s.advance (.enter (.value v)) s.frames
      (u, .call (.write x v) (.assign (.writing x (Assign.granted m))))) := by
  refine h.advance 0 hu rfl ?_ ?_
  · intro g hg _
    have hc := hf.covered rfl hg
    simp only [Move.push_call, promised_cons, isDelivery, Bool.toNat_true]
    refine ⟨by omega, fun _ hq => ?_⟩
    obtain ⟨hq, rfl⟩ : s.state.pending = true ∧ m = .allTheTime := by simpa [hp] using hq
    have := h.stock g hg hs hq
    rw [writing_promise_allTheTime]
    omega
  · intro ha _
    obtain rfl : m = .allTheTime := by simpa [← h.gated.keeps, hm] using ha
    rw [hp, h.always ha hs]
    rfl

theorem Stocked.discard (h : Stocked mode s) {u : Resumable σ τ} {v : Value} {d : Demand}
    (hf : Fair s (.enter (.value v)))
    (hu : Gated mode (s.advance (.enter (.value v)) s.frames (u, .answer (.demand d))))
    (hs : s.state.status ≠ .subscribed ∨ s.state.mode?.isSome)
    (ht : u.lifecycle = s.state.lifecycle)
    (hp : u.pending = (s.state.pending && s.state.mode? != some .thenStop))
    (hd : d = ((s.state.mode?.map Assign.granted).getD .zero)) :
    Stocked mode (s.advance (.enter (.value v)) s.frames (u, .answer (.demand d))) := by
  have hl : u.status = s.state.status := by simp [status, ht]
  by_cases hk : s.state.mode? = some .allTheTime
  · obtain rfl : d = .one := by simpa [hk, Assign.granted] using hd
    have hq : u.pending = s.state.pending := by simp [hp, hk]
    refine h.advance 1 hu rfl ?_ (fun ha hsub => hq.trans (h.always ha (hl ▸ hsub)))
    intro g hg _
    have hc := hf.covered rfl hg
    simp only [Move.push_answer, isDelivery, Bool.toNat_true]
    refine ⟨by omega, fun hsub hup => ?_⟩
    have := h.stock g hg (hl ▸ hsub) (hq ▸ hup)
    omega
  · have hzero : d = .zero ∧ (u.status = .subscribed → u.pending = false) := by
      cases hm : s.state.mode? with
      | none => exact ⟨by simp [hd, hm], fun hsub => absurd hsub (by simpa [hl, hm] using hs)⟩
      | some m =>
        cases m with
        | allTheTime => exact absurd hm hk
        | thenStop => exact ⟨by simp [hd, hm, Assign.granted], fun _ => by simp [hp, hm]⟩
    obtain ⟨rfl, hdown⟩ := hzero
    refine h.advance 0 hu rfl ?_ (fun ha => absurd (h.gated.keeps.trans ha) hk)
    intro g hg _
    have hc := hf.covered rfl hg
    simp only [isDelivery, Bool.toNat_true]
    exact ⟨by omega, fun hsub hup => by simp [hdown hsub] at hup⟩

theorem Stocked.enter (h : Stocked mode s) (msg : Message σ) (hf : Fair s (.enter msg)) :
    Stocked mode (s.advance (.enter msg) s.frames (component.enter s.state msg)) := by
  have hu := h.gated.enter msg
  have he := entered s.state msg
  change Stocked mode (s.advance (.enter msg) s.frames (s.state.enter msg))
  change Gated mode (s.advance (.enter msg) s.frames (s.state.enter msg)) at hu
  generalize s.state.enter msg = r at hu he ⊢
  obtain ⟨u, mv⟩ := r
  cases he with
  | accept hs ht hp =>
    refine h.advance 1 hu rfl ?_ (fun _ _ => hp)
    intro g _ hc
    simp only [Move.push_call, promised_cons, isDelivery, Bool.toNat_false]
    exact ⟨by omega, fun _ _ => by omega⟩
  | refuse hs ht =>
    subst ht
    exact h.neutral hu rfl rfl (by simp) (fun hsub => ⟨hsub, rfl⟩)
  | decide hs ht hm =>
    subst ht
    refine h.advance 0 hu rfl ?_ h.always
    intro g hg _
    have hc := hf.covered rfl hg
    simp only [Move.push_call, promised_cons, Frame.promise, isDelivery, Bool.toNat_true]
    refine ⟨by omega, fun hsub hp => ?_⟩
    have := h.stock g hg hsub hp
    omega
  | write hs ht hp hm => exact h.write hf hu hs hp hm
  | discard hs ht hp hd => exact h.discard hf hu hs ht hp hd
  | conclude hs hh ht hp =>
    exact h.neutral hu rfl rfl (by simp) (by simp [status, ht, Lifecycle.status])
  | finish hs ht hp =>
    exact h.neutral hu rfl rfl rfl (by simp [status, ht, Lifecycle.status])
  | pull hs hq hm ht hp =>
    refine h.advance 1 hu rfl ?_ (fun _ _ => hp)
    intro g _ hc
    simp only [Move.push_call, promised_cons, isDelivery, Bool.toNat_false]
    exact ⟨by omega, fun _ _ => by omega⟩
  | stay hs ht =>
    subst ht
    exact h.neutral hu rfl rfl rfl (fun hsub => ⟨hsub, rfl⟩)
  | release hs ht hp hf hf' =>
    exact h.neutral hu rfl rfl (by simp [hf']) (by simp [status, ht, Lifecycle.status])
  | ignore hs ht =>
    subst ht
    exact h.neutral hu rfl rfl rfl (fun hsub => ⟨hsub, rfl⟩)

theorem Stocked.reply (h : Stocked mode s) (r : Reply) {f : Frame τ} {fs : List (Frame τ)}
    (hf : s.frames = f :: fs) :
    Stocked mode (s.advance (.reply r) fs (component.proceed s.state r f)) := by
  have hu := h.gated.reply r hf
  have hfits : f.Fits mode := h.gated.fits f (hf ▸ List.mem_cons_self)
  have hsum : promised s.frames = f.promise + promised fs := by rw [hf, promised_cons]
  have hp := proceeded s.state r (h.gated.keeps ▸ hfits)
  change Stocked mode (s.advance (.reply r) fs (s.state.proceed r f))
  change Gated mode (s.advance (.reply r) fs (s.state.proceed r f)) at hu
  generalize s.state.proceed r f = x at hu hp ⊢
  obtain ⟨u, mv⟩ := x
  cases hp with
  | pass ht hz =>
    subst ht
    exact h.neutral hu rfl rfl (by simp [hsum, hz]) (fun hsub => ⟨hsub, rfl⟩)
  | decided ht hq hm =>
    have hnone : mode ≠ some .allTheTime := by simp [← h.gated.keeps, hm]
    cases hr : r.pulls with
    | true =>
      rw [hr] at hu
      refine h.advance 1 hu (by simp [grantOf, Reply.granted]) ?_ (absurd · hnone)
      intro g hg hc
      simp only [Move.push_answer, isDelivery, Bool.toNat_false]
      exact ⟨by omega, fun _ _ => by omega⟩
    | false =>
      rw [hr] at hu
      refine h.advance 0 hu (by simp [grantOf, Reply.granted]) ?_ (absurd · hnone)
      intro g hg hc
      simp only [isDelivery, Bool.toNat_false]
      exact ⟨by omega, by simp [hq, hr]⟩
  | released ht hq =>
    exact h.neutral hu rfl rfl (by simp [hsum, Frame.promise])
      (fun hsub => ⟨by simpa [status, ht] using hsub, hq⟩)
  | @written x d ht =>
    subst ht
    obtain ⟨m, -, rfl⟩ := Option.map_eq_some_iff.mp hfits
    refine h.advance _ hu (writing_amount x m) ?_ h.always
    intro g hg hc
    simp only [Move.push_answer, isDelivery, Bool.toNat_false]
    refine ⟨by omega, fun hsub hup => ?_⟩
    have := h.stock g hg hsub hup
    omega

theorem stocked {k : Kind τ} (h : Session.Reaches component Calm (Session.start (fresh k)) s) :
    Stocked k.mode? s :=
  h.invariant (stocked_fresh k) (fun msg ht hc => ht.enter msg hc.1)
    (fun r ht _ hf => ht.reply r hf) (fun _ hc => absurd rfl hc.2)

theorem Stocked.outstanding (h : Stocked mode s) (hs : s.state.status = .subscribed)
    (hf : s.frames = []) : outstanding s.log = if s.state.pending then 1 else 0 := by
  obtain ⟨g, hg, hle, hlow⟩ := h.gated.total
  have hc := h.covered g hg
  have hst := h.stock g hg hs
  rw [hf, promised_nil] at hle hlow hst
  rw [outstanding_eq hg]
  cases hp : s.state.pending with
  | true =>
    have := hst hp
    simp only [if_true]
    exact_mod_cast (by omega : g - delivered s.log = 1)
  | false =>
    have := hlow hp
    simp only [Bool.false_eq_true, if_false]
    exact_mod_cast (by omega : g - delivered s.log = 0)

/-- What a batch of resumes leaves: the log has grown by `batch`, the calls still under way are
returning from requests, and the flag is up as soon as there was a resume. -/
structure Resumed (s t : Play σ τ) (link : σ) (batch : List (Note σ τ)) : Prop where
  log : t.log = batch ++ s.log
  held : t.state.lifecycle = .subscribed link
  kept : t.state.mode? = s.state.mode?
  frames : ∀ f ∈ t.frames, f = t.state.passing
  asked : batch = [] ∧ t.frames = [] ∧ t.state.pending = s.state.pending ∨
    t.state.pending = true ∧ requests batch = if s.state.pending then [] else [(link, .one)]

theorem Resumed.enter {link : σ} {batch : List (Note σ τ)} (h : Resumed s t link batch)
    (ha : s.state.mode? = some .allTheTime → s.state.pending = true) :
    ∃ b, Resumed s (t.advance (.enter .resume) t.frames (component.enter t.state .resume)) link
      b := by
  have hm := enter_mode? t.state (.resume : Message σ)
  have he := entered t.state (.resume : Message σ)
  change ∃ b, Resumed s (t.advance (.enter .resume) t.frames (t.state.enter .resume)) link b
  generalize t.state.enter .resume = r at hm he ⊢
  obtain ⟨u, mv⟩ := r
  refine ⟨⟨.enter .resume, t.state, u, some mv⟩ :: batch, ?_⟩
  cases he with
  | @pull link' hl hp hn ht hq =>
    obtain rfl : link' = link := by simpa [h.held] using hl.symm
    have hfr : ∀ f ∈ t.state.passing :: t.frames, f = u.passing := by
      intro f hf
      rw [← passing_congr hm.symm]
      rcases List.mem_cons.mp hf with rfl | hf
      · rfl
      · exact h.frames f hf
    refine ⟨congrArg _ h.log, ht.trans hl, hm.trans h.kept, hfr, .inr ⟨hq, ?_⟩⟩
    rw [requests_cons_request]
    rcases h.asked with ⟨rfl, -, hs⟩ | ⟨hs, -⟩
    · simp [← hs, hp, requests]
    · simp [hp] at hs
  | stay hs ht =>
    subst ht
    refine ⟨congrArg _ h.log, h.held, hm.trans h.kept, h.frames, .inr ?_⟩
    have hup : t.state.pending = true := by
      rcases hs with hs | hs | hs
      · simp [status, h.held, Lifecycle.status] at hs
      · exact hs
      · rcases h.asked with ⟨-, -, hp⟩ | ⟨hp, -⟩
        · rw [hp]
          exact ha (h.kept ▸ hs)
        · exact hp
    refine ⟨hup, ?_⟩
    rw [requests_cons_answer]
    rcases h.asked with ⟨rfl, -, hp⟩ | ⟨-, hr⟩
    · simp [← hp, hup, requests]
    · exact hr

theorem Resumed.reply {link : σ} {batch : List (Note σ τ)} (h : Resumed s t link batch) (r : Reply)
    {f : Frame τ} {fs : List (Frame τ)} (hf : t.frames = f :: fs) :
    ∃ b, Resumed s (t.advance (.reply r) fs (component.proceed t.state r f)) link b := by
  obtain rfl : f = t.state.passing := h.frames f (hf ▸ List.mem_cons_self)
  change ∃ b, Resumed s (t.advance (.reply r) fs (t.state.proceed r t.state.passing)) link b
  rw [proceed_passing]
  refine ⟨⟨.reply r, t.state, t.state, some (.answer .done)⟩ :: batch, congrArg _ h.log,
    h.held, h.kept, fun f hm => h.frames f (hf ▸ List.mem_cons_of_mem _ hm), .inr ?_⟩
  rw [requests_cons_answer]
  rcases h.asked with ⟨-, hn, -⟩ | ha
  · simp [hf] at hn
  · exact ha

theorem resumed {link : σ} (hl : s.state.lifecycle = .subscribed link) (hf : s.frames = [])
    (ha : s.state.mode? = some .allTheTime → s.state.pending = true)
    (h : Session.Reaches component Resuming s t) : ∃ batch, Resumed s t link batch := by
  refine h.invariant (P := fun t => ∃ batch, Resumed s t link batch)
    ⟨[], rfl, hl, rfl, by simp [hf], .inl ⟨rfl, hf, rfl⟩⟩ ?_ ?_ ?_
  · intro t msg hpre hm
    obtain ⟨b, hb⟩ := hpre
    cases msg with
    | resume => exact hb.enter ha
    | _ => exact hm.elim
  · intro t f fs r hpre _ hf
    obtain ⟨b, hb⟩ := hpre
    exact hb.reply r hf
  · intro t f fs _ hm
    exact hm.elim

/-- While a subscriber is subscribed and no call on it is under way, its flag is up exactly if one
unit is outstanding, and one always is in the mode that never stops. Any number of resumes in a
row then make one request for one value if nothing is outstanding, and none otherwise. -/
theorem resumes_request_once (k : Kind τ)
    (h : Session.Reaches component Calm (Session.start (fresh k)) s)
    (hs : s.state.status = .subscribed) (hf : s.frames = []) :
    (k.mode? ≠ some .allTheTime → (s.state.pending = true ↔ outstanding s.log = 1)) ∧
      (k.mode? = some .allTheTime → outstanding s.log = 1) ∧
      ∀ t batch, Session.Reaches component Resuming s t → t.log = batch ++ s.log → batch ≠ [] →
        ∃ link, s.state.lifecycle = .subscribed link ∧
          requests batch = if outstanding s.log = 0 then [(link, .one)] else [] := by
  have hst := stocked h
  have ho := hst.outstanding hs hf
  have hal : k.mode? = some .allTheTime → s.state.pending = true := fun hm => hst.always hm hs
  refine ⟨fun _ => ?_, fun hm => by simp [ho, hal hm], ?_⟩
  · cases hp : s.state.pending <;> simp [ho, hp]
  · intro t batch ht hlog hne
    obtain ⟨link, hl⟩ : ∃ link, s.state.lifecycle = .subscribed link := by
      cases hc : s.state.lifecycle with
      | subscribed link => exact ⟨link, rfl⟩
      | _ => simp [status, hc, Lifecycle.status] at hs
    refine ⟨link, hl, ?_⟩
    obtain ⟨b, hb⟩ := resumed hl hf (hst.gated.keeps ▸ hal) ht
    obtain rfl : b = batch := List.append_cancel_right (hb.log.symm.trans hlog)
    rcases hb.asked with ⟨rfl, -⟩ | ⟨-, hr⟩
    · exact absurd rfl hne
    · rw [hr, ho]
      cases s.state.pending <;> simp

/-- A sink that turned its second value down, resumed twice with the first request still open. -/
theorem resumes_request_once_after_refusal :
    ∃ s t : Play Nat Nat, ∃ batch, Session.Reaches component Calm (Session.start (fresh .sink)) s ∧
      Session.Reaches component Resuming s t ∧ t.log = batch ++ s.log ∧
      requests batch = [(3, .one)] := by
  have hp : Session.play? component (Session.start (fresh .sink : Resumable Nat Nat))
    [.enter (.subscription 3), .reply .done] = some _ := rfl
  have hs : Session.Reaches component Calm _ _ :=
    .of_play (by simp [Calm, Fair, isDelivery]) hp
  have hfair {s : Play Nat Nat} (hg : granted s.log = (1 : Nat)) (hd : delivered s.log = 0) :
      1 ≤ outstanding s.log := by simp [outstanding_eq hg, hd]
  have hv : Session.Reaches component Calm _ _ :=
    hs.turn (x := .enter (.value 5)) ⟨fun _ => hfair rfl rfl, by simp⟩ rfl
  have hq := hv.turn (x := .reply (.pull false)) ⟨by simp [Fair, isDelivery], by simp⟩ rfl
  have hr (s : Play Nat Nat) : Session.Reaches component Resuming s _ :=
    (Session.Reaches.refl.turn (x := .enter .resume) trivial rfl).turn (x := .enter .resume)
      trivial rfl
  obtain ⟨link, hl, hb⟩ :=
    (resumes_request_once .sink hq rfl rfl).2.2 _ [_, _] (hr _) rfl (by simp)
  obtain rfl := Lifecycle.subscribed.inj hl
  rw [if_pos (by rw [outstanding_eq (g := 1) rfl]; rfl)] at hb
  exact ⟨_, _, _, hq, hr _, rfl, hb⟩

end Sluice.Resumable
