import Sluice.Proofs.Gates.Sequence

/-!
# Pulls on a gated sequence

What a pull comes to, and what is seen in the course of it, is the same for all gates
that let the same values pass. So two gates cannot be told apart by any list of pulls,
whether they return or deliver for ever.
-/

namespace Sluice.Gate

open Conduct

variable {R : Nat → Bool} {k k' : Conduct} {fit fit' : World → Prop} {g g' : Gate}
  {hs : Array Handle} {own : List Nat} {fs : List Frame} {log log' : List Question} {v : Value}
  {feed : Feed} {c : Pull} {x : Place} {y : Site} {p p' : Performance} {vs ws : List Value}

/-- A pull returns with the gate at another place. -/
inductive Turn (R : Nat → Bool) (x : Place) (c : Pull) (vs : List Value) :
    Place → List Value → Prop
  | still {x' : Place} (hx : x.start c = some (.inr x')) : Turn R x c vs x' vs
  | course {x' : Place} {v : Value} {feed : Feed} {ws : List Value}
      (hx : x.start c = some (.inl (v, feed))) (hc : Course R v feed vs x' ws) : Turn R x c vs x' ws

inductive Glimpse (R : Nat → Bool) (x : Place) (c : Pull) (vs : List Value) : List Value → Prop
  | still {x' : Place} (hx : x.start c = some (.inr x')) : Glimpse R x c vs vs
  | course {v : Value} {feed : Feed} {ws : List Value}
      (hx : x.start c = some (.inl (v, feed))) (hs : Shows R v feed vs ws) : Glimpse R x c vs ws

theorem Turn.takes {x' : Place} (h : Turn R x c (values log) x' ws) (hg : g.Lets k R fit)
    (hfit : ∀ q feed, fit (sequenceBase q feed hs own))
    (hf : fs.any (Machine.isDeciding 0) = false) (hy : Stands g R hs own fs log x y) :
    ∃ log' y', values log' = ws ∧ Stands g R hs own fs log' x' y' ∧
      k.Takes (y.calling c.call) y' := by
  cases h with
  | still hx => exact hy.turns hg hx
  | course hx hc =>
    have hund : (c.frames g ++ fs).any (Machine.isDeciding 0) = false :=
      Pull.undecided hg.toRegular hf
    obtain ⟨us, y', hws, hy', ht⟩ := hc.takes hg hfit hund rfl
    obtain ⟨y'', hy'', ht'⟩ := hy'.returns hg.toRegular hc.ne_awaiting
    exact ⟨_, y'', hws ▸ values_told hg.toRegular log us x', hy'',
      (hy.starts hg hx).trans (ht.trans ht')⟩

theorem values_eq_of_between {l : List Question} (h : log <+: l) (h' : l <+: log')
    (hv : values log' = values log) : values l = values log := by
  obtain ⟨a, rfl⟩ := h
  obtain ⟨b, rfl⟩ := h'
  simp only [values_append, List.append_assoc, List.append_right_eq_self,
    List.append_eq_nil_iff] at hv
  rw [values_append, hv.1, List.append_nil]

theorem values_between {l : List Question} {q : Question} (h : log <+: l)
    (h' : l <+: log ++ [q]) : values l = values log ∨ values l = values (log ++ [q]) := by
  obtain ⟨a, rfl⟩ := h
  have ha : a <+: [q] := (List.prefix_append_right_inj log).mp h'
  cases a with
  | nil => exact .inl (by rw [List.append_nil])
  | cons b a =>
    obtain ⟨rfl, hnil⟩ := List.cons_prefix_cons.mp ha
    rw [List.prefix_nil.mp hnil]
    exact .inr rfl

theorem loop_moves {log l : List Question} {q : Question} {fs : List Frame} {v' : Value}
    {feed' : Feed} {rs : List Reaction} {m : Nat} (hp : (loop g hs own v feed fs log).At rs p)
    (hp' : (loop g hs own v' feed' fs (log ++ q :: l)).At rs p') (hm : k.play^[m] p = p') :
    0 < m := by
  obtain ⟨ts, t, rfl⟩ := hp
  obtain ⟨ts', t', rfl⟩ := hp'
  cases m with
  | zero =>
    have hlog : log = log ++ q :: l := congrArg Performance.log hm
    simp at hlog
  | succ m => exact Nat.succ_pos m

theorem shows_between (hg : g.Regular k) {l : List Question} (l' : List Question)
    (hl : values l' = []) (h : log <+: l) (h' : l <+: log ++ [g.ask v] ++ l') :
    Shows R v feed (values log) (values l) := by
  obtain hle | hle := List.prefix_or_prefix_of_prefix h' (List.prefix_append _ l')
  · obtain hv | hv := values_between h hle
    · exact hv ▸ .before v feed _
    · rw [hv, values_concat hg]
      exact .after v feed _
  · have hv := values_eq_of_between hle h' (by rw [values_append, hl, List.append_nil])
    rw [hv, values_concat hg]
    exact .after v feed _

section

variable (hg : g.Lets k R fit) (hfit : ∀ q feed, fit (sequenceBase q feed hs own))
  (hf : fs.any (Machine.isDeciding 0) = false)
include hg hfit hf

theorem course_of_rests {n : Nat} (hp : (loop g hs own v feed fs log).At [] p)
    (hn : (k.play^[n] p).Rests) : ∃ x ws, Course R v feed (values log) x ws := by
  -- The induction is on the moves up to the return.
  induction n using Nat.strong_induction_on generalizing v feed log p with
  | _ n ih =>
    rcases hnext : feed.next with ⟨o, feed'⟩
    cases o with
    | none => exact ⟨_, _, .finish hnext⟩
    | some v' =>
      cases hr : R (values log).length with
      | false => exact ⟨_, _, .hold hnext hr⟩
      | true =>
        obtain ⟨p₁, hp₁, m, hm⟩ := loop_passes hg hfit hf hnext hr [] p hp
        obtain hlt | hle := Nat.lt_or_ge n m
        · have hrest : p₁.Rests := by
            obtain ⟨d, rfl⟩ := Nat.exists_eq_add_of_le' hlt.le
            rw [Function.iterate_add_apply, Rests.iterate_eq hn] at hm
            exact hm ▸ hn
          obtain ⟨ts, t, rfl⟩ := hp₁
          obtain ⟨r, hr⟩ := hrest.returned
          cases hr
        · have hpos : 0 < m := loop_moves hp hp₁ hm
          obtain ⟨d, rfl⟩ := Nat.exists_eq_add_of_le' hle
          rw [Function.iterate_add_apply, hm] at hn
          obtain ⟨x, ws, hc⟩ := ih d (by omega) hp₁ hn
          rw [values_concat hg.toRegular] at hc
          exact ⟨x, ws, .pass hnext hr hc⟩

theorem shows_of_iterate (hret : ∀ log x y, (∀ feed, x ≠ .awaiting feed) →
      Stands g R hs own fs log x y → ∀ p, y.At [] p → ∃ p', k.Leads p p' ∧ p'.Rests ∧ p'.log = log)
    (n : Nat) (hp : (loop g hs own v feed fs log).At [] p) :
    Shows R v feed (values log) (values (k.play^[n] p).log) := by
  induction n using Nat.strong_induction_on generalizing v feed log p with
  | _ n ih =>
    have hlog : p.log = log := by
      obtain ⟨ts, t, rfl⟩ := hp
      rfl
    have hle : log <+: (k.play^[n] p).log := hlog ▸ k.log_iterate p n
    rcases hnext : feed.next with ⟨o, feed'⟩
    cases o with
    | none =>
      obtain ⟨q, r, ht⟩ := loop_finishes hg hfit hf hnext v log
      obtain ⟨p₁, hp₁, hl₁⟩ := ht [] p hp
      obtain ⟨p₂, hl₂, hrest, hlog₂⟩ := hret _ _ _ (by simp) (.ended q feed' r) p₁ hp₁
      exact shows_between hg.toRegular _ (hg.values_closing _) hle
        (hlog₂ ▸ (hl₁.trans hl₂).log_within hrest n)
    | some v' =>
      cases hr : R (values log).length with
      | false =>
        obtain ⟨p₁, hp₁, hl₁⟩ := loop_holds hg hfit hf hnext hr [] p hp
        obtain ⟨p₂, hl₂, hrest, hlog₂⟩ := hret _ _ _ (by simp) (.waiting v' feed' ⟨_, hr⟩) p₁ hp₁
        refine shows_between hg.toRegular [] rfl hle ?_
        rw [List.append_nil]
        exact hlog₂ ▸ (hl₁.trans hl₂).log_within hrest n
      | true =>
        obtain ⟨p₁, hp₁, m, hm⟩ := loop_passes hg hfit hf hnext hr [] p hp
        obtain hlt | hge := Nat.lt_or_ge n m
        · have hlog₁ : p₁.log = log ++ [g.ask v] := by
            obtain ⟨ts, t, rfl⟩ := hp₁
            rfl
          refine shows_between hg.toRegular [] rfl hle ?_
          rw [List.append_nil, ← hlog₁, ← hm]
          exact log_prefix_of_le hlt.le
        · have hpos : 0 < m := loop_moves hp hp₁ hm
          obtain ⟨d, rfl⟩ := Nat.exists_eq_add_of_le' hge
          have hs := ih d (by omega) hp₁
          rw [values_concat hg.toRegular] at hs
          rw [Function.iterate_add_apply, hm]
          exact .pass hnext hr hs

theorem Shows.takes (h : Shows R v feed vs ws) (hl : values log = vs) {rs : List Reaction}
    (hp : (loop g hs own v feed fs log).At rs p) : ∃ p', k.Leads p p' ∧ values p'.log = ws := by
  induction h generalizing log p with
  | before =>
    obtain ⟨ts, t, rfl⟩ := hp
    exact ⟨_, .refl _, hl⟩
  | after v feed vs =>
    obtain ⟨p', ⟨ts, t, rfl⟩, hlead⟩ := loop_peeks hg hfit hf rfl v log rs p hp
    exact ⟨_, hlead, (values_concat hg.toRegular log v).trans (by rw [hl])⟩
  | pass hn hr _ ih =>
    obtain ⟨p₁, hp₁, hl₁⟩ := loop_passes hg hfit hf hn (hl.symm ▸ hr) rs p hp
    obtain ⟨p', hl', hv⟩ := ih ((values_concat hg.toRegular log _).trans (by rw [hl])) hp₁
    exact ⟨p', hl₁.trans hl', hv⟩

end

def Idles (g : Gate) (R : Nat → Bool) (hs : Array Handle) (own : List Nat) (x : Place)
    (log : List Question) (o : Outcome) (p : Performance) : Prop :=
  ∃ y, Stands g R hs own [] log x y ∧ Site.At { y with control := .idle o } [] p

variable {o : Outcome}

theorem Idles.log_eq (h : Idles g R hs own x log o p) : p.log = log := by
  obtain ⟨y, hy, ts, t, rfl⟩ := h
  cases hy <;> rfl

theorem Idles.rests {r : Reply} (h : Idles g R hs own x log (.returned r) p) : p.Rests := by
  obtain ⟨y, hy, ts, t, rfl⟩ := h
  cases hy <;> exact ⟨rfl, rfl, r, rfl⟩

theorem Idles.invoke (h : Idles g R hs own x log o p) (c : Call) :
    ∃ y, Stands g R hs own [] log x y ∧ (y.calling c).At [] (p.invoke c) := by
  obtain ⟨y, hy, ts, t, rfl⟩ := h
  exact ⟨y, hy, ts, t, rfl⟩

theorem Stands.idles (hy : Stands g R hs own [] log x y) (hp : y.At [] p) :
    ∃ p', Idles g R hs own x log (.returned .done) p' ∧ k.Leads p p' := by
  obtain ⟨ts, t, rfl⟩ := hp
  refine ⟨_, ⟨y, hy, ts, t, rfl⟩, 1, ?_⟩
  cases hy <;> rfl

section

variable (hg : g.Lets k R fit) (hfit : ∀ q feed, fit (sequenceBase q feed hs own))
  (h : Idles g R hs own x log o p)
include hg hfit h

theorem Turn.leads {x' : Place} (ht : Turn R x c (values log) x' ws) :
    ∃ log' p', values log' = ws ∧ Idles g R hs own x' log' (.returned .done) p' ∧
      k.Leads (p.invoke c.call) p' := by
  obtain ⟨y, hy, hp⟩ := h.invoke c.call
  obtain ⟨log', y', hv, hy', hk⟩ := ht.takes hg hfit rfl hy
  obtain ⟨p₁, hp₁, hl₁⟩ := hk [] _ hp
  obtain ⟨p₂, hp₂, hl₂⟩ := hy'.idles hp₁
  exact ⟨log', p₂, hv, hp₂, hl₁.trans hl₂⟩

theorem turn_of_rests (hx : x.start c ≠ none) (hl : k.Leads (p.invoke c.call) p')
    (hp' : p'.Rests) : ∃ x' ws, Turn R x c (values log) x' ws := by
  obtain ⟨y, hy, hp⟩ := h.invoke c.call
  match hst : x.start c with
  | none => exact absurd hst hx
  | some (.inr x') => exact ⟨x', _, .still hst⟩
  | some (.inl (v, feed)) =>
    obtain ⟨p₁, hp₁, hl₁⟩ := hy.starts hg hst [] _ hp
    have hlead : k.Leads p₁ p' := by
      obtain hl' | hl' := hl₁.total hl
      · exact hl'
      · exact hl'.eq_of_rests hp' ▸ .refl p₁
    obtain ⟨n, hn⟩ := hlead
    obtain ⟨x', ws, hc⟩ := course_of_rests hg hfit (Pull.undecided hg.toRegular rfl) hp₁
      (hn.symm ▸ hp')
    exact ⟨x', ws, .course hst hc⟩

theorem glimpse_of_leads (hx : x.start c ≠ none) (hl : k.Leads (p.invoke c.call) p') :
    Glimpse R x c (values log) (values p'.log) := by
  obtain ⟨y, hy, hp⟩ := h.invoke c.call
  have hle : log <+: p'.log := h.log_eq ▸ hl.log
  match hst : x.start c with
  | none => exact absurd hst hx
  | some (.inr x') =>
    obtain ⟨log', p₁, hv, hp₁, hl₁⟩ := Turn.leads hg hfit h (.still hst)
    obtain ⟨n, rfl⟩ := hl
    have hle' := hl₁.log_within hp₁.rests n
    rw [hp₁.log_eq] at hle'
    rw [values_eq_of_between hle hle' hv]
    exact .still hst
  | some (.inl (v, feed)) =>
    obtain ⟨p₁, hp₁, hl₁⟩ := hy.starts hg hst [] _ hp
    refine .course hst ?_
    have hret (log x y) (hx : ∀ feed, x ≠ .awaiting feed)
        (hy : Stands g R hs own (c.frames g ++ []) log x y) (p) (hp : y.At [] p) :
        ∃ p', k.Leads p p' ∧ p'.Rests ∧ p'.log = log := by
      obtain ⟨y', hy', ht⟩ := hy.returns hg.toRegular hx
      obtain ⟨p₁, hp₁, hl₁⟩ := ht [] p hp
      obtain ⟨p₂, hp₂, hl₂⟩ := hy'.idles hp₁
      exact ⟨p₂, hl₁.trans hl₂, hp₂.rests, hp₂.log_eq⟩
    have hund : (c.frames g ++ []).any (Machine.isDeciding 0) = false :=
      Pull.undecided hg.toRegular rfl
    obtain ⟨n, hn⟩ | hl' := hl₁.total hl
    · exact hn ▸ shows_of_iterate hg hfit hund hret n hp₁
    · have hlog₁ : p₁.log = log := by
        obtain ⟨ts, t, rfl⟩ := hp₁
        rfl
      rw [values_eq_of_between hle hl'.log (by rw [hlog₁])]
      exact .before v feed _

theorem Glimpse.leads (hs : Glimpse R x c (values log) ws) :
    ∃ p', k.Leads (p.invoke c.call) p' ∧ values p'.log = ws := by
  obtain ⟨y, hy, hp⟩ := h.invoke c.call
  cases hs with
  | still hx => exact ⟨_, .refl _, congrArg values h.log_eq⟩
  | course hx hs =>
    obtain ⟨p₁, hp₁, hl₁⟩ := hy.starts hg hx [] _ hp
    obtain ⟨p₂, hl₂, hv⟩ := hs.takes hg hfit (Pull.undecided hg.toRegular rfl) rfl hp₁
    exact ⟨p₂, hl₁.trans hl₂, hv⟩

end

def Place.Admits : Place → List Pull → Prop
  | awaiting _, cs => cs.count .subscribe ≤ 1
  | _, cs => Pull.subscribe ∉ cs

theorem Place.Admits.start {cs : List Pull} (h : x.Admits (c :: cs)) : x.start c ≠ none := by
  cases x with
  | awaiting feed =>
    cases c with
    | subscribe =>
      simp only [Place.start]
      split <;> simp
    | _ => simp [Place.start]
  | waiting v feed => cases c <;> simp [Place.start, Place.Admits] at *
  | ended => cases c <;> simp [Place.start, Place.Admits] at *

theorem Place.Admits.tail {cs : List Pull} (h : x.Admits (c :: cs)) : x.Admits cs := by
  cases x with
  | awaiting feed => exact (List.count_le_count_cons).trans h
  | _ => exact fun hm => h (List.mem_cons_of_mem c hm)

theorem Place.Admits.notMem {cs : List Pull} (h : x.Admits (c :: cs))
    (hx : x.start c ≠ some (.inr x)) : Pull.subscribe ∉ cs := by
  cases x with
  | awaiting feed =>
    cases c with
    | subscribe =>
      simp only [Place.Admits, List.count_cons_self] at h
      exact List.count_eq_zero.mp (by omega)
    | _ => exact absurd rfl hx
  | _ => exact fun hm => h (List.mem_cons_of_mem c hm)

theorem Place.admits_of_notMem {cs : List Pull} (hx : ∀ feed, x ≠ .awaiting feed)
    (h : Pull.subscribe ∉ cs) : x.Admits cs := by
  cases x with
  | awaiting feed => exact absurd rfl (hx feed)
  | _ => exact h

theorem Turn.admits {x' : Place} {cs : List Pull} (ht : Turn R x c vs x' ws)
    (h : x.Admits (c :: cs)) : x'.Admits cs := by
  cases ht with
  | course hx hc =>
    refine Place.admits_of_notMem hc.ne_awaiting (h.notMem ?_)
    simp [hx]
  | still hx =>
    by_cases hne : x' = x
    · exact hne ▸ h.tail
    · have hover : x' = .ended := by
        cases x with
        | awaiting feed =>
          cases c with
          | subscribe =>
            simp only [Place.start] at hx
            split at hx
            · cases hx
            · exact (Sum.inr.inj (Option.some.inj hx)).symm
          | _ => exact absurd (Sum.inr.inj (Option.some.inj hx)).symm hne
        | waiting v feed =>
          cases c with
          | cancel => exact (Sum.inr.inj (Option.some.inj hx)).symm
          | _ => cases hx
        | ended =>
          cases c with
          | subscribe => cases hx
          | _ => exact absurd (Sum.inr.inj (Option.some.inj hx)).symm hne
      rw [hover]
      refine h.notMem ?_
      rw [hx]
      exact fun he => hne (Sum.inr.inj (Option.some.inj he))

theorem status_eq {log' : List Question} {p' : Performance} (hg : g.Regular k)
    (hg' : g'.Regular k') (h : Idles g R hs own x log o p) (h' : Idles g' R hs own x log' o p') :
    p.machine.world.subscribers[0]?.map Subscriber.status =
      p'.machine.world.subscribers[0]?.map Subscriber.status := by
  obtain ⟨y, hy, ts, t, rfl⟩ := h
  obtain ⟨y', hy', ts', t', rfl⟩ := h'
  cases hy with
  | awaiting =>
    cases hy'
    simp [World.hosting, hg.status_fresh, hg'.status_fresh]
  | waiting =>
    cases hy'
    simp [World.hosting, hg.status_held, hg'.status_held]
  | ended =>
    cases hy'
    simp [World.hosting, hg.status_gone, hg'.status_gone]

section

variable (hg : g.Lets k R fit) (hfit : ∀ q feed, fit (sequenceBase q feed hs own))
  (hg' : g'.Lets k' R fit') (hfit' : ∀ q feed, fit' (sequenceBase q feed hs own))
include hg hfit hg' hfit'

theorem returns_of {cs : List Pull} (h : Idles g R hs own x log o p)
    (h' : Idles g' R hs own x log' o p') (hv : values log = values log') (hx : x.Admits cs)
    {r : Reply} {st : Status} (hr : k.Returns p (cs.map Pull.call) r st vs) :
    k'.Returns p' (cs.map Pull.call) r st vs := by
  obtain ⟨q, hplays, hret, hst, hvs⟩ := hr
  induction cs generalizing x log log' o p p' with
  | nil =>
    cases hplays
    refine ⟨p', .nil p', ?_, ?_, ?_⟩
    · obtain ⟨y, hy, ts, t, rfl⟩ := h
      obtain ⟨y', hy', ts', t', rfl⟩ := h'
      exact hret
    · exact (status_eq hg.toRegular hg'.toRegular h h').symm.trans hst
    · rw [h'.log_eq, ← hv, ← h.log_eq, hvs]
  | cons c cs ih =>
    cases hplays with
    | cons hl hp hcs =>
      obtain ⟨x', ws, ht⟩ := turn_of_rests hg hfit h hx.start hl hp
      obtain ⟨log₁, p₁, hv₁, h₁, hl₁⟩ := ht.leads hg hfit h
      obtain rfl := hl₁.unique h₁.rests hl hp
      obtain ⟨log₂, p₂, hv₂, h₂, hl₂⟩ := (hv ▸ ht).leads hg' hfit' h'
      obtain ⟨q', hq', hr⟩ := ih h₁ h₂ (hv₁.trans hv₂.symm) (ht.admits hx) hcs
      exact ⟨q', .cons hl₂ h₂.rests hq', hr⟩

theorem sees_of {cs : List Pull} (h : Idles g R hs own x log o p)
    (h' : Idles g' R hs own x log' o p') (hv : values log = values log') (hx : x.Admits cs)
    (hs : k.Sees p (cs.map Pull.call) vs) : k'.Sees p' (cs.map Pull.call) vs := by
  obtain ⟨q, hmeets, hvs⟩ := hs
  induction cs generalizing x log log' o p p' with
  | nil =>
    cases hmeets
    exact ⟨p', .here _ _, by rw [h'.log_eq, ← hv, ← h.log_eq, hvs]⟩
  | cons c cs ih =>
    cases hmeets with
    | here => exact ⟨p', .here _ _, by rw [h'.log_eq, ← hv, ← h.log_eq, hvs]⟩
    | amid hl =>
      have hglimpse := glimpse_of_leads hg hfit h hx.start hl
      rw [hv, hvs] at hglimpse
      obtain ⟨q', hl', hv'⟩ := hglimpse.leads hg' hfit' h'
      exact ⟨q', .amid hl', hv'⟩
    | later hl hp hcs =>
      obtain ⟨x', ws, ht⟩ := turn_of_rests hg hfit h hx.start hl hp
      obtain ⟨log₁, p₁, hv₁, h₁, hl₁⟩ := ht.leads hg hfit h
      obtain rfl := hl₁.unique h₁.rests hl hp
      obtain ⟨log₂, p₂, hv₂, h₂, hl₂⟩ := (hv ▸ ht).leads hg' hfit' h'
      obtain ⟨q', hq', hr⟩ := ih h₁ h₂ (hv₁.trans hv₂.symm) (ht.admits hx) hcs
      exact ⟨q', .later hl₂ h₂.rests hq', hr⟩

end

end Sluice.Gate
