import Sluice.Proofs.Demand
import Sluice.Proofs.Session

/-!
# Keeping requests back

A subscriber can ask for more in two ways while a value is being delivered to it:
it requests on its subscription there and then, or it returns demand when it is
done. To keep its requests back in some of its receives is to leave them out and
to return what they asked for together with the rest. The environment is the same
in both sessions otherwise. What a publisher must be like for nobody to notice is
said of one section at a time, and holds of whole sessions from there.
-/

namespace Sluice

namespace Entry

variable {S In Out F : Type}

/-- What a section lets the environment see: the call that it makes, or an answer that says more
than that it is done. -/
def shown? (e : Entry S In Out F) : Option (Out ⊕ Reply) :=
  match e.move with
  | some (.call o _) => some (.inl o)
  | some (.answer .done) => none
  | some (.answer r) => some (.inr r)
  | none => none

def isCall (p : F → Bool) (e : Entry S In Out F) : Bool :=
  match e.move with
  | some (.call _ f) => p f
  | _ => false

end Entry

namespace Session

variable {S In Out F : Type}

inductive Takes (c : Component S In Out F) (may : Session S In Out F → Turn In → Prop) :
    Session S In Out F → List (Turn In) → Session S In Out F → Prop
  | nil (s : Session S In Out F) : Takes c may s [] s
  | cons {s t u : Session S In Out F} {x : Turn In} {xs : List (Turn In)} (hx : may s x)
      (ht : s.take? c x = some t) (h : Takes c may t xs u) : Takes c may s (x :: xs) u

namespace Takes

variable {c : Component S In Out F} {may : Session S In Out F → Turn In → Prop}
  {s t u : Session S In Out F}

theorem one {x : Turn In} (hx : may s x) (ht : s.take? c x = some t) : Takes c may s [x] t :=
  .cons hx ht (.nil t)

theorem append {xs ys : List (Turn In)} (h : Takes c may s xs t) (h' : Takes c may t ys u) :
    Takes c may s (xs ++ ys) u := by
  induction h with
  | nil s => exact h'
  | cons hx ht _ ih => exact .cons hx ht (ih h')

theorem of_play {xs : List (Turn In)} (hm : ∀ x ∈ xs, ∀ u, may u x)
    (h : s.play? c xs = some t) : Takes c may s xs t := by
  induction xs generalizing s with
  | nil =>
    obtain rfl := Option.some.inj h
    exact .nil s
  | cons x xs ih =>
    obtain ⟨u, hu, h⟩ := Option.bind_eq_some_iff.mp h
    obtain ⟨hx, hxs⟩ := List.forall_mem_cons.mp hm
    exact .cons (hx s) hu (ih hxs h)

end Takes

end Session

/-- The place of one subscriber at a component: the frames of the deliveries to it, and what an
input grants if it is a request on its live subscription. -/
structure Desk (S In F : Type) where
  receives : F → Bool
  grants? : S → In → Option Demand

namespace Desk

variable {S In Out F : Type} (k : Desk S In F)

def Receiving (fs : List F) : Prop := ∃ f ∈ fs, k.receives f = true

def begun (log : List (Entry S In Out F)) : Nat := log.countP (Entry.isCall k.receives)

/-- What becomes of a turn while a demand is owed, and what is owed then: a request is left out and
its demand owed in addition, and the end of the receive pays all. -/
def keep (s : Session S In Out F) (x : Turn In) : Option Demand → Option (Turn In) × Option Demand
  | none => (some x, none)
  | some owed =>
    match x with
    | .enter i =>
      match k.grants? s.state i with
      | some d => (none, some (owed + d))
      | none => (some x, some owed)
    | .reply r =>
      if s.frames.head?.any k.receives then (some (.reply (.demand (owed + r.granted))), none)
      else (some x, some owed)
    | .raise => (some x, some owed)

def owing (pick : Nat → Bool) (s t : Session S In Out F) : Option Demand → Option Demand
  | some owed => some owed
  | none => if k.begun s.log < k.begun t.log ∧ pick (k.begun s.log) then some .zero else none

/-- The turns with the requests of the chosen receives kept back, and what is owed after them. The
receives are numbered from 0, and `s` is the session in which nothing is kept back. -/
def defer (c : Component S In Out F) (pick : Nat → Bool) :
    Session S In Out F → Option Demand → List (Turn In) → List (Turn In) × Option Demand
  | _, owed, [] => ([], owed)
  | s, owed, x :: xs =>
    match s.take? c x with
    | none => ([], owed)
    | some t =>
      let kept := k.keep s x owed
      let rest := defer c pick t (k.owing pick s t kept.2) xs
      (kept.1.toList ++ rest.1, rest.2)

def Agree (Short : Demand → S → S → Prop) (owed : Demand) (x y : S × Move Out F) : Prop :=
  x.2 = y.2 ∧ Short owed x.1 y.1

/-- How a component works with requests kept back; `Short owed s t` says that `t` is `s` but for a
demand `owed` that it has not got. -/
structure Steady (c : Component S In Out F) (may : Session S In Out F → Turn In → Prop) (s₀ : S)
    (Short : Demand → S → S → Prop) : Prop where
  calm (p : Session S In Out F) : ¬ may p .raise
  -- What the environment may do depends on the frames only, and it may reply as it likes.
  fair {p q : Session S In Out F} {x : Turn In} (h : q.frames = p.frames) (hx : may p x) : may q x
  free {p : Session S In Out F} {r r' : Reply} (h : may p (.reply r)) : may p (.reply r')
  refl (s : S) : Short .zero s s
  -- As long as nothing is owed all sections agree.
  enter {s t : S} (i : In) (h : Short .zero s t) : Agree Short .zero (c.enter s i) (c.enter t i)
  proceed {s t : S} (r : Reply) (f : F) (h : Short .zero s t) :
    Agree Short .zero (c.proceed s r f) (c.proceed t r f)
  -- A request inside a receive only adds its demand.
  request {p : Session S In Out F} {i : In} {d owed : Demand} {t : S}
    (hp : Session.Reaches c may (.start s₀) p) (hr : k.Receiving p.frames)
    (hd : k.grants? p.state i = some d) (h : Short owed p.state t) :
    Agree Short (owed + d) (c.enter p.state i) (t, .answer .done)
  -- No other section inside a receive has to do with what is owed.
  within {p : Session S In Out F} {i : In} {owed : Demand} {t : S}
    (hp : Session.Reaches c may (.start s₀) p) (hr : k.Receiving p.frames) (hi : may p (.enter i))
    (hd : k.grants? p.state i = none) (h : Short owed p.state t) :
    Agree Short owed (c.enter p.state i) (c.enter t i)
  above {p : Session S In Out F} {f : F} {fs : List F} {r : Reply} {owed : Demand} {t : S}
    (hp : Session.Reaches c may (.start s₀) p) (hf : p.frames = f :: fs)
    (hn : k.receives f = false) (hr : k.Receiving fs) (h : Short owed p.state t) :
    Agree Short owed (c.proceed p.state r f) (c.proceed t r f)
  -- At the end of a receive it is all one who asked for what.
  settle {s t : S} {f : F} {r : Reply} {owed : Demand} (hr : k.receives f = true)
    (h : Short owed s t) :
    Agree Short .zero (c.proceed s r f) (c.proceed t (.demand (owed + r.granted)) f)

namespace Steady

variable {k} {c : Component S In Out F} {may : Session S In Out F → Turn In → Prop} {s₀ : S}
  {Short : Demand → S → S → Prop}

/-- The session `q` with requests kept back, beside the session `p` without. -/
structure Beside (k : Desk S In F) (c : Component S In Out F)
    (may : Session S In Out F → Turn In → Prop) (s₀ : S) (Short : Demand → S → S → Prop)
    (owed : Option Demand) (p q : Session S In Out F) : Prop where
  reaches : Session.Reaches c may (.start s₀) p
  frames : q.frames = p.frames
  shown : q.log.filterMap Entry.shown? = p.log.filterMap Entry.shown?
  short : Short (owed.getD .zero) p.state q.state
  receiving : owed.isSome → k.Receiving p.frames

theorem receiving_push {fs : List F} (h : k.Receiving fs) (mv : Move Out F) :
    k.Receiving (mv.push fs) := by
  obtain ⟨f, hf, hr⟩ := h
  cases mv with
  | answer r => exact ⟨f, hf, hr⟩
  | call o f' => exact ⟨f, List.mem_cons_of_mem f' hf, hr⟩

theorem receiving_of_cons {f : F} {fs : List F} (h : k.Receiving (f :: fs))
    (hf : k.receives f = false) : k.Receiving fs := by
  obtain ⟨g, hg, hr⟩ := h
  rcases List.mem_cons.mp hg with rfl | hg
  · exact absurd hr (by simp [hf])
  · exact ⟨g, hg, hr⟩

namespace Beside

variable {p q p' : Session S In Out F} {owed owed' : Option Demand} {x y : Turn In} {fs : List F}
  {r r' : S × Move Out F}

theorem advance (h : Beside k c may s₀ Short owed p q)
    (hp : Session.Reaches c may (.start s₀) (p.advance x fs r))
    (ha : Agree Short (owed'.getD .zero) r r') (hr : owed'.isSome → k.Receiving fs) :
    Beside k c may s₀ Short owed' (p.advance x fs r) (q.advance y fs r') where
  reaches := hp
  frames := congrArg (·.push fs) ha.1.symm
  shown := by
    have he : Entry.shown? (⟨y, q.state, r'.1, some r'.2⟩ : Entry S In Out F) =
        Entry.shown? (⟨x, p.state, r.1, some r.2⟩ : Entry S In Out F) := by
      simp only [Entry.shown?, ha.1]
    simp only [Session.advance, List.filterMap_cons, he, h.shown]
  short := ha.2
  receiving ho := receiving_push (hr ho) r.2

theorem skip {d : Demand} (h : Beside k c may s₀ Short owed p q)
    (hp : Session.Reaches c may (.start s₀) (p.advance x p.frames r))
    (ha : Agree Short d r (q.state, .answer .done)) (hr : k.Receiving p.frames) :
    Beside k c may s₀ Short (some d) (p.advance x p.frames r) q where
  reaches := hp
  frames := h.frames.trans (congrArg (·.push p.frames) ha.1.symm)
  shown := by
    have he : Entry.shown? (⟨x, p.state, r.1, some r.2⟩ : Entry S In Out F) = none := by
      simp only [Entry.shown?, ha.1]
    simp only [Session.advance, List.filterMap_cons, he, h.shown]
  short := ha.2
  receiving _ := receiving_push hr r.2

theorem receiving_of_begun (ht : p.take? c x = some p') (hb : k.begun p.log < k.begun p'.log) :
    k.Receiving p'.frames := by
  have called {x : Turn In} {fs : List F} {r : S × Move Out F}
      (hb : k.begun p.log < k.begun (p.advance x fs r).log) :
      k.Receiving (p.advance x fs r).frames := by
    obtain ⟨s, mv⟩ := r
    cases mv with
    | answer r => exact absurd hb (by simp [Session.advance, begun, Entry.isCall])
    | call o f =>
      refine ⟨f, List.mem_cons_self .., ?_⟩
      by_contra hf
      exact absurd hb (by simp [Session.advance, begun, Entry.isCall, hf])
  cases x with
  | enter i =>
    obtain rfl := Option.some.inj ht
    exact called hb
  | reply r =>
    cases hf : p.frames with
    | nil => simp [Session.take?, hf] at ht
    | cons f fs =>
      simp only [Session.take?, hf, Option.some.injEq] at ht
      exact ht ▸ called (ht ▸ hb)
  | raise =>
    cases hf : p.frames with
    | nil => simp [Session.take?, hf] at ht
    | cons f fs =>
      simp only [Session.take?, hf, Option.some.injEq] at ht
      subst ht
      exact absurd hb (by simp [Session.unwind, begun, Entry.isCall])

theorem owing {t : Session S In Out F} (pick : Nat → Bool) (ht : p.take? c x = some p')
    (h : Beside k c may s₀ Short owed p' t) :
    Beside k c may s₀ Short (k.owing pick p p' owed) p' t := by
  cases owed with
  | some d => exact h
  | none =>
    unfold Desk.owing
    dsimp only
    split
    · next hb => exact ⟨h.reaches, h.frames, h.shown, h.short, fun _ => receiving_of_begun ht hb.1⟩
    · exact h

theorem turn (hk : k.Steady c may s₀ Short) (h : Beside k c may s₀ Short owed p q) (hx : may p x)
    (ht : p.take? c x = some p') :
    ∃ t, Session.Takes c may q (k.keep p x owed).1.toList t ∧
      Beside k c may s₀ Short (k.keep p x owed).2 p' t := by
  have hp' := Session.Reaches.turn h.reaches hx ht
  cases x with
  | raise => exact absurd hx (hk.calm p)
  | enter i =>
    obtain rfl := Option.some.inj ht
    have entered := Session.Takes.one (hk.fair h.frames hx) (c := c) rfl
    rw [h.frames] at entered
    cases owed with
    | none => exact ⟨_, entered, h.advance hp' (hk.enter i h.short) (by simp [keep])⟩
    | some owed =>
      have hr := h.receiving rfl
      cases hd : k.grants? p.state i with
      | some d =>
        simp only [keep, hd]
        exact ⟨q, .nil q, h.skip hp' (hk.request h.reaches hr hd h.short) hr⟩
      | none =>
        simp only [keep, hd]
        exact ⟨_, entered, h.advance hp' (hk.within h.reaches hr hx hd h.short) fun _ => hr⟩
  | reply r =>
    cases hf : p.frames with
    | nil => simp [Session.take?, hf] at ht
    | cons f fs =>
      simp only [Session.take?, hf, Option.some.injEq] at ht
      subst ht
      have answered (r' : Reply) : Session.Takes c may q [.reply r']
          (q.advance (.reply r') fs (c.proceed q.state r' f)) := by
        refine .one (hk.free (hk.fair h.frames hx)) ?_
        simp [Session.take?, h.frames.trans hf]
      cases owed with
      | none =>
        exact ⟨_, answered r, h.advance hp' (hk.proceed r f h.short) (by simp [keep])⟩
      | some owed =>
        by_cases hr : k.receives f = true
        · have hkeep : k.keep p (.reply r) (some owed) =
              (some (.reply (.demand (owed + r.granted))), none) := by
            simp [keep, hf, hr]
          rw [hkeep]
          exact ⟨_, answered (.demand (owed + r.granted)),
            h.advance hp' (hk.settle hr h.short) (by simp)⟩
        · have hr : k.receives f = false := by simpa using hr
          have hkeep : k.keep p (.reply r) (some owed) = (some (.reply r), some owed) := by
            simp [keep, hf, hr]
          rw [hkeep]
          have hfs := receiving_of_cons (hf ▸ h.receiving rfl) hr
          exact ⟨_, answered r, h.advance hp' (hk.above h.reaches hf hr hfs h.short) fun _ => hfs⟩

end Beside

/-- Whatever requests are kept back, the session that comes of it is the same but for what is
still owed. -/
theorem defer_takes (hk : k.Steady c may s₀ Short) (pick : Nat → Bool) {p q s : Session S In Out F}
    {owed : Option Demand} {xs : List (Turn In)} (hs : Session.Takes c may p xs s)
    (h : Beside k c may s₀ Short owed p q) :
    ∃ t, Session.Takes c may q (k.defer c pick p owed xs).1 t ∧
      Beside k c may s₀ Short (k.defer c pick p owed xs).2 s t := by
  induction hs generalizing q owed with
  | nil s => exact ⟨q, .nil q, h⟩
  | @cons p p' s x xs hx ht _ ih =>
    obtain ⟨u, hu, hbeside⟩ := h.turn hk hx ht
    obtain ⟨t, hrest, hend⟩ := ih (hbeside.owing pick ht)
    refine ⟨t, ?_, ?_⟩
    · simp only [defer, ht]
      exact hu.append hrest
    · simp only [defer, ht]
      exact hend

theorem start (hk : k.Steady c may s₀ Short) :
    Beside k c may s₀ Short none (.start s₀) (.start s₀) :=
  ⟨.refl, rfl, rfl, hk.refl s₀, by simp⟩

end Steady

end Desk

end Sluice
