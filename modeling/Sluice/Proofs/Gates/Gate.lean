import Sluice.Proofs.Machine.Conduct

/-!
# Gates

A gate is a subscriber that never has more than one value outstanding: it requests one
when it is subscribed, and one more for every value that it lets pass. What a gate does
is put down in laws that leave its publisher open, so that sinks and assigns can be
followed through the same runs.
-/

namespace Sluice

/-- A place in a performance. What was written and what was traced so far is left open. -/
structure Site where
  base : World
  subscriber : Subscriber
  stack : List Frame
  control : Control
  log : List Question

def World.hosting (b : World) (s : Subscriber) (ts : Array Target) (t : Array Signal) : World :=
  { b with subscribers := #[s], targets := ts, trace := t }

def Site.At (x : Site) (rs : List Reaction) (p : Performance) : Prop :=
  ∃ ts t, p = ⟨⟨x.base.hosting x.subscriber ts t, x.stack, x.control⟩, rs, x.log⟩

def Site.calling (x : Site) (c : Call) : Site := { x with control := .calling c }

namespace Conduct

def Takes (k : Conduct) (x y : Site) : Prop :=
  ∀ rs p, x.At rs p → ∃ p', y.At rs p' ∧ k.Leads p p'

variable {k : Conduct} {x y z : Site} {b : World} {s : Subscriber} {fs : List Frame}
  {q : Question} {log : List Question}

theorem Takes.trans (h : k.Takes x y) (h' : k.Takes y z) : k.Takes x z := by
  intro rs p hp
  obtain ⟨p', hp', hl⟩ := h rs p hp
  obtain ⟨p'', hp'', hl'⟩ := h' rs p' hp'
  exact ⟨p'', hp'', hl.trans hl'⟩

def IdleAside (k : Conduct) (b : World) (s : Subscriber) (q : Question) (fs : List Frame)
    (log : List Question) (c : Call) : Prop :=
  ∀ rs p, Site.At ⟨b, s, .asked q :: fs, .calling c, log⟩ rs p → ∃ r p',
    Site.At ⟨b, s, .asked q :: fs, .idle (.returned r), log⟩ rs p' ∧ k.Leads p p'

theorem asides_idle {cs : List Call} (hc : ∀ c ∈ cs, k.IdleAside b s q fs log c) {o : Outcome}
    (ho : ∀ q, o ≠ .asked q) {r : Reply} {rs : List Reaction} {p : Performance}
    (hp : Site.At ⟨b, s, .asked q :: fs, .idle o, log⟩ (⟨cs, r⟩ :: rs) p) :
    ∃ p', Site.At ⟨b, s, fs, .answering r, log⟩ rs p' ∧ k.Leads p p' := by
  induction cs generalizing o p with
  | nil =>
    obtain ⟨ts, t, rfl⟩ := hp
    refine ⟨_, ⟨ts, t, rfl⟩, 1, ?_⟩
    cases o with
    | asked q => exact absurd rfl (ho q)
    | _ => rfl
  | cons c cs ih =>
    obtain ⟨ts, t, rfl⟩ := hp
    obtain ⟨r', p₁, hp₁, hl₁⟩ := hc c List.mem_cons_self (⟨cs, r⟩ :: rs) _ ⟨ts, t, rfl⟩
    obtain ⟨p₂, hp₂, hl₂⟩ := ih (fun c hm => hc c (List.mem_cons_of_mem _ hm)) (by simp) hp₁
    refine ⟨p₂, hp₂, .cons ?_⟩
    cases o with
    | asked q => exact absurd rfl (ho q)
    | _ => exact hl₁.trans hl₂

theorem asked {rs : List Reaction} {p : Performance}
    (hp : Site.At ⟨b, s, fs, .calling (.ask q), log⟩ rs p) :
    ∃ p', Site.At ⟨b, s, .asked q :: fs, .idle .start, log ++ [q]⟩ (k log q :: rs) p' ∧
      k.Leads p p' := by
  obtain ⟨ts, t, rfl⟩ := hp
  exact ⟨_, ⟨ts, t.push (.asked q), rfl⟩, 2, rfl⟩

theorem aside {c : Call} {cs : List Call} {r : Reply} {rs : List Reaction} {p : Performance}
    (hp : Site.At ⟨b, s, fs, .idle .start, log⟩ (⟨c :: cs, r⟩ :: rs) p) :
    ∃ p', Site.At ⟨b, s, fs, .calling c, log⟩ (⟨cs, r⟩ :: rs) p' ∧ k.Leads p p' := by
  obtain ⟨ts, t, rfl⟩ := hp
  exact ⟨_, ⟨ts, t, rfl⟩, 1, rfl⟩

theorem Takes.asked (hc : ∀ c ∈ (k log q).asides, k.IdleAside b s q fs (log ++ [q]) c) :
    k.Takes ⟨b, s, fs, .calling (.ask q), log⟩
      ⟨b, s, fs, .answering (k log q).reply, log ++ [q]⟩ := by
  intro rs p hp
  obtain ⟨p₁, hp₁, hl₁⟩ := Conduct.asked (k := k) hp
  obtain ⟨p₂, hp₂, hl₂⟩ := asides_idle (o := .start) hc (by simp) hp₁
  exact ⟨p₂, hp₂, hl₁.trans hl₂⟩

end Conduct

def Question.value? : Question → Option Value
  | predicate _ v => some v
  | setter _ v => some v
  | _ => none

def values (log : List Question) : List Value := log.filterMap Question.value?

theorem values_append (log more : List Question) :
    values (log ++ more) = values log ++ values more := List.filterMap_append

namespace Conduct

/-- The calls return, the last of them with `r`, and then the first subscriber has the status `st`
and was shown `vs`. -/
def Returns (k : Conduct) (p : Performance) (cs : List Call) (r : Reply) (st : Status)
    (vs : List Value) : Prop :=
  ∃ p', k.Plays p cs p' ∧ p'.machine.control = .idle (.returned r) ∧
    p'.machine.world.subscribers[0]?.map Subscriber.status = some st ∧ values p'.log = vs

/-- At some moment in the course of the calls `vs` were shown. -/
def Sees (k : Conduct) (p : Performance) (cs : List Call) (vs : List Value) : Prop :=
  ∃ p', k.Meets p cs p' ∧ values p'.log = vs

structure Alike (k k' : Conduct) (p p' : Performance) (cs : List Call) : Prop where
  returns (r : Reply) (st : Status) (vs : List Value) :
    k.Returns p cs r st vs ↔ k'.Returns p' cs r st vs
  sees (vs : List Value) : k.Sees p cs vs ↔ k'.Sees p' cs vs

end Conduct

structure Gate where
  fresh : Subscriber
  /-- It is subscribed, and the flag says whether a value is outstanding. -/
  held : Bool → Link → Subscriber
  leaving : Bool → Subscriber
  gone : Bool → Subscriber
  passing : Frame
  releasing : Frame
  ask : Value → Question
  closing : Ending → List Question

namespace Gate

/-- What any gate does under the conduct `k` when it is called, wherever its links lead. -/
structure Regular (g : Gate) (k : Conduct) : Prop where
  value?_ask (v : Value) : (g.ask v).value? = some v
  values_closing (c : Ending) : values (g.closing c) = []
  status_fresh : g.fresh.status = .awaiting
  status_held (p : Bool) (link : Link) : (g.held p link).status = .subscribed
  status_gone (p : Bool) : (g.gone p).status = .terminal
  undecided : Machine.isDeciding 0 g.passing = false
  subscription (b : World) (fs : List Frame) (log : List Question) (link : Link) :
    k.Takes ⟨b, g.fresh, fs, .calling (.tell 0 (.subscription link)), log⟩
      ⟨b, g.held true link, g.passing :: fs, .calling (.request link .one), log⟩
  passed (b : World) (p : Bool) (link : Link) (fs : List Frame) (log : List Question) (r : Reply) :
    k.Takes ⟨b, g.held p link, g.passing :: fs, .answering r, log⟩
      ⟨b, g.held p link, fs, .answering .done, log⟩
  passed_gone (b : World) (p : Bool) (fs : List Frame) (log : List Question) (r : Reply) :
    k.Takes ⟨b, g.gone p, g.passing :: fs, .answering r, log⟩
      ⟨b, g.gone p, fs, .answering .done, log⟩
  resume_idle {s : Subscriber}
    (hs : s = g.fresh ∨ (∃ link, s = g.held true link) ∨ ∃ p, s = g.gone p) (b : World)
    (fs : List Frame) (log : List Question) :
    k.Takes ⟨b, s, fs, .calling (.tell 0 .resume), log⟩ ⟨b, s, fs, .answering .done, log⟩
  cancel (b : World) (p : Bool) (fs : List Frame) (log : List Question) (link : Link) :
    k.Takes ⟨b, g.held p link, fs, .calling (.tell 0 .cancel), log⟩
      ⟨b, g.leaving p, g.releasing :: fs, .calling (.cancel link), log⟩
  released (b : World) (p : Bool) (fs : List Frame) (log : List Question) (r : Reply) :
    k.Takes ⟨b, g.leaving p, g.releasing :: fs, .answering r, log⟩
      ⟨b, g.gone p, fs, .answering .done, log⟩
  cancel_idle {s : Subscriber} (hs : s = g.fresh ∨ ∃ p, s = g.gone p) (b : World)
    (fs : List Frame) (log : List Question) :
    k.Takes ⟨b, s, fs, .calling (.tell 0 .cancel), log⟩ ⟨b, s, fs, .answering .done, log⟩
  completion (b : World) (p : Bool) (fs : List Frame) (log : List Question) (link : Link)
    (c : Ending) :
    k.Takes ⟨b, g.held p link, fs, .calling (.tell 0 (.completion c)), log⟩
      ⟨b, g.gone p, fs, .answering .done, log ++ g.closing c⟩

def Books (k : Conduct) (b b' : World) (link : Link) : Prop :=
  ∀ s fs log, k.Takes ⟨b, s, fs, .calling (.request link .one), log⟩
    ⟨b', s, fs, .answering .done, log⟩

/-- The gate lets pass the values at the places chosen by `R`. For each of them it grants another
value by its answer, or it has requested another one before it answers. -/
structure Lets (g : Gate) (k : Conduct) (R : Nat → Bool) (fit : World → Prop) : Prop
    extends g.Regular k where
  resume (hR : ∃ n, R n = false) (b : World) (fs : List Frame) (log : List Question)
    (link : Link) :
    k.Takes ⟨b, g.held false link, fs, .calling (.tell 0 .resume), log⟩
      ⟨b, g.held true link, g.passing :: fs, .calling (.request link .one), log⟩
  value {b b' : World} (hb : fit b) {fs : List Frame}
    (hf : fs.any (Machine.isDeciding 0) = false) {link : Link} (hbook : Books k b b' link)
    (log : List Question) (v : Value) :
    ∃ b₁ d, k.Takes ⟨b, g.held true link, fs, .calling (.tell 0 (.value v)), log⟩
        ⟨b₁, g.held (R (values log).length) link, fs, .answering (.demand d), log ++ [g.ask v]⟩ ∧
      (b₁ = b ∧ d = (if R (values log).length then .one else .zero) ∨
        R (values log).length = true ∧ b₁ = b' ∧ d = .zero)

end Gate
end Sluice
