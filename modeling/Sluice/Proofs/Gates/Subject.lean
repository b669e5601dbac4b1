import Mathlib
import Sluice.Proofs.Gates.Gate
import Sluice.Proofs.Demand

/-!
# Gates on a subject

A subject counts a gate in a broadcast if a value is outstanding, and passes it over
otherwise. Every call returns, so where a gate stands after it is a function of where it
stood before and of how many values it was shown.
-/

namespace Sluice.Gate

open Conduct

/-- Where a subject and its gate stand between two calls. -/
inductive Post
  | awaiting (c : Option Ending)
  | held (outstanding : Bool)
  | gone (c : Option Ending)

inductive Deed
  | subscribe
  | send (v : Value)
  | complete (c : Ending)
  | resume
  | cancel

namespace Deed

def call : Deed → Call
  | subscribe => .subscribe ⟨[], .subject 0⟩ 0
  | send v => .send 0 v
  | complete c => .complete 0 c
  | resume => .tell 0 .resume
  | cancel => .tell 0 .cancel

def subscribes : Deed → Bool
  | subscribe => true
  | _ => false

end Deed

namespace Post

def after (R : Nat → Bool) (n : Nat) : Post → Deed → Post
  | awaiting c, .subscribe => c.elim (held true) fun c => gone (some c)
  | awaiting c, .complete c' => awaiting (some (c.getD c'))
  | held p, .send _ => held (p && R n)
  | held _, .complete c => gone (some c)
  | held _, .resume => held true
  | held _, .cancel => gone none
  | gone c, .complete c' => gone (some (c.getD c'))
  | x, _ => x

def shown : Post → Deed → List Value
  | held p, .send v => if p then [v] else []
  | _, _ => []

def reply : Post → Deed → Reply
  | held p, .send _ => .count (if p then 1 else 0)
  | _, .send _ => .count 0
  | _, _ => .done

def Admits : Post → List Deed → Prop
  | awaiting _, ds => ds.countP Deed.subscribes ≤ 1
  | _, ds => ∀ d ∈ ds, d.subscribes = false

end Post

def subjectBase (s : Subject Outlet) : World where
  subjects := #[s]
  owned := [0]

def subjectLink : Link := ⟨[], .subject 0 0⟩

def registered (d : Demand) : Subject Outlet := ⟨#[⟨some ⟨[], 0⟩, d⟩], [0], none⟩

def outstanding (p : Bool) : Demand := if p then .one else .zero

inductive Posted (g : Gate) (R : Nat → Bool) (log : List Question) : Post → Site → Prop
  | awaiting (c : Option Ending) : Posted g R log (.awaiting c)
      ⟨subjectBase ⟨#[], [], c⟩, g.fresh, [], .answering .done, log⟩
  | held (p : Bool) (hR : p = false → ∃ n, R n = false) : Posted g R log (.held p)
      ⟨subjectBase (registered (outstanding p)), g.held p subjectLink, [], .answering .done, log⟩
  | gone (es : Array (Subject.Entry Outlet)) (c : Option Ending) (p : Bool) :
      Posted g R log (.gone c) ⟨subjectBase ⟨es, [], c⟩, g.gone p, [], .answering .done, log⟩

variable {R : Nat → Bool} {k k' : Conduct} {fit fit' : World → Prop} {g g' : Gate}
  {fs : List Frame} {log log' : List Question} {v : Value} {d : Deed} {x : Post} {y : Site}
  {p p' : Performance} {es : Array (Subject.Entry Outlet)} {s : Subscriber}

theorem books_registered :
    Books k (subjectBase (registered .zero)) (subjectBase (registered .one)) subjectLink := by
  rintro s fs log rs p ⟨ts, t, rfl⟩
  exact ⟨_, ⟨ts, t, rfl⟩, 1, by cbv⟩

theorem takes_registered (hg : g.Regular k) :
    k.Takes ⟨subjectBase {}, g.fresh, [], .calling Deed.subscribe.call, log⟩
      ⟨subjectBase (registered .one), g.held true subjectLink, [], .answering .done, log⟩ := by
  have hoffer : k.Takes ⟨subjectBase {}, g.fresh, [], .calling Deed.subscribe.call, log⟩
      ⟨subjectBase (registered .zero), g.fresh, [.subject 0 (.passing ⟨[], 0⟩)],
        .calling (.tell 0 (.subscription subjectLink)), log⟩ := by
    rintro rs p ⟨ts, t, rfl⟩
    exact ⟨_, ⟨ts, t, rfl⟩, 1, by cbv⟩
  refine hoffer.trans ((hg.subscription _ _ _ _).trans ((books_registered _ _ _).trans
    ((hg.passed _ _ _ _ _ _).trans ?_)))
  rintro rs p ⟨ts, t, rfl⟩
  exact ⟨_, ⟨ts, t, rfl⟩, 1, by cbv⟩

theorem takes_late (hg : g.Regular k) (c : Ending) :
    k.Takes ⟨subjectBase ⟨#[], [], some c⟩, g.fresh, [], .calling Deed.subscribe.call, log⟩
      ⟨subjectBase ⟨#[], [], some c⟩, g.gone true, [], .answering .done, log ++ g.closing c⟩ := by
  have hoffer : k.Takes
      ⟨subjectBase ⟨#[], [], some c⟩, g.fresh, [], .calling Deed.subscribe.call, log⟩
      ⟨subjectBase ⟨#[], [], some c⟩, g.fresh, [.subject 0 (.refusing ⟨[], 0⟩ c)],
        .calling (.tell 0 (.subscription ⟨[], .inert⟩)), log⟩ := by
    rintro rs p ⟨ts, t, rfl⟩
    exact ⟨_, ⟨ts, t, rfl⟩, 1, by cbv⟩
  have hinert : k.Takes ⟨subjectBase ⟨#[], [], some c⟩, g.held true ⟨[], .inert⟩,
      [g.passing, .subject 0 (.refusing ⟨[], 0⟩ c)], .calling (.request ⟨[], .inert⟩ .one), log⟩
      ⟨subjectBase ⟨#[], [], some c⟩, g.held true ⟨[], .inert⟩,
        [g.passing, .subject 0 (.refusing ⟨[], 0⟩ c)], .answering .done, log⟩ := by
    rintro rs p ⟨ts, t, rfl⟩
    exact ⟨_, ⟨ts, t, rfl⟩, 1, by cbv⟩
  have hconclude : k.Takes ⟨subjectBase ⟨#[], [], some c⟩, g.held true ⟨[], .inert⟩,
      [.subject 0 (.refusing ⟨[], 0⟩ c)], .answering .done, log⟩
      ⟨subjectBase ⟨#[], [], some c⟩, g.held true ⟨[], .inert⟩,
        [.subject 0 (.passing ⟨[], 0⟩)], .calling (.tell 0 (.completion c)), log⟩ := by
    rintro rs p ⟨ts, t, rfl⟩
    exact ⟨_, ⟨ts, t, rfl⟩, 1, by cbv⟩
  refine hoffer.trans ((hg.subscription _ _ _ _).trans (hinert.trans ((hg.passed _ _ _ _ _ _).trans
    (hconclude.trans ((hg.completion _ _ _ _ _ _).trans ?_)))))
  rintro rs p ⟨ts, t, rfl⟩
  exact ⟨_, ⟨ts, t, rfl⟩, 1, by cbv⟩

theorem takes_missed (v : Value) :
    k.Takes ⟨subjectBase (registered .zero), s, [], .calling (Deed.send v).call, log⟩
      ⟨subjectBase (registered .zero), s, [], .answering (.count 0), log⟩ := by
  rintro rs p ⟨ts, t, rfl⟩
  exact ⟨_, ⟨ts, t, rfl⟩, 1, by cbv⟩

theorem takes_unheard (c : Option Ending) (v : Value) :
    k.Takes ⟨subjectBase ⟨es, [], c⟩, s, [], .calling (Deed.send v).call, log⟩
      ⟨subjectBase ⟨es, [], c⟩, s, [], .answering (.count 0), log⟩ := by
  rintro rs p ⟨ts, t, rfl⟩
  cases c <;> exact ⟨_, ⟨ts, t, rfl⟩, 1, by cbv⟩

theorem takes_sent (hg : g.Lets k R fit) (hfit : ∀ s, fit (subjectBase s)) (v : Value) :
    k.Takes ⟨subjectBase (registered .one), g.held true subjectLink, [],
        .calling (Deed.send v).call, log⟩
      ⟨subjectBase (registered (outstanding (R (values log).length))),
        g.held (R (values log).length) subjectLink, [], .answering (.count 1),
        log ++ [g.ask v]⟩ := by
  have hdeliver : k.Takes ⟨subjectBase (registered .one), g.held true subjectLink, [],
      .calling (Deed.send v).call, log⟩ ⟨subjectBase (registered .zero), g.held true subjectLink,
      [.subject 0 (.sending ⟨[], 0⟩ 0 v [] 0)], .calling (.tell 0 (.value v)), log⟩ := by
    rintro rs p ⟨ts, t, rfl⟩
    exact ⟨_, ⟨ts, t, rfl⟩, 1, by cbv⟩
  have hund : [Frame.subject 0 (.sending ⟨[], 0⟩ 0 v [] 0)].any (Machine.isDeciding 0) = false :=
    rfl
  obtain ⟨b₁, d, ht, hd⟩ := hg.value (hfit (registered .zero)) hund books_registered log v
  refine hdeliver.trans (ht.trans ?_)
  rintro rs p ⟨ts, t, rfl⟩
  generalize R (values log).length = r at hd
  obtain ⟨rfl, rfl⟩ | ⟨rfl, rfl, rfl⟩ := hd
  · exact ⟨_, ⟨ts, t, rfl⟩, 1, by cases r <;> cbv⟩
  · exact ⟨_, ⟨ts, t, rfl⟩, 1, by cbv⟩

theorem takes_completed (hg : g.Regular k) (p : Bool) (c : Ending) :
    k.Takes ⟨subjectBase (registered (outstanding p)), g.held p subjectLink, [],
        .calling (Deed.complete c).call, log⟩
      ⟨subjectBase ⟨#[⟨none, outstanding p⟩], [], some c⟩, g.gone p, [], .answering .done,
        log ++ g.closing c⟩ := by
  have hconclude : k.Takes ⟨subjectBase (registered (outstanding p)), g.held p subjectLink, [],
      .calling (Deed.complete c).call, log⟩
      ⟨subjectBase ⟨#[⟨none, outstanding p⟩], [], some c⟩, g.held p subjectLink,
        [.subject 0 (.completing ⟨[], 0⟩ c [])], .calling (.tell 0 (.completion c)), log⟩ := by
    rintro rs p ⟨ts, t, rfl⟩
    exact ⟨_, ⟨ts, t, rfl⟩, 1, by cbv⟩
  refine hconclude.trans ((hg.completion _ _ _ _ _ _).trans ?_)
  rintro rs p ⟨ts, t, rfl⟩
  exact ⟨_, ⟨ts, t, rfl⟩, 1, by cbv⟩

theorem takes_closed (c : Option Ending) (c' : Ending) :
    k.Takes ⟨subjectBase ⟨es, [], c⟩, s, [], .calling (Deed.complete c').call, log⟩
      ⟨subjectBase ⟨es, [], some (c.getD c')⟩, s, [], .answering .done, log⟩ := by
  rintro rs p ⟨ts, t, rfl⟩
  cases c <;> exact ⟨_, ⟨ts, t, rfl⟩, 1, by cbv⟩

theorem takes_woken (hg : g.Lets k R fit) (hR : ∃ n, R n = false) :
    k.Takes ⟨subjectBase (registered .zero), g.held false subjectLink, [],
        .calling Deed.resume.call, log⟩
      ⟨subjectBase (registered .one), g.held true subjectLink, [], .answering .done, log⟩ :=
  (hg.resume hR _ _ _ _).trans ((books_registered _ _ _).trans (hg.passed _ _ _ _ _ .done))

theorem takes_withdrawn (hg : g.Regular k) (p : Bool) :
    k.Takes ⟨subjectBase (registered (outstanding p)), g.held p subjectLink, [],
        .calling Deed.cancel.call, log⟩
      ⟨subjectBase ⟨#[⟨none, outstanding p⟩], [], none⟩, g.gone p, [], .answering .done, log⟩ := by
  refine (hg.cancel _ _ _ _ _).trans (Takes.trans ?_ (hg.released _ _ _ _ .done))
  rintro rs p ⟨ts, t, rfl⟩
  exact ⟨_, ⟨ts, t, rfl⟩, 1, by cbv⟩

theorem Posted.takes (hg : g.Lets k R fit) (hfit : ∀ s, fit (subjectBase s))
    (hy : Posted g R log x y) (hd : x.Admits [d]) :
    ∃ log' y', values log' = values log ++ x.shown d ∧
      Posted g R log' (x.after R (values log).length d) y' ∧
      k.Takes (y.calling d.call) { y' with control := .answering (x.reply d) } := by
  have hsame : values log = values log ++ [] := (List.append_nil _).symm
  have hclosed (c : Ending) : values (log ++ g.closing c) = values log ++ [] := by
    rw [values_append, hg.values_closing]
  cases hy with
  | awaiting c =>
    cases d with
    | subscribe =>
      cases c with
      | none => exact ⟨log, _, hsame, .held true (by simp), takes_registered hg.toRegular⟩
      | some c => exact ⟨_, _, hclosed c, .gone #[] (some c) true, takes_late hg.toRegular c⟩
    | send v => exact ⟨log, _, hsame, .awaiting c, takes_unheard c v⟩
    | complete c' => exact ⟨log, _, hsame, .awaiting _, takes_closed c c'⟩
    | resume => exact ⟨log, _, hsame, .awaiting c, hg.resume_idle (.inl rfl) _ _ _⟩
    | cancel => exact ⟨log, _, hsame, .awaiting c, hg.cancel_idle (.inl rfl) _ _ _⟩
  | held p hR =>
    cases d with
    | subscribe => simp [Post.Admits, Deed.subscribes] at hd
    | send v =>
      cases p with
      | false => exact ⟨log, _, hsame, .held false hR, takes_missed v⟩
      | true =>
        refine ⟨_, _, ?_, .held _ fun hr => ⟨_, hr⟩, takes_sent hg hfit v⟩
        rw [values_append]
        simp [values, hg.value?_ask, Post.shown]
    | complete c => exact ⟨_, _, hclosed c, .gone _ _ p, takes_completed hg.toRegular p c⟩
    | resume =>
      cases p with
      | false => exact ⟨log, _, hsame, .held true (by simp), takes_woken hg (hR rfl)⟩
      | true =>
        exact ⟨log, _, hsame, .held true (by simp), hg.resume_idle (.inr (.inl ⟨_, rfl⟩)) _ _ _⟩
    | cancel => exact ⟨log, _, hsame, .gone _ none p, takes_withdrawn hg.toRegular p⟩
  | gone es c p =>
    cases d with
    | subscribe => simp [Post.Admits, Deed.subscribes] at hd
    | send v => exact ⟨log, _, hsame, .gone es c p, takes_unheard c v⟩
    | complete c' => exact ⟨log, _, hsame, .gone es _ p, takes_closed c c'⟩
    | resume => exact ⟨log, _, hsame, .gone es c p, hg.resume_idle (.inr (.inr ⟨p, rfl⟩)) _ _ _⟩
    | cancel => exact ⟨log, _, hsame, .gone es c p, hg.cancel_idle (.inr ⟨p, rfl⟩) _ _ _⟩

def Keeps (g : Gate) (R : Nat → Bool) (x : Post) (log : List Question) (o : Outcome)
    (p : Performance) : Prop :=
  ∃ y, Posted g R log x y ∧ Site.At { y with control := .idle o } [] p

variable {o o' : Outcome}

theorem Keeps.log_eq (h : Keeps g R x log o p) : p.log = log := by
  obtain ⟨y, hy, ts, t, rfl⟩ := h
  cases hy <;> rfl

theorem Keeps.rests {r : Reply} (h : Keeps g R x log (.returned r) p) : p.Rests := by
  obtain ⟨y, hy, ts, t, rfl⟩ := h
  cases hy <;> exact ⟨rfl, rfl, r, rfl⟩

theorem Keeps.control_eq (h : Keeps g R x log o p) : p.machine.control = .idle o := by
  obtain ⟨y, hy, ts, t, rfl⟩ := h
  rfl

def Post.status : Post → Status
  | awaiting _ => .awaiting
  | held _ => .subscribed
  | gone _ => .terminal

theorem Keeps.status_eq (hg : g.Regular k) (h : Keeps g R x log o p) :
    p.machine.world.subscribers[0]?.map Subscriber.status = some x.status := by
  obtain ⟨y, hy, ts, t, rfl⟩ := h
  cases hy with
  | awaiting => exact congrArg some hg.status_fresh
  | held => exact congrArg some (hg.status_held _ _)
  | gone => exact congrArg some (hg.status_gone _)

theorem Keeps.leads (hg : g.Lets k R fit) (hfit : ∀ s, fit (subjectBase s))
    (h : Keeps g R x log o p) (hd : x.Admits [d]) :
    ∃ log' p', values log' = values log ++ x.shown d ∧
      Keeps g R (x.after R (values log).length d) log' (.returned (x.reply d)) p' ∧
      k.Leads (p.invoke d.call) p' := by
  obtain ⟨y, hy, ts, t, rfl⟩ := h
  obtain ⟨log', y', hv, hy', ht⟩ := hy.takes hg hfit hd
  obtain ⟨p₁, hp₁, hl₁⟩ := ht [] _ ⟨ts, t, rfl⟩
  obtain ⟨ts', t', rfl⟩ := hp₁
  refine ⟨log', _, hv, ⟨y', hy', ts', t', rfl⟩, hl₁.trans ⟨1, ?_⟩⟩
  generalize x.after R (values log).length d = x' at hy'
  cases hy' <;> rfl

theorem Keeps.between (hg : g.Lets k R fit) (hfit : ∀ s, fit (subjectBase s))
    (h : Keeps g R x log o p) (hd : x.Admits [d]) (hl : k.Leads (p.invoke d.call) p') :
    values p'.log = values log ∨ values p'.log = values log ++ x.shown d := by
  obtain ⟨log₁, p₁, hv, h₁, hl₁⟩ := h.leads hg hfit hd
  obtain ⟨n, rfl⟩ := hl
  have hle : log <+: (k.play^[n] (p.invoke d.call)).log :=
    h.log_eq ▸ k.log_iterate (p.invoke d.call) n
  have hle' : (k.play^[n] (p.invoke d.call)).log <+: log₁ := h₁.log_eq ▸ hl₁.log_within h₁.rests n
  have hpre : values log <+: values (k.play^[n] (p.invoke d.call)).log :=
    hle.filterMap Question.value?
  have hpre' : values (k.play^[n] (p.invoke d.call)).log <+: values log ++ x.shown d :=
    hv ▸ hle'.filterMap Question.value?
  generalize values (k.play^[n] (p.invoke d.call)).log = ws at hpre hpre' ⊢
  obtain ⟨us, rfl⟩ := hpre
  have hus : us <+: x.shown d := (List.prefix_append_right_inj (values log)).mp hpre'
  have hlen : (x.shown d).length ≤ 1 := by
    cases x with
    | held p => cases d <;> cases p <;> simp [Post.shown]
    | _ => exact Nat.zero_le 1
  obtain hlt | hge := Nat.lt_or_ge us.length (x.shown d).length
  · obtain rfl : us = [] := List.length_eq_zero_iff.mp (by omega)
    exact .inl (List.append_nil _)
  · exact .inr (by rw [hus.eq_of_length_le hge])

theorem Post.Admits.head {ds : List Deed} (h : x.Admits (d :: ds)) : x.Admits [d] := by
  cases x with
  | awaiting c => exact List.countP_le_length
  | _ => exact fun d' hd' => h d' (by simp_all)

theorem Post.Admits.tail {ds : List Deed} (h : x.Admits (d :: ds)) (n : Nat) :
    (x.after R n d).Admits ds := by
  cases x with
  | awaiting c =>
    cases d with
    | subscribe =>
      have hds : ∀ d ∈ ds, ¬ d.subscribes := by
        have hcount : (Deed.subscribe :: ds).countP Deed.subscribes =
          ds.countP Deed.subscribes + 1 := List.countP_cons_of_pos rfl
        rw [← List.countP_eq_zero]
        simp only [Post.Admits, hcount] at h
        omega
      cases c <;> simpa [Post.Admits, Post.after] using hds
    | _ => exact h
  | held p => cases d <;> exact fun d' hd' => h d' (List.mem_cons_of_mem _ hd')
  | gone c => cases d <;> exact fun d' hd' => h d' (List.mem_cons_of_mem _ hd')

section

variable (hg : g.Lets k R fit) (hfit : ∀ s, fit (subjectBase s))
  (hg' : g'.Lets k' R fit') (hfit' : ∀ s, fit' (subjectBase s))
include hg hfit hg' hfit'

theorem keeps_plays {ds : List Deed} (h : Keeps g R x log o p) (h' : Keeps g' R x log' o p')
    (hv : values log = values log') (hx : x.Admits ds) :
    ∃ x₁ log₁ log₁' o₁ p₁ p₁', values log₁ = values log₁' ∧ Keeps g R x₁ log₁ o₁ p₁ ∧
      Keeps g' R x₁ log₁' o₁ p₁' ∧ k.Plays p (ds.map Deed.call) p₁ ∧
      k'.Plays p' (ds.map Deed.call) p₁' := by
  induction ds generalizing x log log' o p p' with
  | nil => exact ⟨x, log, log', o, p, p', hv, h, h', .nil p, .nil p'⟩
  | cons d ds ih =>
    obtain ⟨log₁, p₁, hv₁, h₁, hl₁⟩ := h.leads hg hfit hx.head
    obtain ⟨log₂, p₂, hv₂, h₂, hl₂⟩ := h'.leads hg' hfit' hx.head
    rw [← hv] at hv₂ h₂
    obtain ⟨x₃, log₃, log₄, o₃, p₃, p₄, hv₃, h₃, h₄, hp₃, hp₄⟩ :=
      ih h₁ h₂ (hv₁.trans hv₂.symm) (hx.tail _)
    exact ⟨x₃, log₃, log₄, o₃, p₃, p₄, hv₃, h₃, h₄, .cons hl₁ h₁.rests hp₃,
      .cons hl₂ h₂.rests hp₄⟩

theorem keeps_returns_of {ds : List Deed} (h : Keeps g R x log o p) (h' : Keeps g' R x log' o p')
    (hv : values log = values log') (hx : x.Admits ds) {r : Reply} {st : Status} {vs : List Value}
    (hr : k.Returns p (ds.map Deed.call) r st vs) :
    k'.Returns p' (ds.map Deed.call) r st vs := by
  obtain ⟨q, hplays, hret, hst, rfl⟩ := hr
  obtain ⟨x₁, log₁, log₁', o₁, p₁, p₁', hv₁, h₁, h₁', hp₁, hp₁'⟩ :=
    keeps_plays hg hfit hg' hfit' h h' hv hx
  obtain rfl := hplays.unique hp₁
  refine ⟨p₁', hp₁', ?_, ?_, ?_⟩
  · rw [h₁'.control_eq, ← h₁.control_eq, hret]
  · rw [h₁'.status_eq hg'.toRegular, ← h₁.status_eq hg.toRegular, hst]
  · rw [h₁'.log_eq, ← hv₁, h₁.log_eq]

theorem keeps_sees_of {ds : List Deed} (h : Keeps g R x log o p) (h' : Keeps g' R x log' o p')
    (hv : values log = values log') (hx : x.Admits ds) {vs : List Value}
    (hs : k.Sees p (ds.map Deed.call) vs) : k'.Sees p' (ds.map Deed.call) vs := by
  obtain ⟨q, hmeets, rfl⟩ := hs
  have hhere : values p'.log = values log := by rw [h'.log_eq, hv]
  induction ds generalizing x log log' o p p' with
  | nil =>
    cases hmeets
    exact ⟨p', .here _ _, by rw [hhere, h.log_eq]⟩
  | cons d ds ih =>
    obtain ⟨log₂, p₂, hv₂, h₂, hl₂⟩ := h'.leads hg' hfit' hx.head
    cases hmeets with
    | here => exact ⟨p', .here _ _, by rw [hhere, h.log_eq]⟩
    | amid hl =>
      obtain hq | hq := h.between hg hfit hx.head hl
      · exact ⟨p', .here _ _, hhere.trans hq.symm⟩
      · exact ⟨p₂, .amid hl₂, by rw [h₂.log_eq, hv₂, hq, hv]⟩
    | later hl hp hcs =>
      obtain ⟨log₁, p₁, hv₁, h₁, hl₁⟩ := h.leads hg hfit hx.head
      obtain rfl := hl₁.unique h₁.rests hl hp
      rw [← hv] at hv₂ h₂
      have hv₃ : values log₁ = values log₂ := hv₁.trans hv₂.symm
      obtain ⟨q', hq', hs⟩ := ih h₁ h₂ hv₃ (hx.tail _) hcs (by rw [h₂.log_eq, hv₃])
      exact ⟨q', .later hl₂ h₂.rests hq', hs⟩

end

end Sluice.Gate
