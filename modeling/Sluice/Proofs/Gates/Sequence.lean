import Mathlib
import Sluice.Proofs.Gates.Gate
import Sluice.Proofs.Demand

/-!
# Gates on a sequence

A gate that is subscribed to a sequence is shown one value after the other, until it
holds one back or there is none left. `Course` tells where this comes to and `Shows`
what is seen on the way; neither depends on which gate it is. The iterator may be
endless, so a call need not return.
-/

namespace Sluice.Gate

open Conduct

/-- Where a sequence and its gate stand between two calls. -/
inductive Place
  | awaiting (feed : Feed)
  | waiting (v : Value) (feed : Feed)
  | ended

variable {R : Nat → Bool}

/-- The delivery of `v` comes to a place, when `vs` were shown before and `ws` after. -/
inductive Course (R : Nat → Bool) : Value → Feed → List Value → Place → List Value → Prop
  | finish {v : Value} {feed feed' : Feed} {vs : List Value} (h : feed.next = (none, feed')) :
      Course R v feed vs .ended (vs ++ [v])
  | hold {v v' : Value} {feed feed' : Feed} {vs : List Value} (h : feed.next = (some v', feed'))
      (hr : R vs.length = false) : Course R v feed vs (.waiting v' feed') (vs ++ [v])
  | pass {v v' : Value} {feed feed' : Feed} {vs ws : List Value} {x : Place}
      (h : feed.next = (some v', feed')) (hr : R vs.length = true)
      (hc : Course R v' feed' (vs ++ [v]) x ws) : Course R v feed vs x ws

inductive Shows (R : Nat → Bool) : Value → Feed → List Value → List Value → Prop
  | before (v : Value) (feed : Feed) (vs : List Value) : Shows R v feed vs vs
  | after (v : Value) (feed : Feed) (vs : List Value) : Shows R v feed vs (vs ++ [v])
  | pass {v v' : Value} {feed feed' : Feed} {vs ws : List Value}
      (h : feed.next = (some v', feed')) (hr : R vs.length = true)
      (hs : Shows R v' feed' (vs ++ [v]) ws) : Shows R v feed vs ws

def sequenceBase (q : Sequence Outlet) (feed : Feed) (hs : Array Handle) (own : List Nat) :
    World where
  sequences := #[q]
  feeds := #[feed]
  handles := hs
  owned := own

def sequenceLink : Link := ⟨[], .sequence 0⟩

def running (d : Demand) : Sequence Outlet := ⟨some ⟨[], 0⟩, d, true, none⟩

def waiting (v : Value) : Sequence Outlet := ⟨some ⟨[], 0⟩, .zero, false, some v⟩

variable {k : Conduct} {fit : World → Prop} {g : Gate} {hs : Array Handle} {own : List Nat}
  {fs : List Frame} {log : List Question} {v v' : Value} {feed feed' : Feed} {s : Subscriber}
  {q : Sequence Outlet}

def loop (g : Gate) (hs : Array Handle) (own : List Nat) (v : Value) (feed : Feed)
    (fs : List Frame) (log : List Question) : Site where
  base := sequenceBase (running .zero) feed hs own
  subscriber := g.held true sequenceLink
  stack := .sequence 0 (.delivering ⟨[], 0⟩) :: fs
  control := .calling (.tell 0 (.value v))
  log := log

theorem books_running : Books k (sequenceBase (running .zero) feed hs own)
    (sequenceBase (running .one) feed hs own) sequenceLink := by
  rintro s fs log rs p ⟨ts, t, rfl⟩
  exact ⟨_, ⟨ts, t, rfl⟩, 1, by cbv⟩

theorem takes_advance {o : Option Value} (hn : feed.next = (o, feed')) :
    k.Takes ⟨sequenceBase q feed hs own, s, fs, .calling (.advance 0), log⟩
      ⟨sequenceBase q feed' hs own, s, fs, .answering (.item o), log⟩ := by
  obtain ⟨rfl, rfl⟩ := Prod.mk.inj hn
  rintro rs p ⟨ts, t, rfl⟩
  exact ⟨_, ⟨ts, t.push (.advanced 0 feed.next.1), rfl⟩, 1, rfl⟩

theorem takes_delivered {b₁ : World} {d : Demand} {r : Bool}
    (hd : b₁ = sequenceBase (running .zero) feed hs own ∧ d = (if r then .one else .zero) ∨
      r = true ∧ b₁ = sequenceBase (running .one) feed hs own ∧ d = .zero) :
    k.Takes ⟨b₁, s, .sequence 0 (.delivering ⟨[], 0⟩) :: fs, .answering (.demand d), log⟩
      ⟨sequenceBase (running (if r then .one else .zero)) feed hs own, s,
        .sequence 0 .peeking :: fs, .calling (.advance 0), log⟩ := by
  rintro rs p ⟨ts, t, rfl⟩
  obtain ⟨rfl, rfl⟩ | ⟨rfl, rfl, rfl⟩ := hd
  · exact ⟨_, ⟨ts, t, rfl⟩, 1, by cases r <;> cbv⟩
  · exact ⟨_, ⟨ts, t, rfl⟩, 1, by cbv⟩

theorem takes_concluded (hg : g.Regular k) (r : Bool) (link : Link) :
    k.Takes ⟨sequenceBase q feed hs own, g.held r link, .sequence 0 (.passing ⟨[], 0⟩) :: fs,
        .calling (.tell 0 (.completion .finished)), log⟩
      ⟨sequenceBase q feed hs own, g.gone r, fs, .answering .done, log ++ g.closing .finished⟩ := by
  refine (hg.completion _ r _ log link .finished).trans ?_
  rintro rs p ⟨ts, t, rfl⟩
  exact ⟨_, ⟨ts, t, rfl⟩, 1, by cbv⟩

section

variable (hg : g.Lets k R fit) (hfit : ∀ q feed, fit (sequenceBase q feed hs own))
  (hf : fs.any (Machine.isDeciding 0) = false)
include hg hfit hf

theorem loop_peeks {o : Option Value} (hn : feed.next = (o, feed')) (v : Value)
    (log : List Question) :
    k.Takes (loop g hs own v feed fs log)
      ⟨sequenceBase (running (if R (values log).length then .one else .zero)) feed' hs own,
        g.held (R (values log).length) sequenceLink, .sequence 0 .peeking :: fs,
        .answering (.item o), log ++ [g.ask v]⟩ := by
  have hf : (.sequence 0 (.delivering ⟨[], 0⟩) :: fs).any (Machine.isDeciding 0) = false := hf
  obtain ⟨b₁, d, hl, hd⟩ := hg.value (hfit (running .zero) feed) hf books_running log v
  exact hl.trans ((takes_delivered hd).trans (takes_advance hn))

theorem loop_passes (hn : feed.next = (some v', feed')) (hr : R (values log).length = true) :
    k.Takes (loop g hs own v feed fs log) (loop g hs own v' feed' fs (log ++ [g.ask v])) := by
  refine (loop_peeks hg hfit hf hn v log).trans ?_
  rw [hr]
  rintro rs p ⟨ts, t, rfl⟩
  exact ⟨_, ⟨ts, t, rfl⟩, 1, by cbv⟩

theorem loop_holds (hn : feed.next = (some v', feed')) (hr : R (values log).length = false) :
    k.Takes (loop g hs own v feed fs log)
      ⟨sequenceBase (waiting v') feed' hs own, g.held false sequenceLink, fs, .answering .done,
        log ++ [g.ask v]⟩ := by
  refine (loop_peeks hg hfit hf hn v log).trans ?_
  rw [hr]
  rintro rs p ⟨ts, t, rfl⟩
  exact ⟨_, ⟨ts, t, rfl⟩, 1, by cbv⟩

theorem loop_finishes (hn : feed.next = (none, feed')) (v : Value) (log : List Question) :
    ∃ q r, k.Takes (loop g hs own v feed fs log)
      ⟨sequenceBase q feed' hs own, g.gone r, fs, .answering .done,
        log ++ [g.ask v] ++ g.closing .finished⟩ := by
  have hl := loop_peeks hg hfit hf hn v log
  generalize R (values log).length = r at hl
  refine ⟨⟨none, if r then .one else .zero, false, none⟩, r, hl.trans (Takes.trans ?_
    (takes_concluded hg.toRegular r sequenceLink))⟩
  rintro rs p ⟨ts, t, rfl⟩
  exact ⟨_, ⟨ts, t, rfl⟩, 1, by cbv⟩

end

inductive Stands (g : Gate) (R : Nat → Bool) (hs : Array Handle) (own : List Nat)
    (fs : List Frame) (log : List Question) : Place → Site → Prop
  | awaiting (feed : Feed) : Stands g R hs own fs log (.awaiting feed)
      ⟨sequenceBase {} feed hs own, g.fresh, fs, .answering .done, log⟩
  | waiting (v : Value) (feed : Feed) (hR : ∃ n, R n = false) :
      Stands g R hs own fs log (.waiting v feed) ⟨sequenceBase (waiting v) feed hs own,
        g.held false sequenceLink, fs, .answering .done, log⟩
  | ended (q : Sequence Outlet) (feed : Feed) (r : Bool) : Stands g R hs own fs log .ended
      ⟨sequenceBase q feed hs own, g.gone r, fs, .answering .done, log⟩

theorem values_concat (hg : g.Regular k) (log : List Question) (v : Value) :
    values (log ++ [g.ask v]) = values log ++ [v] := by
  rw [values_append]
  simp only [values, List.filterMap_cons, hg.value?_ask, List.filterMap_nil]

theorem values_closed (hg : g.Regular k) (log : List Question) (c : Ending) :
    values (log ++ g.closing c) = values log := by
  rw [values_append, hg.values_closing, List.append_nil]

def Place.closing (g : Gate) : Place → List Question
  | ended => g.closing .finished
  | _ => []

theorem values_told (hg : g.Regular k) (log : List Question) (us : List Value) (x : Place) :
    values (log ++ us.map g.ask ++ x.closing g) = values log ++ us := by
  have hus : values (us.map g.ask) = us := by
    induction us with
    | nil => rfl
    | cons u us ih =>
      rw [values] at ih ⊢
      rw [List.map_cons, List.filterMap_cons_some (hg.value?_ask u), ih]
  have hx : values (x.closing g) = [] := by
    cases x with
    | ended => exact hg.values_closing .finished
    | _ => rfl
  rw [values_append, values_append, hus, hx, List.append_nil]

theorem Course.takes {x : Place} {vs ws : List Value} (h : Course R v feed vs x ws)
    (hg : g.Lets k R fit) (hfit : ∀ q feed, fit (sequenceBase q feed hs own))
    (hf : fs.any (Machine.isDeciding 0) = false) (hl : values log = vs) :
    ∃ us y, ws = vs ++ us ∧
      Stands g R hs own fs (log ++ us.map g.ask ++ x.closing g) x y ∧
      k.Takes (loop g hs own v feed fs log) y := by
  induction h generalizing log with
  | @finish v feed feed' vs hn =>
    obtain ⟨q, r, ht⟩ := loop_finishes hg hfit hf hn v log
    exact ⟨[v], _, rfl, .ended q _ r, ht⟩
  | @hold v v' feed feed' vs hn hr =>
    have ht := loop_holds (v := v) hg hfit hf hn (hl.symm ▸ hr)
    refine ⟨[v], _, rfl, .waiting v' feed' ⟨_, hr⟩, ?_⟩
    rw [show Place.closing g (.waiting v' feed') = [] from rfl, List.append_nil]
    exact ht
  | @pass v v' feed feed' vs ws x hn hr _ ih =>
    have hl' : values (log ++ [g.ask v]) = vs ++ [v] := by rw [values_concat hg.toRegular, hl]
    obtain ⟨us, y, rfl, hy, ht⟩ := ih hl'
    refine ⟨v :: us, y, by simp, ?_, (loop_passes hg hfit hf hn (hl.symm ▸ hr)).trans ht⟩
    simpa using hy

theorem Course.ne_awaiting {x : Place} {vs ws : List Value} (h : Course R v feed vs x ws)
    (feed₀ : Feed) : x ≠ .awaiting feed₀ := by
  induction h with
  | finish => simp
  | hold => simp
  | pass _ _ _ ih => exact ih

inductive Pull
  | subscribe
  | resume
  | cancel
deriving DecidableEq

def Pull.call : Pull → Call
  | subscribe => .subscribe ⟨[], .sequence 0⟩ 0
  | resume => .tell 0 .resume
  | cancel => .tell 0 .cancel

/-- What a pull starts: a delivery, or nothing more than a change of place. A sequence is subscribed
to once only. -/
def Place.start : Place → Pull → Option ((Value × Feed) ⊕ Place)
  | awaiting feed, .subscribe =>
    match feed.next with
    | (some v, feed) => some (.inl (v, feed))
    | (none, _) => some (.inr .ended)
  | waiting v feed, .resume => some (.inl (v, feed))
  | waiting _ _, .cancel => some (.inr .ended)
  | waiting _ _, .subscribe | ended, .subscribe => none
  | x, _ => some (.inr x)

def Pull.frames (g : Gate) : Pull → List Frame
  | subscribe => [g.passing, .sequence 0 (.passing ⟨[], 0⟩)]
  | _ => [g.passing]

variable {x : Place} {y : Site} {c : Pull}

theorem takes_refused (hg : g.Regular k) (hn : feed.next = (none, feed')) :
    k.Takes ⟨sequenceBase {} feed hs own, g.fresh, fs,
        .calling (.subscribe ⟨[], .sequence 0⟩ 0), log⟩
      ⟨sequenceBase {} feed' hs own, g.gone true, fs, .answering .done,
        log ++ g.closing .finished⟩ := by
  have hopen : k.Takes ⟨sequenceBase {} feed hs own, g.fresh, fs,
      .calling (.subscribe ⟨[], .sequence 0⟩ 0), log⟩ ⟨sequenceBase {} feed hs own, g.fresh,
      .sequence 0 (.opening ⟨[], 0⟩) :: fs, .calling (.advance 0), log⟩ := by
    rintro rs p ⟨ts, t, rfl⟩
    exact ⟨_, ⟨ts, t, rfl⟩, 1, by cbv⟩
  have hoffer : k.Takes ⟨sequenceBase {} feed' hs own, g.fresh,
      .sequence 0 (.opening ⟨[], 0⟩) :: fs, .answering (.item none), log⟩
      ⟨sequenceBase {} feed' hs own, g.fresh, .sequence 0 (.refusing ⟨[], 0⟩) :: fs,
        .calling (.tell 0 (.subscription ⟨[], .inert⟩)), log⟩ := by
    rintro rs p ⟨ts, t, rfl⟩
    exact ⟨_, ⟨ts, t, rfl⟩, 1, by cbv⟩
  have hinert : k.Takes ⟨sequenceBase {} feed' hs own, g.held true ⟨[], .inert⟩,
      g.passing :: .sequence 0 (.refusing ⟨[], 0⟩) :: fs,
      .calling (.request ⟨[], .inert⟩ .one), log⟩ ⟨sequenceBase {} feed' hs own,
      g.held true ⟨[], .inert⟩, g.passing :: .sequence 0 (.refusing ⟨[], 0⟩) :: fs,
      .answering .done, log⟩ := by
    rintro rs p ⟨ts, t, rfl⟩
    exact ⟨_, ⟨ts, t, rfl⟩, 1, by cbv⟩
  refine hopen.trans ((takes_advance hn).trans (hoffer.trans ((hg.subscription _ _ _ _).trans
    (hinert.trans ((hg.passed _ _ _ _ _ _).trans (Takes.trans ?_
      (takes_concluded hg true ⟨[], .inert⟩)))))))
  rintro rs p ⟨ts, t, rfl⟩
  exact ⟨_, ⟨ts, t, rfl⟩, 1, by cbv⟩

theorem takes_opened (hg : g.Regular k) (hn : feed.next = (some v, feed')) :
    k.Takes ⟨sequenceBase {} feed hs own, g.fresh, fs,
        .calling (.subscribe ⟨[], .sequence 0⟩ 0), log⟩
      (loop g hs own v feed' (Pull.subscribe.frames g ++ fs) log) := by
  have hopen : k.Takes ⟨sequenceBase {} feed hs own, g.fresh, fs,
      .calling (.subscribe ⟨[], .sequence 0⟩ 0), log⟩ ⟨sequenceBase {} feed hs own, g.fresh,
      .sequence 0 (.opening ⟨[], 0⟩) :: fs, .calling (.advance 0), log⟩ := by
    rintro rs p ⟨ts, t, rfl⟩
    exact ⟨_, ⟨ts, t, rfl⟩, 1, by cbv⟩
  have hoffer : k.Takes ⟨sequenceBase {} feed' hs own, g.fresh,
      .sequence 0 (.opening ⟨[], 0⟩) :: fs, .answering (.item (some v)), log⟩
      ⟨sequenceBase (waiting v) feed' hs own, g.fresh, .sequence 0 (.passing ⟨[], 0⟩) :: fs,
        .calling (.tell 0 (.subscription sequenceLink)), log⟩ := by
    rintro rs p ⟨ts, t, rfl⟩
    exact ⟨_, ⟨ts, t, rfl⟩, 1, by cbv⟩
  refine hopen.trans ((takes_advance hn).trans (hoffer.trans ((hg.subscription _ _ _ _).trans ?_)))
  rintro rs p ⟨ts, t, rfl⟩
  exact ⟨_, ⟨ts, t, rfl⟩, 1, by cbv⟩

theorem takes_resumed (hg : g.Lets k R fit) (hR : ∃ n, R n = false) :
    k.Takes ⟨sequenceBase (waiting v) feed hs own, g.held false sequenceLink, fs,
        .calling (.tell 0 .resume), log⟩
      (loop g hs own v feed (Pull.resume.frames g ++ fs) log) := by
  refine (hg.resume hR _ _ _ _).trans ?_
  rintro rs p ⟨ts, t, rfl⟩
  exact ⟨_, ⟨ts, t, rfl⟩, 1, by cbv⟩

theorem takes_cancelled (hg : g.Regular k) :
    k.Takes ⟨sequenceBase (waiting v) feed hs own, g.held false sequenceLink, fs,
        .calling (.tell 0 .cancel), log⟩
      ⟨sequenceBase ⟨none, .zero, false, some v⟩ feed hs own, g.gone false, fs, .answering .done,
        log⟩ := by
  refine (hg.cancel _ _ _ _ _).trans (Takes.trans ?_ (hg.released _ _ _ _ .done))
  rintro rs p ⟨ts, t, rfl⟩
  exact ⟨_, ⟨ts, t, rfl⟩, 1, by cbv⟩

theorem Stands.starts (hg : g.Lets k R fit) (hy : Stands g R hs own fs log x y)
    (hx : x.start c = some (.inl (v, feed))) :
    k.Takes (y.calling c.call) (loop g hs own v feed (c.frames g ++ fs) log) := by
  cases hy with
  | awaiting feed =>
    cases c with
    | subscribe =>
      simp only [Place.start] at hx
      split at hx
      next v' feed' hn =>
        simp only [Option.some.injEq, Sum.inl.injEq, Prod.mk.injEq] at hx
        obtain ⟨rfl, rfl⟩ := hx
        exact takes_opened hg.toRegular hn
      next => cases hx
    | _ => cases hx
  | waiting v feed hR =>
    cases c with
    | resume =>
      simp only [Place.start, Option.some.injEq, Sum.inl.injEq, Prod.mk.injEq] at hx
      obtain ⟨rfl, rfl⟩ := hx
      exact takes_resumed hg hR
    | _ => cases hx
  | ended q feed r => cases c <;> cases hx

theorem Stands.turns {x' : Place} (hg : g.Lets k R fit) (hy : Stands g R hs own fs log x y)
    (hx : x.start c = some (.inr x')) :
    ∃ log' y', values log' = values log ∧ Stands g R hs own fs log' x' y' ∧
      k.Takes (y.calling c.call) y' := by
  cases hy with
  | awaiting feed =>
    cases c with
    | subscribe =>
      simp only [Place.start] at hx
      split at hx
      next => cases hx
      next feed' hn =>
        obtain rfl := Sum.inr.inj (Option.some.inj hx)
        exact ⟨_, _, values_closed hg.toRegular log .finished, .ended _ _ _,
          takes_refused hg.toRegular hn⟩
    | resume =>
      obtain rfl := Sum.inr.inj (Option.some.inj hx)
      exact ⟨log, _, rfl, .awaiting feed, hg.resume_idle (.inl rfl) _ _ _⟩
    | cancel =>
      obtain rfl := Sum.inr.inj (Option.some.inj hx)
      exact ⟨log, _, rfl, .awaiting feed, hg.cancel_idle (.inl rfl) _ _ _⟩
  | waiting v feed hR =>
    cases c with
    | cancel =>
      obtain rfl := Sum.inr.inj (Option.some.inj hx)
      exact ⟨log, _, rfl, .ended _ _ _, takes_cancelled hg.toRegular⟩
    | _ => cases hx
  | ended q feed r =>
    cases c with
    | subscribe => cases hx
    | resume =>
      obtain rfl := Sum.inr.inj (Option.some.inj hx)
      exact ⟨log, _, rfl, .ended q feed r, hg.resume_idle (.inr (.inr ⟨r, rfl⟩)) _ _ _⟩
    | cancel =>
      obtain rfl := Sum.inr.inj (Option.some.inj hx)
      exact ⟨log, _, rfl, .ended q feed r, hg.cancel_idle (.inr ⟨r, rfl⟩) _ _ _⟩

theorem Stands.returns (hg : g.Regular k) (hy : Stands g R hs own (c.frames g ++ fs) log x y)
    (hx : ∀ feed, x ≠ .awaiting feed) :
    ∃ y', Stands g R hs own fs log x y' ∧ k.Takes y y' := by
  have hpass {q : Sequence Outlet} {feed : Feed} (s : Subscriber) : k.Takes
      ⟨sequenceBase q feed hs own, s, .sequence 0 (.passing ⟨[], 0⟩) :: fs, .answering .done, log⟩
      ⟨sequenceBase q feed hs own, s, fs, .answering .done, log⟩ := by
    rintro rs p ⟨ts, t, rfl⟩
    exact ⟨_, ⟨ts, t, rfl⟩, 1, by cbv⟩
  cases hy with
  | awaiting feed => exact absurd rfl (hx feed)
  | waiting v feed hR =>
    refine ⟨_, .waiting v feed hR, ?_⟩
    cases c with
    | subscribe => exact (hg.passed _ _ _ _ _ _).trans (hpass _)
    | _ => exact hg.passed _ _ _ _ _ _
  | ended q feed r =>
    refine ⟨_, .ended q feed r, ?_⟩
    cases c with
    | subscribe => exact (hg.passed_gone _ _ _ _ _).trans (hpass _)
    | _ => exact hg.passed_gone _ _ _ _ _

theorem Pull.undecided (hg : g.Regular k) (hf : fs.any (Machine.isDeciding 0) = false) :
    (c.frames g ++ fs).any (Machine.isDeciding 0) = false := by
  have hs : Machine.isDeciding 0 (.sequence 0 (.passing ⟨[], 0⟩)) = false := rfl
  cases c <;> simp [frames, hg.undecided, hf, hs]

end Sluice.Gate
