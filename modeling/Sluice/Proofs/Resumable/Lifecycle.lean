import Mathlib.Data.List.Nodup
import Sluice.Proofs.Resumable.Ledger

/-!
# The lifecycle of a subscriber

A subscriber goes from waiting through subscribed to terminal and never back,
whatever is called on it, from wherever, and whichever callbacks panic. All that
it does to subscriptions hangs on where in its life it is. The log of a session
is read as a history: every entry is a section of the subscriber, and each
begins where the one before it ended.
-/

namespace Sluice

def Status.rank : Status → Nat
  | awaiting => 0
  | subscribed => 1
  | terminal => 2

namespace Resumable

variable {σ τ : Type} {k : Kind τ}

def offerOf (e : Note σ τ) : Option σ :=
  match e.turn with
  | .enter (.subscription link) => some link
  | _ => none

/-- The subscription offered while the subscriber waits for one. -/
def acceptOf (e : Note σ τ) : Option σ := if e.before.status = .awaiting then offerOf e else none

def refuseOf (e : Note σ τ) : Option σ := if e.before.status = .awaiting then none else offerOf e

/-- The subscription that a cancellation of the subscriber finds held. -/
def releaseOf (e : Note σ τ) : Option σ :=
  match e.turn with
  | .enter .cancel => e.before.lifecycle.link?
  | _ => none

def cancelOf (e : Note σ τ) : Option σ :=
  match e.call? with
  | some (.cancel link) => some link
  | _ => none

def handleOf (e : Note σ τ) : Option Ending :=
  match e.call? with
  | some (.handler c) => some c
  | _ => none

section
variable (log : List (Note σ τ))

def offers : List σ := log.filterMap offerOf
def accepted : List σ := log.filterMap acceptOf
def refused : List σ := log.filterMap refuseOf
def released : List σ := log.filterMap releaseOf
def cancelled : List σ := log.filterMap cancelOf
def handled : List Ending := log.filterMap handleOf

end

structure Orderly [DecidableEq σ] (k : Kind τ) (log : List (Note σ τ)) : Prop where
  forward : ∀ e ∈ log, e.before.status.rank ≤ e.after.status.rank
  onward : log.Pairwise fun later earlier => earlier.after.status.rank ≤ later.before.status.rank
  one_accepted : (accepted log).length ≤ 1
  requests : ∀ e ∈ log, ∀ link d, e.call? = some (.request link d) →
    link ∈ accepted log ∧ e.after.lifecycle = .subscribed link
  cancels : ∀ link ∈ accepted log, (cancelled log).count link ≤ 1 ∧
    ∀ e ∈ log, e.call? = some (.cancel link) ↔
      e.turn = .enter .cancel ∧ e.before.lifecycle = .subscribed link
  refusals : ∀ e ∈ log, ∀ link, e.turn = .enter (.subscription link) →
    e.before.status ≠ .awaiting →
      e.after = e.before ∧ (∃ f, e.move = some (.call (.cancel link) f) ∧
        ∀ (s : Resumable σ τ) (r : Reply), component.proceed s r f = (s, .answer .done)) ∧
      (cancelled log).count link = 1 ∧ ∀ d, (link, d) ∉ Resumable.requests log
  consumes : ∀ e ∈ log, ∀ v, (e.call? = some (.predicate v) ∨ ∃ x, e.call? = some (.write x v)) →
    e.turn = .enter (.value v) ∧ e.before.status = .subscribed ∧ e.after.status = .subscribed
  handler : ∀ e ∈ log, ∀ c, e.call? = some (.handler c) ↔
    k.mode? = none ∧ e.turn = .enter (.completion c) ∧ e.before.status ≠ .terminal
  handled_once : (handled log).length ≤ 1
  handled_or_released : handled log = [] ∨ released log = []

def Lawful (e : Note σ τ) : Prop :=
  match e.turn, e.move with
  | .enter msg, some mv => Entered e.before e.after msg mv
  | .reply r, some mv => ∃ f, Proceeded e.before e.after r f mv ∧
      (f = .sink .releasing → e.before.status = .terminal)
  | .raise, none => e.after = e.before
  | _, _ => False

def Leads (k : Kind τ) : List (Note σ τ) → Resumable σ τ → Prop
  | [], s => s = fresh k
  | e :: log, s => e.after = s ∧ s.mode? = k.mode? ∧ Lawful e ∧ Leads k log e.before

theorem terminal_of_rank_le {a b : Status} (h : a.rank ≤ b.rank) (ha : a = .terminal) :
    b = .terminal := by
  cases b <;> simp_all [Status.rank]

theorem Entered.rank_le {s t : Resumable σ τ} {msg : Message σ} {mv : Move (Out σ τ) (Frame τ)}
    (h : Entered s t msg mv) : s.status.rank ≤ t.status.rank := by
  have keep : t.lifecycle = s.lifecycle → s.status.rank ≤ t.status.rank :=
    fun hl => by simp [status, hl]
  have last : t.lifecycle = .terminal → s.status.rank ≤ t.status.rank := by
    intro hl
    rw [show t.status = .terminal by simp [status, hl, Lifecycle.status]]
    cases s.status <;> decide
  cases h with
  | accept hs => simp [status, hs, Lifecycle.status, Status.rank]
  | refuse _ ht => exact keep (by rw [ht])
  | decide _ ht => exact keep (by rw [ht])
  | write _ ht => exact keep ht
  | discard _ ht => exact keep ht
  | conclude _ _ ht => exact last ht
  | finish _ ht => exact last ht
  | pull _ _ _ ht => exact keep ht
  | stay _ ht => exact keep (by rw [ht])
  | release _ ht => exact last ht
  | ignore _ ht => exact keep (by rw [ht])

theorem Entered.frame {s t : Resumable σ τ} {msg : Message σ} {o : Out σ τ} {f : Frame τ}
    (h : Entered s t msg (.call o f)) :
    f.Fits s.mode? ∧ (f = .sink .releasing → t.status = .terminal) := by
  have pass : s.passing.Fits s.mode? ∧ (s.passing = .sink .releasing → t.status = .terminal) :=
    ⟨passing_fits s, by cases s <;> simp [passing]⟩
  cases h with
  | decide _ _ hm => exact ⟨hm, by simp⟩
  | write _ _ _ hm => exact ⟨by simp [Frame.Fits, hm], by simp⟩
  | release _ ht _ hf => exact ⟨hf, fun _ => by simp [status, ht, Lifecycle.status]⟩
  | _ => exact pass

theorem Proceeded.lifecycle {s t : Resumable σ τ} {r : Reply} {f : Frame τ}
    {mv : Move (Out σ τ) (Frame τ)} (h : Proceeded s t r f mv) : t.lifecycle = s.lifecycle := by
  cases h with
  | pass ht => rw [ht]
  | decided ht => exact ht
  | released ht => exact ht
  | written ht => rw [ht]

theorem Proceeded.answers {s t : Resumable σ τ} {r : Reply} {f : Frame τ}
    {mv : Move (Out σ τ) (Frame τ)} (h : Proceeded s t r f mv) : ∃ r', mv = .answer r' := by
  cases h <;> exact ⟨_, rfl⟩

theorem Lawful.rank_le {e : Note σ τ} (he : Lawful e) :
    e.before.status.rank ≤ e.after.status.rank := by
  obtain ⟨turn, s, t, mv⟩ := e
  cases turn with
  | enter msg =>
    cases mv with
    | some mv => exact Entered.rank_le he
    | none => exact he.elim
  | reply r =>
    cases mv with
    | some mv =>
      obtain ⟨f, hp, -⟩ := he
      simp [status, hp.lifecycle]
    | none => exact he.elim
  | raise =>
    cases mv with
    | some mv => exact he.elim
    | none => simp [show t = s from he]

theorem leads {may : Play σ τ → Turn (Message σ) → Prop} {s : Play σ τ}
    (h : Session.Reaches component may (Session.start (fresh k)) s) :
    Leads k s.log s.state ∧ s.state.mode? = k.mode? ∧ ∀ f ∈ s.frames, f.Fits k.mode? ∧
      (f = .sink .releasing → s.state.status = .terminal) := by
  refine h.invariant (P := fun s => Leads k s.log s.state ∧ s.state.mode? = k.mode? ∧
    ∀ f ∈ s.frames, f.Fits k.mode? ∧ (f = .sink .releasing → s.state.status = .terminal))
    ⟨rfl, fresh_mode? k, by simp [Session.start]⟩ ?_ ?_ ?_
  · intro s msg hpre _
    obtain ⟨hl, hm, hf⟩ := hpre
    -- A frame that releases lies above a terminal subscriber, and no message changes that.
    have he := entered s.state msg
    have hm' := (enter_mode? s.state msg).trans hm
    have old : ∀ f ∈ s.frames, f.Fits k.mode? ∧
        (f = .sink .releasing → (s.state.enter msg).1.status = .terminal) :=
      fun f hmem => ⟨(hf f hmem).1, fun hr => terminal_of_rank_le he.rank_le ((hf f hmem).2 hr)⟩
    refine ⟨⟨rfl, hm', he, hl⟩, hm', ?_⟩
    change ∀ f ∈ (s.state.enter msg).2.push s.frames, f.Fits k.mode? ∧
      (f = .sink .releasing → (s.state.enter msg).1.status = .terminal)
    generalize s.state.enter msg = x at he old ⊢
    obtain ⟨u, mv⟩ := x
    cases mv with
    | answer r => exact old
    | call o f => exact List.forall_mem_cons.mpr ⟨hm ▸ he.frame, old⟩
  · intro s f fs r hpre _ hfr
    obtain ⟨hl, hm, hf⟩ := hpre
    obtain ⟨hfit, hrel⟩ := hf f (hfr ▸ List.mem_cons_self)
    have hp := proceeded s.state r (hm ▸ hfit)
    have hm' := (proceed_mode? s.state r f).trans hm
    refine ⟨⟨rfl, hm', ⟨f, hp, hrel⟩, hl⟩, hm', ?_⟩
    change ∀ f' ∈ (s.state.proceed r f).2.push fs, f'.Fits k.mode? ∧
      (f' = .sink .releasing → (s.state.proceed r f).1.status = .terminal)
    obtain ⟨r', hr'⟩ := hp.answers
    rw [hr', Move.push_answer, status, hp.lifecycle]
    exact fun f' hf' => hf f' (hfr ▸ List.mem_cons_of_mem _ hf')
  · intro s f fs hpre _ hfr
    obtain ⟨hl, hm, hf⟩ := hpre
    exact ⟨⟨rfl, hm, rfl, hl⟩, hm, fun f' hf' => hf f' (hfr ▸ List.mem_cons_of_mem _ hf')⟩

structure History (k : Kind τ) (log : List (Note σ τ)) (s : Resumable σ τ) : Prop where
  waiting : s.lifecycle = .awaiting → accepted log = [] ∧ released log = [] ∧ handled log = []
  held : ∀ link, s.lifecycle = .subscribed link →
    accepted log = [link] ∧ released log = [] ∧ handled log = []
  once : (accepted log).length ≤ 1
  ended : (∀ link ∈ released log, link ∈ accepted log) ∧
    (released log).length + (handled log).length ≤ 1
  armed : k.mode? = none → s.status ≠ .terminal → s.handler = true

theorem history_fresh (k : Kind τ) : History k ([] : List (Note σ τ)) (fresh k) where
  waiting := fun _ => ⟨rfl, rfl, rfl⟩
  held := by simp
  once := Nat.zero_le _
  ended := ⟨by simp [released], Nat.zero_le _⟩
  armed := by cases k <;> simp [fresh, handler, Kind.mode?]

theorem History.neutral {e : Note σ τ} {log : List (Note σ τ)} (h : History k log e.before)
    (ha : acceptOf e = none) (hr : releaseOf e = none) (hh : handleOf e = none)
    (hl : e.after.lifecycle = e.before.lifecycle)
    (hx : e.before.status ≠ .terminal → e.after.handler = e.before.handler) :
    History k (e :: log) e.after := by
  have h1 : accepted (e :: log) = accepted log := List.filterMap_cons_none ha
  have h2 : released (e :: log) = released log := List.filterMap_cons_none hr
  have h3 : handled (e :: log) = handled log := List.filterMap_cons_none hh
  have hs : e.after.status = e.before.status := by simp [status, hl]
  refine ⟨?_, ?_, ?_, ?_, ?_⟩
  · rw [hl, h1, h2, h3]; exact h.waiting
  · rw [hl, h1, h2, h3]; exact h.held
  · rw [h1]; exact h.once
  · rw [h1, h2, h3]; exact h.ended
  · intro hm ht
    rw [hx (hs ▸ ht)]
    exact h.armed hm (hs ▸ ht)

theorem History.unended {log : List (Note σ τ)} {s : Resumable σ τ} (h : History k log s)
    (hs : s.status ≠ .terminal) : released log = [] ∧ handled log = [] := by
  cases hl : s.lifecycle with
  | awaiting => exact (h.waiting hl).2
  | subscribed link => exact (h.held link hl).2
  | terminal => simp [status, hl, Lifecycle.status] at hs

theorem History.close {e : Note σ τ} {log : List (Note σ τ)} (h : History k log e.before)
    (ha : acceptOf e = none) (ht : e.after.lifecycle = .terminal)
    (hr : ∀ link ∈ releaseOf e, link ∈ accepted log)
    (hone : (released (e :: log)).length + (handled (e :: log)).length ≤ 1) :
    History k (e :: log) e.after := by
  have h1 : accepted (e :: log) = accepted log := List.filterMap_cons_none ha
  refine ⟨by simp [ht], by simp [ht], ?_, ⟨?_, hone⟩, ?_⟩
  · rw [h1]; exact h.once
  · intro link hm
    rw [h1]
    obtain ⟨e', he, hl⟩ := List.mem_filterMap.mp hm
    rcases List.mem_cons.mp he with rfl | he
    · exact hr link hl
    · exact h.ended.1 link (List.mem_filterMap.mpr ⟨e', he, hl⟩)
  · intro _ hs
    simp [status, ht, Lifecycle.status] at hs

theorem History.enter {s t : Resumable σ τ} {log : List (Note σ τ)} {msg : Message σ}
    {mv : Move (Out σ τ) (Frame τ)} (h : History k log s) (he : Entered s t msg mv) :
    History k (⟨.enter msg, s, t, some mv⟩ :: log) t := by
  cases he with
  | @accept link hs ht hp hh =>
    obtain ⟨h1, h2, h3⟩ := h.waiting hs
    have ha : accepted (⟨.enter (.subscription link), s, t,
        some (.call (.request link .one) s.passing)⟩ :: log) = [link] := by
      rw [← h1]
      exact List.filterMap_cons_some (by simp [acceptOf, offerOf, status, hs, Lifecycle.status])
    refine ⟨by simp [ht], ?_, by simp [ha], ⟨?_, ?_⟩, ?_⟩
    · intro link' hl
      obtain rfl : link = link' := by simpa [ht] using hl
      exact ⟨ha, h2, h3⟩
    · intro link' hl
      rw [show released (_ :: log) = released log from List.filterMap_cons_none rfl, h2] at hl
      cases hl
    · rw [show released (_ :: log) = released log from List.filterMap_cons_none rfl, h2,
        show handled (_ :: log) = handled log from List.filterMap_cons_none rfl, h3]
      exact Nat.zero_le _
    · intro hm _
      rw [hh]
      exact h.armed hm (by simp [status, hs, Lifecycle.status])
  | refuse hs ht =>
    subst ht
    exact h.neutral (by simp [acceptOf, hs]) rfl rfl rfl (fun _ => rfl)
  | decide hs ht =>
    subst ht
    exact h.neutral (by simp [acceptOf, offerOf]) rfl rfl rfl (fun _ => rfl)
  | write hs ht hp hm hh =>
    exact h.neutral (by simp [acceptOf, offerOf]) rfl rfl ht (fun _ => hh)
  | discard hs ht hp hd hh =>
    exact h.neutral (by simp [acceptOf, offerOf]) rfl rfl ht (fun _ => hh)
  | @conclude c hs hh ht =>
    obtain ⟨h2, h3⟩ := h.unended hs
    refine h.close (by simp [acceptOf, offerOf]) ht (by simp [releaseOf]) ?_
    rw [show released (_ :: log) = released log from List.filterMap_cons_none rfl, h2,
      show handled (_ :: log) = c :: handled log from List.filterMap_cons_some rfl, h3]
    exact le_rfl
  | finish hs ht => exact h.close (by simp [acceptOf, offerOf]) ht (by simp [releaseOf]) h.ended.2
  | pull hs hf hm ht hp hh =>
    exact h.neutral (by simp [acceptOf, offerOf]) rfl rfl ht (fun _ => hh)
  | stay hs ht =>
    subst ht
    exact h.neutral (by simp [acceptOf, offerOf]) rfl rfl rfl (fun _ => rfl)
  | @release link f hs ht =>
    obtain ⟨h1, h2, h3⟩ := h.held link hs
    have hrel : releaseOf (⟨.enter .cancel, s, t, some (.call (.cancel link) f)⟩ : Note σ τ) =
        some link := by simp [releaseOf, hs, Lifecycle.link?]
    refine h.close (by simp [acceptOf, offerOf]) ht ?_ ?_
    · intro link' hl
      obtain rfl : link = link' := by simpa [hrel] using hl
      simp [h1]
    · rw [show released (_ :: log) = link :: released log from List.filterMap_cons_some hrel, h2,
        show handled (_ :: log) = handled log from List.filterMap_cons_none rfl, h3]
      exact le_rfl
  | ignore hs ht =>
    subst ht
    have hr : t.lifecycle.link? = none := by
      cases hl : t.lifecycle with
      | subscribed link => simp [status, hl, Lifecycle.status] at hs
      | _ => rfl
    exact h.neutral (by simp [acceptOf, offerOf]) hr rfl rfl (fun _ => rfl)

theorem History.reply {s t : Resumable σ τ} {log : List (Note σ τ)} {r : Reply} {f : Frame τ}
    {mv : Move (Out σ τ) (Frame τ)} (h : History k log s) (hp : Proceeded s t r f mv)
    (hf : f = .sink .releasing → s.status = .terminal) :
    History k (⟨.reply r, s, t, some mv⟩ :: log) t := by
  have ha : ∀ mv, acceptOf (⟨.reply r, s, t, mv⟩ : Note σ τ) = none := by simp [acceptOf, offerOf]
  cases hp with
  | pass ht =>
    subst ht
    exact h.neutral (ha _) rfl rfl rfl (fun _ => rfl)
  | decided ht hq hm hm' hh => exact h.neutral (ha _) rfl rfl ht (fun _ => hh)
  | released ht => exact h.neutral (ha _) rfl rfl ht (fun hn => absurd (hf rfl) hn)
  | written ht =>
    subst ht
    exact h.neutral (ha _) rfl rfl rfl (fun _ => rfl)

theorem Lawful.history {e : Note σ τ} {log : List (Note σ τ)} (he : Lawful e)
    (h : History k log e.before) : History k (e :: log) e.after := by
  obtain ⟨turn, s, t, mv⟩ := e
  cases turn with
  | enter msg =>
    cases mv with
    | some mv => exact h.enter he
    | none => exact he.elim
  | reply r =>
    cases mv with
    | some mv =>
      obtain ⟨f, hp, hf⟩ := he
      exact h.reply hp hf
    | none => exact he.elim
  | raise =>
    cases mv with
    | some mv => exact he.elim
    | none =>
      obtain rfl : t = s := he
      exact h.neutral (by simp [acceptOf, offerOf]) rfl rfl rfl (fun _ => rfl)

theorem Leads.history {log : List (Note σ τ)} {s : Resumable σ τ} (h : Leads k log s) :
    History k log s := by
  induction log generalizing s with
  | nil => exact h ▸ history_fresh k
  | cons e log ih =>
    obtain ⟨rfl, -, he, hl⟩ := h
    exact he.history (ih hl)

theorem Leads.mode? {log : List (Note σ τ)} {s : Resumable σ τ} (h : Leads k log s) :
    s.mode? = k.mode? := by
  cases log with
  | nil => exact h ▸ fresh_mode? k
  | cons e log => exact h.2.1

theorem Leads.split {log : List (Note σ τ)} {s : Resumable σ τ} {e : Note σ τ}
    (h : Leads k log s) (he : e ∈ log) :
    Lawful e ∧ ∃ newer older, log = newer ++ e :: older ∧ Leads k older e.before := by
  induction log generalizing s with
  | nil => cases he
  | cons e' log ih =>
    obtain ⟨-, -, hlaw, hl⟩ := h
    rcases List.mem_cons.mp he with rfl | he
    · exact ⟨hlaw, [], log, rfl, hl⟩
    · obtain ⟨hlaw', newer, older, rfl, ho⟩ := ih hl he
      exact ⟨hlaw', e' :: newer, older, rfl, ho⟩

theorem Leads.rank_le {log : List (Note σ τ)} {s : Resumable σ τ} (h : Leads k log s) :
    ∀ e ∈ log, e.after.status.rank ≤ s.status.rank := by
  induction log generalizing s with
  | nil => simp
  | cons e log ih =>
    obtain ⟨rfl, -, he, hl⟩ := h
    intro e' hm
    rcases List.mem_cons.mp hm with rfl | hm
    · exact le_rfl
    · exact (ih hl e' hm).trans he.rank_le

theorem Leads.onward {log : List (Note σ τ)} {s : Resumable σ τ} (h : Leads k log s) :
    log.Pairwise fun later earlier => earlier.after.status.rank ≤ later.before.status.rank := by
  induction log generalizing s with
  | nil => exact .nil
  | cons e log ih => exact .cons h.2.2.2.rank_le (ih h.2.2.2)

theorem mem_accepted_of_held {log newer older : List (Note σ τ)} {e : Note σ τ} {link : σ}
    (hlog : log = newer ++ e :: older) (he : Lawful e) (h : Leads k older e.before)
    (hl : e.after.lifecycle = .subscribed link) : link ∈ accepted log := by
  have ha := ((he.history h.history).held link hl).1
  have hin : link ∈ accepted (e :: older) := by simp [ha]
  rw [hlog, accepted, List.filterMap_append]
  exact List.mem_append_right _ hin

theorem Lawful.entered {e : Note σ τ} {o : Out σ τ} (he : Lawful e) (hc : e.call? = some o) :
    ∃ msg f, e.turn = .enter msg ∧ e.move = some (.call o f) ∧
      Entered e.before e.after msg (.call o f) := by
  obtain ⟨turn, s, t, mv⟩ := e
  cases mv with
  | none => simp [Entry.call?] at hc
  | some mv =>
    cases mv with
    | answer r => simp [Entry.call?] at hc
    | call o' f =>
      obtain rfl : o' = o := by simpa [Entry.call?] using hc
      cases turn with
      | enter msg => exact ⟨msg, f, rfl, rfl, he⟩
      | reply r =>
        obtain ⟨f', hp, -⟩ := he
        cases hp
      | raise => exact he.elim

theorem Lawful.request {e : Note σ τ} (he : Lawful e) {link : σ} {d : Demand}
    (hc : e.call? = some (.request link d)) : e.after.lifecycle = .subscribed link := by
  obtain ⟨msg, f, -, -, h⟩ := he.entered hc
  cases h with
  | accept hs ht => exact ht
  | pull hs hf hm ht => exact ht.trans hs

theorem Lawful.consume {e : Note σ τ} (he : Lawful e) {v : Value}
    (hc : e.call? = some (.predicate v) ∨ ∃ x, e.call? = some (.write x v)) :
    e.turn = .enter (.value v) ∧ e.before.status = .subscribed ∧ e.after.status = .subscribed := by
  rcases hc with hc | ⟨x, hc⟩
  · obtain ⟨msg, f, ht, -, h⟩ := he.entered hc
    cases h with
    | decide hs hu => exact ⟨ht, hs, hu ▸ hs⟩
  · obtain ⟨msg, f, ht, -, h⟩ := he.entered hc
    cases h with
    | write hs hu => exact ⟨ht, hs, by rw [status, hu]; exact hs⟩

theorem Lawful.handler {e : Note σ τ} (he : Lawful e) {c : Ending}
    (hc : e.call? = some (.handler c)) :
    e.before.mode? = none ∧ e.turn = .enter (.completion c) ∧ e.before.status ≠ .terminal := by
  obtain ⟨msg, f, ht, -, h⟩ := he.entered hc
  cases h with
  | conclude hs hh =>
    refine ⟨?_, ht, hs⟩
    cases hb : e.before with
    | sink s => rfl
    | assign s => simp [hb, Resumable.handler] at hh

theorem Lawful.conclude {e : Note σ τ} (he : Lawful e) {c : Ending}
    (ht : e.turn = .enter (.completion c)) (hs : e.before.status ≠ .terminal)
    (hh : e.before.handler = true) : e.call? = some (.handler c) := by
  obtain ⟨turn, s, t, mv⟩ := e
  obtain rfl : turn = .enter (.completion c) := ht
  cases mv with
  | none => exact he.elim
  | some mv =>
    have h : Entered s t (.completion c) mv := he
    cases h with
    | conclude => rfl
    | finish hor => simp [hs, show s.handler = true from hh] at hor

theorem Lawful.refuse {e : Note σ τ} (he : Lawful e) {link : σ}
    (ht : e.turn = .enter (.subscription link)) (hs : e.before.status ≠ .awaiting) :
    e.after = e.before ∧ e.move = some (.call (.cancel link) e.before.passing) := by
  obtain ⟨turn, s, t, mv⟩ := e
  obtain rfl : turn = .enter (.subscription link) := ht
  cases mv with
  | none => exact he.elim
  | some mv =>
    have h : Entered s t (.subscription link) mv := he
    cases h with
    | accept ha => simp [status, show s.lifecycle = .awaiting from ha, Lifecycle.status] at hs
    | refuse _ hu => exact ⟨hu, rfl⟩

theorem Lawful.cancelOf_eq {e : Note σ τ} (he : Lawful e) :
    cancelOf e = (refuseOf e).or (releaseOf e) := by
  obtain ⟨turn, s, t, mv⟩ := e
  cases turn with
  | enter msg =>
    cases mv with
    | none => exact he.elim
    | some mv =>
      have h : Entered s t msg mv := he
      cases h with
      | accept hs => simp [cancelOf, refuseOf, releaseOf, Entry.call?, status, hs, Lifecycle.status]
      | refuse hs => simp [cancelOf, refuseOf, offerOf, Entry.call?, hs]
      | release hs =>
        simp [cancelOf, refuseOf, offerOf, releaseOf, Entry.call?, hs, Lifecycle.link?]
      | ignore hs =>
        cases hl : s.lifecycle with
        | subscribed link => simp [status, hl, Lifecycle.status] at hs
        | _ => simp [cancelOf, refuseOf, offerOf, releaseOf, Entry.call?, hl, Lifecycle.link?]
      | _ => simp [cancelOf, refuseOf, offerOf, releaseOf, Entry.call?]
  | reply r =>
    cases mv with
    | none => exact he.elim
    | some mv =>
      obtain ⟨f, hp, -⟩ := he
      obtain ⟨r', rfl⟩ := hp.answers
      simp [cancelOf, refuseOf, offerOf, releaseOf, Entry.call?]
  | raise =>
    cases mv with
    | none => simp [cancelOf, refuseOf, offerOf, releaseOf, Entry.call?]
    | some mv => exact he.elim

theorem cancelOf_eq_some_iff {e : Note σ τ} {link : σ} :
    cancelOf e = some link ↔ e.call? = some (.cancel link) := by
  simp only [cancelOf]
  split
  · simp_all
  · rename_i hne
    exact ⟨by simp, fun hc => absurd hc (hne link)⟩

theorem releaseOf_eq_some_iff {e : Note σ τ} {link : σ} :
    releaseOf e = some link ↔
      e.turn = .enter .cancel ∧ e.before.lifecycle = .subscribed link := by
  simp only [releaseOf]
  split
  · rename_i ht
    cases hl : e.before.lifecycle <;> simp [ht, Lifecycle.link?]
  · rename_i hne
    exact ⟨by simp, fun hc => absurd hc.1 hne⟩

theorem refuseOf_eq_none_or (e : Note σ τ) : refuseOf e = none ∨ releaseOf e = none := by
  obtain ⟨turn, s, t, mv⟩ := e
  cases turn with
  | enter msg => cases msg <;> simp [refuseOf, offerOf, releaseOf]
  | _ => simp [releaseOf]

theorem offerOf_eq (e : Note σ τ) : offerOf e = (acceptOf e).or (refuseOf e) := by
  by_cases h : e.before.status = .awaiting <;> simp [acceptOf, refuseOf, h]

theorem acceptOf_eq_none_or (e : Note σ τ) : acceptOf e = none ∨ refuseOf e = none := by
  by_cases h : e.before.status = .awaiting <;> simp [acceptOf, refuseOf, h]

theorem count_filterMap_or {α β : Type} [DecidableEq β] {f g h : α → Option β} (x : β) {l : List α}
    (hf : ∀ a ∈ l, f a = (g a).or (h a)) (hor : ∀ a, g a = none ∨ h a = none) :
    (l.filterMap f).count x = (l.filterMap g).count x + (l.filterMap h).count x := by
  induction l with
  | nil => rfl
  | cons a l ih =>
    obtain ⟨ha, hl⟩ := List.forall_mem_cons.mp hf
    rcases hor a with hg | hh
    · cases hx : h a with
      | none => simp [ha, hg, hx, ih hl]
      | some y =>
        simp only [List.filterMap_cons, ha, hg, hx, Option.none_or, List.count_cons, ih hl]
        omega
    · cases hx : g a with
      | none => simp [ha, hh, hx, ih hl]
      | some y =>
        simp only [List.filterMap_cons, ha, hh, hx, Option.or_none, List.count_cons, ih hl]
        omega

section
variable [DecidableEq σ] {log : List (Note σ τ)} {s : Resumable σ τ}

theorem Leads.count_cancelled (h : Leads k log s) (link : σ) :
    (cancelled log).count link = (refused log).count link + (released log).count link :=
  count_filterMap_or link (fun _ he => (h.split he).1.cancelOf_eq) refuseOf_eq_none_or

theorem count_offers (log : List (Note σ τ)) (link : σ) :
    (offers log).count link = (accepted log).count link + (refused log).count link :=
  count_filterMap_or link (fun e _ => offerOf_eq e) acceptOf_eq_none_or

theorem Leads.count_released_le (h : Leads k log s) (link : σ) :
    (released log).count link ≤ (accepted log).count link ∧ (released log).count link ≤ 1 := by
  obtain ⟨hsub, hone⟩ := h.history.ended
  have hle : (released log).count link ≤ 1 := (List.count_le_length).trans (by omega)
  refine ⟨?_, hle⟩
  rcases Nat.eq_zero_or_pos ((released log).count link) with hz | hp
  · omega
  · have := List.count_pos_iff.mpr (hsub link (List.count_pos_iff.mp hp))
    omega

theorem Leads.cancel_accepted (h : Leads k log s) {link : σ}
    (hone : (accepted log).count link + (refused log).count link ≤ 1)
    (hacc : link ∈ accepted log) :
    (cancelled log).count link ≤ 1 ∧ ∀ e ∈ log, e.call? = some (.cancel link) ↔
      e.turn = .enter .cancel ∧ e.before.lifecycle = .subscribed link := by
  have hpos := List.count_pos_iff.mpr hacc
  refine ⟨?_, ?_⟩
  · have := (h.count_released_le link).2
    rw [h.count_cancelled]
    omega
  · intro e he
    have hnot : refuseOf e ≠ some link := by
      intro hr
      have hin : link ∈ refused log := List.mem_filterMap.mpr ⟨e, he, hr⟩
      have := List.count_pos_iff.mpr hin
      omega
    rw [← cancelOf_eq_some_iff, ← releaseOf_eq_some_iff, (h.split he).1.cancelOf_eq]
    rcases refuseOf_eq_none_or e with hn | hn
    · rw [hn, Option.none_or]
    · rw [hn, Option.or_none]
      exact ⟨fun hr => absurd hr hnot, by simp⟩

theorem Leads.refuse (h : Leads k log s) {link : σ}
    (hone : (accepted log).count link + (refused log).count link ≤ 1)
    (href : link ∈ refused log) :
    (cancelled log).count link = 1 ∧ ∀ d, (link, d) ∉ Resumable.requests log := by
  have hpos := List.count_pos_iff.mpr href
  have hrel := (h.count_released_le link).1
  refine ⟨?_, ?_⟩
  · rw [h.count_cancelled]
    omega
  · intro d hreq
    obtain ⟨e, he, hc⟩ := mem_requests.mp hreq
    obtain ⟨hlaw, newer, older, hlog, ho⟩ := h.split he
    have := List.count_pos_iff.mpr (mem_accepted_of_held hlog hlaw ho (hlaw.request hc))
    omega

end

/-- Whatever is called on a subscriber, in any order and from inside any callback, and whichever
callbacks panic: if no subscription is offered twice, its whole run is orderly. -/
theorem lifecycle_orderly [DecidableEq σ] (k : Kind τ) {may : Play σ τ → Turn (Message σ) → Prop}
    {s : Play σ τ} (h : Session.Reaches component may (Session.start (fresh k)) s)
    (hd : (offers s.log).Nodup) : Orderly k s.log := by
  obtain ⟨hl, -, -⟩ := leads h
  have hone : ∀ link, (accepted s.log).count link + (refused s.log).count link ≤ 1 :=
    fun link => count_offers s.log link ▸ List.nodup_iff_count_le_one.mp hd link
  have hended := hl.history.ended.2
  refine ⟨fun e he => (hl.split he).1.rank_le, hl.onward, hl.history.once, ?_,
    fun link => hl.cancel_accepted (hone link), ?_, ?_, ?_, by omega, ?_⟩
  · intro e he link d hc
    obtain ⟨hlaw, newer, older, hlog, ho⟩ := hl.split he
    exact ⟨mem_accepted_of_held hlog hlaw ho (hlaw.request hc), hlaw.request hc⟩
  · intro e he link ht hs
    obtain ⟨hsame, hmv⟩ := (hl.split he).1.refuse ht hs
    have href : link ∈ refused s.log :=
      List.mem_filterMap.mpr ⟨e, he, by simp [refuseOf, offerOf, hs, ht]⟩
    exact ⟨hsame, ⟨_, hmv, fun t r => proceed_passing _ t r⟩, hl.refuse (hone link) href⟩
  · intro e he v hc
    exact (hl.split he).1.consume hc
  · intro e he c
    obtain ⟨hlaw, newer, older, hlog, ho⟩ := hl.split he
    refine ⟨fun hc => ho.mode? ▸ hlaw.handler hc, ?_⟩
    intro hpre
    obtain ⟨hm, ht, hs⟩ := hpre
    exact hlaw.conclude ht hs (ho.history.armed hm hs)
  · rcases Nat.eq_zero_or_pos (handled s.log).length with hz | hp
    · exact .inl (List.eq_nil_of_length_eq_zero hz)
    · exact .inr (List.eq_nil_of_length_eq_zero (by omega))

/-- A second subscription offered from inside the first request, a cancellation after both. -/
theorem lifecycle_orderly_second_offer :
    ∃ s : Play Nat Nat,
      Session.play? component (Session.start (fresh .sink))
        [.enter (.subscription 1), .enter (.subscription 2), .reply .done, .reply .done,
          .enter .cancel] = some s ∧ offers s.log = [2, 1] ∧ Orderly .sink s.log := by
  have hp : Session.play? component (Session.start (fresh .sink : Resumable Nat Nat))
    [.enter (.subscription 1), .enter (.subscription 2), .reply .done, .reply .done,
      .enter .cancel] = some _ := rfl
  have hr : Session.Reaches component (fun _ _ => True) _ _ := .of_play (by simp) hp
  exact ⟨_, hp, rfl, lifecycle_orderly _ hr (by decide)⟩

end Resumable
end Sluice
