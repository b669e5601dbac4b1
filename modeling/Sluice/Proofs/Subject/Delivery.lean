import Mathlib.Data.ENat.Lattice
import Sluice.Proofs.Subject.Broadcast

/-!
# Subjects deliver to those who asked, and once

Each subscription has its own account: what it was granted, by its requests and
by what its deliveries returned, is what is unspent and what it has received. It
receives the values of different sends, in the order of the sends, each while that
send is under way, so a value that it had no demand for is lost to it. A send
serves those who were registered when it began, are not cancelled and have
demand when their turn comes, and counts them.
-/

namespace Sluice.Subject

variable {ρ : Type}

def sent : List (Note ρ) → List (Nat × Value)
  | [] => []
  | e :: log =>
    match e.turn with
    | .enter (.send v) => ((sent log).length + 1, v) :: sent log
    | _ => sent log

def delivery? (e : Note ρ) : Option (Nat × Value) :=
  match e.move with
  | some (.call (.deliver _ v) (.sending _ i _ _ _)) => some (i, v)
  | _ => none

def serving : List (Note ρ) → Option Nat
  | [] => none
  | e :: log =>
    match delivery? e with
    | some (i, _) => some i
    | none => serving log

/-- The values that a subscription has received, each with the number of the newest send. -/
def received (i : Nat) : List (Note ρ) → List (Nat × Value)
  | [] => []
  | e :: log =>
    match delivery? e with
    | some (j, v) => if j = i then ((sent (e :: log)).length, v) :: received i log
      else received i log
    | none => received i log

/-- A request counts while the subscription holds its subscriber, and what a delivery returns
counts for the subscription that was served. -/
def granted (i : Nat) : List (Note ρ) → ℕ∞
  | [] => 0
  | e :: log =>
    match e.turn with
    | .enter (.request j d) =>
      if j = i ∧ e.before.holds i = true then d.amount + granted i log else granted i log
    | .reply (.demand d) =>
      if serving log = some i then d.amount + granted i log else granted i log
    | _ => granted i log

def unspent (s : Subject ρ) (i : Nat) : Demand := (s.entries[i]?.map Entry.demand).getD .zero

section Accounts

variable {s t : Subject ρ} {i j : Nat} {e : Note ρ} {log : List (Note ρ)}

theorem received_cons (he : delivery? e = none) (i : Nat) :
    received i (e :: log) = received i log := by
  rw [received, he]

theorem serving_cons (he : delivery? e = none) : serving (e :: log) = serving log := by
  rw [serving, he]

theorem unspent_of_entry {x : Entry ρ} (h : s.entries[i]? = some x) : s.unspent i = x.demand := by
  rw [unspent, h]
  rfl

theorem unspent_setEntry {x : Entry ρ} (h : i < s.entries.size) :
    (s.setEntry i x).unspent j = if i = j then x.demand else s.unspent j := by
  rw [unspent, entry_setEntry h]
  split <;> rfl

theorem unspent_detach {x : Entry ρ} (h : s.entries[i]? = some x) (sub : Option ρ) (j : Nat) :
    (s.setEntry i ⟨sub, x.demand⟩).unspent j = s.unspent j := by
  rw [unspent_setEntry (lt_of_entry h)]
  split
  · next hij => exact hij ▸ (unspent_of_entry h).symm
  · rfl

theorem unspent_enlist (s : Subject ρ) (dest : ρ) (i : Nat) :
    (s.enlist dest).unspent i = s.unspent i := by
  rw [unspent, unspent, enlist, Array.getElem?_push]
  split
  · next hi => simp [hi]
  · rfl

theorem unspent_onRequest (s : Subject ρ) (i : Nat) (d : Demand) (j : Nat) :
    (s.onRequest i d).unspent j =
      if i = j ∧ s.holds j = true then s.unspent j + d else s.unspent j := by
  unfold onRequest
  split
  · next x hx =>
    have hh : s.holds i = x.subscriber.isSome := by
      rw [holds, hx]
      rfl
    by_cases hs : x.subscriber.isSome = true
    · rw [if_pos hs, unspent_setEntry (lt_of_entry hx)]
      by_cases hij : i = j
      · subst hij
        rw [if_pos rfl, if_pos ⟨rfl, hh.trans hs⟩, unspent_of_entry hx]
      · rw [if_neg hij, if_neg (fun h => hij h.1)]
    · rw [if_neg hs, if_neg]
      rintro ⟨rfl, hj⟩
      exact hs (hh.symm.trans hj)
  · next hx =>
    rw [if_neg]
    rintro ⟨rfl, hj⟩
    simp [holds, hx] at hj

theorem unspent_onCancel (s : Subject ρ) (i j : Nat) : (s.onCancel i).unspent j = s.unspent j := by
  unfold onCancel
  split
  · next x hx =>
    split
    · exact unspent_detach hx none j
    · rfl
  · rfl

theorem unspent_grant (h : i < s.entries.size) (d : Demand) (j : Nat) :
    (s.grant i d).unspent j = if i = j then s.unspent j + d else s.unspent j := by
  unfold grant
  split
  · next x hx =>
    rw [unspent_setEntry h]
    split
    · next hij => exact hij ▸ (unspent_of_entry hx).symm ▸ rfl
    · rfl
  · next hx => exact absurd h (by simpa using hx)

theorem unspent_concludes {c : Ending} {ws : List Nat} {mv : Move (Out ρ) (Frame ρ)}
    (hb : Concludes s c ws t mv) (j : Nat) : t.unspent j = s.unspent j := by
  cases hb with
  | exhausted => rfl
  | conclude _ _ hi => exact unspent_detach hi none j

end Accounts

/-- The accounts of a subject in the middle of a session. A subscription that is still to be served
by the send under way has received nothing of that send. -/
structure Ledger (s : Subject ρ) (fs : List (Frame ρ)) (log : List (Note ρ)) : Prop where
  balance : ∀ i, (s.unspent i).Balances (granted i log) (received i log).length
  order : ∀ i, (received i log).Sublist (sent log)
  behind : ∀ {dest i v rest n}, .sending dest i v rest n ∈ fs → serving log = some i ∧
    ∃ older, sent log = (older.length + 1, v) :: older ∧ ∀ j ∈ rest, (received j log).Sublist older

namespace Ledger

variable {s t : Subject ρ} {fs fs' : List (Frame ρ)} {log : List (Note ρ)} {e : Note ρ}
  {mv : Move (Out ρ) (Frame ρ)}

theorem start : Ledger ({} : Subject ρ) [] [] where
  balance _ := .inl rfl
  order _ := .slnil
  behind h := by cases h

theorem broadcasts {v : Value} {n : Nat} {ws : List Nat} {older : List (Nat × Value)}
    (hb : Broadcasts t v n ws s mv) (he : e.move = some mv)
    (balance : ∀ i, (t.unspent i).Balances (granted i (e :: log)) (received i log).length)
    (order : ∀ i, (received i log).Sublist (sent (e :: log)))
    (newest : sent (e :: log) = (older.length + 1, v) :: older)
    (behind : ∀ j ∈ ws, (received j log).Sublist older) (hw : Listed t ws) :
    Ledger s (mv.push []) (e :: log) := by
  cases hb with
  | exhausted =>
    have hd : delivery? e = none := by rw [delivery?, he]
    refine ⟨fun i => ?_, fun i => ?_, fun h => by cases h⟩
    · rw [received_cons hd]
      exact balance i
    · rw [received_cons hd]
      exact order i
  | @deliver passed rest i dest d left hws hp hi hl =>
    have hd : delivery? e = some (i, v) := by rw [delivery?, he]
    have hr : received i (e :: log) = (older.length + 1, v) :: received i log := by
      rw [received, hd]
      simp only [if_true, newest, List.length_cons]
    have hne (j : Nat) (hj : i ≠ j) : received j (e :: log) = received j log := by
      rw [received, hd]
      simp only [if_neg hj]
    subst hws
    refine ⟨fun j => ?_, fun j => ?_, ?_⟩
    · rw [unspent_setEntry (lt_of_entry hi)]
      by_cases hj : i = j
      · subst hj
        rw [if_pos rfl, hr]
        exact ((unspent_of_entry hi) ▸ balance i).spend hl
      · rw [if_neg hj, hne j hj]
        exact balance j
    · by_cases hj : i = j
      · subst hj
        rw [hr, newest]
        exact (behind i (by simp)).cons_cons _
      · rw [hne j hj]
        exact order j
    · intro dest' i' v' rest' n' h
      simp only [Move.push_call, List.mem_singleton, Frame.sending.injEq] at h
      obtain ⟨rfl, rfl, rfl, rfl, rfl⟩ := h
      refine ⟨by rw [serving, hd], older, newest, fun j hj => ?_⟩
      rw [hne j (hw.of_append.head_ne hj)]
      exact behind j (by simp [hj])

theorem quiet (h : Ledger s fs log) (hd : delivery? e = none) (hs : sent (e :: log) = sent log)
    (hg : ∀ i, granted i (e :: log) = granted i log) (hu : ∀ i, t.unspent i = s.unspent i)
    (hf : ∀ {dest i v rest n}, .sending dest i v rest n ∈ fs' → .sending dest i v rest n ∈ fs) :
    Ledger t fs' (e :: log) where
  balance i := by
    rw [hg, hu, received_cons hd]
    exact h.balance i
  order i := by
    rw [hs, received_cons hd]
    exact h.order i
  behind hfr := by
    obtain ⟨hi, older, ho, hr⟩ := h.behind (hf hfr)
    refine ⟨(serving_cons hd).trans hi, older, hs.trans ho, fun j hj => ?_⟩
    rw [received_cons hd]
    exact hr j hj

theorem beside {x : Turn (In ρ)} (h : Ledger s fs log) (hb : Beside s fs x fs' t mv) :
    Ledger t (mv.push fs') (⟨x, s, t, some mv⟩ :: log) := by
  cases hb with
  | enlist dest _ hc =>
    exact h.quiet rfl rfl (fun _ => rfl) (unspent_enlist s dest) (by simp)
  | refuse => exact h.quiet rfl rfl (fun _ => rfl) (fun _ => rfl) (by simp)
  | request i d =>
    refine ⟨fun j => ?_, h.order, h.behind⟩
    change (_ : Demand).Balances (if i = j ∧ s.holds j = true then _ else _) (received j log).length
    rw [unspent_onRequest]
    split
    · exact (h.balance j).grant d
    · exact h.balance j
  | cancel i => exact h.quiet rfl rfl (fun _ => rfl) (unspent_onCancel s i) id
  | sendLate v =>
    refine ⟨h.balance, fun i => (h.order i).cons _, ?_⟩
    intro _ _ _ _ _ hfr
    cases hfr
  | completeLate => exact h.quiet rfl rfl (fun _ => rfl) (fun _ => rfl) id
  | passed => exact h.quiet rfl rfl (fun _ => rfl) (fun _ => rfl) (List.mem_cons_of_mem _)
  | refused =>
    refine h.quiet rfl rfl (fun _ => rfl) (fun _ => rfl) fun hfr => ?_
    simp only [Move.push_call, List.mem_cons, reduceCtorEq, false_or] at hfr
    exact List.mem_cons_of_mem _ hfr

theorem turned {p : Play ρ} {x : Turn (In ρ)} (h : Ledger p.state p.frames p.log) (hs : Sound p)
    (ht : Turned p x fs s mv) : Ledger s (mv.push fs) (⟨x, p.state, s, some mv⟩ :: p.log) := by
  cases ht with
  | beside hb => exact h.beside hb
  | @send v _ _ hf hc hb =>
    exact broadcasts hb rfl h.balance (fun i => (h.order i).cons _) rfl (fun j _ => h.order j)
      hs.registry.listed
  | @returned dest i v rest n d _ _ hf hb =>
    have hfr : .sending dest i v rest n ∈ p.frames := by simp [hf]
    obtain ⟨hi, older, ho, hr⟩ := h.behind hfr
    have hw : Listed p.state (i :: rest) := (hs.fits _ hfr).2
    refine broadcasts hb rfl (fun j => ?_) h.order ho hr (hw.tail.mono (Sound.grant_size ..).ge)
    rw [unspent_grant (hw.inside i (by simp))]
    change (_ : Demand).Balances (if serving p.log = some j then _ else _) _
    simp only [hi, Option.some.injEq]
    split
    · exact (h.balance j).grant d
    · exact h.balance j
  | complete hf hc hb =>
    refine h.quiet ?_ rfl (fun _ => rfl) (fun j => (unspent_concludes hb j).trans rfl) ?_
    · cases hb <;> rfl
    · cases hb <;> simp
  | concluded hf hb =>
    refine h.quiet ?_ rfl (fun _ => rfl) (unspent_concludes hb) ?_
    · cases hb <;> rfl
    · cases hb <;> simp

end Ledger

structure Delivers (e : Note ρ) (dest : ρ) (v : Value) : Prop where
  cause : e.turn = .enter (.send v) ∨ ∃ d, e.turn = .reply (.demand d)
  entry : ∃ i x, delivery? e = some (i, v) ∧ e.before.entries[i]? = some x ∧
    x.subscriber = some dest

section Deliveries

theorem served?_of_deliver {e : Note ρ} {dest : ρ} {v : Value}
    (h : e.call? = some (.deliver dest v)) : served? e = some (.deliver dest v) := by
  obtain ⟨x, s, t, mv⟩ := e
  cases mv with
  | none => cases h
  | some mv =>
    cases mv with
    | answer r => cases h
    | call o fr =>
      obtain rfl : o = .deliver dest v := Option.some.inj h
      rfl

variable {p : Play ρ} {x : Turn (In ρ)} {fs : List (Frame ρ)} {s : Subject ρ}
  {mv : Move (Out ρ) (Frame ρ)}

theorem Turned.delivers (ht : Turned p x fs s mv) (hs : Sound p) {dest : ρ} {v : Value}
    (hc : Sluice.Entry.call? ⟨x, p.state, s, some mv⟩ = some (.deliver dest v)) :
    Delivers ⟨x, p.state, s, some mv⟩ dest v := by
  cases ht with
  | beside hb =>
    have hn := hb.served p.state s
    rw [served?_of_deliver hc] at hn
    cases hn
  | send hf _ hb =>
    cases hb with
    | exhausted => cases hc
    | deliver hws hp hi hd =>
      cases hc
      exact ⟨.inl rfl, _, _, rfl, hi, rfl⟩
  | @returned dest' i _ rest n d _ _ hf hb =>
    cases hb with
    | exhausted => cases hc
    | @deliver passed rest' j _ _ _ hws hp hj hd =>
      cases hc
      have hw := (hs.fits (.sending dest' i v rest n) (by simp [hf])).2
      have hne : i ≠ j := hw.head_ne (by simp [hws])
      exact ⟨.inr ⟨d, rfl⟩, _, _, rfl, Sound.entry_grant_ne d hne ▸ hj, rfl⟩
  | complete hf _ hb => cases hb <;> cases hc
  | concluded hf hb => cases hb <;> cases hc

end Deliveries

section Course

variable {base log : List (Note ρ)} {all ws : List Nat} {s t : Subject ρ} {v : Value} {n : Nat}
  {mv : Move (Out ρ) (Frame ρ)} {e : Note ρ}

theorem Course.broadcasts (h : Course (.ofValue v) base all log (some ws) n)
    (hb : Broadcasts t v n ws s mv) (he : e.move = some mv) (hr : Registry e.before log)
    (ho : e.before.completion = none) (hw : Listed e.before ws)
    (hx : ∀ j ∈ ws, t.entries[j]? = e.before.entries[j]?) :
    (∃ dest i rest, mv = .call (.deliver dest v) (.sending dest i v rest n) ∧
      Course (.ofValue v) base all (e :: log) (some rest) (n + 1)) ∨
    mv = .answer (.count n) ∧ Course (.ofValue v) base all (e :: log) none n := by
  have skip (j : Nat) (hj : j ∈ ws) (hn : t.spend? j = none) :
      (Broadcast.ofValue v).Skips log e.before j := by
    refine (hr.live ho j (hw.inside j hj)).symm.imp_right fun hh => ?_
    obtain ⟨dest, d, hd⟩ := holds_iff.mp hh
    refine ⟨_, hd, ?_⟩
    simp [Broadcast.ofValue, spend?_none hn ((hx j hj).trans hd)]
  cases hb with
  | exhausted hn =>
    refine .inr ⟨rfl, h.finish (fun j hj => skip j hj (hn j hj)) ?_ ?_⟩
    · rw [served?, he]
    · rw [Sluice.Entry.answer?, he]
      rfl
  | @deliver passed rest i dest d left hws hp hi hd =>
    subst hws
    have hi := (hx i (by simp)).symm.trans hi
    have hdue : d.isZero = false := by
      rw [← Bool.not_eq_true, ← Demand.takeOne?_eq_none, hd]
      simp
    have hserves : (Broadcast.ofValue v).Serves log e.before i dest := by
      refine ⟨fun hc => ?_, d, hi, hdue⟩
      simpa [(hr.cancelled i hc).2] using holds_of_entry hi
    refine .inl ⟨dest, i, rest, rfl, h.serve (fun j hj => ?_) hserves ?_⟩
    · exact skip j (List.mem_append_left _ hj) (hp j hj)
    · rw [served?, he]
      rfl

def SendStands (v : Value) (base : List (Note ρ)) (all : List Nat) (q : Play ρ) : Prop :=
  (∃ dest i rest n, broadcasting q.frames = [.sending dest i v rest n] ∧
    Course (.ofValue v) base all q.log (some rest) (n + 1)) ∨
  q.frames = [] ∧ ∃ n, Course (.ofValue v) base all q.log none n ∧
    q.log.head?.bind Sluice.Entry.answer? = some (.count n)

variable {p q : Play ρ}

theorem sendStands_of_broadcasts {x : Turn (In ρ)}
    (h : (∃ dest i rest, mv = .call (.deliver dest v) (.sending dest i v rest n) ∧
      Course (.ofValue v) base all (⟨x, p.state, s, some mv⟩ :: p.log) (some rest) (n + 1)) ∨
      mv = .answer (.count n) ∧
        Course (.ofValue v) base all (⟨x, p.state, s, some mv⟩ :: p.log) none n) :
    SendStands v base all (p.advance x [] (s, mv)) := by
  rcases h with ⟨dest, i, rest, rfl, h⟩ | ⟨rfl, h⟩
  · exact .inl ⟨dest, i, rest, n, rfl, h⟩
  · exact .inr ⟨rfl, n, h, rfl⟩

theorem SendStands.turned {x : Turn (In ρ)} {fs : List (Frame ρ)} (h : SendStands v base all p)
    (hs : Sound p) (hm : Within p x) (ht : Turned p x fs s mv) :
    SendStands v base all (p.advance x fs (s, mv)) := by
  obtain ⟨dest, i, rest, n, hf, h⟩ := h.resolve_right fun h => hm.2 h.1
  cases ht with
  | beside hb =>
    exact .inl ⟨dest, i, rest, n, hb.broadcasting.trans hf, h.aside (hb.served ..)⟩
  | send hf' => exact absurd hf' hm.2
  | @returned dest' i' v' rest' n' d _ _ hf' hb =>
    rw [hf'] at hf
    obtain ⟨rfl, rfl, rfl, rfl, rfl⟩ := Frame.sending.injEq .. ▸ List.cons.inj hf |>.1
    obtain ⟨ho, hw⟩ := hs.fits (.sending dest' i' v' rest' n') (by simp [hf'])
    refine sendStands_of_broadcasts (h.broadcasts hb rfl hs.registry ho hw.tail fun j hj => ?_)
    exact Sound.entry_grant_ne d (hw.head_ne hj)
  | complete hf' => exact absurd hf' hm.2
  | concluded hf' =>
    rw [hf'] at hf
    cases hf

theorem sendStands (hs : Sound p) (hf : p.frames = []) (hc : p.state.completion = none)
    (hq : Session.Reaches component Within
      (p.advance (.enter (.send v)) [] (enter p.state (.send v))) q) :
    SendStands v p.log p.state.registered q := by
  have ht : Turned p (.enter (.send v)) p.frames (enter p.state (.send v)).1 _ := turned_enter hf
  rw [hf] at ht
  have h0 := hs.turned ht
  refine (Sound.invariant hq (fun _ _ h => h.1) h0 ?_ ?_).2
  · exact sendStands_of_broadcasts (Course.begin.broadcasts (enter_send hc v) rfl hs.registry hc
      hs.registry.listed fun _ _ => rfl)
  · exact fun ht h hm hx => h.turned ht hm hx

end Course

structure Faithful (p : Play ρ) : Prop where
  ordered : p.state.registered.Pairwise (· < ·)
  registered : ∀ i, i ∈ p.state.registered ↔
    p.state.completion = none ∧ i < p.state.entries.size ∧ ¬ Cancelled i p.log
  order : ∀ i, (received i p.log).Sublist (sent p.log)
  balance : ∀ i, granted i p.log < UInt64.size →
    granted i p.log = (received i p.log).length + (p.state.unspent i).amount
  deliveries : ∀ e ∈ p.log, ∀ dest v, e.call? = some (.deliver dest v) → Delivers e dest v
  sends : p.frames = [] → p.state.completion = none → ∀ v q,
    Session.Reaches component Within
      (p.advance (.enter (.send v)) [] (enter p.state (.send v))) q →
    ∃ left n, Course (.ofValue v) p.log p.state.registered q.log left n ∧
      (left = none ↔ q.frames = []) ∧
      (q.frames = [] → q.log.head?.bind Sluice.Entry.answer? = some (.count n))

theorem SendStands.course {v : Value} {base : List (Note ρ)} {all : List Nat} {q : Play ρ}
    (h : SendStands v base all q) : ∃ left n, Course (.ofValue v) base all q.log left n ∧
      (left = none ↔ q.frames = []) ∧
      (q.frames = [] → q.log.head?.bind Sluice.Entry.answer? = some (.count n)) := by
  rcases h with ⟨dest, i, rest, n, hf, h⟩ | ⟨hf, n, h, ha⟩
  · have hne : q.frames ≠ [] := fun h0 => by simp [h0, broadcasting] at hf
    exact ⟨_, _, h, by simp [hne], fun h0 => absurd h0 hne⟩
  · exact ⟨_, _, h, by simp [hf], fun _ => ha⟩

/-- Whatever the callbacks subscribe, request and cancel, a subject that is sent values and
completed from top level serves its subscriptions faithfully. -/
theorem sends_faithfully {p : Play ρ}
    (h : Session.Reaches component Proper (Session.start {}) p) : Faithful p := by
  obtain ⟨hs, hl, hd⟩ := Sound.invariant
    (P := fun p => Ledger p.state p.frames p.log ∧ ∀ e ∈ p.log, ∀ dest v,
      e.call? = some (.deliver dest v) → Delivers e dest v)
    h (fun _ _ => id) .start ⟨.start, by simp [Session.start]⟩ fun ht hp _ hx => by
      refine ⟨hp.1.turned ht hx, List.forall_mem_cons.mpr ⟨?_, hp.2⟩⟩
      intro dest v hc
      exact hx.delivers ht hc
  refine ⟨hs.registry.ordered, fun i => hs.registry.mem_registered, hl.order, fun i hi => ?_,
    hd, ?_⟩
  · exact (hl.balance i).resolve_right fun hb => absurd hi (not_lt.mpr hb.2)
  · exact fun hf hc v q hq => (sendStands hs hf hc hq).course

/-- From inside the first delivery of a send a fourth subscriber is added and asks at once, the
second is cancelled before its turn, and the third is given the demand that it lacked. -/
theorem sends_faithfully_amid_changes : ∃ p q : Play Nat,
    Session.Reaches component Proper (Session.start {}) p ∧ p.frames = [] ∧
      p.state.completion = none ∧ p.state.registered = [0, 1, 2] ∧
      Session.Reaches component Within
        (p.advance (.enter (.send 5)) [] (enter p.state (.send 5))) q ∧ q.frames = [] ∧
      (List.range 4).map (received · q.log) = [[(1, 5)], [], [(1, 5)], []] ∧ Faithful p ∧
      Course (.ofValue 5) p.log [0, 1, 2] q.log none 2 := by
  have h0 : Session.Reaches component Proper (Session.start {} : Play Nat) _ := .refl
  have h1 := h0.turn (x := .enter (.subscribe 10)) (by trivial) rfl
  have h2 := h1.turn (x := .enter (.request 0 .one)) (by exact Nat.zero_lt_one) rfl
  have h3 := h2.turn (x := .reply .done) (by rfl) rfl
  have h4 := h3.turn (x := .enter (.subscribe 11)) (by trivial) rfl
  have h5 := h4.turn (x := .enter (.request 1 .unlimited)) (by exact Nat.one_lt_two) rfl
  have h6 := h5.turn (x := .reply .done) (by rfl) rfl
  have h7 := h6.turn (x := .enter (.subscribe 12)) (by trivial) rfl
  have hp := h7.turn (x := .reply .done) (by rfl) rfl
  have w0 {p : Play Nat} (_ : Session.Reaches component Proper (Session.start {}) p) :
      Session.Reaches component Within
        (p.advance (.enter (.send 5)) [] (enter p.state (.send 5))) _ := .refl
  have w1 := (w0 hp).turn (x := .enter (.subscribe 13))
    (by exact ⟨trivial, List.cons_ne_nil _ _⟩) rfl
  have w2 := w1.turn (x := .enter (.request 3 .one))
    (by exact ⟨Nat.lt_succ_self 3, List.cons_ne_nil _ _⟩) rfl
  have w3 := w2.turn (x := .reply .done) (by exact ⟨rfl, List.cons_ne_nil _ _⟩) rfl
  have w4 := w3.turn (x := .enter (.cancel 1))
    (by exact ⟨(by decide : 1 < 4), List.cons_ne_nil _ _⟩) rfl
  have w5 := w4.turn (x := .enter (.request 2 .one))
    (by exact ⟨(by decide : 2 < 4), List.cons_ne_nil _ _⟩) rfl
  have w6 := w5.turn (x := .reply (.demand .zero)) (by exact ⟨⟨_, rfl⟩, List.cons_ne_nil _ _⟩) rfl
  have hq := w6.turn (x := .reply (.demand .zero)) (by exact ⟨⟨_, rfl⟩, List.cons_ne_nil _ _⟩) rfl
  have hf := sends_faithfully hp
  obtain ⟨left, n, hc, hl, ha⟩ := hf.sends rfl rfl 5 _ hq
  obtain rfl : left = none := hl.mpr rfl
  obtain rfl : 2 = n := Reply.count.inj (Option.some.inj (ha rfl))
  exact ⟨_, _, hp, rfl, rfl, rfl, hq, rfl, rfl, hf, hc⟩

end Sluice.Subject
