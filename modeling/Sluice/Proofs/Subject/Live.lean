import Sluice.Proofs.Machine.Refusal
import Sluice.Proofs.Subject.Completion

/-!
# Who is subscribed

A subscription loses its subscriber in two ways only, by a cancellation and by the completion that
reaches it. Between two calls to a subject the registry therefore lists, in the order of
subscription, those subscriptions that neither has befallen, and nobody once the subject is
completed.
-/

namespace Sluice.Subject

variable {ρ : Type}

def Ends (e : Note ρ) (i : Nat) (c : Ending) : Prop :=
  ∃ dest rest d, e.move = some (.call (.conclude dest c) (.completing dest c rest)) ∧
    e.before.entries[i]? = some ⟨some dest, d⟩ ∧ e.after.entries[i]? = some ⟨none, d⟩

def Ended (i : Nat) (c : Ending) (log : List (Note ρ)) : Prop := ∃ e ∈ log, Ends e i c

theorem ended_cons {i : Nat} {c : Ending} {e : Note ρ} {log : List (Note ρ)} :
    Ended i c (e :: log) ↔ Ends e i c ∨ Ended i c log := by
  simp [Ended]

/-- How the turn of `e` changes who is held, from `s` to `t`. -/
structure Turnover (s t : Subject ρ) (e : Note ρ) : Prop where
  size : s.entries.size ≤ t.entries.size
  old : ∀ i < s.entries.size, t.holds i = true → s.holds i = true
  new : ∀ i < t.entries.size, s.entries.size ≤ i → t.holds i = true
  lost : ∀ i, s.holds i = true → t.holds i = true ∨ e.turn = .enter (.cancel i) ∨ ∃ c, Ends e i c
  closed : ∀ c, s.completion = some c → t.completion = some c
  ending : ∀ i c, Ends e i c → t.completion = some c

section Turns

variable {s t u : Subject ρ} {e : Note ρ} {x : Turn (In ρ)} {i : Nat} {fs fs' : List (Frame ρ)}
  {mv : Move (Out ρ) (Frame ρ)}

def Endless (e : Note ρ) : Prop := ∀ i c, ¬ Ends e i c

theorem endless_of_move (h : ∀ dest c rest,
    e.move ≠ some (.call (.conclude dest c) (.completing dest c rest))) : Endless e := by
  rintro i c ⟨dest, rest, d, he, -⟩
  exact h dest c rest he

theorem turnover_of_holds (hsize : t.entries.size = s.entries.size)
    (hh : ∀ i, t.holds i = s.holds i) (hc : t.completion = s.completion) (he : Endless e) :
    Turnover s t e where
  size := hsize.ge
  old j _ hj := hh j ▸ hj
  new _ hj hle := absurd (hsize ▸ hj) hle.not_gt
  lost j hj := .inl ((hh j).trans hj)
  closed _ hs := hc.trans hs
  ending i c hi := absurd hi (he i c)

theorem Turnover.refl (s : Subject ρ) (he : Endless e) : Turnover s s e :=
  turnover_of_holds rfl (fun _ => rfl) rfl he

theorem holds_onRequest (s : Subject ρ) (i : Nat) (d : Demand) (j : Nat) :
    (s.onRequest i d).holds j = s.holds j := by
  unfold onRequest
  split
  · next x hx =>
    split
    · exact holds_setDemand hx _ j
    · rfl
  · rfl

theorem holds_grant (s : Subject ρ) (i : Nat) (d : Demand) (j : Nat) :
    (s.grant i d).holds j = s.holds j := by
  unfold grant
  split
  · next x hx => exact holds_setDemand hx _ j
  · rfl

theorem onRequest_size (s : Subject ρ) (i : Nat) (d : Demand) :
    (s.onRequest i d).entries.size = s.entries.size := by
  unfold onRequest
  split
  · split
    · exact setEntry_size ..
    · rfl
  · rfl

theorem holds_onCancel (s : Subject ρ) (i j : Nat) :
    (s.onCancel i).holds j = true ↔ j ≠ i ∧ s.holds j = true := by
  unfold onCancel
  split
  · next x hx =>
    split
    · exact Registry.holds_detached (lt_of_entry hx) j
    · next hn =>
      refine ⟨fun hj => ⟨?_, hj⟩, And.right⟩
      rintro rfl
      rw [holds, hx] at hj
      exact hn hj
  · next hx =>
    refine ⟨fun hj => ⟨?_, hj⟩, And.right⟩
    rintro rfl
    simp [holds, hx] at hj

theorem onCancel_size (s : Subject ρ) (i : Nat) :
    (s.onCancel i).entries.size = s.entries.size := by
  unfold onCancel
  split
  · split
    · exact setEntry_size ..
    · rfl
  · rfl

theorem onCancel_completion (s : Subject ρ) (i : Nat) :
    (s.onCancel i).completion = s.completion := by
  unfold onCancel
  split
  · split <;> rfl
  · rfl

theorem Beside.endless (h : Beside s fs x fs' t mv) (he : e.move = some mv) : Endless e := by
  refine endless_of_move fun dest c rest hm => ?_
  have hmv := Option.some.inj (he.symm.trans hm)
  cases h <;> simp at hmv

theorem Beside.turnover (h : Beside s fs x fs' t mv) (hx : e.turn = x) (he : e.move = some mv) :
    Turnover s t e := by
  have hend := h.endless he
  have hc : t.completion = s.completion := (h.aside hx).completion
  cases h with
  | enlist dest fs hn =>
    have hsize : (s.enlist dest).entries.size = s.entries.size + 1 := Array.size_push ..
    refine ⟨by omega, fun i hi hh => ?_, fun i hi hle => ?_, fun i hi => ?_,
      fun c hs => hc.trans hs, fun i c hi => absurd hi (hend i c)⟩
    · exact ((Registry.holds_enlist s dest i).mp hh).resolve_left hi.ne
    · exact (Registry.holds_enlist s dest i).mpr (.inl (by omega))
    · exact .inl ((Registry.holds_enlist s dest i).mpr (.inr hi))
  | request i d fs hi =>
    exact turnover_of_holds (onRequest_size s i d) (holds_onRequest s i d) hc hend
  | cancel i fs hi =>
    refine ⟨(onCancel_size s i).ge, fun j _ hj => ((holds_onCancel s i j).mp hj).2,
      fun j hj hle => ?_, fun j hj => ?_, fun c hs => hc.trans hs,
      fun j c hj => absurd hj (hend j c)⟩
    · exact absurd (onCancel_size s i ▸ hj) hle.not_gt
    · by_cases hij : j = i
      · exact .inr (.inl (hij ▸ hx))
      · exact .inl ((holds_onCancel s i j).mpr ⟨hij, hj⟩)
  | _ => exact .refl s hend

theorem Broadcasts.completion {v : Value} {n : Nat} {ws : List Nat}
    (h : Broadcasts t v n ws u mv) : u.completion = t.completion := by
  cases h <;> rfl

theorem Broadcasts.turnover {v : Value} {n : Nat} {ws : List Nat} (h : Broadcasts t v n ws u mv)
    (hsize : t.entries.size = s.entries.size) (hh : ∀ i, t.holds i = s.holds i)
    (hc : t.completion = s.completion) (he : e.move = some mv) : Turnover s u e := by
  have hend : Endless e := by
    refine endless_of_move fun dest c rest hm => ?_
    have hmv := Option.some.inj (he.symm.trans hm)
    cases h <;> simp at hmv
  have hc' := h.completion.trans hc
  cases h with
  | exhausted => exact turnover_of_holds hsize hh hc' hend
  | deliver _ _ hi _ =>
    exact turnover_of_holds ((setEntry_size ..).trans hsize)
      (fun j => (holds_setDemand hi _ j).trans (hh j)) hc' hend

theorem Concludes.turnover {c : Ending} {ws : List Nat} (h : Concludes t c ws u mv)
    (ht : t.entries = s.entries) (hs : ∀ c', s.completion = some c' → c = c')
    (hc : t.completion = some c) (hb : e.before = s) (ha : e.after = u) (he : e.move = some mv) :
    Turnover s u e := by
  have hh (i : Nat) : t.holds i = s.holds i := by rw [holds, holds, ht]
  have hu : u.completion = some c := h.completion.trans hc
  have hclosed : ∀ c', s.completion = some c' → u.completion = some c' :=
    fun c' hc' => hs c' hc' ▸ hu
  have hending : ∀ i c', Ends e i c' → u.completion = some c' := by
    rintro i c' ⟨dest, rest, d, hm, -⟩
    have hmv := Option.some.inj (he.symm.trans hm)
    cases h with
    | exhausted => simp at hmv
    | conclude =>
      obtain ⟨⟨-, rfl⟩, -⟩ := by simpa using hmv
      exact hu
  have hsize : u.entries.size = s.entries.size := by
    cases h with
    | exhausted => rw [ht]
    | conclude => rw [setEntry_size, ht]
  refine ⟨hsize.ge, fun j _ hj => ?_, fun j hj hle => absurd (hsize ▸ hj) hle.not_gt,
    fun j hj => ?_, hclosed, hending⟩
  · cases h with
    | exhausted => exact hh j ▸ hj
    | conclude hw hp hi => exact hh j ▸ ((Registry.holds_detached (lt_of_entry hi) j).mp hj).2
  · cases h with
    | exhausted => exact .inl ((hh j).trans hj)
    | @conclude passed rest i dest d hw hp hi =>
      have hlt := lt_of_entry hi
      by_cases hij : j = i
      · subst hij
        refine .inr (.inr ⟨c, dest, rest, d, he, ?_, ?_⟩)
        · rw [hb, ← ht]
          exact hi
        · rw [ha]
          exact entry_setEntry_self hlt
      · exact .inl ((Registry.holds_detached hlt j).mpr ⟨hij, (hh j).trans hj⟩)

theorem Turned.turnover {p : Play ρ} (h : Turned p x fs s mv) (hs : Sound p) :
    Turnover p.state s ⟨x, p.state, s, some mv⟩ := by
  cases h with
  | beside hb => exact hb.turnover rfl rfl
  | send _ _ hb => exact hb.turnover rfl (fun _ => rfl) rfl rfl
  | @returned dest i v rest n d _ _ _ hb =>
    exact hb.turnover (Sound.grant_size ..) (holds_grant p.state i d) (Sound.grant_completion ..)
      rfl
  | complete _ hn hb =>
    exact hb.turnover rfl (fun c' hc' => by cases hn.symm.trans hc') rfl rfl rfl rfl
  | @concluded dest c rest _ _ hf hb =>
    obtain ⟨hc, -⟩ := hs.fits (.completing dest c rest) (by simp [hf])
    exact hb.turnover rfl (fun c' hc' => Option.some.inj (hc.symm.trans hc')) hc rfl rfl rfl

end Turns

/-- Whom the completion under way has still before it. -/
def Awaited (i : Nat) (fs : List (Frame ρ)) : Prop :=
  ∃ dest c rest, broadcasting fs = [.completing dest c rest] ∧ i ∈ rest

/-- After its completion a subject holds only those that it is about to complete. -/
def Draining (p : Play ρ) : Prop :=
  p.state.completion ≠ none → ∀ i, p.state.holds i = true → Awaited i p.frames

section Draining

variable {p : Play ρ} {s t : Subject ρ} {x : Turn (In ρ)} {fs : List (Frame ρ)}
  {mv : Move (Out ρ) (Frame ρ)}

theorem Concludes.draining {c : Ending} {ws : List Nat} (h : Concludes t c ws s mv)
    (hw : ∀ i, t.holds i = true → i ∈ ws) : Draining (p.advance x [] (s, mv)) := by
  intro _ i hi
  change s.holds i = true at hi
  have hskip {ws : List Nat} (hn : ∀ j ∈ ws, t.detach? j = none) (hh : t.holds i = true) :
      i ∉ ws := fun hj => by cases hh.symm.trans (detach?_none (hn i hj))
  cases h with
  | exhausted hn => exact absurd (hw i hi) (hskip hn hi)
  | @conclude passed rest j dest d hws hp hj =>
    obtain ⟨hij, hh⟩ := (Registry.holds_detached (lt_of_entry hj) i).mp hi
    have hmem := hw i hh
    rw [hws] at hmem
    obtain hpassed | hrest := List.mem_append.mp hmem
    · exact absurd hpassed (hskip hp hh)
    · exact ⟨dest, c, rest, rfl, (List.mem_cons.mp hrest).resolve_left hij⟩

theorem Beside.size_eq {fs' : List (Frame ρ)} (h : Beside s fs x fs' t mv)
    (hc : s.completion ≠ none) : t.entries.size = s.entries.size := by
  cases h with
  | enlist dest fs hn => exact absurd hn hc
  | request i d fs hi => exact onRequest_size s i d
  | cancel i fs hi => exact onCancel_size s i
  | _ => rfl

theorem Draining.turned (h : Draining p) (hs : Sound p) (ht : Turned p x fs s mv) :
    Draining (p.advance x fs (s, mv)) := by
  cases ht with
  | beside hb =>
    intro hc i hi
    have ha := hb.aside (e := ⟨x, p.state, s, some mv⟩) rfl
    have hc' : p.state.completion ≠ none := ha.completion ▸ hc
    have hlt : i < p.state.entries.size := hb.size_eq hc' ▸ lt_of_holds hi
    have ht := hb.turnover (e := ⟨x, p.state, s, some mv⟩) rfl rfl
    obtain ⟨dest, c, rest, hf, hmem⟩ := h hc' i (ht.old i hlt hi)
    exact ⟨dest, c, rest, hb.broadcasting.trans hf, hmem⟩
  | send hf hn hb => exact fun hc => absurd (hb.completion.trans hn) hc
  | @returned dest i v rest n d _ _ hf hb =>
    obtain ⟨hn, -⟩ := hs.fits (.sending dest i v rest n) (by simp [hf])
    exact fun hc => absurd (hb.completion.trans ((Sound.grant_completion ..).trans hn)) hc
  | @complete c _ _ hf hn hb =>
    exact hb.draining fun i hi => (hs.registry.member i).mpr ⟨hn, hi⟩
  | @concluded dest c rest _ _ hf hb =>
    refine hb.draining fun i hi => ?_
    obtain ⟨hc, -⟩ := hs.fits (.completing dest c rest) (by simp [hf])
    obtain ⟨dest', c', rest', hf', hmem⟩ := h (by simp [hc]) i hi
    rw [hf] at hf'
    obtain ⟨-, -, rfl⟩ := Frame.completing.injEq .. ▸ (List.cons.inj hf').1
    exact hmem

theorem Draining.nobody (h : Draining p) (hc : p.state.completion ≠ none)
    (hb : broadcasting p.frames = []) (i : Nat) : p.state.holds i = false := by
  refine Bool.eq_false_iff.mpr fun hi => ?_
  obtain ⟨dest, c, rest, hf, -⟩ := h hc i hi
  cases hb.symm.trans hf

end Draining

structure Accounts (s : Subject ρ) (log : List (Note ρ)) : Prop where
  gone : ∀ i c, Ended i c log → i < s.entries.size ∧ s.holds i = false ∧ s.completion = some c
  present : ∀ i < s.entries.size, s.holds i = true ∨ Cancelled i log ∨ ∃ c, Ended i c log

section Accounts

variable {s t : Subject ρ} {e : Note ρ} {log : List (Note ρ)}

theorem Accounts.start : Accounts ({} : Subject ρ) [] where
  gone := by simp [Ended]
  present := by simp

theorem Accounts.turnover (h : Accounts s log) (ha : e.after = t) (ht : Turnover s t e) :
    Accounts t (e :: log) where
  gone i c hi := by
    obtain hi | hi := ended_cons.mp hi
    · refine ⟨?_, ?_, ht.ending i c hi⟩
      all_goals obtain ⟨dest, rest, d, -, -, hafter⟩ := hi
      · exact lt_of_entry (ha ▸ hafter)
      · rw [holds, ← ha, hafter]
        rfl
    · obtain ⟨hlt, hn, hc⟩ := h.gone i c hi
      refine ⟨hlt.trans_le ht.size, Bool.eq_false_iff.mpr fun hh => ?_, ht.closed c hc⟩
      cases hn.symm.trans (ht.old i hlt hh)
  present i hi := by
    by_cases hlt : i < s.entries.size
    · obtain hh | hx | ⟨c, hx⟩ := h.present i hlt
      · obtain hh | hx | ⟨c, hx⟩ := ht.lost i hh
        · exact .inl hh
        · exact .inr (.inl (cancelled_cons.mpr (.inl hx)))
        · exact .inr (.inr ⟨c, ended_cons.mpr (.inl hx)⟩)
      · exact .inr (.inl (cancelled_cons.mpr (.inr hx)))
      · exact .inr (.inr ⟨c, ended_cons.mpr (.inr hx)⟩)
    · exact .inl (ht.new i hi (Nat.le_of_not_lt hlt))

theorem Accounts.holds_iff (h : Accounts s log) (hr : Registry s log) (i : Nat) :
    s.holds i = true ↔ i < s.entries.size ∧ ¬ Cancelled i log ∧ ∀ c, ¬ Ended i c log := by
  refine ⟨fun hh => ⟨lt_of_holds hh, fun hx => ?_, fun c hx => ?_⟩, ?_⟩
  · cases hh.symm.trans (hr.cancelled i hx).2
  · cases hh.symm.trans (h.gone i c hx).2.1
  · rintro ⟨hi, hc, he⟩
    exact (h.present i hi).resolve_right (not_or.mpr ⟨hc, not_exists.mpr he⟩)

end Accounts

variable {p : Play ρ}

theorem draining_accounts (h : Session.Reaches component Proper (Session.start {}) p) :
    Draining p ∧ Accounts p.state p.log := by
  refine (Sound.invariant (P := fun p => Draining p ∧ Accounts p.state p.log) h (fun _ _ => id)
    .start ⟨fun hc => absurd rfl hc, .start⟩ ?_).2
  exact fun hs hp _ ht => ⟨hp.1.turned hs ht, hp.2.turnover rfl (ht.turnover hs)⟩

theorem eq_filter_range {ws : List Nat} {n : Nat} {b : Nat → Bool} (hw : ws.Pairwise (· < ·))
    (hm : ∀ i, i ∈ ws ↔ i < n ∧ b i = true) : ws = (List.range n).filter b := by
  have hr : ((List.range n).filter b).Pairwise (· < ·) := List.pairwise_lt_range.filter b
  refine List.Perm.eq_of_pairwise (fun a b _ _ h h' => absurd h h'.not_gt) hw hr ?_
  refine (List.perm_ext_iff_of_nodup (hw.imp ne_of_lt) (hr.imp ne_of_lt)).mpr fun i => ?_
  rw [hm, List.mem_filter, List.mem_range]

def cancelled (s : Subject ρ) (i : Nat) : Nat → Subject ρ
  | 0 => s
  | n + 1 => (component.enter (s.cancelled i n) (.cancel i)).1

theorem cancelled_succ (s : Subject ρ) (i n : Nat) : s.cancelled i (n + 1) = s.onCancel i := by
  induction n with
  | zero => rfl
  | succ n ih =>
    have hn : (s.onCancel i).holds i = false :=
      Bool.eq_false_iff.mpr fun h => ((holds_onCancel s i i).mp h).1 rfl
    calc s.cancelled i (n + 2)
        = (s.cancelled i (n + 1)).onCancel i := rfl
      _ = s.onCancel i := by rw [ih, onCancel_eq_self hn]

theorem entry_onCancel_ne (s : Subject ρ) {i j : Nat} (h : i ≠ j) :
    (s.onCancel i).entries[j]? = s.entries[j]? := by
  unfold onCancel
  split
  · split
    · exact entry_setEntry_ne h
    · rfl
  · rfl

theorem Registry.onCancel_registered {s : Subject ρ} {log : List (Note ρ)} (h : Registry s log)
    (i : Nat) : (s.onCancel i).registered = s.registered.filter (· ≠ i) :=
  Subject.onCancel_registered (h.ordered.imp fun hlt => hlt.ne)
    (fun j hj => ((h.member j).mp hj).2) i

/-- In every run of proper turns the registry of a subject holds, whenever no call to the subject is
under way, those subscriptions that were neither cancelled nor completed, in the order of
subscription. After the completion it is empty. A subscription may be cancelled any number of times:
it alone leaves the list, and the others keep what they have. A subscription that a subscriber
refuses, because it is subscribed already or terminal, never gets onto the list. -/
theorem registry_lists_live {p : Play Outlet}
    (h : Session.Reaches component Proper (Session.start {}) p) :
    (p.frames = [] →
      p.state.registered = (List.range p.state.entries.size).filter p.state.holds ∧
      p.state.registered.length = (List.range p.state.entries.size).countP p.state.holds ∧
      ∀ i, p.state.holds i = true ↔
        i < p.state.entries.size ∧ ¬ Cancelled i p.log ∧ ∀ c, ¬ Ended i c p.log) ∧
    (p.state.completion ≠ none → p.state.registered = []) ∧
    (∀ i n, (p.state.cancelled i (n + 1)).registered = p.state.registered.filter (· ≠ i) ∧
      (p.state.cancelled i (n + 1)).completion = p.state.completion ∧
      ∀ j ≠ i, (p.state.cancelled i (n + 1)).entries[j]? = p.state.entries[j]?) ∧
    ∀ (w : World) (fs : List Sluice.Frame) (j k : Nat) (as : List Nat) (s : Subscriber),
      w.subjects[j]? = some p.state → p.state.completion = none →
      w.subscribers[k]? = some s → s.status ≠ .awaiting →
      ∃ x : Subject Outlet, Machine.Runs ⟨w, fs, .calling (.subscribe ⟨as, .subject j⟩ k)⟩
          [.subscribe ⟨as, .subject j⟩ k,
            .tell k (.subscription ⟨as, .subject j p.state.entries.size⟩),
            .cancel ⟨as, .subject j p.state.entries.size⟩]
          ⟨w.setSubject j x, fs, .answering .done⟩ ∧
        x.registered = p.state.registered ∧ x.holds p.state.entries.size = false ∧
        ∀ i < p.state.entries.size, x.entries[i]? = p.state.entries[i]? := by
  have hr := (sound h).registry
  obtain ⟨hd, ha⟩ := draining_accounts h
  refine ⟨fun hf => ?_, fun hc => ?_, fun i n => ?_, ?_⟩
  · have hlist : p.state.registered = (List.range p.state.entries.size).filter p.state.holds := by
      refine eq_filter_range hr.ordered fun i => ?_
      rw [hr.member]
      refine ⟨fun hi => ⟨lt_of_holds hi.2, hi.2⟩, fun hi => ⟨?_, hi.2⟩⟩
      by_contra hc
      have hquiet : broadcasting p.frames = [] := by
        rw [hf]
        rfl
      cases hi.2.symm.trans (hd.nobody hc hquiet i)
    exact ⟨hlist, hlist ▸ List.countP_eq_length_filter.symm, ha.holds_iff hr⟩
  · exact List.eq_nil_iff_forall_not_mem.mpr fun i hi => hc ((hr.member i).mp hi).1
  · rw [cancelled_succ]
    exact ⟨hr.onCancel_registered i, onCancel_completion _ i,
      fun j hj => entry_onCancel_ne _ hj.symm⟩
  · intro w fs j k as s hj hc hk hst
    refine ⟨p.state.refused, Machine.subject_refused hst hk hj hc as fs,
      refused_registered_eq fun i hi => hr.lt_size hi, ?_, fun i hi => ?_⟩
    · simp [holds, refused]
    · exact Array.getElem?_push_lt hi |>.trans (Array.getElem?_eq_getElem hi).symm

/-- A subscriber that is refused cancels the third of three subscriptions. The first is cancelled,
and a fourth made, from inside a broadcast; then the second is cancelled twice. -/
theorem registry_lists_live_amid_changes : ∃ p : Play Outlet,
    Session.Reaches component Proper (Session.start {}) p ∧ p.frames = [] ∧
      p.state.registered = [1, 3] ∧ p.state.registered.length = 2 ∧
      (¬ Cancelled 3 p.log ∧ ∀ c, ¬ Ended 3 c p.log) ∧ (p.state.cancelled 1 2).registered = [3] ∧
      ∀ (w : World) (fs : List Sluice.Frame), w.subjects[0]? = some p.state →
        w.subscribers[0]? = some (.sink { lifecycle := .terminal }) →
        ∃ x : Subject Outlet, Machine.Runs ⟨w, fs, .calling (.subscribe ⟨[], .subject 0⟩ 0)⟩
            [.subscribe ⟨[], .subject 0⟩ 0, .tell 0 (.subscription ⟨[], .subject 0 4⟩),
              .cancel ⟨[], .subject 0 4⟩]
            ⟨w.setSubject 0 x, fs, .answering .done⟩ ∧
          x.registered = [1, 3] := by
  have h0 : Session.Reaches component Proper (Session.start {} : Play Outlet) _ := .refl
  have h1 := h0.turn (x := .enter (.subscribe ⟨[], 0⟩)) (by trivial) rfl
  have h2 := h1.turn (x := .enter (.request 0 .one)) (by exact Nat.lt_of_sub_eq_succ rfl) rfl
  have h3 := h2.turn (x := .reply .done) (by rfl) rfl
  have h4 := h3.turn (x := .enter (.subscribe ⟨[], 1⟩)) (by trivial) rfl
  have h5 := h4.turn (x := .reply .done) (by rfl) rfl
  have h6 := h5.turn (x := .enter (.subscribe ⟨[], 2⟩)) (by trivial) rfl
  have h7 := h6.turn (x := .enter (.cancel 2)) (by exact Nat.lt_of_sub_eq_succ rfl) rfl
  have h8 := h7.turn (x := .reply .done) (by rfl) rfl
  have h9 := h8.turn (x := .enter (.send 5)) (by rfl) rfl
  have h10 := h9.turn (x := .enter (.cancel 0)) (by exact Nat.lt_of_sub_eq_succ rfl) rfl
  have h11 := h10.turn (x := .enter (.subscribe ⟨[], 3⟩)) (by trivial) rfl
  have h12 := h11.turn (x := .reply .done) (by rfl) rfl
  have hp := h12.turn (x := .reply (.demand .one)) (by exact ⟨_, rfl⟩) rfl
  obtain ⟨hidle, -, hcancel, hrefuse⟩ := registry_lists_live hp
  obtain ⟨hlist, hcount, hlive⟩ := hidle rfl
  refine ⟨_, hp, rfl, hlist, hcount, ((hlive 3).mp rfl).2, (hcancel 1 1).1, fun w fs hw hs => ?_⟩
  obtain ⟨x, hrun, hx, -⟩ := hrefuse w fs 0 0 [] _ hw rfl hs (by decide)
  exact ⟨x, hrun, hx⟩

end Sluice.Subject
