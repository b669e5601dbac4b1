import Sluice.Machine.Enter
import Sluice.Proofs.Subject.Broadcast

/-!
# Completions reach everyone once

The first completion of a subject closes it before it reaches anybody. It ends
the subscriptions that were registered, one by one, unless they are cancelled
before their turn. Whoever subscribes while it is under way or later gets an inert
subscription and the same completion right after it, and nothing else happens to
a subject from then on.
-/

namespace Sluice.Subject

variable {ρ : Type}

def refusedBy (e : Note ρ) : Option ρ :=
  match e.turn, e.before.completion with
  | .enter (.subscribe dest), some _ => some dest
  | _, _ => none

def completedBy (e : Note ρ) : Option ρ :=
  match e.move with
  | some (.call (.conclude dest _) (.passing _)) => some dest
  | _ => none

def Frame.refused? : Frame ρ → Option ρ
  | refusing dest _ => some dest
  | _ => none

/-- Of the refused subscribers those are not completed that are still being handed their
subscription. -/
def Accounted (fs : List (Frame ρ)) (log : List (Note ρ)) : Prop :=
  (log.filterMap refusedBy).Perm (log.filterMap completedBy ++ fs.filterMap Frame.refused?)

/-- What a turn is on a subject that was completed with `c`. -/
structure Late (c : Ending) (e : Note ρ) : Prop where
  subscribe : ∀ dest, e.turn = .enter (.subscribe dest) →
    e.after = e.before ∧ e.move = some (.call (.handOver dest none) (.refusing dest c))
  send : ∀ v, e.turn = .enter (.send v) →
    e.after = e.before ∧ e.move = some (.answer (.count 0))
  complete : ∀ c', e.turn = .enter (.complete c') →
    e.after = e.before ∧ e.move = some (.answer .done)
  deliver : ∀ dest v, e.call? ≠ some (.deliver dest v)
  conclude : ∀ dest c', e.call? = some (.conclude dest c') → c' = c

section Turns

variable {p : Play ρ} {x : Turn (In ρ)} {fs : List (Frame ρ)} {s : Subject ρ}
  {mv : Move (Out ρ) (Frame ρ)} {log : List (Note ρ)} {e : Note ρ}

theorem Accounted.quiet {fs' : List (Frame ρ)} (h : Accounted fs log) (hr : refusedBy e = none)
    (hc : completedBy e = none) (hf : fs'.filterMap Frame.refused? = fs.filterMap Frame.refused?) :
    Accounted fs' (e :: log) := by
  rw [Accounted, List.filterMap_cons_none hr, List.filterMap_cons_none hc, hf]
  exact h

theorem Accounted.beside {t : Subject ρ} {fs' : List (Frame ρ)} (h : Accounted fs log)
    (hb : Beside s fs x fs' t mv) : Accounted (mv.push fs') (⟨x, s, t, some mv⟩ :: log) := by
  cases hb with
  | enlist dest _ hc =>
    refine h.quiet ?_ rfl rfl
    simp [refusedBy, hc]
  | refuse dest c _ hc =>
    have hr : refusedBy (⟨.enter (.subscribe dest), s, s, some (.call (.handOver dest none)
        (.refusing dest c))⟩ : Note ρ) = some dest := by simp [refusedBy, hc]
    rw [Accounted, List.filterMap_cons_some hr]
    exact (h.cons dest).trans List.perm_middle.symm
  | refused dest c fs' =>
    change (log.filterMap refusedBy).Perm (dest :: log.filterMap completedBy ++ _)
    exact h.trans List.perm_middle
  | _ => exact h.quiet rfl rfl rfl

theorem Accounted.turned (h : Accounted p.frames p.log) (ht : Turned p x fs s mv) :
    Accounted (mv.push fs) (⟨x, p.state, s, some mv⟩ :: p.log) := by
  cases ht with
  | beside hb => exact h.beside hb
  | send hf _ hb => cases hb <;> exact h.quiet rfl rfl (hf ▸ rfl)
  | returned hf hb => cases hb <;> exact h.quiet rfl rfl (hf ▸ rfl)
  | complete hf _ hb => cases hb <;> exact h.quiet rfl rfl (hf ▸ rfl)
  | concluded hf hb => cases hb <;> exact h.quiet rfl rfl (hf ▸ rfl)

theorem Beside.late {t : Subject ρ} {fs' : List (Frame ρ)} {c : Ending}
    (h : Beside s fs x fs' t mv) (hc : s.completion = some c) (hf : ∀ fr ∈ fs, Fits s log fr) :
    Late c ⟨x, s, t, some mv⟩ := by
  cases h with
  | enlist dest _ hn => simp [hc] at hn
  | refuse dest c' _ hc' =>
    obtain rfl : c = c' := Option.some.inj (hc.symm.trans hc')
    constructor <;> simp [Sluice.Entry.call?]
  | refused dest c' fs =>
    have hc' : s.completion = some c' := hf _ List.mem_cons_self
    obtain rfl : c = c' := Option.some.inj (hc.symm.trans hc')
    constructor <;> simp [Sluice.Entry.call?]
  | _ => constructor <;> simp [Sluice.Entry.call?]

theorem Turned.late {c : Ending} (ht : Turned p x fs s mv) (hs : Sound p)
    (hc : p.state.completion = some c) :
    s.completion = some c ∧ Late c ⟨x, p.state, s, some mv⟩ := by
  cases ht with
  | beside hb =>
    have ha : Aside p.state s ⟨x, p.state, s, some mv⟩ := hb.aside rfl
    exact ⟨ha.completion.trans hc, hb.late hc hs.fits⟩
  | send hf hn => simp [hc] at hn
  | @returned dest i v rest n d _ _ hf hb =>
    have hn := (hs.fits (.sending dest i v rest n) (by simp [hf])).1
    simp [hc] at hn
  | complete hf hn => simp [hc] at hn
  | @concluded dest c' rest _ _ hf hb =>
    have hc' := (hs.fits (.completing dest c' rest) (by simp [hf])).1
    obtain rfl : c = c' := Option.some.inj (hc.symm.trans hc')
    cases hb with
    | exhausted => exact ⟨hc, by constructor <;> simp [Sluice.Entry.call?]⟩
    | conclude => exact ⟨hc, by constructor <;> simp [Sluice.Entry.call?]⟩

end Turns

section Course

variable {base log : List (Note ρ)} {all ws : List Nat} {s t : Subject ρ} {c : Ending} {n : Nat}
  {mv : Move (Out ρ) (Frame ρ)} {e : Note ρ} {p q : Play ρ}

theorem Concludes.completion (h : Concludes t c ws s mv) : s.completion = t.completion := by
  cases h <;> rfl

theorem Course.concludes (h : Course (.ofEnding c) base all log (some ws) n)
    (hb : Concludes t c ws s mv) (he : e.move = some mv) (hr : Registry e.before log)
    (hx : t.entries = e.before.entries)
    (hl : ∀ j ∈ ws, e.before.holds j = true ∨ Cancelled j log) :
    (∃ dest rest, mv = .call (.conclude dest c) (.completing dest c rest) ∧
      Course (.ofEnding c) base all (e :: log) (some rest) (n + 1)) ∨
    mv = .answer .done ∧ Course (.ofEnding c) base all (e :: log) none n := by
  have skip (j : Nat) (hj : j ∈ ws) (hn : t.detach? j = none) :
      (Broadcast.ofEnding c).Skips log e.before j := by
    have hh : e.before.holds j = false := by
      rw [holds, ← hx]
      exact detach?_none hn
    exact .inl ((hl j hj).resolve_left (by simp [hh]))
  cases hb with
  | exhausted hn =>
    refine .inr ⟨rfl, h.finish (fun j hj => skip j hj (hn j hj)) ?_ ?_⟩
    · rw [served?, he]
    · rw [Sluice.Entry.answer?, he]
      rfl
  | @conclude passed rest i dest d hws hp hi =>
    subst hws
    rw [hx] at hi
    have hserves : (Broadcast.ofEnding c).Serves log e.before i dest := by
      refine ⟨fun hc => ?_, d, hi, trivial⟩
      simpa [(hr.cancelled i hc).2] using holds_of_entry hi
    refine .inl ⟨dest, rest, rfl, h.serve (fun j hj => ?_) hserves ?_⟩
    · exact skip j (List.mem_append_left _ hj) (hp j hj)
    · rw [served?, he]
      rfl

def EndingStands (c : Ending) (base : List (Note ρ)) (all : List Nat) (q : Play ρ) : Prop :=
  (∃ dest rest n, broadcasting q.frames = [.completing dest c rest] ∧
    Course (.ofEnding c) base all q.log (some rest) n) ∨
  broadcasting q.frames = [] ∧ ∃ n, Course (.ofEnding c) base all q.log none n

theorem endingStands_of_concludes {x : Turn (In ρ)}
    (h : (∃ dest rest, mv = .call (.conclude dest c) (.completing dest c rest) ∧
      Course (.ofEnding c) base all (⟨x, p.state, s, some mv⟩ :: p.log) (some rest) (n + 1)) ∨
      mv = .answer .done ∧
        Course (.ofEnding c) base all (⟨x, p.state, s, some mv⟩ :: p.log) none n) :
    EndingStands c base all (p.advance x [] (s, mv)) := by
  rcases h with ⟨dest, rest, rfl, h⟩ | ⟨rfl, h⟩
  · exact .inl ⟨dest, rest, _, rfl, h⟩
  · exact .inr ⟨rfl, n, h⟩

theorem EndingStands.turned {x : Turn (In ρ)} {fs : List (Frame ρ)}
    (h : EndingStands c base all p) (hs : Sound p) (hc : p.state.completion = some c)
    (ht : Turned p x fs s mv) : EndingStands c base all (p.advance x fs (s, mv)) := by
  cases ht with
  | beside hb =>
    rcases h with ⟨dest, rest, n, hf, h⟩ | ⟨hf, n, h⟩
    · exact .inl ⟨dest, rest, n, hb.broadcasting.trans hf, h.aside (hb.served ..)⟩
    · exact .inr ⟨hb.broadcasting.trans hf, n, h.aside (hb.served ..)⟩
  | send hf hn => simp [hc] at hn
  | @returned dest i v rest n d _ _ hf hb =>
    have hn := (hs.fits (.sending dest i v rest n) (by simp [hf])).1
    simp [hc] at hn
  | complete hf hn => simp [hc] at hn
  | @concluded dest c' rest _ _ hf hb =>
    obtain ⟨hc', hw, hl⟩ := hs.fits (.completing dest c' rest) (by simp [hf])
    obtain rfl : c = c' := Option.some.inj (hc.symm.trans hc')
    rcases h with ⟨dest', rest', n, hf', h⟩ | ⟨hf', -⟩
    · rw [hf] at hf'
      obtain ⟨rfl, -, rfl⟩ := Frame.completing.injEq .. ▸ (List.cons.inj hf').1
      exact endingStands_of_concludes (h.concludes hb rfl hs.registry rfl hl)
    · rw [hf] at hf'
      cases hf'

end Course

/-- A subject that was completed with `c` at `p` reaches everyone with it, up to `q`. -/
structure Reaching (c : Ending) (p q : Play ρ) : Prop where
  ordered : p.state.registered.Pairwise (· < ·)
  registered : ∀ i, i ∈ p.state.registered ↔ i < p.state.entries.size ∧ ¬ Cancelled i p.log
  course : ∃ left n, Course (.ofEnding c) p.log p.state.registered q.log left n ∧
    (left = none ↔ broadcasting q.frames = [])
  late : ∃ newer e, q.log = newer ++ e :: p.log ∧ ∀ e' ∈ newer, Late c e'
  accounted : Accounted q.frames q.log
  atOnce : ∀ dest c' fs, q.frames = .refusing dest c' :: fs →
    q.take? component (.reply .done) = some (q.advance (.reply .done) fs
      (q.state, .call (.conclude dest c) (.passing dest)))

section Reaching

variable {c : Ending} {base : List (Note ρ)} {p q : Play ρ}

theorem EndingStands.course {all : List Nat} (h : EndingStands c base all q) :
    ∃ left n, Course (.ofEnding c) base all q.log left n ∧
      (left = none ↔ broadcasting q.frames = []) := by
  rcases h with ⟨dest, rest, n, hf, h⟩ | ⟨hf, n, h⟩
  · exact ⟨_, _, h, by simp [hf]⟩
  · exact ⟨_, _, h, by simp [hf]⟩

structure Closed (c : Ending) (p q : Play ρ) : Prop where
  completion : q.state.completion = some c
  stands : EndingStands c p.log p.state.registered q
  late : ∃ newer e, q.log = newer ++ e :: p.log ∧ ∀ e' ∈ newer, Late c e'
  accounted : Accounted q.frames q.log

theorem Closed.turned {t : Play ρ} {x : Turn (In ρ)} {fs : List (Frame ρ)} {s : Subject ρ}
    {mv : Move (Out ρ) (Frame ρ)} (h : Closed c p t) (hs : Sound t) (ht : Turned t x fs s mv) :
    Closed c p (t.advance x fs (s, mv)) := by
  obtain ⟨newer, e, hlog, hlate⟩ := h.late
  obtain ⟨hc, hl⟩ := ht.late hs h.completion
  refine ⟨hc, h.stands.turned hs h.completion ht, ?_, h.accounted.turned ht⟩
  refine ⟨⟨x, t.state, s, some mv⟩ :: newer, e, ?_, List.forall_mem_cons.mpr ⟨hl, hlate⟩⟩
  exact congrArg (List.cons _) hlog

theorem Closed.begin (hs : Sound p) (ha : Accounted p.frames p.log) (hf : p.frames = [])
    (ho : p.state.completion = none) {s : Subject ρ} {mv : Move (Out ρ) (Frame ρ)}
    (hb : Concludes (p.state.close c) c p.state.registered s mv) :
    Closed c p (p.advance (.enter (.complete c)) [] (s, mv)) where
  completion := hb.completion
  stands := by
    refine endingStands_of_concludes (n := 0) ?_
    refine Course.begin.concludes hb rfl hs.registry rfl fun j hj => ?_
    exact .inl ((hs.registry.member j).mp hj).2
  late := ⟨[], _, rfl, by simp⟩
  accounted := ha.turned (.complete hf ho hb)

theorem accounted (h : Session.Reaches component Proper (Session.start {}) p) :
    Accounted p.frames p.log :=
  (Sound.invariant (P := fun p => Accounted p.frames p.log) h (fun _ _ => id) .start .nil
    fun _ hp _ hx => hp.turned hx).2

/-- The first completion of a subject reaches everyone once, whatever the callbacks subscribe,
request and cancel: the subscriptions that are live when their turn comes, and each later subscriber
after an inert subscription, which ignores all requests. -/
theorem completes_everyone (h : Session.Reaches component Proper (Session.start {}) p)
    (hf : p.frames = []) (ho : p.state.completion = none)
    (hq : Session.Reaches component Proper
      (p.advance (.enter (.complete c)) [] (enter p.state (.complete c))) q) :
    Reaching c p q ∧ ∀ (m : Machine) (i : Nat) (dest : Outlet) (d : Demand),
      Machine.subjectCall i (.handOver dest none) =
        .tell dest.subscriber (.subscription ⟨dest.audits, .inert⟩) ∧
      m.requestTap d .inert = m.answer .done := by
  have hs := sound h
  have hb := enter_complete ho c
  obtain ⟨ht, hcl⟩ := Sound.invariant (P := Closed c p) hq (fun _ _ => id)
    (hs.turned (.complete hf ho hb)) (.begin hs (accounted h) hf ho hb)
    fun ht hp _ hx => hp.turned ht hx
  refine ⟨⟨hs.registry.ordered, fun i => ?_, hcl.stands.course, hcl.late, hcl.accounted, ?_⟩,
    fun m i dest d => ⟨rfl, rfl⟩⟩
  · exact hs.registry.mem_registered.trans (and_iff_right ho)
  · intro dest c' fs hfs
    have hc' : q.state.completion = some c' := ht.fits (.refusing dest c') (by simp [hfs])
    obtain rfl : c = c' := Option.some.inj (hcl.completion.symm.trans hc')
    simp only [Session.take?, hfs]
    rfl

/-- The first of three subscribers cancels the second from inside its completion, and lets a fourth
subscribe. A fifth comes when all is over, after a send and a second completion. -/
theorem completes_everyone_amid_changes : ∃ p q : Play Nat,
    p.state.registered = [0, 1, 2] ∧ q.frames = [] ∧ q.log.filterMap completedBy = [14, 13] ∧
      q.log.head?.bind Sluice.Entry.answer? = some .done ∧
      Course (.ofEnding (.failure "x")) p.log [0, 1, 2] q.log none 2 ∧
      Reaching (.failure "x") p q := by
  have h0 : Session.Reaches component Proper (Session.start {} : Play Nat) _ := .refl
  have h1 := h0.turn (x := .enter (.subscribe 10)) (by trivial) rfl
  have h2 := h1.turn (x := .reply .done) (by rfl) rfl
  have h3 := h2.turn (x := .enter (.subscribe 11)) (by trivial) rfl
  have h4 := h3.turn (x := .reply .done) (by rfl) rfl
  have h5 := h4.turn (x := .enter (.subscribe 12)) (by trivial) rfl
  have hp := h5.turn (x := .reply .done) (by rfl) rfl
  have q0 {p : Play Nat} (_ : Session.Reaches component Proper (Session.start {}) p) :
      Session.Reaches component Proper
        (p.advance (.enter (.complete (.failure "x"))) []
          (enter p.state (.complete (.failure "x")))) _ := .refl
  have q1 := (q0 hp).turn (x := .enter (.cancel 1)) (by exact Nat.lt_of_sub_eq_succ rfl) rfl
  have q2 := q1.turn (x := .enter (.subscribe 13)) (by trivial) rfl
  have q3 := q2.turn (x := .reply .done) (by rfl) rfl
  have q4 := q3.turn (x := .reply .done) (by rfl) rfl
  have q5 := q4.turn (x := .reply .done) (by rfl) rfl
  have q6 := q5.turn (x := .reply .done) (by rfl) rfl
  have q7 := q6.turn (x := .enter (.send 5)) (by rfl) rfl
  have q8 := q7.turn (x := .enter (.complete .finished)) (by rfl) rfl
  have q9 := q8.turn (x := .enter (.subscribe 14)) (by trivial) rfl
  have q10 := q9.turn (x := .reply .done) (by rfl) rfl
  have hq := q10.turn (x := .reply .done) (by rfl) rfl
  have hr := (completes_everyone hp rfl rfl hq).1
  obtain ⟨left, n, hc, hl⟩ := hr.course
  obtain rfl : left = none := hl.mpr rfl
  obtain rfl : 2 = n := hc.length_served.trans (Nat.zero_add n)
  exact ⟨_, _, rfl, rfl, rfl, rfl, hc, hr⟩

end Reaching

end Sluice.Subject
