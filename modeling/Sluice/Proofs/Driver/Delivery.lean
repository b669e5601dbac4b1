import Sluice.Proofs.Driver.Ledger

/-!
# Driven streams honour demand, order and termination

Between two sections a driver is in one of a few places: it hands its
subscription over, waits for demand, polls or waits for its stream with a unit of
demand in hand, delivers, completes its subscriber, or has ended. Each place says
where the unit is and whether the subscriber was completed; what was granted,
delivered and left is in balance at all of them.
-/

namespace Sluice.Driver

variable {ρ : Type} {f : Nat → Poll}

def outcome : Ending → Poll
  | .finished => .closed
  | .failure e => .failure e

namespace Account

/-- The first outcome that is not a value has completed the subscriber. -/
def Concluded (f : Nat → Poll) (a : Account) : Prop :=
  ∃ c, a.concluded = [c] ∧ f a.delivered.length = outcome c

structure Books (f : Nat → Poll) (a : Account) (s : Driver ρ) : Prop where
  balance : s.demand.Balances a.granted (a.delivered.length + a.fate.owed)
  order : ∀ k v, a.delivered[k]? = some v → f k = .value v
  cancelled : a.cancelled = s.cancelled
  taken : a.cancelled = false → a.taken = a.delivered.length + a.concluded.length

structure Open (a : Account) (s : Driver ρ) (fate : Fate) : Prop where
  subscriber : s.subscriber.isSome
  fate : a.fate = fate
  concluded : a.concluded = []

end Account

/-- Where a driver can be between two sections, with the frames that are more than wakeups. -/
inductive Place (f : Nat → Poll) (s : Driver ρ) (a : Account) : List (Frame ρ) → Prop
  | opening (dest : ρ) (hp : s.phase = .unstarted) (ha : a.Open s .spent) :
      Place f s a [.opening dest]
  | idle (hp : s.phase = .seeking ∨ s.phase = .parked) (ha : a.Open s .spent) : Place f s a []
  | waiting (hp : s.phase = .polling) (ha : a.Open s .held) : Place f s a []
  | polling (hp : s.phase = .polling) (ha : a.Open s .held) : Place f s a [.polling]
  | delivering (hp : s.phase = .polling) (ha : a.Open s .spent) : Place f s a [.delivering]
  | concluding (hp : s.phase = .polling) (hu : a.fate = .used) (hc : a.Concluded f) :
      Place f s a [.concluding]
  | cut (hp : s.phase = .ended) (hu : a.fate ≠ .held) (hc : a.concluded = [])
      (hx : a.cancelled = true) : Place f s a []
  | done (hp : s.phase = .ended) (hu : a.fate = .used) (hc : a.Concluded f) : Place f s a []

structure Stage (f : Nat → Poll) (s : Driver ρ) (fs : List (Frame ρ)) (a : Account) : Prop where
  books : a.Books f s
  place : Place f s a (busy fs)

section Steps

variable {s t : Driver ρ} {fs : List (Frame ρ)} {a : Account} {u : Fate}

theorem Account.Books.keep (h : a.Books f s) (hk : Kept s t) : a.Books f t where
  balance := hk.demand ▸ h.balance
  order := h.order
  cancelled := h.cancelled.trans hk.cancelled.symm
  taken := h.taken

theorem Account.Open.keep (h : a.Open s u) (hk : Kept s t) : a.Open t u :=
  ⟨hk.subscriber ▸ h.subscriber, h.fate, h.concluded⟩

theorem Account.move_ended (h : a.fate ≠ .held) :
    a.move (some (.answer (.pause .ended)) : Option (Move (Out ρ) (Frame ρ))) = a := by
  rw [Account.move, if_neg h]

theorem Account.Books.use (h : a.Books f s) (hu : a.fate = .held) :
    ({ a with fate := .used } : Account).Books f s :=
  ⟨by simpa [hu, Fate.owed] using h.balance, h.order, h.cancelled, h.taken⟩

theorem Stage.giveUp (h : a.Books f t) (ha : a.Open s .held) (hp : t.phase = .ended)
    (hx : a.cancelled = true) (hb : busy fs = []) :
    Stage f t fs (a.move (some (.answer (.pause .ended)) : Option (Move (Out ρ) (Frame ρ)))) := by
  rw [Account.move, if_pos ha.fate]
  refine ⟨h.use ha.fate, ?_⟩
  rw [hb]
  exact .cut hp (by simp) ha.concluded hx

theorem Stage.select (h : a.Books f s) (ha : a.Open s .held) (hb : busy fs = []) :
    Stage f s.select.1 (s.select.2.push fs) (a.move (some s.select.2)) := by
  have hs := select_selected s
  generalize s.select = r at hs
  obtain ⟨t, mv⟩ := r
  cases hs with
  | ended hc hp hd hx =>
    have hk : a.Books f t :=
      ⟨hd ▸ h.balance, h.order, h.cancelled.trans (hc.trans hx.symm), h.taken⟩
    exact .giveUp hk ha hp (h.cancelled.trans hc) hb
  | poll hp hk =>
    have hm : ({ a with fate := .held } : Account) = a := by rw [← ha.fate]
    change Stage f t (.polling :: fs) { a with fate := .held }
    rw [hm]
    refine ⟨h.keep hk, ?_⟩
    change Place f t a (.polling :: busy fs)
    rw [hb]
    exact .polling hp (ha.keep hk)

theorem Stage.seek (h : a.Books f s) (ha : a.Open s .spent) (hb : busy fs = []) :
    Stage f s.seek.1 (s.seek.2.push fs) (a.move (some s.seek.2)) := by
  have hs := seek_sought s
  generalize s.seek = r at hs
  obtain ⟨t, mv⟩ := r
  have hu : a.fate ≠ .held := by simp [ha.fate]
  cases hs with
  | ended hc ht =>
    subst ht
    rw [Account.move_ended hu]
    refine ⟨⟨h.balance, h.order, h.cancelled, h.taken⟩, ?_⟩
    rw [Move.push_answer, hb]
    exact .cut rfl hu ha.concluded (h.cancelled.trans hc)
  | parked hp hk =>
    refine ⟨h.keep hk, ?_⟩
    rw [Move.push_answer, hb]
    exact .idle (.inr hp) (ha.keep hk)
  | @poll rest hd hp hk =>
    have hbal : rest.Balances a.granted (a.delivered.length + 1) := by
      have hbal := h.balance
      rw [ha.fate] at hbal
      exact hbal.spend hd
    refine ⟨⟨hk.demand ▸ hbal, h.order, h.cancelled.trans hk.cancelled.symm, h.taken⟩, ?_⟩
    change Place f t _ (.polling :: busy fs)
    rw [hb]
    exact .polling hp ⟨hk.subscriber ▸ ha.subscriber, rfl, ha.concluded⟩

theorem notify_kept (s : Driver ρ) : Kept s s.notify.1 ∧ s.notify.1.phase = s.phase ∧
    (s.notify.2 = .call .wake .passing ∨ s.notify.2 = .answer .done) := by
  unfold notify
  cases s.wakeup.notify with
  | mk had w => cases had <;> exact ⟨⟨rfl, rfl, rfl⟩, rfl, by simp⟩

theorem Place.keep {a' : Account} {bs : List (Frame ρ)} (h : Place f s a bs)
    (hp : t.phase = s.phase) (hs : t.subscriber = s.subscriber) (hu : a'.fate = a.fate)
    (hd : a'.delivered = a.delivered) (hc : a'.concluded = a.concluded)
    (hx : a.cancelled = true → a'.cancelled = true) :
    Place f t a' bs := by
  have opened {u : Fate} (ha : a.Open s u) : a'.Open t u :=
    ⟨hs ▸ ha.subscriber, hu.trans ha.fate, hc.trans ha.concluded⟩
  have concluded (ha : a.Concluded f) : a'.Concluded f := by
    rw [Account.Concluded, hc, hd]
    exact ha
  cases h with
  | opening dest hph ha => exact .opening dest (hp.trans hph) (opened ha)
  | idle hph ha => exact .idle (hp ▸ hph) (opened ha)
  | waiting hph ha => exact .waiting (hp.trans hph) (opened ha)
  | polling hph ha => exact .polling (hp.trans hph) (opened ha)
  | delivering hph ha => exact .delivering (hp.trans hph) (opened ha)
  | concluding hph hf ha => exact .concluding (hp.trans hph) (hu.trans hf) (concluded ha)
  | cut hph hf ha hxc => exact .cut (hp.trans hph) (hu ▸ hf) (hc.trans ha) (hx hxc)
  | done hph hf ha => exact .done (hp.trans hph) (hu.trans hf) (concluded ha)

theorem Stage.notify (h : Stage f s fs a) :
    Stage f s.notify.1 (s.notify.2.push fs) (a.move (some s.notify.2)) := by
  obtain ⟨hk, hp, hm⟩ := notify_kept s
  have hpl := h.place.keep (t := s.notify.1) hp hk.subscriber rfl rfl rfl id
  rcases hm with hm | hm
  · rw [hm]
    exact ⟨h.books.keep hk, hpl⟩
  · rw [hm]
    exact ⟨h.books.keep hk, hpl⟩

theorem Stage.request (h : Stage f s fs a) (d : Demand) :
    Stage f (s.onRequest d).1 ((s.onRequest d).2.push fs)
      ((a.turn (.enter (.request d) : Turn (In ρ))).move (some (s.onRequest d).2)) := by
  have hb := h.books
  unfold onRequest
  by_cases hc : s.cancelled = true
  · rw [if_pos (by simp [hc]), Account.turn, if_pos (hb.cancelled.trans hc)]
    exact h
  · have hac : a.cancelled ≠ true := fun hx => hc (hb.cancelled.symm.trans hx)
    rw [Account.turn, if_neg hac]
    by_cases hz : d.isZero = true
    · rw [if_pos (by simp [hz]), Demand.amount_of_isZero hz, zero_add]
      exact h
    · rw [if_neg (by simp [hz, hc])]
      refine Stage.notify ⟨⟨hb.balance.grant d, hb.order, hb.cancelled, hb.taken⟩, ?_⟩
      exact h.place.keep rfl rfl rfl rfl rfl id

theorem Stage.cancel (h : Stage f s fs a) :
    Stage f s.onCancel.1 (s.onCancel.2.push fs)
      ((a.turn (.enter .cancel : Turn (In ρ))).move (some s.onCancel.2)) := by
  have hb := h.books
  unfold onCancel
  by_cases hc : s.cancelled = true
  · rw [if_pos hc]
    refine ⟨⟨hb.balance, hb.order, hc.symm, fun hx => by cases hx⟩, ?_⟩
    exact h.place.keep rfl rfl rfl rfl rfl fun _ => rfl
  · rw [if_neg hc]
    refine Stage.notify ⟨⟨hb.balance, hb.order, rfl, fun hx => by cases hx⟩, ?_⟩
    exact h.place.keep rfl rfl rfl rfl rfl fun _ => rfl

theorem Stage.run (h : Stage f s fs a) (hr : ∀ fr ∈ busy fs, fr.isRunning = false) :
    Stage f s.onRun.1 (s.onRun.2.push fs) (a.move (some s.onRun.2)) := by
  obtain ⟨hb, hpl⟩ := h
  unfold onRun
  generalize hbs : busy fs = bs at hpl hr
  cases hpl with
  | opening dest hp ha =>
    rw [hp]
    dsimp only
    rw [Account.move_ended (by simp [ha.fate])]
    exact ⟨hb, hbs ▸ .opening dest hp ha⟩
  | idle hp ha =>
    rcases hp with hp | hp
    · rw [hp]
      exact .seek hb ha hbs
    · rw [hp]
      cases s.wakeup.consume? with
      | none => exact ⟨hb, hbs ▸ .idle (.inr hp) ha⟩
      | some w => exact .seek (hb.keep ⟨rfl, rfl, rfl⟩) (ha.keep ⟨rfl, rfl, rfl⟩) hbs
  | waiting hp ha =>
    rw [hp]
    dsimp only
    cases s.wakeup.consume? with
    | none =>
      have hm : a.move (some (.call .poll .polling) : Option (Move (Out ρ) (Frame ρ))) = a := by
        rw [Account.move, ← ha.fate]
      dsimp only
      rw [hm]
      refine ⟨hb, ?_⟩
      change Place f s a (.polling :: busy fs)
      exact hbs ▸ .polling hp ha
    | some w =>
      dsimp only
      split
      · next hc =>
        have hk : a.Books f (Driver.finish { s with wakeup := w }).1 :=
          ⟨hb.balance, hb.order, hb.cancelled, hb.taken⟩
        exact .giveUp hk ha rfl (hb.cancelled.trans hc) hbs
      · exact .select (hb.keep ⟨rfl, rfl, rfl⟩) (ha.keep ⟨rfl, rfl, rfl⟩) hbs
  | polling => simp [Frame.isRunning] at hr
  | delivering => simp [Frame.isRunning] at hr
  | concluding => simp [Frame.isRunning] at hr
  | cut hp hu hc hx =>
    rw [hp]
    dsimp only
    rw [Account.move_ended hu]
    exact ⟨hb, hbs ▸ .cut hp hu hc hx⟩
  | done hp hu hc =>
    rw [hp]
    dsimp only
    rw [Account.move_ended (by simp [hu])]
    exact ⟨hb, hbs ▸ .done hp hu hc⟩

theorem Stage.opened {dest : ρ} (h : Stage f s (.opening dest :: fs) a) :
    Stage f s.onOpened.1 (s.onOpened.2.push fs) (a.move (some s.onOpened.2)) := by
  obtain ⟨hb, hpl⟩ := h
  change Place f s a (.opening dest :: busy fs) at hpl
  generalize hbs : busy fs = bs at hpl
  cases hpl with
  | opening _ hp ha =>
    unfold onOpened
    by_cases hc : s.cancelled = true
    · rw [if_pos hc]
      refine ⟨⟨hb.balance, hb.order, hb.cancelled, hb.taken⟩, ?_⟩
      rw [Move.push_answer, hbs]
      have hu : a.fate ≠ .held := by simp [ha.fate]
      exact .cut rfl hu ha.concluded (hb.cancelled.trans hc)
    · rw [if_neg hc]
      refine ⟨⟨hb.balance, hb.order, hb.cancelled, hb.taken⟩, ?_⟩
      change Place f _ a (busy fs)
      rw [hbs]
      exact .idle (.inl rfl) ⟨ha.subscriber, ha.fate, ha.concluded⟩

theorem Stage.pending (h : Stage f s (.polling :: fs) a) :
    Stage f s fs (a.turn (.reply (.poll .pending) : Turn (In ρ))) := by
  obtain ⟨hb, hpl⟩ := h
  change Place f s a (.polling :: busy fs) at hpl
  generalize hbs : busy fs = bs at hpl
  cases hpl with
  | polling hp ha => exact ⟨hb, hbs ▸ .waiting hp ⟨ha.subscriber, ha.fate, ha.concluded⟩⟩

theorem Stage.concludes {c : Ending} {dest : ρ} (hb : a.Books f s) (ha : a.Open s .held)
    (hp : s.phase = .polling) (hlen : a.taken = a.delivered.length) (hx : f a.taken = outcome c)
    (hbs : busy fs = []) :
    Stage f { s with wakeup := s.wakeup.forget } (.concluding :: fs)
      (({ a with taken := a.taken + 1 } : Account).move
        (some (.call (.conclude dest c) .concluding) : Option (Move (Out ρ) (Frame ρ)))) where
  books := by
    refine ⟨?_, hb.order, hb.cancelled, fun _ => ?_⟩
    · simpa [Account.move, ha.fate, Fate.owed] using hb.balance
    · simp [Account.move, hlen, ha.concluded]
  place := by
    change Place f _ _ (.concluding :: busy fs)
    rw [hbs]
    refine .concluding hp rfl ⟨c, ?_, hlen ▸ hx⟩
    simp [Account.move, ha.concluded]

theorem Account.Books.append {v : Value} {k : Nat} {w : Value} (h : a.Books f s)
    (hlen : a.taken = a.delivered.length) (hx : f a.taken = .value v)
    (hk : (a.delivered ++ [v])[k]? = some w) : f k = .value w := by
  rcases Nat.lt_or_ge k a.delivered.length with hlt | hge
  · exact h.order k w ((List.getElem?_append_left hlt).symm.trans hk)
  · rw [List.getElem?_append_right hge, List.getElem?_singleton] at hk
    split at hk
    · next hz =>
      obtain rfl : v = w := Option.some.inj hk
      obtain rfl : k = a.taken := by omega
      exact hx
    · cases hk

theorem Stage.delivers {v : Value} {dest : ρ} (hb : a.Books f s) (ha : a.Open s .held)
    (hp : s.phase = .polling) (hlen : a.taken = a.delivered.length) (hx : f a.taken = .value v)
    (hbs : busy fs = []) :
    Stage f { s with wakeup := s.wakeup.forget } (.delivering :: fs)
      (({ a with taken := a.taken + 1 } : Account).move
        (some (.call (.deliver dest v) .delivering) : Option (Move (Out ρ) (Frame ρ)))) where
  books := by
    refine ⟨?_, fun k w hk => hb.append hlen hx hk, hb.cancelled, fun _ => ?_⟩
    · simpa [Account.move, ha.fate, Fate.owed] using hb.balance
    · simp [Account.move, hlen, ha.concluded]
  place := by
    change Place f _ _ (.delivering :: busy fs)
    rw [hbs]
    exact .delivering hp ⟨ha.subscriber, rfl, ha.concluded⟩

theorem Stage.polled (h : Stage f s (.polling :: fs) a) (hf : f a.taken ≠ .pending) :
    Stage f (s.onPolled (f a.taken)).1 ((s.onPolled (f a.taken)).2.push fs)
      ((a.turn (.reply (.poll (f a.taken)) : Turn (In ρ))).move
        (some (s.onPolled (f a.taken)).2)) := by
  obtain ⟨hb, hpl⟩ := h
  change Place f s a (.polling :: busy fs) at hpl
  generalize hbs : busy fs = bs at hpl
  cases hpl with
  | polling hp ha =>
    have hturn : a.turn (.reply (.poll (f a.taken)) : Turn (In ρ)) =
        { a with taken := a.taken + 1 } := by
      rw [Account.turn]
      cases hx : f a.taken with
      | pending => exact absurd hx hf
      | _ => rfl
    rw [hturn]
    cases hc : s.cancelled with
    | true =>
      have hm : s.onPolled (f a.taken) = finish { s with wakeup := s.wakeup.forget } := by
        cases hx : f a.taken with
        | pending => exact absurd hx hf
        | _ => simp only [onPolled, hc]
      have hac : a.cancelled = true := hb.cancelled.trans hc
      rw [hm]
      refine .giveUp (s := s) ⟨hb.balance, hb.order, hb.cancelled, ?_⟩
        ⟨ha.subscriber, ha.fate, ha.concluded⟩ rfl hac hbs
      exact fun hx => by simp [hac] at hx
    | false =>
      have hac : a.cancelled = false := hb.cancelled.trans hc
      have hlen : a.taken = a.delivered.length := by simpa [ha.concluded] using hb.taken hac
      obtain ⟨dest, hd⟩ := Option.isSome_iff_exists.mp ha.subscriber
      cases hx : f a.taken with
      | pending => exact absurd hx hf
      | value v =>
        have hm : s.onPolled (.value v) = ({ s with wakeup := s.wakeup.forget },
            .call (.deliver dest v) .delivering) := by simp only [onPolled, hc, hd]
        rw [hm]
        exact .delivers hb ha hp hlen hx hbs
      | failure e =>
        have hm : s.onPolled (.failure e) = ({ s with wakeup := s.wakeup.forget },
            .call (.conclude dest (.failure e)) .concluding) := by simp only [onPolled, hc, hd]
        rw [hm]
        exact .concludes hb ha hp hlen hx hbs
      | closed =>
        have hm : s.onPolled .closed = ({ s with wakeup := s.wakeup.forget },
            .call (.conclude dest .finished) .concluding) := by simp only [onPolled, hc, hd]
        rw [hm]
        exact .concludes hb ha hp hlen hx hbs

theorem Stage.delivered (h : Stage f s (.delivering :: fs) a) (d : Demand) :
    Stage f (s.onDelivered d).1 ((s.onDelivered d).2.push fs)
      ((a.turn (.reply (.demand d) : Turn (In ρ))).move (some (s.onDelivered d).2)) := by
  obtain ⟨hb, hpl⟩ := h
  change Place f s a (.delivering :: busy fs) at hpl
  generalize hbs : busy fs = bs at hpl
  cases hpl with
  | delivering hp ha =>
    have hbal := hb.balance.grant d
    unfold onDelivered
    dsimp only
    split
    · refine ⟨⟨hbal, hb.order, hb.cancelled, hb.taken⟩, ?_⟩
      rw [Move.push_answer, hbs]
      exact .idle (.inl rfl) ⟨ha.subscriber, ha.fate, ha.concluded⟩
    · exact .seek ⟨hbal, hb.order, hb.cancelled, hb.taken⟩
        ⟨ha.subscriber, ha.fate, ha.concluded⟩ hbs

theorem Stage.concluded (h : Stage f s (.concluding :: fs) a) :
    Stage f s.finish.1 (s.finish.2.push fs) (a.move (some s.finish.2)) := by
  obtain ⟨hb, hpl⟩ := h
  change Place f s a (.concluding :: busy fs) at hpl
  generalize hbs : busy fs = bs at hpl
  cases hpl with
  | concluding hp hu hc =>
    unfold finish
    rw [Account.move_ended (by simp [hu])]
    refine ⟨⟨hb.balance, hb.order, hb.cancelled, hb.taken⟩, ?_⟩
    rw [Move.push_answer, hbs]
    exact .done rfl hu hc

end Steps

section Sessions

variable {s : Driver ρ} {fs : List (Frame ρ)} {a : Account} {p : Play ρ} {log : List (Note ρ)}

theorem Stage.used (h : Stage f s fs a) (hc : a.concluded ≠ []) :
    a.fate = .used ∧ a.Concluded f ∧ (s.phase = .ended ∨ .concluding ∈ fs) := by
  obtain ⟨-, hpl⟩ := h
  generalize hbs : busy fs = bs at hpl
  cases hpl with
  | opening dest hp ha => exact absurd ha.concluded hc
  | idle hp ha => exact absurd ha.concluded hc
  | waiting hp ha => exact absurd ha.concluded hc
  | polling hp ha => exact absurd ha.concluded hc
  | delivering hp ha => exact absurd ha.concluded hc
  | concluding hp hu ha =>
    have hm : Frame.concluding ∈ busy fs := by simp [hbs]
    exact ⟨hu, ha, .inr (List.mem_filter.mp hm).1⟩
  | cut hp hu ha => exact absurd ha hc
  | done hp hu ha => exact ⟨hu, ha, .inl hp⟩

theorem Account.turn_concluded (a : Account) (x : Turn (In ρ)) :
    (a.turn x).concluded = a.concluded := by
  cases x with
  | enter i => cases i <;> rfl
  | reply r => cases r <;> rfl
  | raise => rfl

theorem account_concluded {e : Note ρ} (he : e ∈ log) {dest : ρ} {c : Ending}
    (hc : e.call? = some (.conclude dest c)) : (account log).concluded ≠ [] := by
  induction log with
  | nil => cases he
  | cons e' log ih =>
    rw [account]
    rcases List.mem_cons.mp he with rfl | he
    · obtain ⟨x, s, t, mv⟩ := e
      cases mv with
      | none => cases hc
      | some mv =>
        cases mv with
        | answer r => cases hc
        | call o fr =>
          obtain rfl : o = .conclude dest c := Option.some.inj hc
          simp [Account.move]
    · have hk := ih he
      rw [← Account.turn_concluded _ e'.turn] at hk
      generalize (account log).turn e'.turn = a at hk
      unfold Account.move
      split <;> simp [hk]

theorem Stage.unconcluded {o : Out ρ} {fr : Frame ρ}
    (h : Stage f s fs (a.move (some (.call o fr)))) (ho : o.isWork = true) : a.concluded = [] := by
  by_contra hc
  cases o with
  | handOver dest => cases ho
  | spawn => cases ho
  | wake => cases ho
  | poll => exact absurd (h.used hc).1 (by simp [Account.move])
  | deliver dest v => exact absurd (h.used hc).1 (by simp [Account.move])
  | conclude dest c =>
    obtain ⟨-, ⟨c', hl, -⟩, -⟩ := h.used (by simp [Account.move])
    have hlen := congrArg List.length hl
    simp [Account.move, hc] at hlen

structure Sound (f : Nat → Poll) (pace : Pace) (p : Play ρ) : Prop where
  stage : p = Session.start { pace := pace } ∨
    p.log ≠ [] ∧ Stage f p.state p.frames (account p.log)
  final : Final p.log

variable {pace : Pace}

theorem Sound.advance (h : Sound f pace p) {x : Turn (In ρ)} {r : Driver ρ × Move (Out ρ) (Frame ρ)}
    (hst : Stage f r.1 (r.2.push fs) (((account p.log).turn x).move (some r.2))) :
    Sound f pace (p.advance x fs r) where
  stage := .inr ⟨List.cons_ne_nil _ _, hst⟩
  final := by
    refine List.pairwise_cons.mpr ⟨fun e he ⟨dest, c, hc⟩ o ho => ?_, h.final⟩
    obtain ⟨t, mv⟩ := r
    cases mv with
    | answer r => cases ho
    | call o' fr =>
      obtain rfl : o' = o := Option.some.inj ho
      by_contra hw
      have hn := hst.unconcluded (Bool.eq_true_of_not_eq_false hw)
      rw [Account.turn_concluded] at hn
      exact account_concluded he hc hn

theorem Sound.enter (h : Sound f pace p) (i : In ρ) (hp : Proper f p (.enter i)) :
    Sound f pace (p.advance (.enter i) p.frames (component.enter p.state i)) := by
  apply h.advance
  rcases h.stage with rfl | ⟨hl, hst⟩
  · cases i with
    | subscribe dest =>
      refine ⟨⟨.inl rfl, ?_, rfl, fun _ => rfl⟩, .opening dest rfl ⟨rfl, rfl, rfl⟩⟩
      intro k v hk
      cases hk
    | request d => exact absurd rfl hp
    | cancel => exact absurd rfl hp
    | run => exact absurd rfl hp.1
  · cases i with
    | subscribe dest => exact absurd hp hl
    | request d => exact hst.request d
    | cancel => exact hst.cancel
    | run =>
      refine hst.run fun fr hfr => hp.2 fr ?_
      exact (List.mem_filter.mp hfr).1

theorem Sound.reply (h : Sound f pace p) (hf : ∀ k, f k ≠ .pending) {fr : Frame ρ} (r : Reply)
    (hp : Proper f p (.reply r)) (hfs : p.frames = fr :: fs) :
    Sound f pace (p.advance (.reply r) fs (component.proceed p.state r fr)) := by
  apply h.advance
  rcases h.stage with rfl | ⟨-, hst⟩
  · cases hfs
  · rw [hfs] at hst
    simp only [Proper, hfs, List.head?_cons] at hp
    cases fr with
    | opening dest =>
      subst hp
      exact hst.opened
    | passing =>
      subst hp
      exact ⟨hst.books, hst.place⟩
    | polling =>
      rcases hp with rfl | rfl
      · exact hst.pending
      · exact hst.polled (hf _)
    | delivering =>
      obtain ⟨d, rfl⟩ := hp
      exact hst.delivered d
    | concluding =>
      subst hp
      exact hst.concluded

theorem sound (hf : ∀ k, f k ≠ .pending)
    (h : Session.Reaches component (Proper f) (Session.start { pace := pace }) p) :
    Sound f pace p :=
  h.invariant ⟨.inl rfl, .nil⟩ (fun i ht hp => ht.enter i hp)
    (fun r ht hp hfs => ht.reply hf r hp hfs) (fun _ hp _ => hp.elim)

end Sessions

structure Honoured (f : Nat → Poll) (p : Play ρ) : Prop where
  order : ∀ k v, (account p.log).delivered[k]? = some v → f k = .value v
  gapless : (account p.log).cancelled = false → (account p.log).taken =
    (account p.log).delivered.length + (account p.log).concluded.length
  holding : .polling ∈ p.frames → (account p.log).fate = .held
  balance : (account p.log).granted < UInt64.size → (account p.log).granted =
    ↑((account p.log).delivered.length + (account p.log).fate.owed) + p.state.demand.amount
  used : (account p.log).fate = .used → (account p.log).Concluded f ∨ (account p.log).cancelled
  concluded : (account p.log).concluded ≠ [] → (account p.log).fate = .used ∧
    (account p.log).Concluded f ∧ (p.state.phase = .ended ∨ .concluding ∈ p.frames)
  final : Final p.log

theorem Stage.honoured {p : Play ρ} (h : Stage f p.state p.frames (account p.log))
    (hfin : Final p.log) : Honoured f p where
  order := h.books.order
  gapless := h.books.taken
  holding hp := by
    have hm : Frame.polling ∈ busy p.frames := List.mem_filter.mpr ⟨hp, rfl⟩
    have hpl := h.place
    generalize busy p.frames = bs at hpl hm
    cases hpl with
    | polling _ ha => exact ha.fate
    | _ => simp at hm
  balance hg := h.books.balance.resolve_right fun hb => absurd hg (not_lt.mpr hb.2)
  used hu := by
    have hpl := h.place
    generalize busy p.frames = bs at hpl
    cases hpl with
    | opening dest hp ha => simp [ha.fate] at hu
    | idle hp ha => simp [ha.fate] at hu
    | waiting hp ha => simp [ha.fate] at hu
    | polling hp ha => simp [ha.fate] at hu
    | delivering hp ha => simp [ha.fate] at hu
    | concluding hp _ hc => exact .inl hc
    | cut hp _ hc hx => exact .inr hx
    | done hp _ hc => exact .inl hc
  concluded := h.used
  final := hfin

theorem honoured_start {pace : Pace} :
    Honoured f (Session.start { pace := pace } : Play ρ) where
  order _ _ hk := by cases hk
  gapless _ := rfl
  holding hp := by cases hp
  balance _ := rfl
  used hu := by cases hu
  concluded hc := absurd rfl hc
  final := .nil

/-- A driver honours demand, order and termination, whatever its stream yields and whenever, and
whatever its subscriber requests, returns and cancels, also from inside a poll or a delivery. -/
theorem stream_honoured {pace : Pace} {p : Play ρ} (hf : ∀ k, f k ≠ .pending)
    (h : Session.Reaches component (Proper f) (Session.start { pace := pace }) p) :
    Honoured f p := by
  have hs := sound hf h
  rcases hs.stage with rfl | ⟨-, hst⟩
  · exact honoured_start
  · exact hst.honoured hs.final

/-- A failure after two values. A poll is pending first, the next is requested into, the first
delivery returns nothing and the second one more unit, after which the driver yields. -/
theorem stream_honoured_requested_while_polled :
    ∃ (f : Nat → Poll) (p : Play Nat), (∀ k, f k ≠ .pending) ∧ f 3 = .value 9 ∧
      Session.Reaches component (Proper f) (Session.start { pace := ⟨2⟩ }) p ∧ p.frames = [] ∧
      (account p.log).delivered = [5, 7] ∧ (account p.log).concluded = [.failure "x"] ∧
      (account p.log).granted = 4 ∧ Honoured f p := by
  let f : Nat → Poll := fun k => [.value 5, .value 7, .failure "x", .value 9].getD k .closed
  have hf : ∀ k, f k ≠ .pending := by
    intro k
    rcases k with _ | _ | _ | _ | k <;> simp [f]
  have idle {p : Play Nat} (hl : p.log ≠ []) (hfs : p.frames = []) : Proper f p (.enter .run) :=
    ⟨hl, by simp [hfs]⟩
  have h0 : Session.Reaches component (Proper f) (Session.start { pace := ⟨2⟩ } : Play Nat) _ :=
    .refl
  have h1 := h0.turn (x := .enter (.subscribe 0)) (by rfl) rfl
  have h2 := h1.turn (x := .enter (.request .one)) (by exact List.cons_ne_nil _ _) rfl
  have h3 := h2.turn (x := .reply .done) (by rfl) rfl
  have h4 := h3.turn (x := .reply .done) (by rfl) rfl
  have h5 := h4.turn (x := .enter .run) (by exact idle (List.cons_ne_nil _ _) rfl) rfl
  have h6 := h5.turn (x := .reply (.poll .pending)) (by exact .inl rfl) rfl
  have h7 := h6.turn (x := .enter (.request .one)) (by exact List.cons_ne_nil _ _) rfl
  have h8 := h7.turn (x := .reply .done) (by rfl) rfl
  have h9 := h8.turn (x := .enter .run) (by exact idle (List.cons_ne_nil _ _) rfl) rfl
  have h10 := h9.turn (x := .enter (.request .one)) (by exact List.cons_ne_nil _ _) rfl
  have h11 := h10.turn (x := .reply .done) (by rfl) rfl
  have h12 := h11.turn (x := .reply (.poll (.value 5))) (by exact .inr rfl) rfl
  have h13 := h12.turn (x := .reply (.demand .zero)) (by exact ⟨_, rfl⟩) rfl
  have h14 := h13.turn (x := .reply (.poll (.value 7))) (by exact .inr rfl) rfl
  have h15 := h14.turn (x := .reply (.demand .one)) (by exact ⟨_, rfl⟩) rfl
  have h16 := h15.turn (x := .enter .run) (by exact idle (List.cons_ne_nil _ _) rfl) rfl
  have h17 := h16.turn (x := .reply (.poll (.failure "x"))) (by exact .inr rfl) rfl
  have h18 := h17.turn (x := .reply .done) (by rfl) rfl
  exact ⟨f, _, hf, rfl, h18, rfl, rfl, rfl, rfl, stream_honoured hf h18⟩

end Sluice.Driver
