import Sluice.Proofs.Machine.OutlineReplies
import Sluice.Proofs.Machine.PublisherCredit

/-!
# Sections of drivers

The unit that a driver has in hand while it polls is spent when the poll yields a value.
A driver never stops while it delivers, so that what the delivery returns finds the
subscriber that it was made for.
-/

namespace Sluice

namespace Driver

def Out.Quiet : Out Outlet → Prop
  | .handOver _ | .deliver _ _ => False
  | _ => True

inductive Sends (who : Option Outlet) : Move (Out Outlet) (Frame Outlet) → Prop
  | answer {r : Reply} : Sends who (.answer r)
  | quiet {o : Out Outlet} {f : Frame Outlet} (ho : o.Quiet) (hf : f ≠ .delivering) :
      Sends who (.call o f)
  | deliver {dest : Outlet} {v : Value} (h : who = some dest) :
      Sends who (.call (.deliver dest v) .delivering)

def taken : Move (Out Outlet) (Frame Outlet) → Nat
  | .call _ .delivering => 1
  | _ => 0

def spends? (t : Driver Outlet) : Move (Out Outlet) (Frame Outlet) → Option Nat
  | .call _ .delivering => t.credit.holder
  | _ => none

variable {s t : Driver Outlet} {mv : Move (Out Outlet) (Frame Outlet)}

theorem spends?_call (t : Driver Outlet) (o : Out Outlet) {f : Frame Outlet}
    (hf : f ≠ .delivering) : spends? t (.call o f) = none := by
  cases f with
  | delivering => exact absurd rfl hf
  | _ => rfl

theorem held_of_spends? {k : Nat} (h : spends? t mv = some k) :
    t.credit.holder = some k ∧ taken mv = 1 := by
  unfold spends? at h
  split at h
  · exact ⟨h, rfl⟩
  · cases h

theorem notify_sends (s : Driver Outlet) (who : Option Outlet) : Sends who s.notify.2 := by
  unfold notify
  split
  · exact .quiet trivial (by simp)
  · exact .answer

theorem onRequest_sends (s : Driver Outlet) (d : Demand) (who : Option Outlet) :
    Sends who (s.onRequest d).2 := by
  unfold onRequest
  split
  · exact .answer
  · exact notify_sends _ who

theorem onCancel_sends (s : Driver Outlet) (who : Option Outlet) : Sends who s.onCancel.2 := by
  unfold onCancel
  split
  · exact .answer
  · exact notify_sends _ who

theorem select_sends (s : Driver Outlet) (who : Option Outlet) : Sends who s.select.2 := by
  have h := select_selected s
  generalize s.select = r at h ⊢
  obtain ⟨t, mv⟩ := r
  cases h with
  | ended => exact .answer
  | poll => exact .quiet trivial (by simp)

theorem seek_sends (s : Driver Outlet) (who : Option Outlet) : Sends who s.seek.2 := by
  have h := seek_sought s
  generalize s.seek = r at h ⊢
  obtain ⟨t, mv⟩ := r
  cases h with
  | ended => exact .answer
  | parked => exact .answer
  | poll => exact .quiet trivial (by simp)

theorem onRun_sends (s : Driver Outlet) (who : Option Outlet) : Sends who s.onRun.2 := by
  unfold onRun
  split
  · exact .answer
  · exact .answer
  · exact seek_sends s who
  · split
    · exact seek_sends _ who
    · exact .answer
  · split
    · split
      · exact .answer
      · exact select_sends _ who
    · exact .quiet trivial (by simp)

theorem onDelivered_sends (s : Driver Outlet) (d : Demand) (who : Option Outlet) :
    Sends who (s.onDelivered d).2 := by
  simp only [onDelivered]
  split
  · exact .answer
  · exact seek_sends _ who

theorem onOpened_sends (s : Driver Outlet) (who : Option Outlet) : Sends who s.onOpened.2 := by
  unfold onOpened
  split
  · exact .answer
  · exact .quiet trivial (by simp)

theorem onPolled_sends (s : Driver Outlet) (p : Poll) :
    Sends (s.onPolled p).1.subscriber (s.onPolled p).2 := by
  cases p with
  | pending => exact .answer
  | value v =>
    simp only [onPolled]
    split
    · next hs => exact .deliver hs
    · exact .answer
  | failure e =>
    simp only [onPolled]
    split
    · exact .quiet trivial (by simp)
    · exact .answer
  | closed =>
    simp only [onPolled]
    split
    · exact .quiet trivial (by simp)
    · exact .answer

theorem onPolled_taken (p : Poll) (hp : s.phase = .polling) (hw : s.waiter ≠ .absent) :
    (s.onPolled p).1.credit.units + taken (s.onPolled p).2 ≤ s.credit.units := by
  obtain ⟨hle, hspent⟩ := onPolled_units p hp hw
  have hs := onPolled_sends s p
  generalize hr : (s.onPolled p).2 = mv at hs hspent ⊢
  cases hs with
  | answer => exact hle
  | @quiet o f _ hf =>
    cases f with
    | delivering => exact absurd rfl hf
    | _ => exact hle
  | deliver => exact hspent _ _ rfl

theorem Sends.taken_eq {who : Option Outlet} {mv : Move (Out Outlet) (Frame Outlet)}
    (h : Sends who mv) (hw : who = none) : taken mv = 0 := by
  cases h with
  | answer => rfl
  | @quiet o f _ hf =>
    cases f with
    | delivering => exact absurd rfl hf
    | _ => rfl
  | deliver hd => rw [hw] at hd; cases hd

end Driver

theorem World.SetsCredit.driver {w : World} {d : Nat} {rest : List Frame} {x : StreamTask}
    {t : Driver Outlet} (hx : w.drivers[d]? = some x)
    (hstays : t.subscriber = x.driver.subscriber ∨ t.subscriber = none ∧ t.phase = .ended)
    (hfall : .driver d .delivering ∈ rest → t.phase = .polling) :
    w.SetsCredit rest (.driver d) t.credit (w.setDriver d t) := by
  have hc := World.credit?_driver hx
  have hholder := World.holder?_of_eq hc
  have hpolling (hp : t.phase = .polling) : t.credit.holder = w.holder? (.driver d) := by
    rw [hholder]
    rcases hstays with hsame | ⟨-, he⟩
    · exact congrArg (Option.map Outlet.subscriber) hsame
    · rw [hp] at he
      cases he
  exact
    { credit := World.credit?_setDriver hx t
      subscribers := rfl
      read := fun _ => id
      holder := fun _ k hk => hholder ▸ held_of_kept (hstays.imp id And.left) hk
      unread := by simp
      fresh := fun hn => absurd (hc ▸ rfl : (w.credit? (.driver d)).isSome) hn
      polling := by
        rintro e y ⟨⟩ - hy hp
        obtain rfl := Option.some.inj ((World.setDriver_self hx).symm.trans hy)
        exact hpolling hp
      delivering := by
        rintro e ⟨⟩ hf
        exact hpolling (hfall hf) }

namespace Machine

variable {m : Machine} {i d : Nat} {rest : List Frame} {x : StreamTask} {t : Driver Outlet}
  {failed : Prop} {mv : Move (Driver.Out Outlet) (Driver.Frame Outlet)}

theorem DriverTurn.stays {s : Driver Outlet} (h : DriverTurn d s t mv) :
    t.subscriber = s.subscriber ∨ t.subscriber = none ∧ t.phase = .ended := by
  cases h with
  | keepsRoll h => exact .inl h.subscriber
  | stopped hs _ he => exact .inr ⟨hs, he⟩
  | concludes _ hkept => exact .inl hkept

theorem spent?_driver (w : World) (o : Driver.Out Outlet) (f : Driver.Frame Outlet)
    (hx : w.drivers[d]? = some x) :
    (w.setDriver d t).spent? (.driver d f) =
      (Driver.spends? t (.call o f)).map fun k => (.driver d, k) := by
  cases f with
  | delivering =>
    rw [World.spent?, World.holder?_update (World.credit?_setDriver hx t), if_pos rfl]
    rfl
  | _ => rfl

/-- A section of a driver. A delivery that is under way below it keeps it from stopping. -/
theorem Rationed.driver {a : Nat}
    {p : Driver Outlet × Move (Driver.Out Outlet) (Driver.Frame Outlet)} (h : m.Rationed failed i)
    (hl : m.Leaves i rest) (hx : m.world.drivers[d]? = some x)
    (hmv : Driver.Sends p.1.subscriber p.2)
    (hstays : p.1.subscriber = x.driver.subscriber ∨ p.1.subscriber = none ∧ p.1.phase = .ended)
    (hfall : .driver d .delivering ∈ rest → p.1.phase = .polling)
    (hinp : ∀ τ, (if τ = .driver d then a else 0) + m.world.loads i τ rest ≤ m.carried i τ)
    (hunits : x.driver.credit.holder = some i → x.driver.credit.units + a ≤ 1 →
      p.1.credit.units + Driver.taken p.2 ≤ x.driver.credit.units + a) :
    (driverSection { m with stack := rest } d p).Rationed failed i := by
  obtain ⟨t, mv⟩ := p
  dsimp only at hmv hstays hfall hunits
  have hc := World.credit?_driver hx
  have ht : m.world.SetsCredit rest (.driver d) t.credit (m.world.setDriver d t) :=
    .driver hx hstays hfall
  have hholder (k : Nat) : t.credit.holder = some k → x.driver.credit.holder = some k :=
    held_of_kept (hstays.imp id And.left)
  have hspends (k : Nat) (hk : Driver.spends? t mv = some k) : x.driver.credit.holder = some k :=
    hholder k (Driver.held_of_spends? hk).1
  have hown (k : Nat) (hk : Driver.spends? t mv = some k) :
      m.world.Known (.driver d) ∧ ∀ j, m.world.holder? (.driver d) = some j → j = k := by
    refine ⟨?_, fun j hj => ?_⟩
    · rw [World.Known, hc]
      rfl
    · rw [World.holder?_of_eq hc] at hj
      exact Option.some.inj (hj.symm.trans (hspends k hk))
  have hflow (hone : m.world.purse i (.driver d) + a ≤ 1) :
      t.credit.share i + (if Driver.spends? t mv = some i then 1 else 0) ≤
        m.world.purse i (.driver d) + a := by
    refine World.purse_flow hc hholder hspends (fun hi hle => ?_) hone
    refine (Nat.add_le_add (t.credit.share_le i) ?_).trans (hunits hi hle)
    split
    · next hsp => exact (Driver.held_of_spends? hsp).2.ge
    · exact Nat.zero_le _
  have hleft (o : Driver.Out Outlet) (f : Driver.Frame Outlet) :
      ∀ g ∈ some (Frame.driver d f), ¬g.Guarded i ∧ (m.world.setDriver d t).spent? g =
        (Driver.spends? t (.call o f)).map fun k => (.driver d, k) := by
    rintro g ⟨⟩
    exact ⟨id, spent?_driver m.world o f hx⟩
  cases hmv with
  | answer =>
    exact h.gives (g := none) hl ht (by simp) hown (.offCredit .answer (by simp)) a hinp hflow
  | @quiet o f ho hf =>
    have hoff : (driverCall d o).OffCredit := by
      cases o with
      | handOver dest => exact ho.elim
      | deliver dest v => exact ho.elim
      | _ => trivial
    exact h.gives hl ht (hleft o f) hown
      (.offCredit (.call hoff) fun _ _ _ => Driver.spends?_call t o hf) a hinp hflow
  | @deliver dest v hd =>
    have hheld : t.credit.holder = some dest.subscriber := congrArg (Option.map _) hd
    exact h.gives hl ht (hleft (.deliver dest v) .delivering) hown (.value rfl hheld) a hinp hflow

theorem Rationed.driver_stopped {k : Control} (h : m.Rationed failed i) (hl : m.Leaves i rest)
    (hx : m.world.drivers[d]? = some x) (hfall : .driver d .delivering ∉ rest)
    (hk : EndsOffCredit none k) (hload : ∀ τ, m.world.loads i τ rest ≤ m.carried i τ) :
    Rationed ⟨m.world.setDriver d x.driver.stop, rest, k⟩ failed i :=
  have ht : m.world.SetsCredit rest (.driver d) x.driver.stop.credit
      (m.world.setDriver d x.driver.stop) :=
    .driver hx (.inr ⟨rfl, rfl⟩) fun hf => absurd hf hfall
  have hgives : Gives none none k := .offCredit hk (by simp)
  h.gives hl ht (by simp) (by simp) hgives 0 (fun τ => by simpa using hload τ)
    fun _ => Nat.zero_le _

theorem Sound.polling {m' : Machine} {x' : StreamTask} (h : m'.Sound)
    (hx : m'.world.drivers[d]? = some x') (hf : .driver d .delivering ∈ m'.stack) :
    x'.driver.phase = .polling := by
  obtain ⟨y, hy, hp⟩ := h.delivering hf
  obtain rfl := Option.some.inj (hx.symm.trans hy)
  exact hp

theorem driverSection_polling
    {p : Driver Outlet × Move (Driver.Out Outlet) (Driver.Frame Outlet)}
    (hx : m.world.drivers[d]? = some x) (hm : (driverSection { m with stack := rest } d p).Sound)
    (hf : .driver d .delivering ∈ rest) : p.1.phase = .polling := by
  obtain ⟨t, mv⟩ := p
  cases mv with
  | answer r => exact hm.polling (World.setDriver_self hx) hf
  | call o f => exact hm.polling (World.setDriver_self hx) (.tail _ hf)

theorem Rationed.request_driver {link : Link} {dem : Demand} (h : m.Rationed failed i)
    (hc : m.control = .calling (.request link dem)) (ht : link.tap = .driver d)
    (hm : (m.enterDriver d (.request dem)).Sound) :
    (m.enterDriver d (.request dem)).Rationed failed i := by
  have hl := h.leaves_calling hc (by simp)
  unfold enterDriver at hm ⊢
  cases hx : m.world.drivers[d]? with
  | none => exact h.keepsCredit hl (answer_keepsCredit m _) (loads_le_calling hc)
  | some x =>
    rw [hx] at hm
    obtain ⟨a, hinp, hd⟩ := h.requested hc
    rw [ht] at hinp hd
    have hkeeps := driver_onRequest_keepsRoll d x.driver dem
    refine h.driver hl hx (x.driver.onRequest_sends dem _) (.inl hkeeps.subscriber)
      (driverSection_polling hx hm) hinp fun hi _ => ?_
    obtain rfl := hd ((World.holder?_of_eq (World.credit?_driver hx)).trans hi)
    simp only [Driver.enter]
    rw [(x.driver.onRequest_sends dem none).taken_eq rfl]
    exact x.driver.onRequest_units dem

theorem Rationed.cancel_driver {link : Link} (h : m.Rationed failed i)
    (hc : m.control = .calling (.cancel link)) (hm : (m.enterDriver d .cancel).Sound) :
    (m.enterDriver d .cancel).Rationed failed i := by
  have hl := h.leaves_calling hc (by simp)
  unfold enterDriver at hm ⊢
  cases hx : m.world.drivers[d]? with
  | none => exact h.keepsCredit hl (answer_keepsCredit m _) (loads_le_calling hc)
  | some x =>
    rw [hx] at hm
    have hkeeps := driver_onCancel_keepsRoll d x.driver
    refine h.driver (a := 0) hl hx (x.driver.onCancel_sends _) (.inl hkeeps.subscriber)
      (driverSection_polling hx hm) (fun τ => by simpa using loads_le_calling hc τ) fun _ _ => ?_
    simp only [Driver.enter]
    rw [(x.driver.onCancel_sends none).taken_eq rfl]
    exact x.driver.onCancel_units.le

theorem Rationed.run_driver (h : m.Rationed failed i) (hl : m.Leaves i m.stack)
    (hload : ∀ τ, m.world.loads i τ m.stack ≤ m.carried i τ) (hm : (m.enterDriver d .run).Sound) :
    (m.enterDriver d .run).Rationed failed i := by
  unfold enterDriver at hm ⊢
  cases hx : m.world.drivers[d]? with
  | none => exact h.keepsCredit hl (answer_keepsCredit m _) hload
  | some x =>
    rw [hx] at hm
    refine h.driver (a := 0) hl hx (x.driver.onRun_sends _) (onRun_turn d x.driver).stays
      (driverSection_polling hx hm) (fun τ => by simpa using hload τ) fun _ hone => ?_
    simp only [Driver.enter]
    rw [(x.driver.onRun_sends none).taken_eq rfl]
    exact Driver.onRun_units hone

theorem Rationed.run {u : Nat} (h : m.Rationed failed i) (hc : m.control = .calling (.run u))
    (hm : (m.run u).Sound) : (m.run u).Rationed failed i := by
  have hl := h.leaves_calling hc (by simp)
  have hcarried := loads_le_calling (i := i) hc
  unfold Machine.run at hm ⊢
  cases ht : m.world.schedule.tasks[u]? with
  | none => exact h.keepsCredit hl (answer_keepsCredit m _) hcarried
  | some task =>
    simp only [ht] at hm ⊢
    -- The frame of the task goes on the stack first.
    have h₁ : Rationed ⟨m.world, .task u :: m.stack, .calling (.run u)⟩ failed i :=
      h.keepsCredit hl (.call (.refl _) trivial trivial) hcarried
    have hl₁ := h₁.leaves_calling rfl (by simp)
    rw [hc] at hm ⊢
    cases hj : task.job with
    | driver d =>
      rw [hj] at hm
      exact h₁.run_driver hl₁ (loads_le_calling rfl) hm
    | ticker n =>
      exact h₁.keepsCredit hl₁ ((enterTicker_effect _ n _).keepsCredit trivial)
        (loads_le_calling rfl)

theorem read_dropStream {w : World} {k n : Nat} (h : (w.dropStream k).Read n) : w.Read n := by
  obtain ⟨v, hv⟩ := h
  refine ⟨v, ?_⟩
  rcases Array.mem_push.mp hv with hv | hv
  · exact hv
  · cases hv

theorem keepsCredit_dropStream (w : World) (k : Nat) : w.KeepsCredit (w.dropStream k) :=
  ⟨rfl, rfl, fun _ h => Array.mem_push_of_mem _ h⟩

theorem Rationed.opened {dest : Outlet} (h : m.Rationed failed i)
    (hs : m.stack = .driver d (.opening dest) :: rest) (hx : m.world.drivers[d]? = some x)
    (hfall : .driver d .delivering ∈ rest → x.driver.onOpened.1.phase = .polling) :
    (driverSection { m with stack := rest } d x.driver.onOpened).Rationed failed i := by
  have hstays : x.driver.onOpened.1.subscriber = x.driver.subscriber ∨
      x.driver.onOpened.1.subscriber = none ∧ x.driver.onOpened.1.phase = .ended := by
    unfold Driver.onOpened
    split
    · exact .inr ⟨rfl, rfl⟩
    · exact .inl rfl
  refine h.driver (a := 0) (h.leaves_popped hs (by simp)) hx (x.driver.onOpened_sends _) hstays
    hfall (fun τ => by simpa using loads_le_carried hs τ) fun _ _ => ?_
  rw [(x.driver.onOpened_sends none).taken_eq rfl]
  exact x.driver.onOpened_units

theorem Rationed.driver_delivered {r : Reply} (h : m.Rationed failed i)
    (hc : m.control = .answering r) (hs : m.stack = .driver d .delivering :: rest)
    (hx : m.world.drivers[d]? = some x) (hp : x.driver.phase = .polling)
    (hm : (driverSection { m with stack := rest } d (x.driver.onDelivered r.granted)).Sound) :
    (driverSection { m with stack := rest } d
      (x.driver.onDelivered r.granted)).Rationed failed i := by
  have hl := h.leaves_popped hs (by simp)
  have hholder := World.holder?_of_eq (World.credit?_driver hx)
  have hsp : m.world.spent? (.driver d .delivering) =
      x.driver.credit.holder.map fun k => (.driver d, k) := by
    rw [World.spent?, hholder]
  have hturn := (onDelivered_turn (s := x.driver) d (by simp [hp]) r.granted).stays
  have hsends := x.driver.onDelivered_sends r.granted
  have hfall := driverSection_polling hx hm
  cases hk : x.driver.credit.holder with
  | none =>
    refine h.driver (a := 0) hl hx (hsends _) hturn hfall
      (fun τ => by simpa using loads_le_carried hs τ) fun hi _ => ?_
    rw [hk] at hi
    cases hi
  | some k =>
    rw [hk] at hsp
    refine h.driver hl hx (hsends _) hturn hfall (brought_back (i := i) hc hs hsp) fun hi hone => ?_
    obtain rfl := Option.some.inj (hk.symm.trans hi)
    rw [(hsends none).taken_eq rfl]
    simp only [Frame.delivers, if_true] at hone ⊢
    exact Driver.onDelivered_units hone

theorem Rationed.proceed_driver {r : Reply} {f : Driver.Frame Outlet} (h : m.Rationed failed i)
    (hm : m.Sound) (hc : m.control = .answering r) (hs : m.stack = .driver d f :: rest)
    (hm' : (proceedDriver { m with stack := rest } d f r).Sound) :
    (proceedDriver { m with stack := rest } d f r).Rationed failed i := by
  have hl := h.leaves_popped hs (by simp)
  have hload (τ : Tap) :
      (if τ = .driver d then 0 else 0) + m.world.loads i τ rest ≤ m.carried i τ := by
    simpa using loads_le_carried hs τ
  unfold proceedDriver at hm' ⊢
  cases hx : m.world.drivers[d]? with
  | none =>
    exact h.keepsCredit hl (answer_keepsCredit { m with stack := rest } _) (loads_le_carried hs)
  | some x =>
    have hlinked := (hm.attentive (by simp [hc])).linked
    rw [hs] at hlinked
    have hattends {b : Bool} (ha : m.world.Attends d b rest) :
        x.driver.phase = .polling ∧ (x.driver.waiter == .absent) = b := by
      obtain ⟨t, rest', y, -, hy, hp, hw⟩ := ha
      obtain rfl := Option.some.inj (hx.symm.trans hy.1)
      exact ⟨hp, hw⟩
    simp only [hx] at hm' ⊢
    cases f with
    | opening dest =>
      simp only [Driver.proceed] at hm' ⊢
      cases hcan : x.driver.cancelled with
      | false =>
        rw [hcan] at hm'
        exact h.opened hs hx (driverSection_polling hx hm')
      | true =>
        rw [hcan] at hm'
        dsimp only at hm' ⊢
        have hstop : x.driver.onOpened = (x.driver.stop, .answer .done) := if_pos hcan
        rw [hstop] at hm' ⊢
        have hopened := h.opened hs hx fun hf => by
          rw [hstop]
          exact hm'.polling (World.setDriver_self hx) hf
        rw [hstop] at hopened
        exact hopened.with_world (keepsCredit_dropStream _ x.stream) fun n => read_dropStream
    | passing =>
      exact h.driver hl hx .answer (.inl rfl) (driverSection_polling hx hm') hload
        fun _ _ => Nat.le_refl _
    | polling =>
      obtain ⟨hp, hw⟩ := hattends hlinked.1
      exact h.driver hl hx (x.driver.onPolled_sends r.polled) (onPolled_turn d _ _).stays
        (driverSection_polling hx hm') hload
        fun _ _ => Driver.onPolled_taken r.polled hp (by simpa using hw)
    | delivering => exact h.driver_delivered hc hs hx (hattends hlinked.1).1 hm'
    | concluding =>
      exact h.driver hl hx .answer (.inr ⟨rfl, rfl⟩) (driverSection_polling hx hm') hload
        fun _ _ => x.driver.stop_units

theorem Rationed.end_task {u : Nat} (h : m.Rationed failed i) (hs : m.stack = .task u :: rest)
    (hm' : Sound ⟨endTask m.world u, rest, .answering .done⟩) :
    Rationed ⟨endTask m.world u, rest, .answering .done⟩ failed i := by
  have hl := h.leaves_popped hs (by simp)
  have hcarried := loads_le_carried (i := i) hs
  have hoff (k : Schedule) :
      Rationed ⟨{ m.world with schedule := k }, rest, .answering .done⟩ failed i :=
    h.keepsCredit hl (.answer ⟨rfl, rfl, fun _ => id⟩) hcarried
  simp only [endTask] at hm' ⊢
  cases ht : (m.world.schedule.stop u .ended).tasks[u]? with
  | none => exact hoff _
  | some task =>
    simp only [ht] at hm' ⊢
    unfold dropJob at hm' ⊢
    cases hj : task.job with
    | ticker n =>
      dsimp only
      split
      · exact h.keepsCredit hl (.answer ⟨rfl, rfl, fun _ => id⟩) hcarried
      · exact hoff _
    | driver d =>
      simp only [hj] at hm' ⊢
      cases hx : m.world.drivers[d]? with
      | none => exact hoff _
      | some x =>
        simp only [hx] at hm' ⊢
        have hfall : .driver d .delivering ∉ rest := fun hf => by
          have hself := World.setDriver_self (s := x.driver.stop) hx
          exact absurd (hm'.polling hself hf) (by simp [Driver.stop])
        have hstop := h.driver_stopped (k := .answering .done) hl hx hfall .answer hcarried
        exact hstop.with_world ⟨rfl, rfl, fun _ h => Array.mem_push_of_mem _ h⟩
          fun n => read_dropStream

end Machine
end Sluice
