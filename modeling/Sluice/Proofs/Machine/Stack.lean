import Sluice.Proofs.Driver.Waiting
import Sluice.Proofs.Machine.KeepsDrivers

/-!
# What lies on a task

While a driver's task is under way, what lies on its frame tells how far it has
come: the driver polls its stream, delivers, or is about to stop. Everything else
lies on frames that take any reply.
-/

namespace Sluice

/-- Two states of a driver that its frames cannot tell apart. -/
structure StreamTask.Like (x x' : StreamTask) : Prop where
  task : x'.task = x.task
  stream : x'.stream = x.stream
  phase : x'.driver.phase = x.driver.phase
  absent : x'.driver.waiter = .absent ↔ x.driver.waiter = .absent

theorem StreamTask.Like.refl (x : StreamTask) : x.Like x := ⟨rfl, rfl, rfl, .rfl⟩

namespace World

def Drives (w : World) (d t : Nat) (x : StreamTask) : Prop :=
  w.drivers[d]? = some x ∧ x.task = some t

variable {w w' : World} {d t : Nat} {x x' : StreamTask} {f : Frame} {stack rest : List Frame}

theorem getElem?_setDriver (w : World) (d : Nat) (s : Driver Outlet) (e : Nat) :
    (w.setDriver d s).drivers[e]? =
      w.drivers[e]?.map fun x => if d = e then { x with driver := s } else x := by
  rw [setDriver, Array.getElem?_modify]
  by_cases he : d = e
  · simp [he]
  · simp [he]

theorem setDriver_self {s : Driver Outlet} (hx : w.drivers[d]? = some x) :
    (w.setDriver d s).drivers[d]? = some { x with driver := s } := by
  simp [getElem?_setDriver, hx]

theorem setDriver_ne {s : Driver Outlet} {e : Nat} (he : e ≠ d) :
    (w.setDriver d s).drivers[e]? = w.drivers[e]? := by
  simp [getElem?_setDriver, Ne.symm he]

theorem drivers_self (hx : w.drivers[d]? = some x) (e : Nat) :
    w.drivers[e]? = if e = d then some x else w.drivers[e]? := by
  by_cases he : e = d
  · rw [if_pos he, he, hx]
  · rw [if_neg he]

theorem drivers_setDriver (hx : w.drivers[d]? = some x) (s : Driver Outlet) (e : Nat) :
    (w.setDriver d s).drivers[e]? =
      if e = d then some { x with driver := s } else w.drivers[e]? := by
  by_cases he : e = d
  · rw [if_pos he, he, setDriver_self hx]
  · rw [if_neg he, setDriver_ne he]

theorem setDriver_same (hx : w.drivers[d]? = some x) : w.setDriver d x.driver = w := by
  have hsame : (w.setDriver d x.driver).drivers = w.drivers := by
    apply Array.ext_getElem?
    intro e
    rw [drivers_setDriver hx, ← drivers_self hx]
  exact congrArg (fun ds => { w with drivers := ds }) hsame

theorem Drives.state_eq (h : w.Drives d t x) (h' : w.drivers[d]? = some x') : x' = x :=
  Option.some.inj (h'.symm.trans h.1)

theorem Drives.unique {t' : Nat} (h : w.Drives d t x) (h' : w.Drives d t' x') : t' = t := by
  obtain rfl := h.state_eq h'.1
  exact Option.some.inj (h'.2.symm.trans h.2)

/-- Nothing that a driver waits for is on top. -/
def Open (w : World) : List Frame → Prop
  | .task t :: _ => ∀ d, w.schedule.job? t ≠ some (.driver d)
  | .driver _ .polling :: _ => False
  | _ => True

def Polled (w : World) (d : Nat) (p : Poll) : Prop :=
  ∃ x t, w.Drives d t x ∧
    if p = .pending then w.Hears x.stream t else w.waker x.stream = none

def Paused (w : World) (t : Nat) (x : StreamTask) : Pause → Prop
  | .waiting => x.driver.waiter ≠ .absent ∧
      (x.driver.phase = .parked ∨ x.driver.phase = .polling ∧ w.Hears x.stream t)
  | .yielded => x.driver.phase = .seeking
  | .ended => x.driver.phase = .ended

def Takes (w : World) (r : Reply) : List Frame → Prop
  | .task t :: _ => ∀ d x, w.Drives d t x → ∃ p, r = .pause p ∧ w.Paused t x p
  | .driver d .polling :: _ => ∃ p, r = .poll p ∧ w.Polled d p
  | _ => True

/-- A frame of driver `d` lies on the frame of its task, while the driver is polling. -/
def Attends (w : World) (d : Nat) (absent : Bool) (rest : List Frame) : Prop :=
  ∃ t rest' x, rest = .task t :: rest' ∧ w.Drives d t x ∧ x.driver.phase = .polling ∧
    (x.driver.waiter == .absent) = absent

def Opening (w : World) (d : Nat) : Prop :=
  ∃ x, w.drivers[d]? = some x ∧ x.task = none ∧ x.driver.phase = .unstarted

def Sits (w : World) : Frame → List Frame → Prop
  | .polling p, rest => ∃ d rest', rest = .driver d .polling :: rest' ∧ w.Polled d p
  | .driver d .polling, rest => w.Attends d false rest
  | .driver d .delivering, rest => w.Attends d true rest
  | .driver d .concluding, rest => w.Attends d true rest
  | .driver d (.opening _), rest =>
    w.Open rest ∧ w.Opening d ∧ ∀ dest, Frame.driver d (.opening dest) ∉ rest
  | _, rest => w.Open rest

def Linked (w : World) : List Frame → Prop
  | [] => True
  | f :: rest => w.Sits f rest ∧ w.Linked rest

theorem open_plain (hf : f.Plain) : w.Open (f :: rest) := by
  cases f with
  | driver d f =>
    cases f with
    | polling => exact hf.elim
    | _ => trivial
  | task t => exact hf.elim
  | _ => trivial

theorem sits_plain (hf : f.Plain) : w.Sits f rest ↔ w.Open rest := by
  cases f with
  | driver d f =>
    cases f with
    | passing => exact .rfl
    | _ => exact hf.elim
  | polling p => exact hf.elim
  | task t => exact hf.elim
  | _ => exact .rfl

end World

variable {w : World} {f : Frame} {stack rest : List Frame}

/-- At most a plain frame lies on `rest`. -/
def Atop (rest stack : List Frame) : Prop := stack = rest ∨ ∃ f, f.Plain ∧ stack = f :: rest

theorem Atop.mem (h : Atop rest stack) (hf : f ∈ rest) : f ∈ stack := by
  rcases h with rfl | ⟨g, -, rfl⟩
  · exact hf
  · exact .tail _ hf

theorem Atop.mem_rest (h : Atop rest stack) (hp : ¬f.Plain) (hf : f ∈ stack) : f ∈ rest := by
  rcases h with rfl | ⟨g, hg, rfl⟩
  · exact hf
  · apply (List.mem_cons.mp hf).resolve_left
    intro heq
    subst heq
    exact hp hg

theorem Atop.linked_rest (h : Atop rest stack) (hl : w.Linked stack) : w.Linked rest := by
  rcases h with rfl | ⟨g, -, rfl⟩
  · exact hl
  · exact hl.2

theorem Atop.linked (h : Atop rest stack) (ho : w.Open rest) (hl : w.Linked rest) :
    w.Linked stack := by
  rcases h with rfl | ⟨g, hg, rfl⟩
  · exact hl
  · exact ⟨(World.sits_plain hg).mpr ho, hl⟩

theorem Atop.isOpen (h : Atop rest stack) (ho : w.Open rest) : w.Open stack := by
  rcases h with rfl | ⟨g, hg, rfl⟩
  · exact ho
  · exact World.open_plain hg

namespace World

variable {w' : World} {d t : Nat} {x x' : StreamTask}

/-- What the frames of `stack` say about drivers and tasks in `w` also holds in `w'`. -/
structure Persists (w w' : World) (stack : List Frame) : Prop where
  job : ∀ t d, Frame.task t ∈ stack → w'.schedule.job? t = some (.driver d) →
    w.schedule.job? t = some (.driver d)
  opening : ∀ d dest, Frame.driver d (.opening dest) ∈ stack → w.Opening d → w'.Opening d
  drives : ∀ d x t, w.Drives d t x → Frame.task t ∈ stack → ∃ x', w'.drivers[d]? = some x' ∧
    x.Like x' ∧ (w.Hears x.stream t → w'.Hears x.stream t) ∧
    (w.waker x.stream = none → w'.waker x.stream = none)

theorem Persists.tail (h : w.Persists w' (f :: rest)) : w.Persists w' rest :=
  ⟨fun t d ht => h.job t d (.tail _ ht), fun d dest ht => h.opening d dest (.tail _ ht),
    fun d x t hd ht => h.drives d x t hd (.tail _ ht)⟩

theorem Open.persist (ho : w.Open stack) (h : w.Persists w' stack) : w'.Open stack := by
  unfold Open at ho ⊢
  split
  · rename_i t rest
    exact fun d hd => ho d (h.job t d List.mem_cons_self hd)
  · exact ho
  · trivial

theorem Attends.persist {b : Bool} (ha : w.Attends d b rest) (h : w.Persists w' rest) :
    w'.Attends d b rest := by
  obtain ⟨t, rest', x, rfl, hd, hp, hw⟩ := ha
  obtain ⟨x', hx', hl, -⟩ := h.drives d x t hd List.mem_cons_self
  refine ⟨t, rest', x', rfl, ⟨hx', hl.task.trans hd.2⟩, hl.phase.trans hp, ?_⟩
  rw [← hw, Bool.eq_iff_iff, beq_iff_eq, beq_iff_eq]
  exact hl.absent

theorem Polled.persist {p : Poll} (hp : w.Polled d p) (ha : w.Attends d false rest)
    (h : w.Persists w' rest) : w'.Polled d p := by
  obtain ⟨x, t, hd, hcond⟩ := hp
  obtain ⟨t', rest', x', rfl, hd', -⟩ := ha
  obtain rfl := hd.unique hd'
  obtain ⟨y, hy, hl, hhear, hnone⟩ := h.drives d x t' hd List.mem_cons_self
  refine ⟨y, t', ⟨hy, hl.task.trans hd.2⟩, ?_⟩
  rw [hl.stream]
  by_cases hpend : p = .pending
  · rw [if_pos hpend] at hcond ⊢
    exact hhear hcond
  · rw [if_neg hpend] at hcond ⊢
    exact hnone hcond

theorem Linked.persist (hl : w.Linked stack) (h : w.Persists w' stack) : w'.Linked stack := by
  induction stack with
  | nil => trivial
  | cons f rest ih =>
    -- What a frame says is about the frames below it, so `h` is used for the rest of the stack.
    obtain ⟨hs, hrest⟩ := hl
    refine ⟨?_, ih hrest h.tail⟩
    by_cases hf : f.Plain
    · exact (sits_plain hf).mpr (((sits_plain hf).mp hs).persist h.tail)
    · cases f with
      | polling p =>
        obtain ⟨d, rest', rfl, hp⟩ := hs
        exact ⟨d, rest', rfl, hp.persist hrest.1 h.tail.tail⟩
      | task t => exact Open.persist hs h.tail
      | driver d f =>
        cases f with
        | opening dest =>
          exact ⟨hs.1.persist h.tail, h.opening d dest List.mem_cons_self hs.2.1, hs.2.2⟩
        | passing => exact absurd trivial hf
        | polling => exact Attends.persist hs h.tail
        | delivering => exact Attends.persist hs h.tail
        | concluding => exact Attends.persist hs h.tail
      | _ => exact absurd trivial hf

theorem Linked.opening (hl : w.Linked stack) {dest : Outlet}
    (hm : Frame.driver d (.opening dest) ∈ stack) : w.Opening d := by
  induction stack with
  | nil => simp at hm
  | cons f rest ih =>
    rcases List.mem_cons.mp hm with rfl | hm
    · exact hl.1.2.1
    · exact ih hl.2 hm

theorem Open.takes (ho : w.Open stack) (hj : ∀ d t x, w.Drives d t x →
    w.schedule.job? t = some (.driver d)) (r : Reply) : w.Takes r stack := by
  unfold Takes
  split
  · rename_i t rest
    exact fun d x hd => absurd (hj d t x hd) (ho d)
  · exact ho.elim
  · trivial

end World

namespace Machine

variable {m : Machine}

def Topped (m : Machine) : Prop :=
  match m.control with
  | .answering r => m.world.Takes r m.stack
  | .calling (.poll d) => ∃ rest, m.stack = .driver d .polling :: rest
  | .calling (.spawn d) => m.world.Open m.stack ∧
      ∃ x, m.world.drivers[d]? = some x ∧ x.task = none ∧ x.driver.phase = .seeking
  | .calling (.subscribe source _) | .calling (.attach source _) =>
    m.world.Open m.stack ∧ source.Fresh m.world
  | _ => m.world.Open m.stack

theorem topped_answering {r : Reply} (hc : m.control = .answering r) :
    m.Topped ↔ m.world.Takes r m.stack := by rw [Topped, hc]

theorem topped_poll {d : Nat} (hc : m.control = .calling (.poll d)) :
    m.Topped ↔ ∃ rest, m.stack = .driver d .polling :: rest := by rw [Topped, hc]

theorem topped_spawn {d : Nat} (hc : m.control = .calling (.spawn d)) :
    m.Topped ↔ m.world.Open m.stack ∧
      ∃ x, m.world.drivers[d]? = some x ∧ x.task = none ∧ x.driver.phase = .seeking := by
  rw [Topped, hc]

theorem topped_subscribe {source : Source} {i : Nat}
    (hc : m.control = .calling (.subscribe source i)) :
    m.Topped ↔ m.world.Open m.stack ∧ source.Fresh m.world := by rw [Topped, hc]

theorem topped_attach {source : Source} {i : Nat}
    (hc : m.control = .calling (.attach source i)) :
    m.Topped ↔ m.world.Open m.stack ∧ source.Fresh m.world := by rw [Topped, hc]

theorem fresh_of_plain {source : Source} {i : Nat} {w : World}
    (h : (Call.subscribe source i).Plain) : source.Fresh w := by
  cases hs : source.origin with
  | stream j pace => simp [Call.Plain, hs] at h
  | _ => simp [Source.Fresh, hs]

theorem Topped.of_open (ho : m.world.Open m.stack) (hj : ∀ d t x, m.world.Drives d t x →
    m.world.schedule.job? t = some (.driver d)) (hc : m.control.Plain) : m.Topped := by
  cases hk : m.control with
  | answering r => exact (topped_answering hk).mpr (ho.takes hj r)
  | calling c =>
    rw [hk] at hc
    cases c with
    | poll d => exact hc.elim
    | spawn d => exact hc.elim
    | subscribe source i => exact (topped_subscribe hk).mpr ⟨ho, fresh_of_plain (i := i) hc⟩
    | attach source i => exact (topped_attach hk).mpr ⟨ho, fresh_of_plain (i := i) hc⟩
    | _ => simpa only [Topped, hk] using ho
  | _ => simpa only [Topped, hk] using ho

theorem Topped.open_calling {c : Call} (h : m.Topped) (hc : m.control = .calling c)
    (hp : ∀ d, c ≠ .poll d) : m.world.Open m.stack := by
  unfold Topped at h
  rw [hc] at h
  cases c with
  | poll d => exact absurd rfl (hp d)
  | spawn d => exact h.1
  | subscribe source i => exact h.1
  | attach source i => exact h.1
  | _ => exact h

theorem Topped.open_idle (h : m.Topped) (hi : m.Idle) : m.world.Open m.stack := by
  obtain ⟨o, ho⟩ := hi
  unfold Topped at h
  rwa [ho] at h

end Machine
end Sluice
