import Sluice.Proofs.Machine.Credit
import Sluice.Proofs.Machine.Members
import Sluice.Proofs.Machine.Panics

/-!
# Rations

At any time a sink is worth one value to all of its publishers together: as credit, as a
request or a grant on its way to the publisher, or as a value on its way to the sink. It is
worth nothing while no pull is outstanding. A machine is rationed if this is so, and if
nobody but the sink has a say in the credit that the sink has.
-/

namespace Sluice

namespace World

variable {w w' : World} {i n d : Nat} {τ : Tap} {f : Frame} {stack : List Frame}

def Read (w : World) (n : Nat) : Prop := ∃ v, Signal.advanced n v ∈ w.trace

/-- A subscription has been made at the tap, unless none ever is. -/
def Known (w : World) : Tap → Prop
  | .inert | .custom _ => True
  | .sequence n => w.Read n
  | .subject n e => (w.credit? (.subject n e)).isSome
  | .driver d => (w.credit? (.driver d)).isSome

def Apart (w : World) (i : Nat) (τ : Tap) : Prop := w.Known τ ∧ w.holder? τ ≠ some i

/-- Whatever is in use in `w` stays in use and gets no other holder. -/
structure Lasts (w w' : World) : Prop where
  read : ∀ n, w.Read n → w'.Read n
  place : ∀ τ, (w.credit? τ).isSome → (w'.credit? τ).isSome
  holder : ∀ τ k, w.Known τ → w'.holder? τ = some k → w.holder? τ = some k
  fresh : ∀ τ, ¬w.Known τ → w'.units τ ≤ w.units τ
  unread : ∀ n k, ¬w'.Read n → w'.holder? (.sequence n) = some k → w.holder? (.sequence n) = some k
  polling : ∀ d x, (w.credit? (.driver d)).isSome → w'.drivers[d]? = some x →
    x.driver.phase = .polling → w'.holder? (.driver d) = w.holder? (.driver d)

theorem Lasts.known (h : w.Lasts w') (hk : w.Known τ) : w'.Known τ := by
  cases τ with
  | inert => trivial
  | custom n => trivial
  | sequence n => exact h.read n hk
  | subject n e => exact h.place _ hk
  | driver d => exact h.place _ hk

theorem Lasts.apart (h : w.Lasts w') (ha : w.Apart i τ) : w'.Apart i τ :=
  ⟨h.known ha.1, fun hi => ha.2 (h.holder τ i ha.1 hi)⟩

theorem holder?_congr (h : w'.credit? = w.credit?) : w'.holder? τ = w.holder? τ := by
  rw [holder?, holder?, h]

theorem units_congr (h : w'.credit? = w.credit?) : w'.units τ = w.units τ := by
  rw [units, units, h]

theorem Lasts.of_credit (hr : ∀ n, w.Read n → w'.Read n) (h : w'.credit? = w.credit?) :
    w.Lasts w' where
  read := hr
  place := fun τ => by rw [h]; exact id
  holder := fun τ k _ => by rw [holder?_congr h]; exact id
  fresh := fun τ _ => (units_congr h).le
  unread := fun n k _ => by rw [holder?_congr h]; exact id
  polling := fun d x _ _ _ => holder?_congr h

section Update

variable {c : Credit} {τ₀ : Tap}

theorem holder?_update (h : w'.credit? = Function.update w.credit? τ₀ (some c)) (τ : Tap) :
    w'.holder? τ = if τ = τ₀ then c.holder else w.holder? τ := by
  unfold holder?
  rw [h]
  by_cases hτ : τ = τ₀
  · subst hτ
    simp
  · rw [Function.update_of_ne hτ, if_neg hτ]

theorem units_update (h : w'.credit? = Function.update w.credit? τ₀ (some c)) (τ : Tap) :
    w'.units τ = if τ = τ₀ then c.units else w.units τ := by
  unfold units
  rw [h]
  by_cases hτ : τ = τ₀
  · subst hτ
    simp
  · rw [Function.update_of_ne hτ, if_neg hτ]

theorem Lasts.of_update (hr : ∀ n, w.Read n → w'.Read n)
    (h : w'.credit? = Function.update w.credit? τ₀ (some c))
    (hh : w.Known τ₀ → ∀ k, c.holder = some k → w.holder? τ₀ = some k)
    (hs : ∀ n k, τ₀ = .sequence n → ¬w'.Read n → c.holder = some k → w.holder? τ₀ = some k)
    (hu : ¬w.Known τ₀ → c.units ≤ w.units τ₀)
    (hp : ∀ d x, τ₀ = .driver d → w.Known τ₀ → w'.drivers[d]? = some x →
      x.driver.phase = .polling → c.holder = w.holder? τ₀) : w.Lasts w' where
  read := hr
  place := by
    intro τ hτ
    rw [h]
    by_cases he : τ = τ₀
    · subst he
      simp
    · rwa [Function.update_of_ne he]
  holder := by
    intro τ k hτ hk
    rw [holder?_update h] at hk
    split at hk
    · next he =>
      subst he
      exact hh hτ k hk
    · exact hk
  fresh := by
    intro τ hτ
    rw [units_update h]
    split
    · next he =>
      subst he
      exact hu hτ
    · exact Nat.le_refl _
  unread := by
    intro n k hn hk
    rw [holder?_update h] at hk
    split at hk
    · next he => exact he ▸ hs n k he.symm hn hk
    · exact hk
  polling := by
    intro d x hd hx hph
    rw [holder?_update h]
    split
    · next he =>
      subst he
      exact hp d x rfl hd hx hph
    · rfl

end Update

/-- The unit that was taken for the value under way in a frame: at which tap, and for whom. -/
def spent? (w : World) : Frame → Option (Tap × Nat)
  | .sequence n (.drawing dest) | .sequence n (.delivering dest) =>
    some (.sequence n, dest.subscriber)
  | .subject n (.sending dest e _ _ _) => some (.subject n e, dest.subscriber)
  | .driver d .delivering => (w.holder? (.driver d)).map fun i => (.driver d, i)
  | _ => none

end World

def Frame.delivers : Frame → Bool
  | sequence _ (.delivering _) | subject _ (.sending _ _ _ _ _) | driver _ .delivering => true
  | _ => false

def Frame.Guarded (i : Nat) : Frame → Prop
  | sink j .deciding => j = i
  | sequence _ (.opening _) => True
  | _ => False

namespace World

variable {w w' : World} {i : Nat} {τ : Tap} {f : Frame} {stack : List Frame}

def Serves (w : World) (i : Nat) (f : Frame) : Prop :=
  f.delivers = true ∧ ∃ τ, w.spent? f = some (τ, i)

def loads (w : World) (i : Nat) (τ : Tap) (stack : List Frame) : Nat :=
  stack.countP fun f => w.spent? f = some (τ, i)

def purse (w : World) (i : Nat) (τ : Tap) : Nat := if w.holder? τ = some i then w.units τ else 0

/-- The predicate of sink `i` runs exactly in the frames above those that give it a value. -/
def Nested (w : World) (i : Nat) : List Frame → Prop
  | [] => True
  | f :: rest => (f = .sink i .deciding ↔ ∃ g ∈ rest.head?, w.Serves i g) ∧ w.Nested i rest

theorem loads_cons (w : World) (i : Nat) (τ : Tap) (f : Frame) (stack : List Frame) :
    w.loads i τ (f :: stack) = w.loads i τ stack + w.loads i τ [f] := by
  rw [loads, loads, loads, ← List.countP_append, ← List.singleton_append, List.countP_append,
    List.countP_append, Nat.add_comm]

theorem loads_congr (h : ∀ f ∈ stack, w'.spent? f = w.spent? f) :
    w'.loads i τ stack = w.loads i τ stack := by
  apply List.countP_congr
  intro f hf
  rw [h f hf]

theorem spent?_congr (h : w'.credit? = w.credit?) : w'.spent? f = w.spent? f := by
  unfold World.spent?
  split
  · rfl
  · rfl
  · rfl
  · rw [holder?_congr h]
  · rfl

theorem purse_congr (h : w'.credit? = w.credit?) : w'.purse i τ = w.purse i τ := by
  rw [purse, purse, holder?_congr h, units_congr h]

theorem serves_congr (h : w'.spent? f = w.spent? f) : w'.Serves i f ↔ w.Serves i f := by
  rw [Serves, Serves, h]

theorem not_serves (h : w.spent? f = none) : ¬w.Serves i f := by
  rintro ⟨-, τ, hτ⟩
  rw [h] at hτ
  cases hτ

theorem Nested.congr (hn : w.Nested i stack) (h : ∀ f ∈ stack, w'.spent? f = w.spent? f) :
    w'.Nested i stack := by
  induction stack with
  | nil => trivial
  | cons f rest ih =>
    refine ⟨hn.1.trans ?_, ih hn.2 fun g hg => h g (.tail _ hg)⟩
    have hiff (g : Frame) (hg : g ∈ rest.head?) : w.Serves i g ↔ w'.Serves i g :=
      (serves_congr (h g (.tail _ (List.mem_of_mem_head? hg)))).symm
    constructor
    · rintro ⟨g, hg, hs⟩
      exact ⟨g, hg, (hiff g hg).mp hs⟩
    · rintro ⟨g, hg, hs⟩
      exact ⟨g, hg, (hiff g hg).mpr hs⟩

end World

def Subscriber.link? : Subscriber → Option Link
  | sink s => s.lifecycle.link?
  | assign s _ => s.lifecycle.link?
  | custom => none

def Sink.allowance (s : Sink Link) : Nat :=
  match s.lifecycle with
  | .awaiting => 0
  | .subscribed _ => if s.pending then 1 else 0
  | .terminal => 1

theorem Sink.allowance_le (s : Sink Link) : s.allowance ≤ 1 := by
  unfold Sink.allowance
  split
  · omega
  · split <;> omega
  · omega

namespace World

def SinkAt (w : World) (i : Nat) : Prop := ∀ sub, w.subscribers[i]? = some sub → ∃ s, sub = .sink s

def link? (w : World) (i : Nat) : Option Link := w.subscribers[i]?.bind Subscriber.link?

def allowance (w : World) (i : Nat) : Nat :=
  match w.subscribers[i]? with
  | some (.sink s) => s.allowance
  | _ => 0

theorem allowance_le (w : World) (i : Nat) : w.allowance i ≤ 1 := by
  unfold allowance
  split
  · exact Sink.allowance_le _
  · omega

end World

namespace Machine

variable {m m' : Machine} {i : Nat} {τ : Tap} {rest : List Frame} {g : Option Frame}
  {failed : Prop}

/-- The units of sink `i` that are on their way at a tap. A delivery that returns is worth what it
returns, and a request of the sink what it asks for. -/
def carried (m : Machine) (i : Nat) (τ : Tap) : Nat :=
  match m.control, m.stack with
  | .answering r, f :: rest =>
    if f.delivers = true ∧ m.world.spent? f = some (τ, i) then
      r.granted.tally + m.world.loads i τ rest
    else m.world.loads i τ (f :: rest)
  | .calling (.request link d), .sink j f :: rest =>
    (if j = i ∧ link.tap = τ then d.tally else 0) + m.world.loads i τ (.sink j f :: rest)
  | _, stack => m.world.loads i τ stack

def worth (m : Machine) (i : Nat) (τ : Tap) : Nat := m.world.purse i τ + m.carried i τ

/-- Nobody but sink `i` is about to use its subscription, and no sequence is to be read twice. -/
def Offers (m : Machine) (i : Nat) : Prop :=
  match m.control with
  | .calling (.tell j (.subscription link)) => j ≠ i → m.world.Apart i link.tap
  | .calling (.request link _) =>
    (∃ f rest, m.stack = .sink i f :: rest) ∨ m.world.holder? link.tap ≠ some i
  | .calling (.subscribe source _) | .calling (.attach source _) =>
    ∀ n, source.origin = .sequence n → ¬m.world.Read n
  | _ => True

def Told (m : Machine) (i : Nat) : Prop :=
  match m.control with
  | .calling c => (∃ v, c = .tell i (.value v)) ↔ ∃ f ∈ m.stack.head?, m.world.Serves i f
  | .idle _ => ∀ f ∈ m.stack.head?, ¬m.world.Serves i f
  | _ => True

structure Ordered (m : Machine) (i : Nat) : Prop where
  fresh : ∀ n, ¬m.world.Read n →
    m.world.holder? (.sequence n) = none ∧ m.world.units (.sequence n) = 0
  kept : ∀ f ∈ m.stack, ∀ τ j, m.world.spent? f = some (τ, j) →
    m.world.Known τ ∧ ∀ k, m.world.holder? τ = some k → k = j
  links : ∀ j link, j ≠ i → m.world.link? j = some link → m.world.Apart i link.tap
  offers : m.Offers i
  nested : m.world.Nested i m.stack
  told : m.Told i
  settled : ∀ n dest, .sequence n (.opening dest) ∉ m.stack

/-- Once the predicate of sink `i` has `failed`, the sink is worth nothing, and it keeps the
allowance that it had for the value it failed on. -/
structure Rationed (m : Machine) (failed : Prop) (i : Nat) : Prop extends m.Ordered i where
  ration : ∃ τ₀, (∀ τ, τ ≠ τ₀ → m.worth i τ = 0) ∧ m.worth i τ₀ ≤ m.world.allowance i ∧
    ∀ link, m.world.link? i = some link → link.tap = τ₀
  spent : failed → m.world.allowance i = 1 ∧ ∀ τ, m.worth i τ = 0

theorem Rationed.worth_le (h : m.Rationed failed i) (τ : Tap) : m.worth i τ ≤ 1 := by
  obtain ⟨τ₀, hz, hle, -⟩ := h.ration
  by_cases hτ : τ = τ₀
  · subst hτ
    exact hle.trans (m.world.allowance_le i)
  · rw [hz τ hτ]
    omega

theorem attends_of_linked {w : World} {d : Nat} {stack : List Frame} (h : w.Linked stack)
    (hf : Frame.driver d .delivering ∈ stack) : ∃ rest, w.Attends d true rest := by
  induction stack with
  | nil => simp at hf
  | cons g stack ih =>
    rcases List.mem_cons.mp hf with rfl | hf
    · exact ⟨stack, h.1⟩
    · exact ih h.2 hf

theorem Sound.delivering (h : m.Sound) {d : Nat} (hf : Frame.driver d .delivering ∈ m.stack) :
    ∃ x, m.world.drivers[d]? = some x ∧ x.driver.phase = .polling := by
  obtain ⟨rest, t, rest', x, -, hx, hp, -⟩ : ∃ rest, m.world.Attends d true rest := by
    rcases h with h | ⟨m₀, e, t, x, rest, hfalls⟩
    · exact attends_of_linked h.linked hf
    · have hl := hfalls.onTask.linked
      rw [← hfalls.world] at hl
      apply attends_of_linked hl
      rcases hfalls.stack with hs | hs
      · simpa [hs] using hf
      · simpa [hs] using hf
  exact ⟨x, hx.1, hp⟩

structure Leaves (m : Machine) (i : Nat) (rest : List Frame) : Prop where
  mem : ∀ f ∈ rest, f ∈ m.stack
  nested : m.world.Nested i rest
  clear : ∀ f ∈ rest.head?, ¬m.world.Serves i f

/-- `m'` comes of a section that does nothing on behalf of sink `i`. It began in the world `w`,
above `rest`, and may have left the frame `g`. -/
structure Section (i : Nat) (w : World) (rest : List Frame) (g : Option Frame) (m' : Machine) :
    Prop where
  lasts : w.Lasts m'.world
  links : ∀ j link, j ≠ i → m'.world.link? j = some link →
    w.link? j = some link ∨ m'.world.Apart i link.tap
  stack : m'.stack = g.toList ++ rest
  left : ∀ f ∈ g, ¬f.Guarded i ∧ ∀ τ j, m'.world.spent? f = some (τ, j) →
    m'.world.Known τ ∧ ∀ k, m'.world.holder? τ = some k → k = j
  offers : m'.Offers i
  told : m'.Told i

theorem Section.carried (h : Section i m.world rest g m')
    (hr : ∀ link d, m'.control = .calling (.request link d) →
      ∀ f stack, m'.stack ≠ .sink i f :: stack)
    (ha : ∀ r, m'.control = .answering r → g = none)
    (hc : ∀ f ∈ rest.head?, ¬m'.world.Serves i f) (τ : Tap) :
    m'.carried i τ = m'.world.loads i τ m'.stack := by
  unfold Machine.carried
  split
  · next r f stack hr hs =>
    obtain rfl := ha r hr
    have hrest : rest = f :: stack := h.stack.symm.trans hs
    refine (if_neg fun hf => hc f ?_ ⟨hf.1, τ, hf.2⟩).trans (congrArg _ hs.symm)
    rw [hrest]
    rfl
  · next link d j f stack hreq hs =>
    have hj : ¬(j = i ∧ link.tap = τ) := by
      rintro ⟨rfl, -⟩
      exact hr link d hreq f stack hs
    rw [if_neg hj, Nat.zero_add, hs]
  · rfl

theorem Section.ordered (h : m.Ordered i) (hl : m.Leaves i rest)
    (hs : Section i m.world rest g m')
    (heq : ∀ f ∈ rest, m'.world.spent? f = m.world.spent? f) : m'.Ordered i := by
  have hnested := hl.nested.congr heq
  refine ⟨?_, ?_, ?_, hs.offers, ?_, hs.told, ?_⟩
  · intro n hn
    have hold : ¬m.world.Read n := fun hr => hn (hs.lasts.read n hr)
    obtain ⟨hnone, hzero⟩ := h.fresh n hold
    refine ⟨?_, ?_⟩
    · apply Option.eq_none_iff_forall_ne_some.mpr
      intro k hk
      rw [hs.lasts.unread n k hn hk] at hnone
      cases hnone
    · have hle := hs.lasts.fresh (.sequence n) hold
      omega
  · intro f hf τ j hsp
    rw [hs.stack] at hf
    rcases List.mem_append.mp hf with hf | hf
    · exact (hs.left f (Option.mem_toList.mp hf)).2 τ j hsp
    · rw [heq f hf] at hsp
      obtain ⟨hk, hj⟩ := h.kept f (hl.mem f hf) τ j hsp
      exact ⟨hs.lasts.known hk, fun k hh => hj k (hs.lasts.holder τ k hk hh)⟩
  · intro j link hj hlink
    rcases hs.links j link hj hlink with hold | hnew
    · exact hs.lasts.apart (h.links j link hj hold)
    · exact hnew
  · rw [hs.stack]
    cases g with
    | none => exact hnested
    | some g =>
      refine ⟨⟨fun he => absurd (he ▸ rfl) (hs.left g rfl).1, ?_⟩, hnested⟩
      rintro ⟨f, hf, hserves⟩
      have hmem := List.mem_of_mem_head? hf
      exact absurd ((World.serves_congr (heq f hmem)).mp hserves) (hl.clear f hf)
  · intro n dest hf
    rw [hs.stack] at hf
    rcases List.mem_append.mp hf with hf | hf
    · exact (hs.left _ (Option.mem_toList.mp hf)).1 trivial
    · exact h.settled n dest (hl.mem _ hf)

theorem Rationed.of_worth_le (h : m.Rationed failed i) (ho : m'.Ordered i)
    (hworth : ∀ τ, m'.worth i τ ≤ m.worth i τ)
    (hlink : ∀ link, m'.world.link? i = some link → m.world.link? i = some link)
    (hallow : m.world.allowance i ≤ m'.world.allowance i ∨ ¬failed ∧ ∀ τ, m'.worth i τ = 0) :
    m'.Rationed failed i := by
  obtain ⟨τ₀, hz, hle, htap⟩ := h.ration
  refine ⟨ho, ⟨τ₀, fun τ hτ => Nat.le_zero.mp (hz τ hτ ▸ hworth τ), ?_,
    fun link hl => htap link (hlink link hl)⟩, fun hf => ?_⟩
  · rcases hallow with hallow | ⟨-, hzero⟩
    · exact ((hworth τ₀).trans hle).trans hallow
    · rw [hzero]
      exact Nat.zero_le _
  · obtain ⟨hone, hzero⟩ := h.spent hf
    rcases hallow with hallow | ⟨hnot, -⟩
    · exact ⟨(m'.world.allowance_le i).antisymm (hone ▸ hallow),
        fun τ => Nat.le_zero.mp (hzero τ ▸ hworth τ)⟩
    · exact absurd hf hnot

theorem Rationed.section (h : m.Rationed failed i) (hl : m.Leaves i rest)
    (hs : Section i m.world rest g m')
    (heq : ∀ f ∈ rest, m'.world.spent? f = m.world.spent? f)
    (hlink : ∀ link, m'.world.link? i = some link → m.world.link? i = some link)
    (hallow : m.world.allowance i ≤ m'.world.allowance i)
    (hr : ∀ link d, m'.control = .calling (.request link d) →
      ∀ f stack, m'.stack ≠ .sink i f :: stack)
    (ha : ∀ r, m'.control = .answering r → g = none) (inp : Tap → Nat)
    (hinp : ∀ τ, inp τ + m.world.loads i τ rest ≤ m.carried i τ)
    (hflow : ∀ τ, m.world.purse i τ + inp τ ≤ 1 →
      m'.world.purse i τ + m'.world.loads i τ g.toList ≤ m.world.purse i τ + inp τ) :
    m'.Rationed failed i := by
  have hclear (f : Frame) (hf : f ∈ rest.head?) : ¬m'.world.Serves i f := fun hserves =>
    hl.clear f hf ((World.serves_congr (heq f (List.mem_of_mem_head? hf))).mp hserves)
  have hworth (τ : Tap) : m'.worth i τ ≤ m.worth i τ := by
    have hone := h.worth_le τ
    have hin := hinp τ
    have hfl := hflow τ
    have hloads : m'.world.loads i τ rest = m.world.loads i τ rest := World.loads_congr heq
    have hsplit : m'.world.loads i τ m'.stack =
        m'.world.loads i τ g.toList + m'.world.loads i τ rest := by
      rw [hs.stack, World.loads, List.countP_append]
      rfl
    unfold worth at hone ⊢
    rw [hs.carried hr ha hclear, hsplit, hloads]
    omega
  exact h.of_worth_le (hs.ordered h.toOrdered hl heq) hworth hlink (.inl hallow)

theorem Ordered.leaves_calling {c : Call} (h : m.Ordered i) (hc : m.control = .calling c)
    (hne : ∀ v, c ≠ .tell i (.value v)) : m.Leaves i m.stack := by
  refine ⟨fun f hf => hf, h.nested, fun f hf hs => ?_⟩
  have ht := h.told
  rw [Told, hc] at ht
  obtain ⟨v, hv⟩ := ht.mpr ⟨f, hf, hs⟩
  exact hne v hv

theorem Ordered.leaves_idle (h : m.Ordered i) (hi : m.Idle) : m.Leaves i m.stack := by
  obtain ⟨o, ho⟩ := hi
  refine ⟨fun f hf => hf, h.nested, fun f hf => ?_⟩
  have ht := h.told
  rw [Told, ho] at ht
  exact ht f hf

theorem Ordered.leaves_popped {f : Frame} (h : m.Ordered i) (hs : m.stack = f :: rest)
    (hf : f ≠ .sink i .deciding) : m.Leaves i rest := by
  have hn := h.nested
  rw [hs] at hn
  refine ⟨fun g hg => hs ▸ List.mem_cons_of_mem f hg, hn.2, fun g hg hserves => ?_⟩
  exact hf (hn.1.mpr ⟨g, hg, hserves⟩)

def brought (m : Machine) (i : Nat) (f : Frame) (r : Reply) (τ : Tap) : Nat :=
  if m.world.spent? f = some (τ, i) then if f.delivers = true then r.granted.tally else 1 else 0

theorem carried_answering {r : Reply} {f : Frame} (hc : m.control = .answering r)
    (hs : m.stack = f :: rest) (τ : Tap) :
    m.brought i f r τ + m.world.loads i τ rest = m.carried i τ := by
  have hcons := m.world.loads_cons i τ f rest
  have hone : m.world.loads i τ [f] = if m.world.spent? f = some (τ, i) then 1 else 0 := by
    simp [World.loads, List.countP_cons]
  rw [carried, hc, hs, brought]
  by_cases hsp : m.world.spent? f = some (τ, i)
  · rw [if_pos hsp] at hone
    by_cases hd : f.delivers = true
    · simp [hsp, hd]
    · simp only [hsp, hd, if_true, if_false, false_and, Bool.false_eq_true]
      omega
  · rw [if_neg hsp] at hone
    simp only [hsp, and_false, if_false]
    omega

theorem brought_back {r : Reply} {f : Frame} {τ₁ : Tap} {j : Nat} (hc : m.control = .answering r)
    (hs : m.stack = f :: rest) (hsp : m.world.spent? f = some (τ₁, j)) (τ : Tap) :
    (if τ = τ₁ then if j = i then if f.delivers = true then r.granted.tally else 1 else 0 else 0) +
      m.world.loads i τ rest ≤ m.carried i τ := by
  rw [← carried_answering hc hs τ, brought, hsp]
  by_cases hτ : τ = τ₁
  · subst hτ
    simp
  · simp [hτ, Ne.symm hτ]

theorem loads_le_carried {f : Frame} (hs : m.stack = f :: rest) (τ : Tap) :
    m.world.loads i τ rest ≤ m.carried i τ := by
  have hcons := m.world.loads_cons i τ f rest
  unfold carried
  split
  · next r g stack _ hr =>
    obtain ⟨rfl, rfl⟩ := List.cons.inj (hs.symm.trans hr)
    split <;> omega
  · next link d j g stack _ hr =>
    obtain ⟨rfl, rfl⟩ := List.cons.inj (hs.symm.trans hr)
    omega
  · rw [hs]
    omega

theorem loads_le_calling {c : Call} (hc : m.control = .calling c) (τ : Tap) :
    m.world.loads i τ m.stack ≤ m.carried i τ := by
  unfold carried
  split
  · next r f stack hr _ => simp [hc] at hr
  · next link d j f stack _ hs => rw [hs]; omega
  · exact Nat.le_refl _

theorem loads_le_idle (hi : m.Idle) (τ : Tap) : m.world.loads i τ m.stack ≤ m.carried i τ := by
  obtain ⟨o, ho⟩ := hi
  unfold carried
  split
  · next r f stack hr _ => simp [ho] at hr
  · next link d j f stack hr _ => simp [ho] at hr
  · exact Nat.le_refl _

theorem Rationed.steady (h : m.Rationed failed i) (hl : m.Leaves i rest)
    (hcredit : m'.world.credit? = m.world.credit?) (hread : ∀ n, m.world.Read n → m'.world.Read n)
    (hlinks : ∀ j link, j ≠ i → m'.world.link? j = some link →
      m.world.link? j = some link ∨ m'.world.Apart i link.tap)
    (hlink : ∀ link, m'.world.link? i = some link → m.world.link? i = some link)
    (hallow : m.world.allowance i ≤ m'.world.allowance i) (hs : m'.stack = g.toList ++ rest)
    (hg : ∀ f ∈ g, ¬f.Guarded i ∧ m'.world.spent? f = none) (ho : m'.Offers i)
    (ht : m'.Told i)
    (hr : ∀ link d, m'.control = .calling (.request link d) →
      ∀ f stack, m'.stack ≠ .sink i f :: stack)
    (ha : ∀ r, m'.control = .answering r → g = none)
    (hc : ∀ τ, m.world.loads i τ rest ≤ m.carried i τ) : m'.Rationed failed i := by
  have hsec : Section i m.world rest g m' :=
    { lasts := .of_credit hread hcredit
      links := hlinks
      stack := hs
      left := fun f hf => ⟨(hg f hf).1, fun τ j hsp => by simp [(hg f hf).2] at hsp⟩
      offers := ho
      told := ht }
  refine h.section hl hsec (fun f _ => World.spent?_congr hcredit) hlink hallow hr ha (fun _ => 0)
    (fun τ => by rw [Nat.zero_add]; exact hc τ) fun τ _ => ?_
  have hload : m'.world.loads i τ g.toList = 0 := by
    apply List.countP_eq_zero.mpr
    intro f hf
    simp [(hg f (Option.mem_toList.mp hf)).2]
  rw [hload, World.purse_congr hcredit]

end Machine
end Sluice
