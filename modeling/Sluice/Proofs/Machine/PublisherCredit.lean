import Sluice.Proofs.Machine.KeepsCredit

/-!
# Sections of publishers

A section of a publisher changes the credit at a tap, and may spend a unit of it in the
frame that it leaves. It keeps a machine rationed if no more comes out of it for a sink
than there was and came in.
-/

namespace Sluice

def Credit.share (c : Credit) (i : Nat) : Nat := if c.holder = some i then c.units else 0

theorem Credit.share_of_held {c : Credit} {i : Nat} (h : c.holder = some i) :
    c.share i = c.units := if_pos h

theorem Credit.share_of_not_held {c : Credit} {i : Nat} (h : c.holder ≠ some i) :
    c.share i = 0 := if_neg h

theorem Credit.share_le (c : Credit) (i : Nat) : c.share i ≤ c.units := by
  unfold share
  split <;> omega

theorem held_of_kept {o o' : Option Outlet} {k : Nat} (h : o' = o ∨ o' = none)
    (hk : o'.map (·.subscriber) = some k) : o.map (·.subscriber) = some k := by
  rcases h with rfl | rfl
  · exact hk
  · cases hk

/-- The credit at the tap `τ₀` becomes `c`, above the frames `rest`. A tap that is in use gets no
other holder, and one that is not gains nothing. -/
structure World.SetsCredit (w : World) (rest : List Frame) (τ₀ : Tap) (c : Credit) (w' : World) :
    Prop where
  credit : w'.credit? = Function.update w.credit? τ₀ (some c)
  subscribers : w'.subscribers = w.subscribers
  read : ∀ n, w.Read n → w'.Read n
  holder : w.Known τ₀ → ∀ k, c.holder = some k → w.holder? τ₀ = some k
  unread : ∀ n k, τ₀ = .sequence n → ¬w'.Read n → c.holder = some k → w.holder? τ₀ = some k
  fresh : ¬w.Known τ₀ → c.units ≤ w.units τ₀
  polling : ∀ d x, τ₀ = .driver d → w.Known τ₀ → w'.drivers[d]? = some x →
    x.driver.phase = .polling → c.holder = w.holder? τ₀
  delivering : ∀ d, τ₀ = .driver d → .driver d .delivering ∈ rest → c.holder = w.holder? τ₀

namespace World

variable {w w' : World} {i a : Nat} {τ τ₀ : Tap} {c c₀ : Credit} {rest : List Frame}
  {who : Option Nat}

theorem purse_of_eq (h : w.credit? τ = some c) : w.purse i τ = c.share i := by
  rw [purse, holder?_of_eq h, units_of_eq h, Credit.share]

namespace SetsCredit

theorem lasts (h : w.SetsCredit rest τ₀ c w') : w.Lasts w' :=
  .of_update h.read h.credit h.holder h.unread h.fresh h.polling

theorem link? (h : w.SetsCredit rest τ₀ c w') (j : Nat) : w'.link? j = w.link? j := by
  rw [World.link?, h.subscribers, World.link?]

theorem allowance (h : w.SetsCredit rest τ₀ c w') : w'.allowance i = w.allowance i := by
  rw [World.allowance, h.subscribers, World.allowance]

theorem purse (h : w.SetsCredit rest τ₀ c w') (i : Nat) (τ : Tap) :
    w'.purse i τ = if τ = τ₀ then c.share i else w.purse i τ := by
  rw [World.purse, World.holder?_update h.credit, World.units_update h.credit]
  split <;> rfl

theorem spent? (h : w.SetsCredit rest τ₀ c w') {f : Frame} (hf : f ∈ rest) :
    w'.spent? f = w.spent? f := by
  unfold World.spent?
  split
  · rfl
  · rfl
  · rfl
  · next d =>
    rw [World.holder?_update h.credit]
    split
    · next he => rw [h.delivering d he.symm hf, ← he]
    · rfl
  · rfl

end SetsCredit

theorem purse_flow (hc : w.credit? τ = some c₀)
    (hh : ∀ k, c.holder = some k → c₀.holder = some k)
    (hwho : ∀ k, who = some k → c₀.holder = some k)
    (hu : c₀.holder = some i → c₀.units + a ≤ 1 →
      c.share i + (if who = some i then 1 else 0) ≤ c₀.units + a) (hone : w.purse i τ + a ≤ 1) :
    c.share i + (if who = some i then 1 else 0) ≤ w.purse i τ + a := by
  rw [purse_of_eq hc] at hone ⊢
  by_cases hi : c₀.holder = some i
  · rw [Credit.share_of_held hi] at hone ⊢
    exact hu hi hone
  · rw [Credit.share_of_not_held fun hk => hi (hh i hk), if_neg fun hk => hi (hwho i hk)]
    exact Nat.zero_le _

end World

namespace Machine

variable {m m' : Machine} {i : Nat} {rest : List Frame} {g : Option Frame} {τ₀ : Tap} {c : Credit}
  {who : Option Nat} {failed : Prop}

/-- A section of a publisher that changes the credit at one tap, and spends a unit for `who`. All
that comes in for sink `i` there is `a`. -/
theorem Rationed.setsCredit (h : m.Rationed failed i) (hl : m.Leaves i rest)
    (ht : m.world.SetsCredit rest τ₀ c m'.world) (hs : m'.stack = g.toList ++ rest)
    (hg : ∀ f ∈ g, ¬f.Guarded i ∧ m'.world.spent? f = who.map fun j => (τ₀, j))
    (hwho : ∀ j, who = some j → m.world.Known τ₀ ∧ ∀ k, m.world.holder? τ₀ = some k → k = j)
    (ho : m'.Offers i) (htold : m'.Told i)
    (hr : ∀ link d, m'.control ≠ .calling (.request link d))
    (ha : ∀ r, m'.control = .answering r → g = none) (a : Nat)
    (hinp : ∀ τ, (if τ = τ₀ then a else 0) + m.world.loads i τ rest ≤ m.carried i τ)
    (hflow : m.world.purse i τ₀ + a ≤ 1 →
      c.share i + (if who = some i then 1 else 0) ≤ m.world.purse i τ₀ + a) :
    m'.Rationed failed i := by
  have hsec : Section i m.world rest g m' :=
    { lasts := ht.lasts
      links := fun j link _ hj => .inl (ht.link? j ▸ hj)
      stack := hs
      left := by
        intro f hf
        obtain ⟨hguard, hsp⟩ := hg f hf
        refine ⟨hguard, fun τ j hj => ?_⟩
        obtain ⟨j', hj', hpair⟩ := Option.map_eq_some_iff.mp (hsp.symm.trans hj)
        obtain ⟨rfl, rfl⟩ := Prod.mk.injEq .. ▸ hpair
        obtain ⟨hk, hown⟩ := hwho j' hj'
        exact ⟨ht.lasts.known hk, fun k hh => hown k (ht.lasts.holder _ k hk hh)⟩
      offers := ho
      told := htold }
  refine h.section hl hsec (fun f => ht.spent?) (fun link hl' => ht.link? i ▸ hl') ht.allowance.ge
    (fun link d hreq => absurd hreq (hr link d)) ha (fun τ => if τ = τ₀ then a else 0) hinp
    fun τ hone => ?_
  have hload : m'.world.loads i τ g.toList ≤ if τ = τ₀ ∧ who = some i then 1 else 0 := by
    cases g with
    | none => exact Nat.zero_le _
    | some f =>
      rw [Option.toList_some, World.loads, List.countP_singleton, (hg f rfl).2]
      split
      · next hsp =>
        obtain ⟨j, hj, hpair⟩ := Option.map_eq_some_iff.mp (of_decide_eq_true hsp)
        obtain ⟨rfl, rfl⟩ := Prod.mk.injEq .. ▸ hpair
        simp [hj]
      · exact Nat.zero_le _
  rw [ht.purse]
  by_cases hτ : τ = τ₀
  · subst hτ
    simp only [if_true, true_and] at hone hload ⊢
    have hle := hflow hone
    omega
  · simp only [hτ, if_false, false_and] at hload ⊢
    omega

/-- A section ends by giving a value to `who`, which has had a unit taken for it in the frame `g`,
or does not speak of credit at all. -/
inductive Gives (who : Option Nat) : Option Frame → Control → Prop
  | offCredit {g : Option Frame} {k : Control} (hk : EndsOffCredit g k)
      (hf : ∀ f ∈ g, f.delivers = true → who = none) : Gives who g k
  | value {f : Frame} {j : Nat} {v : Value} (hf : f.delivers = true) (hj : who = some j) :
      Gives who (some f) (.calling (.tell j (.value v)))

theorem Gives.told {w : World} {f : Frame} {k : Control} (h : Gives who (some f) k)
    (hsp : w.spent? f = who.map fun j => (τ₀, j)) : Told ⟨w, f :: rest, k⟩ i := by
  cases h with
  | offCredit hk hf =>
    refine hk.told ?_
    rintro g ⟨⟩ ⟨hd, τ, hτ⟩
    rw [hsp, hf f rfl hd] at hτ
    cases hτ
  | @value _ j v hf hj =>
    subst hj
    refine ⟨?_, ?_⟩
    · rintro ⟨v', hv⟩
      obtain ⟨rfl, -⟩ := Call.tell.inj hv
      exact ⟨f, rfl, hf, τ₀, hsp⟩
    · rintro ⟨f', ⟨⟩, -, τ, hτ⟩
      obtain ⟨-, rfl⟩ := Prod.mk.injEq .. ▸ Option.some.inj (hsp.symm.trans hτ)
      exact ⟨v, rfl⟩

theorem Rationed.gives {w' : World} {k : Control} (h : m.Rationed failed i) (hl : m.Leaves i rest)
    (ht : m.world.SetsCredit rest τ₀ c w')
    (hg : ∀ f ∈ g, ¬f.Guarded i ∧ w'.spent? f = who.map fun j => (τ₀, j))
    (hwho : ∀ j, who = some j → m.world.Known τ₀ ∧ ∀ k, m.world.holder? τ₀ = some k → k = j)
    (hk : Gives who g k) (a : Nat)
    (hinp : ∀ τ, (if τ = τ₀ then a else 0) + m.world.loads i τ rest ≤ m.carried i τ)
    (hflow : m.world.purse i τ₀ + a ≤ 1 →
      c.share i + (if who = some i then 1 else 0) ≤ m.world.purse i τ₀ + a) :
    Rationed ⟨w', g.toList ++ rest, k⟩ failed i := by
  refine h.setsCredit hl ht rfl hg hwho ?_ ?_ ?_ ?_ a hinp hflow
  · cases hk with
    | offCredit hk => exact hk.offers
    | value => trivial
  · cases g with
    | some f => exact hk.told (hg f rfl).2
    | none =>
      cases hk with
      | offCredit hk =>
        refine hk.told fun f hf hserves => hl.clear f hf ?_
        exact (World.serves_congr (ht.spent? (List.mem_of_mem_head? hf))).mp hserves
  · intro link d
    cases hk with
    | offCredit hk => exact hk.not_request link d
    | value => simp
  · intro r hr
    cases hk with
    | offCredit hk => exact hk.of_answering hr
    | value => cases hr

theorem Ordered.requested {link : Link} {d : Demand} (h : m.Ordered i)
    (hc : m.control = .calling (.request link d)) : ∃ a,
    (∀ τ, (if τ = link.tap then a else 0) + m.world.loads i τ m.stack ≤ m.carried i τ) ∧
      (m.world.holder? link.tap = some i → a = d.tally) := by
  have ho := h.offers
  rw [Offers, hc] at ho
  rcases ho with ⟨f, stack, hs⟩ | hne
  · refine ⟨d.tally, fun τ => ?_, fun _ => rfl⟩
    simp only [carried, hc, hs, true_and, eq_comm (a := τ)]
    exact Nat.le_refl _
  · refine ⟨0, fun τ => ?_, fun hi => absurd hi hne⟩
    simp only [ite_self, Nat.zero_add]
    exact loads_le_calling hc τ

end Machine
end Sluice
