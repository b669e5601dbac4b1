import Sluice.Proofs.Machine.SequenceCredit
import Sluice.Proofs.Subject

/-!
# Sections of subjects

A subject takes a unit from each entry that it delivers to, and gives back what the
delivery returns to that entry alone. An entry that is cancelled or completed has no
credit any more.
-/

namespace Sluice

namespace Subject

def Frame.spends? : Frame Outlet → Option (Nat × Nat)
  | .sending dest e _ _ _ => some (e, dest.subscriber)
  | _ => none

inductive Quiet : Move (Out Outlet) (Frame Outlet) → Prop
  | answer {r : Reply} : Quiet (.answer r)
  | conclude {dest : Outlet} {c : Ending} {f : Frame Outlet} (hf : f.spends? = none) :
      Quiet (.call (.conclude dest c) f)

inductive Sends (who : Option Outlet) (e : Nat) : Move (Out Outlet) (Frame Outlet) → Prop
  | quiet {mv : Move (Out Outlet) (Frame Outlet)} (h : Quiet mv) : Sends who e mv
  | deliver {dest : Outlet} {v : Value} {ws : List Nat} {sent : Nat} (h : who = some dest) :
      Sends who e (.call (.deliver dest v) (.sending dest e v ws sent))

def taken : Move (Out Outlet) (Frame Outlet) → Nat
  | .call _ (.sending _ _ _ _ _) => 1
  | _ => 0

def spends? : Move (Out Outlet) (Frame Outlet) → Option Nat
  | .call _ f => f.spends?.map (·.2)
  | .answer _ => none

theorem taken_of_spends? {mv : Move (Out Outlet) (Frame Outlet)} {k : Nat}
    (h : spends? mv = some k) : taken mv = 1 := by
  cases mv with
  | answer r => cases h
  | call o f =>
    cases f with
    | sending dest e v ws sent => rfl
    | _ => cases h

theorem Sends.held {x : Entry Outlet} {e k : Nat} {mv : Move (Out Outlet) (Frame Outlet)}
    (h : Sends x.subscriber e mv) (hk : spends? mv = some k) : x.held = some k := by
  cases h with
  | quiet hq =>
    cases hq with
    | answer => cases hk
    | conclude hf =>
      rw [spends?, hf] at hk
      cases hk
  | deliver hd => exact (congrArg (Option.map Outlet.subscriber) hd).trans hk

end Subject

theorem World.spent?_subject (w : World) (n : Nat) (f : Subject.Frame Outlet) :
    w.spent? (.subject n f) = f.spends?.map fun p => (.subject n p.1, p.2) := by
  cases f <;> rfl

theorem World.SetsCredit.entry {w : World} {n e : Nat} {rest : List Frame} {s t : Subject Outlet}
    {x y : Subject.Entry Outlet} (hs : w.subjects[n]? = some s) (hx : s.entries[e]? = some x)
    (ht : t.entries = s.entries.setIfInBounds e y)
    (hheld : y.subscriber = x.subscriber ∨ y.subscriber = none) :
    w.SetsCredit rest (.subject n e) y.credit (w.setSubject n t) :=
  have hc := World.credit?_subject hs hx
  { credit := World.credit?_setEntry hs hx ht
    subscribers := rfl
    read := fun _ => id
    holder := fun _ k hk => World.holder?_of_eq hc ▸ held_of_kept hheld hk
    unread := by simp
    fresh := fun hn => absurd (hc ▸ rfl : (w.credit? (.subject n e)).isSome) hn
    polling := by simp
    delivering := by simp }

namespace Machine

variable {m : Machine} {i n e : Nat} {rest : List Frame} {s t : Subject Outlet} {failed : Prop}
  {x y : Subject.Entry Outlet} {mv : Move (Subject.Out Outlet) (Subject.Frame Outlet)}

theorem known_entry {w : World} (hs : w.subjects[n]? = some s) (hx : s.entries[e]? = some x) :
    w.Known (.subject n e) := by
  rw [World.Known, World.credit?_subject hs hx]
  rfl

theorem Rationed.entries_kept (h : m.Rationed failed i) (hl : m.Leaves i rest)
    (hs : m.world.subjects[n]? = some s) (ht : t.entries = s.entries) (hmv : Subject.Quiet mv)
    (hc : ∀ τ, m.world.loads i τ rest ≤ m.carried i τ) :
    (subjectSection { m with stack := rest } n (t, mv)).Rationed failed i := by
  have hw : m.world.KeepsCredit (m.world.setSubject n t) :=
    ⟨rfl, World.credit?_setSubject hs ht, fun _ => id⟩
  cases hmv with
  | answer => exact h.of_world (g := none) hl hw (by simp) .answer hc
  | @conclude dest c f hf =>
    refine h.of_world (g := some (.subject n f)) hl hw ?_ (.call trivial) hc
    rintro g ⟨⟩
    exact ⟨id, by rw [World.spent?_subject, hf, Option.map_none]⟩

theorem Rationed.entry {a : Nat} (h : m.Rationed failed i) (hl : m.Leaves i rest)
    (hs : m.world.subjects[n]? = some s) (hx : s.entries[e]? = some x)
    (ht : t.entries = s.entries.setIfInBounds e y) (hmv : Subject.Sends x.subscriber e mv)
    (hheld : y.subscriber = x.subscriber ∨ y.subscriber = none)
    (hinp : ∀ τ, (if τ = .subject n e then a else 0) + m.world.loads i τ rest ≤ m.carried i τ)
    (hunits : x.held = some i → x.demand.tally + a ≤ 1 →
      y.credit.share i + Subject.taken mv ≤ x.demand.tally + a) :
    (subjectSection { m with stack := rest } n (t, mv)).Rationed failed i := by
  have hc := World.credit?_subject hs hx
  have hsets : m.world.SetsCredit rest (.subject n e) y.credit (m.world.setSubject n t) :=
    .entry hs hx ht hheld
  have hown (k : Nat) (hk : Subject.spends? mv = some k) :
      m.world.Known (.subject n e) ∧ ∀ j, m.world.holder? (.subject n e) = some j → j = k := by
    refine ⟨known_entry hs hx, fun j hj => ?_⟩
    rw [World.holder?_of_eq hc] at hj
    exact Option.some.inj (hj.symm.trans (hmv.held hk))
  have hflow (hone : m.world.purse i (.subject n e) + a ≤ 1) :
      y.credit.share i + (if Subject.spends? mv = some i then 1 else 0) ≤
        m.world.purse i (.subject n e) + a := by
    refine World.purse_flow hc (fun k => held_of_kept hheld) (fun k => hmv.held) (fun hi hle => ?_)
      hone
    refine (Nat.add_le_add_left ?_ _).trans (hunits hi hle)
    split
    · next hsp => exact (Subject.taken_of_spends? hsp).ge
    · exact Nat.zero_le _
  cases hmv with
  | quiet hq =>
    cases hq with
    | answer =>
      exact h.gives (g := none) hl hsets (by simp) hown (.offCredit .answer (by simp)) a hinp hflow
    | @conclude dest c f hf =>
      have hnone : Subject.spends? (.call (.conclude dest c) f) = none := by
        rw [Subject.spends?, hf, Option.map_none]
      refine h.gives (g := some (.subject n f)) hl hsets ?_ hown
        (.offCredit (.call trivial) fun _ _ _ => hnone) a hinp hflow
      rintro g ⟨⟩
      exact ⟨id, by rw [World.spent?_subject, hf, hnone, Option.map_none, Option.map_none]⟩
  | @deliver dest v ws sent hd =>
    refine h.gives (g := some (.subject n (.sending dest e v ws sent))) hl hsets ?_ hown
      (.value rfl rfl) a hinp hflow
    rintro g ⟨⟩
    exact ⟨id, rfl⟩

theorem Rationed.broadcast {v : Value} {k : Nat} {l : List Nat} (h : m.Rationed failed i)
    (hl : m.Leaves i rest) (hs : m.world.subjects[n]? = some s)
    (hc : ∀ τ, m.world.loads i τ rest ≤ m.carried i τ) :
    (subjectSection { m with stack := rest } n (s.broadcast v k l)).Rationed failed i := by
  have hb := Subject.broadcasts s v k l
  generalize s.broadcast v k l = p at hb ⊢
  obtain ⟨t, mv⟩ := p
  dsimp only at hb
  cases hb with
  | exhausted => exact h.entries_kept hl hs rfl .answer hc
  | @deliver passed ws e dest d left _ _ hx hd =>
    refine h.entry (a := 0) hl hs hx rfl (.deliver rfl) (.inl rfl) (fun τ => by simpa using hc τ) ?_
    intro hi hone
    have hleft : (Subject.Entry.mk (some dest) left).credit.holder = some i := hi
    rw [Credit.share_of_held hleft]
    exact Demand.tally_takeOne? hd hone

theorem Rationed.conclude_all {c : Ending} {ws : List Nat} (h : m.Rationed failed i)
    (hl : m.Leaves i rest) (hs : m.world.subjects[n]? = some s) (ht : t.entries = s.entries)
    (hc : ∀ τ, m.world.loads i τ rest ≤ m.carried i τ) :
    (subjectSection { m with stack := rest } n (t.concludeAll c ws)).Rationed failed i := by
  have hb := Subject.concludes t c ws
  generalize t.concludeAll c ws = p at hb ⊢
  obtain ⟨u, mv⟩ := p
  dsimp only at hb
  cases hb with
  | exhausted => exact h.entries_kept hl hs ht .answer hc
  | @conclude passed ws e dest d _ _ hx =>
    rw [ht] at hx
    refine h.entry (a := 0) (y := ⟨none, d⟩) hl hs hx ?_ (.quiet (.conclude rfl)) (.inr rfl)
      (fun τ => by simpa using hc τ) fun _ _ => Nat.zero_le _
    rw [← ht]
    rfl

theorem Rationed.request_subject {link : Link} {d : Demand} (h : m.Rationed failed i)
    (hc : m.control = .calling (.request link d)) (ht : link.tap = .subject n e) :
    (m.enterSubject n (.request e d)).Rationed failed i := by
  have hl := h.leaves_calling hc (by simp)
  have hload := loads_le_calling (i := i) hc
  unfold enterSubject
  split
  · next s hs =>
    simp only [Subject.enter, Subject.onRequest]
    split
    · next x hx =>
      split
      · obtain ⟨a, hinp, hd⟩ := h.requested hc
        rw [ht] at hinp hd
        refine h.entry hl hs hx rfl (.quiet .answer) (.inl rfl) hinp fun hi _ => ?_
        obtain rfl := hd ((World.holder?_of_eq (World.credit?_subject hs hx)).trans hi)
        exact (Credit.share_le _ i).trans (Demand.tally_add_le x.demand d)
      · exact h.entries_kept hl hs rfl .answer hload
    · exact h.entries_kept hl hs rfl .answer hload
  · exact h.keepsCredit hl (answer_keepsCredit m _) hload

theorem Rationed.cancel_subject {link : Link} (h : m.Rationed failed i)
    (hc : m.control = .calling (.cancel link)) :
    (m.enterSubject n (.cancel e)).Rationed failed i := by
  have hl := h.leaves_calling hc (by simp)
  have hload := loads_le_calling (i := i) hc
  unfold enterSubject
  split
  · next s hs =>
    simp only [Subject.enter, Subject.onCancel]
    split
    · next x hx =>
      split
      · exact h.entry (a := 0) hl hs hx rfl (.quiet .answer) (.inr rfl)
          (fun τ => by simpa using hload τ) fun _ _ => Nat.zero_le _
      · exact h.entries_kept hl hs rfl .answer hload
    · exact h.entries_kept hl hs rfl .answer hload
  · exact h.keepsCredit hl (answer_keepsCredit m _) hload

theorem Rationed.send {v : Value} (h : m.Rationed failed i)
    (hc : m.control = .calling (.send n v)) :
    (m.enterSubject n (.send v)).Rationed failed i := by
  have hl := h.leaves_calling hc (by simp)
  have hload := loads_le_calling (i := i) hc
  unfold enterSubject
  split
  · next s hs =>
    simp only [Subject.enter]
    split
    · exact h.entries_kept hl hs rfl .answer hload
    · exact h.broadcast hl hs hload
  · exact h.keepsCredit hl (answer_keepsCredit m _) hload

theorem Rationed.complete {c : Ending} (h : m.Rationed failed i)
    (hc : m.control = .calling (.complete n c)) :
    (m.enterSubject n (.complete c)).Rationed failed i := by
  have hl := h.leaves_calling hc (by simp)
  have hload := loads_le_calling (i := i) hc
  unfold enterSubject
  split
  · next s hs =>
    simp only [Subject.enter]
    split
    · exact h.entries_kept hl hs rfl .answer hload
    · exact h.conclude_all hl hs rfl hload
  · exact h.keepsCredit hl (answer_keepsCredit m _) hload

theorem Rationed.granted {r : Reply} {dest : Outlet} {v : Value} {ws : List Nat} {sent : Nat}
    (h : m.Rationed failed i) (hc : m.control = .answering r)
    (hs : m.stack = .subject n (.sending dest e v ws sent) :: rest)
    (hsub : m.world.subjects[n]? = some s) :
    Rationed ⟨m.world.setSubject n (s.grant e r.granted), rest, .calling (.send n v)⟩ failed i := by
  have hl := h.leaves_popped hs (by simp)
  have hsp : m.world.spent? (.subject n (.sending dest e v ws sent)) =
      some (.subject n e, dest.subscriber) := rfl
  obtain ⟨hknown, hdest⟩ := h.kept _ (hs ▸ List.mem_cons_self) _ _ hsp
  obtain ⟨x, hx⟩ : ∃ x, s.entries[e]? = some x := by
    rw [World.Known, World.credit?, hsub, Option.bind_some, Option.isSome_map] at hknown
    exact Option.isSome_iff_exists.mp hknown
  have hcr := World.credit?_subject hsub hx
  rw [World.holder?_of_eq hcr] at hdest
  have ht : (s.grant e r.granted).entries =
      s.entries.setIfInBounds e { x with demand := x.demand + r.granted } := by
    simp only [Subject.grant, hx]
    rfl
  have hgives : Gives none none (.calling (.send n v)) := .offCredit (.call trivial) (by simp)
  refine h.gives hl (.entry hsub hx ht (.inl rfl)) (by simp) (by simp) hgives _
    (brought_back (i := i) hc hs hsp) fun hone => ?_
  refine World.purse_flow hcr (fun _ => id) (by simp) (fun hi _ => ?_) hone
  obtain rfl := hdest i hi
  simp only [if_true, Frame.delivers]
  exact (Credit.share_le _ _).trans (Demand.tally_add_le ..)

theorem Rationed.proceed_subject {r : Reply} {f : Subject.Frame Outlet} (h : m.Rationed failed i)
    (hc : m.control = .answering r) (hs : m.stack = .subject n f :: rest) :
    (proceedSubject { m with stack := rest } n f r).Rationed failed i := by
  have hl := h.leaves_popped hs (by simp)
  have hload := loads_le_carried (i := i) hs
  unfold proceedSubject
  split
  · next s hsub =>
    cases f with
    | passing dest => exact h.entries_kept hl hsub rfl .answer hload
    | refusing dest c => exact h.entries_kept hl hsub rfl (.conclude rfl) hload
    | completing dest c ws => exact h.conclude_all hl hsub rfl hload
    | sending dest e v ws sent =>
      have hgranted := h.granted hc hs hsub
      have hget : (m.world.setSubject n (s.grant e r.granted)).subjects[n]? =
          some (s.grant e r.granted) := by
        simp [World.setSubject, lt_size_of_getElem? hsub]
      have hl' := hgranted.leaves_calling rfl (by simp)
      have hgo (sent : Nat) := hgranted.broadcast (v := v) (k := sent) (l := ws) hl' hget
        (loads_le_calling rfl)
      have hset (t : Subject Outlet) :
          (m.world.setSubject n (s.grant e r.granted)).setSubject n t = m.world.setSubject n t := by
        simp [World.setSubject]
      simp only [subjectSection, hset] at hgo
      exact hgo (sent + 1)
  · exact h.keepsCredit hl (answer_keepsCredit { m with stack := rest } _) hload

end Machine
end Sluice
