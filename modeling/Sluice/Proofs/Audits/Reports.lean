import Sluice.Machine.World

/-!
# What reports record

A request goes through the reports of a link in turn. Each records it, and a report
that raises a violation stops it there. Reports only grow: limits stay as they are
and violations are kept.
-/

namespace Sluice
namespace Audit

namespace Report

/-- The report has raised nothing: it does not raise, or no limit was broken. -/
def Unraised (r : Report) : Prop := r.limits.raises = false ∨ r.violations = []

structure Grew (r r' : Report) : Prop where
  limits : r'.limits = r.limits
  violations : r.violations <+: r'.violations

theorem Grew.refl (r : Report) : r.Grew r := ⟨rfl, List.prefix_refl _⟩

theorem Grew.trans {r r' r'' : Report} (h : r.Grew r') (h' : r'.Grew r'') : r.Grew r'' :=
  ⟨h'.limits.trans h.limits, h.violations.trans h'.violations⟩

theorem Grew.unraised {r r' : Report} (h : r.Grew r') (hm : r'.Unraised) : r.Unraised := by
  obtain hr | hv := hm
  · exact .inl (h.limits ▸ hr)
  · exact .inr (List.prefix_nil.mp (hv ▸ h.violations))

theorem grew_observe (r : Report) (now : Duration) (d : Demand) : r.Grew (r.observe now d).1 :=
  ⟨rfl, List.prefix_append _ _⟩

theorem raised?_eq_none {r : Report} {now : Duration} {d : Demand}
    (hm : (r.observe now d).1.Unraised) :
    (r.observe now d).1.raised? (r.observe now d).2 = none := by
  obtain hr | hv := hm
  · simp only [raised?, hr, Bool.false_eq_true, if_false]
  · have hf : (r.observe now d).2 = [] := (List.append_eq_nil_iff.mp hv).2
    simp only [raised?, hf, List.head?_nil, ite_self]

end Report

/-- What a request makes of the reports, and the violation that one of them raises. -/
def record (now : Duration) (d : Demand) (rs : Array Report) :
    List Nat → Array Report × Option Violation
  | [] => (rs, none)
  | i :: rest =>
    match rs[i]? with
    | none => record now d rs rest
    | some r =>
      let (seen, found) := r.observe now d
      match seen.raised? found with
      | some v => (rs.setIfInBounds i seen, some v)
      | none => record now d (rs.setIfInBounds i seen) rest

def Grown (rs rs' : Array Report) : Prop :=
  ∀ (i : Nat) r, rs[i]? = some r → ∃ r', rs'[i]? = some r' ∧ r.Grew r'

theorem Grown.refl (rs : Array Report) : Grown rs rs := fun _ r hr => ⟨r, hr, .refl r⟩

theorem Grown.trans {rs rs' rs'' : Array Report} (h : Grown rs rs') (h' : Grown rs' rs'') :
    Grown rs rs'' := by
  intro i r hr
  obtain ⟨r', hr', hg⟩ := h i r hr
  obtain ⟨r'', hr'', hg'⟩ := h' i r' hr'
  exact ⟨r'', hr'', hg.trans hg'⟩

theorem grown_push (rs : Array Report) (r : Report) : Grown rs (rs.push r) := by
  intro i s hs
  have hi : i < rs.size := (Array.getElem?_eq_some_iff.mp hs).1
  exact ⟨s, (Array.getElem?_push_lt hi).trans ((Array.getElem?_eq_getElem hi).symm.trans hs),
    .refl s⟩

theorem grown_setIfInBounds {rs : Array Report} {i : Nat} {r r' : Report} (hr : rs[i]? = some r)
    (hg : r.Grew r') : Grown rs (rs.setIfInBounds i r') := by
  intro j s hs
  rw [Array.getElem?_setIfInBounds]
  by_cases hij : i = j
  · subst hij
    obtain rfl : r = s := Option.some.inj (hr.symm.trans hs)
    have hi : i < rs.size := (Array.getElem?_eq_some_iff.mp hr).1
    exact ⟨r', by simp only [if_true, hi], hg⟩
  · exact ⟨s, by simp only [hij, if_false, hs], .refl s⟩

def AllUnraised (rs : Array Report) : Prop := ∀ (i : Nat) r, rs[i]? = some r → r.Unraised

theorem Grown.allUnraised {rs rs' : Array Report} (h : Grown rs rs') (hm : AllUnraised rs') :
    AllUnraised rs := by
  intro i r hr
  obtain ⟨r', hr', hg⟩ := h i r hr
  exact hg.unraised (hm i r' hr')

variable (now : Duration) (d : Demand)

theorem grown_record (rs : Array Report) (as : List Nat) : Grown rs (record now d rs as).1 := by
  induction as generalizing rs with
  | nil => exact .refl rs
  | cons a as ih =>
    unfold record
    cases ha : rs[a]? with
    | none => exact ih rs
    | some r =>
      have hg := grown_setIfInBounds ha (r.grew_observe now d)
      simp only
      split
      · exact hg
      · exact hg.trans (ih _)

theorem record_snd_eq_none {rs : Array Report} {as : List Nat}
    (hm : AllUnraised (record now d rs as).1) : (record now d rs as).2 = none := by
  induction as generalizing rs with
  | nil => rfl
  | cons a as ih =>
    unfold record at hm ⊢
    cases ha : rs[a]? with
    | none =>
      simp only [ha] at hm ⊢
      exact ih hm
    | some r =>
      have hi : a < rs.size := (Array.getElem?_eq_some_iff.mp ha).1
      have hseen : (rs.setIfInBounds a (r.observe now d).1)[a]? = some (r.observe now d).1 := by
        rw [Array.getElem?_setIfInBounds]
        simp only [if_true, hi]
      simp only [ha] at hm ⊢
      split at hm
      next v hv =>
        rw [Report.raised?_eq_none (hm a _ hseen)] at hv
        nomatch hv
      next => exact ih hm

theorem getElem?_record_of_notMem {rs : Array Report} {as : List Nat} {i : Nat} (hi : i ∉ as) :
    (record now d rs as).1[i]? = rs[i]? := by
  induction as generalizing rs with
  | nil => rfl
  | cons a as ih =>
    obtain ⟨hne, hi⟩ := not_or.mp (mt List.mem_cons.mpr hi)
    have hset (r : Report) : (rs.setIfInBounds a r)[i]? = rs[i]? :=
      Array.getElem?_setIfInBounds_ne (Ne.symm hne)
    unfold record
    cases rs[a]? with
    | none => exact ih hi
    | some r =>
      simp only
      split
      · exact hset _
      · exact (ih hi).trans (hset _)

theorem getElem?_record {rs : Array Report} {as : List Nat} (hn : as.Nodup)
    (hr : (record now d rs as).2 = none) (i : Nat) :
    (record now d rs as).1[i]? =
      rs[i]?.map fun r => if i ∈ as then (r.observe now d).1 else r := by
  induction as generalizing rs with
  | nil => simp [record]
  | cons a as ih =>
    obtain ⟨ha, hn⟩ := List.nodup_cons.mp hn
    unfold record at hr ⊢
    cases hx : rs[a]? with
    | none =>
      simp only [hx] at hr ⊢
      rw [ih hn hr]
      by_cases hia : i = a
      · subst hia
        simp [hx]
      · simp [hia]
    | some r =>
      simp only [hx] at hr ⊢
      split at hr
      next => nomatch hr
      next =>
        rw [ih hn hr, Array.getElem?_setIfInBounds]
        obtain ⟨hi, rfl⟩ := Array.getElem?_eq_some_iff.mp hx
        by_cases hia : a = i
        · subst hia
          simp [ha, hi]
        · have : i ≠ a := fun h => hia h.symm
          simp [hia, this]

end Audit

namespace World

variable (w : World) (d : Demand)

theorem audit_eq (as : List Nat) : w.audit d as =
    ({ w with reports := (Audit.record w.auditClock d w.reports as).1 },
      (Audit.record w.auditClock d w.reports as).2) := by
  induction as generalizing w with
  | nil => rfl
  | cons a as ih =>
    unfold audit Audit.record
    cases w.reports[a]? with
    | none => exact ih w
    | some r =>
      simp only
      cases (r.observe w.auditClock d).1.raised? (r.observe w.auditClock d).2 with
      | some v => rfl
      | none =>
        exact ih { w with reports := w.reports.setIfInBounds a (r.observe w.auditClock d).1 }

end World
end Sluice
