import Sluice.Proofs.Audits.Reference
import Sluice.Proofs.Audits.Transparency

/-!
# Reports agree with the reference audit

The requests that a report is shown in a run are those that reach its monitor: a monitor further
out that raises stops a request before. After any run a report says of them what the reference
audit says. A monitor that raises at a request has recorded it and does not pass it on; every
other request is passed on as it is.
-/

namespace Sluice
namespace Audit

section
variable (i : Nat) (now : Duration) (d : Demand) (rs : Array Report)

/-- What report `i` is shown when a request goes through the reports `as`. -/
def shown (rs : Array Report) : List Nat → List Observation
  | [] => []
  | a :: as =>
    match rs[a]? with
    | none => shown rs as
    | some r =>
      let seen := r.observe now d
      (if a = i then [⟨now, d⟩] else []) ++
        match seen.1.raised? seen.2 with
        | some _ => []
        | none => shown (rs.setIfInBounds a seen.1) as

variable {rs} {a : Nat} {as : List Nat} {r : Report}

theorem record_missing (ha : rs[a]? = none) : record now d rs (a :: as) = record now d rs as := by
  simp only [record, ha]

theorem record_raised {v : Violation} (ha : rs[a]? = some r)
    (hv : (r.observe now d).1.raised? (r.observe now d).2 = some v) :
    record now d rs (a :: as) = (rs.setIfInBounds a (r.see ⟨now, d⟩), some v) := by
  simp only [record, ha, hv]
  rfl

theorem record_passed (ha : rs[a]? = some r)
    (hv : (r.observe now d).1.raised? (r.observe now d).2 = none) :
    record now d rs (a :: as) = record now d (rs.setIfInBounds a (r.see ⟨now, d⟩)) as := by
  simp only [record, ha, hv]
  rfl

theorem record_singleton (ha : rs[a]? = some r) :
    (record now d rs [a]).1 = rs.setIfInBounds a (r.see ⟨now, d⟩) := by
  cases hv : (r.observe now d).1.raised? (r.observe now d).2 with
  | some v => rw [record_raised now d ha hv]
  | none => rw [record_passed now d ha hv, record]

theorem shown_missing (ha : rs[a]? = none) :
    shown i now d rs (a :: as) = shown i now d rs as := by
  simp only [shown, ha]

theorem shown_raised {v : Violation} (ha : rs[a]? = some r)
    (hv : (r.observe now d).1.raised? (r.observe now d).2 = some v) :
    shown i now d rs (a :: as) = if a = i then [⟨now, d⟩] else [] := by
  simp only [shown, ha, hv, List.append_nil]

theorem shown_passed (ha : rs[a]? = some r)
    (hv : (r.observe now d).1.raised? (r.observe now d).2 = none) :
    shown i now d rs (a :: as) = (if a = i then [⟨now, d⟩] else []) ++
      shown i now d (rs.setIfInBounds a (r.see ⟨now, d⟩)) as := by
  simp only [shown, ha, hv]
  rfl

theorem shown_self (ha : rs[i]? = some r) :
    ∃ more, shown i now d rs (i :: as) = ⟨now, d⟩ :: more := by
  cases hv : (r.observe now d).1.raised? (r.observe now d).2 with
  | some v => exact ⟨[], (shown_raised i now d ha hv).trans (if_pos rfl)⟩
  | none => exact ⟨_, (shown_passed i now d ha hv).trans (congrArg (· ++ _) (if_pos rfl))⟩

theorem getElem?_see (ha : rs[a]? = some r) :
    (rs.setIfInBounds a (r.see ⟨now, d⟩))[i]? = rs[i]?.map fun x =>
      (if a = i then [⟨now, d⟩] else []).foldl Report.see x := by
  rw [Array.getElem?_setIfInBounds]
  obtain ⟨hlt, -⟩ := Array.getElem?_eq_some_iff.mp ha
  by_cases hai : a = i
  · subst hai
    simp only [if_true, hlt, ha, Option.map_some, List.foldl_cons, List.foldl_nil]
  · simp [hai]

theorem getElem?_record_eq (rs : Array Report) (as : List Nat) :
    (record now d rs as).1[i]? = rs[i]?.map fun r => (shown i now d rs as).foldl Report.see r := by
  induction as generalizing rs with
  | nil => simp [record, shown]
  | cons a as ih =>
    cases ha : rs[a]? with
    | none =>
      rw [record_missing now d ha, shown_missing i now d ha]
      exact ih rs
    | some r =>
      cases hv : (r.observe now d).1.raised? (r.observe now d).2 with
      | some v =>
        rw [record_raised now d ha hv, shown_raised i now d ha hv]
        exact getElem?_see i now d ha
      | none =>
        rw [record_passed now d ha hv, shown_passed i now d ha hv, ih, getElem?_see i now d ha,
          Option.map_map]
        simp only [Function.comp_def, List.foldl_append]

theorem shown_eq_nil (hi : rs[i]? = none) (as : List Nat) : shown i now d rs as = [] := by
  induction as generalizing rs with
  | nil => rfl
  | cons a as ih =>
    cases ha : rs[a]? with
    | none =>
      rw [shown_missing i now d ha]
      exact ih hi
    | some r =>
      have hne : a ≠ i := by
        rintro rfl
        cases hi.symm.trans ha
      have hset : (rs.setIfInBounds a (r.see ⟨now, d⟩))[i]? = none :=
        (Array.getElem?_setIfInBounds_ne hne).trans hi
      cases hv : (r.observe now d).1.raised? (r.observe now d).2 with
      | some v => rw [shown_raised i now d ha hv, if_neg hne]
      | none => rw [shown_passed i now d ha hv, if_neg hne, ih hset, List.append_nil]

variable {outer : List Nat} (inner : List Nat)

theorem record_append (h : (record now d rs outer).2 = none) :
    record now d rs (outer ++ inner) = record now d (record now d rs outer).1 inner ∧
      shown i now d rs (outer ++ inner) =
        shown i now d rs outer ++ shown i now d (record now d rs outer).1 inner := by
  induction outer generalizing rs with
  | nil => exact ⟨rfl, rfl⟩
  | cons a as ih =>
    rw [List.cons_append]
    cases ha : rs[a]? with
    | none =>
      simp only [record_missing now d ha, shown_missing i now d ha] at h ⊢
      exact ih h
    | some r =>
      cases hv : (r.observe now d).1.raised? (r.observe now d).2 with
      | some v =>
        rw [record_raised now d ha hv] at h
        cases h
      | none =>
        rw [record_passed now d ha hv] at h
        obtain ⟨hrec, hshown⟩ := ih h
        simp only [record_passed now d ha hv, shown_passed i now d ha hv, hrec, hshown,
          List.append_assoc, and_self]

end
end Audit

namespace Machine

variable {m : Machine} {acts : List Act} (i : Nat)

def shows (m : Machine) (i : Nat) : Act → List Audit.Observation
  | .step =>
    match m.control with
    | .calling (.request link d) =>
      Audit.shown i m.world.auditClock d m.world.reports link.audits
    | _ => []
  | _ => []

/-- What report `i` is shown in a run. -/
def shown (i : Nat) : Machine → List Act → List Audit.Observation
  | _, [] => []
  | m, a :: acts => m.shows i a ++ shown i (m.act a) acts

theorem shown_append (m : Machine) (acts more : List Act) :
    shown i m (acts ++ more) = shown i m acts ++ shown i (m.perform acts) more := by
  induction acts generalizing m with
  | nil => rfl
  | cons a acts ih =>
    rw [List.cons_append, shown, shown, ih, List.append_assoc]
    rfl

theorem Within.reports_eq {a : Act} (h : m.Within id) (ha : a.reaudit id = a) :
    (m.act a).world.reports = m.reportsAfter id m.world.reports a := by
  obtain hp | ⟨link, d, v, rfl, hc, hv⟩ := m.unstopped_or_raised a
  · exact h.reports_act ha hp
  · have hm : m.act .step = _ := (step_request hc).trans (request_of_raised hv)
    simp only [hm, reportsAfter, hc]
    rfl

def Observed (m : Machine) (i : Nat) (os : List Audit.Observation) : Prop :=
  match m.world.reports[i]? with
  | some r => r = .ofObservations r.limits os
  | none => os = []

theorem Observed.of_eq {m' : Machine} {os : List Audit.Observation} (h : m.Observed i os)
    (he : m'.world.reports[i]? = m.world.reports[i]?) : m'.Observed i os := by
  unfold Observed at h ⊢
  rwa [he]

theorem Observed.record {as : List Nat} {d : Demand} {m' : Machine} {os : List Audit.Observation}
    (h : m.Observed i os)
    (he : m'.world.reports = (Audit.record m.world.auditClock d m.world.reports as).1) :
    m'.Observed i (os ++ Audit.shown i m.world.auditClock d m.world.reports as) := by
  unfold Observed at h ⊢
  rw [he, Audit.getElem?_record_eq]
  cases hr : m.world.reports[i]? with
  | none =>
    simp only [hr] at h
    simp only [Option.map_none, h, List.nil_append]
    exact Audit.shown_eq_nil i _ d hr _
  | some r =>
    simp only [hr] at h
    simp only [Option.map_some, Audit.Report.limits_foldl_see]
    generalize Audit.shown i m.world.auditClock d m.world.reports as = more
    rw [Audit.Report.ofObservations, List.foldl_append]
    exact congrArg (more.foldl Audit.Report.see) h

theorem Observed.pushed {limits : Audit.Limits} {m' : Machine} {os : List Audit.Observation}
    (h : m.Observed i os) (he : m'.world.reports = m.world.reports.push { limits := limits }) :
    m'.Observed i os := by
  have hpush : m'.world.reports[i]? =
      if i = m.world.reports.size then some { limits := limits } else m.world.reports[i]? := by
    rw [he]
    exact Array.getElem?_push
  by_cases hi : i = m.world.reports.size
  · have hnone : m.world.reports[i]? = none := Array.getElem?_eq_none (Nat.le_of_eq hi.symm)
    rw [if_pos hi] at hpush
    simp only [Observed, hnone] at h
    simp only [Observed, hpush, h]
    rfl
  · rw [if_neg hi] at hpush
    exact h.of_eq i hpush

theorem Observed.act {a : Act} {os : List Audit.Observation} (h : m.Observed i os)
    (hw : m.Within id) (ha : a.reaudit id = a) : (m.act a).Observed i (os ++ m.shows i a) := by
  have hrs := hw.reports_eq ha
  cases a with
  | step =>
    by_cases hc : ∃ link d, m.control = .calling (.request link d)
    · obtain ⟨link, d, hc⟩ := hc
      simp only [reportsAfter, hc] at hrs
      simp only [shows, hc]
      exact h.record i hrs
    · have hc (link : Link) (d : Demand) : m.control ≠ .calling (.request link d) :=
        fun h => hc ⟨link, d, h⟩
      rw [reportsAfter_step hc] at hrs
      simp only [shows, List.append_nil]
      exact h.of_eq i (congrArg (·[i]?) hrs)
  | edit e =>
    cases e with
    | report limits =>
      simp only [shows, List.append_nil]
      exact h.pushed i hrs
    | _ =>
      simp only [shows, List.append_nil]
      exact h.of_eq i (congrArg (·[i]?) hrs)
  | _ =>
    simp only [shows, List.append_nil]
    exact h.of_eq i (congrArg (·[i]?) hrs)

theorem Observed.perform {os : List Audit.Observation} (h : m.Observed i os) (hw : m.Within id)
    (hp : Act.Throughout Act.Permitted m acts) :
    (m.perform acts).Observed i (os ++ shown i m acts) := by
  induction acts generalizing m os with
  | nil => rwa [shown, List.append_nil]
  | cons a acts ih =>
    have ha : a.reaudit id = a := hp.1.reaudit_eq rfl
    rw [shown, ← List.append_assoc]
    exact ih (h.act i hw ha) (hw.act ha).1 hp.2

def past (m : Machine) (d : Demand) (as : List Nat) : Machine :=
  m.withReports (Audit.record m.world.auditClock d m.world.reports as).1

theorem request_past {outer inner : List Nat} {tap : Tap} {d : Demand}
    (h : (Audit.record m.world.auditClock d m.world.reports outer).2 = none) :
    m.request ⟨outer ++ inner, tap⟩ d = (m.past d outer).request ⟨inner, tap⟩ d := by
  obtain ⟨hrec, -⟩ := Audit.record_append 0 m.world.auditClock d inner h
  unfold request
  rw [World.audit_eq, World.audit_eq, hrec]
  rfl

/-- A monitor raises the first violation of a request, if it raises, and makes the request of the
next one otherwise. Either way the request is recorded. -/
theorem request_monitored {inner : List Nat} {tap : Tap} {d : Demand} {r : Audit.Report}
    (hr : m.world.reports[i]? = some r) :
    m.request ⟨i :: inner, tap⟩ d =
      match if r.limits.raises then (r.observe m.world.auditClock d).2.head? else none with
      | some v => { m.past d [i] with control := .unwinding (.violation v) }
      | none => (m.past d [i]).request ⟨inner, tap⟩ d := by
  have hraised : (r.observe m.world.auditClock d).1.raised? (r.observe m.world.auditClock d).2 =
      if r.limits.raises then (r.observe m.world.auditClock d).2.head? else none := rfl
  rw [← hraised]
  cases hv : (r.observe m.world.auditClock d).1.raised? (r.observe m.world.auditClock d).2 with
  | some v =>
    have hrec (as : List Nat) : Audit.record m.world.auditClock d m.world.reports (i :: as) = _ :=
      Audit.record_raised m.world.auditClock d hr hv
    rw [request_of_raised (congrArg Prod.snd (hrec inner))]
    simp only [past, hrec]
  | none =>
    have hrec (as : List Nat) : Audit.record m.world.auditClock d m.world.reports (i :: as) = _ :=
      Audit.record_passed m.world.auditClock d hr hv
    exact request_past (congrArg Prod.snd (hrec []))

theorem past_past {outer inner : List Nat} {d : Demand}
    (h : (Audit.record m.world.auditClock d m.world.reports outer).2 = none) :
    (m.past d outer).past d inner = m.past d (outer ++ inner) := by
  obtain ⟨hrec, -⟩ := Audit.record_append 0 m.world.auditClock d inner h
  unfold past
  rw [hrec]
  rfl

theorem Within.perform (h : m.Within id) (hp : Act.Throughout Act.Permitted m acts) :
    (m.perform acts).Within id ∧ Audit.Grown m.world.reports (m.perform acts).world.reports := by
  induction acts generalizing m with
  | nil => exact ⟨h, .refl _⟩
  | cons a acts ih =>
    obtain ⟨hw, hg⟩ := h.act (hp.1.reaudit_eq rfl)
    obtain ⟨hw', hg'⟩ := ih hw hp.2
    exact ⟨hw', hg.trans hg'⟩

theorem Observed.eq_ofObservations {os : List Audit.Observation} (h : m.Observed i os)
    {r : Audit.Report} (hr : m.world.reports[i]? = some r) :
    r = .ofObservations r.limits os := by
  simpa only [Observed, hr] using h

theorem Observed.request {os : List Audit.Observation} (h : m.Observed i os) {r : Audit.Report}
    (hr : m.world.reports[i]? = some r) {d : Demand}
    (hl : r.limits.Lasting (os ++ [⟨m.world.auditClock, d⟩])) (inner : List Nat) (tap : Tap) :
    (∃ r', (m.past d [i]).world.reports[i]? = some r' ∧
      r'.Matches (os ++ [⟨m.world.auditClock, d⟩])) ∧
    m.request ⟨i :: inner, tap⟩ d =
      match if r.limits.raises then
        (r.limits.judge os ⟨m.world.auditClock, d⟩).head? else none with
      | some v => { m.past d [i] with control := .unwinding (.violation v) }
      | none => (m.past d [i]).request ⟨inner, tap⟩ d := by
  have htracks : r.Tracks os := by
    rw [h.eq_ofObservations i hr]
    exact Audit.Report.tracks_ofObservations hl.left
  refine ⟨⟨r.see ⟨m.world.auditClock, d⟩, ?_, (htracks.see hl).toMatches⟩, ?_⟩
  · obtain ⟨hlt, -⟩ := Array.getElem?_eq_some_iff.mp hr
    have hrec := Audit.record_singleton m.world.auditClock d hr
    exact (congrArg (·[i]?) hrec).trans (Array.getElem?_setIfInBounds_self_of_lt hlt)
  · rw [request_monitored i hr, htracks.found hl]

theorem Observed.request_past {os : List Audit.Observation} (h : m.Observed i os)
    {r : Audit.Report} (hr : m.world.reports[i]? = some r) {outer : List Nat} {d : Demand}
    (hpass : (Audit.record m.world.auditClock d m.world.reports outer).2 = none)
    {earlier : List Audit.Observation}
    (he : earlier = os ++ Audit.shown i m.world.auditClock d m.world.reports outer)
    (hl : r.limits.Lasting (earlier ++ [⟨m.world.auditClock, d⟩])) (inner : List Nat) (tap : Tap) :
    (∃ r', (m.past d (outer ++ [i])).world.reports[i]? = some r' ∧
      r'.Matches (earlier ++ [⟨m.world.auditClock, d⟩])) ∧
    m.request ⟨outer ++ i :: inner, tap⟩ d =
      match if r.limits.raises then
        (r.limits.judge earlier ⟨m.world.auditClock, d⟩).head? else none with
      | some v => { m.past d (outer ++ [i]) with control := .unwinding (.violation v) }
      | none => (m.past d (outer ++ [i])).request ⟨inner, tap⟩ d := by
  subst he
  obtain ⟨r₀, hr₀, hg⟩ := Audit.grown_record m.world.auditClock d m.world.reports outer i r hr
  have hn : (m.past d outer).Observed i _ := h.record i rfl
  rw [Machine.request_past hpass, ← past_past hpass, ← hg.limits]
  exact hn.request i hr₀ (hg.limits ▸ hl) inner tap

theorem shown_split {before after : List Act} {outer inner : List Nat} {tap : Tap} {d : Demand}
    {n : Machine} (hn : m.perform before = n)
    (hc : n.control = .calling (.request ⟨outer ++ i :: inner, tap⟩ d))
    (hpass : (Audit.record n.world.auditClock d n.world.reports outer).2 = none)
    (hi : i < n.world.reports.size) : ∃ later,
      shown i m (before ++ .step :: after) =
        (shown i m before ++ Audit.shown i n.world.auditClock d n.world.reports outer) ++
          ⟨n.world.auditClock, d⟩ :: later := by
  obtain ⟨-, hsplit⟩ := Audit.record_append i n.world.auditClock d (i :: inner) hpass
  obtain ⟨r, hr, -⟩ :=
    Audit.grown_record n.world.auditClock d n.world.reports outer i _ (Array.getElem?_eq_getElem hi)
  obtain ⟨more, hmore⟩ : ∃ more, Audit.shown i n.world.auditClock d _ (i :: inner) = _ :=
    Audit.shown_self i n.world.auditClock d hr
  have hshows : n.shows i .step =
      Audit.shown i n.world.auditClock d n.world.reports (outer ++ i :: inner) := by
    simp only [shows, hc]
  refine ⟨more ++ shown i n.step after, ?_⟩
  rw [shown_append, hn, shown, hshows, hsplit, hmore]
  simp only [List.append_assoc, List.cons_append]
  rfl

/-- After any run a report says of the requests that it was shown what the reference audit says:
all of them are in it, in order, with their saturating sum and their violations. A request that its
monitor receives, past the outer ones, is recorded; then the first violation of it is raised, if
there is one and the monitor raises, and else the request is made of what is upstream. -/
theorem reports_match_reference (hp : Act.Throughout Act.Permitted {} acts) {r : Audit.Report}
    (hr : (perform {} acts).world.reports[i]? = some r)
    (hl : r.limits.Lasting (shown i {} acts)) :
    r.Matches (shown i {} acts) ∧
      r.total.amount = Demand.saturate ((shown i {} acts).map (·.demand.amount)).sum ∧
      (r.isClean = true ↔ r.limits.audit [] (shown i {} acts) = []) ∧
      (∀ budget earlier o later, r.limits.budget = some budget →
        shown i {} acts = earlier ++ o :: later → budget < Audit.totalOf earlier →
          .budgetExceeded (Audit.totalOf (earlier ++ [o])) budget ∈ r.limits.judge earlier o) ∧
      ∀ before after m outer inner tap d earlier, acts = before ++ .step :: after →
        perform {} before = m → m.control = .calling (.request ⟨outer ++ i :: inner, tap⟩ d) →
        (Audit.record m.world.auditClock d m.world.reports outer).2 = none →
        i < m.world.reports.size → earlier = shown i {} before ++
          Audit.shown i m.world.auditClock d m.world.reports outer → ∃ later r',
          shown i {} acts = earlier ++ ⟨m.world.auditClock, d⟩ :: later ∧
          (m.past d (outer ++ [i])).world.reports[i]? = some r' ∧
          r'.Matches (earlier ++ [⟨m.world.auditClock, d⟩]) ∧
          m.step =
            match if r.limits.raises then
              (r.limits.judge earlier ⟨m.world.auditClock, d⟩).head? else none with
            | some v => { m.past d (outer ++ [i]) with control := .unwinding (.violation v) }
            | none => (m.past d (outer ++ [i])).request ⟨inner, tap⟩ d := by
  have hfresh : ({} : Machine).Observed i [] := by
    simp only [Observed, Array.getElem?_empty]
  have htracks : r.Tracks (shown i {} acts) := by
    rw [(hfresh.perform i within_empty hp).eq_ofObservations i hr]
    exact Audit.Report.tracks_ofObservations hl
  refine ⟨htracks.toMatches, ?_, ?_, ?_, ?_⟩
  · rw [htracks.total, Audit.totalOf, Demand.amount_sum_list, List.map_map]
    rfl
  · rw [← htracks.violations, Audit.Report.isClean, List.isEmpty_iff]
  · rintro budget earlier o later hb - hlt
    exact Audit.Limits.overspent_of_lt hb hlt
  · rintro before after m outer inner tap d _ rfl hm hc hpass hi rfl
    obtain ⟨hpb, hpa⟩ := hp.split
    obtain ⟨hwm, -⟩ := within_empty.perform hpb
    have ho := hfresh.perform i within_empty hpb
    rw [hm] at hpa hwm ho
    have hfinal : ({} : Machine).perform (before ++ .step :: after) =
        m.perform (.step :: after) := by
      rw [perform, List.foldl_append, ← hm]
      rfl
    -- The limits are those that the report was made with.
    obtain ⟨r₁, hr₁, hg⟩ := (hwm.perform hpa).2 i _ (Array.getElem?_eq_getElem hi)
    obtain rfl : r₁ = r := Option.some.inj (hr₁.symm.trans (hfinal ▸ hr))
    obtain ⟨later, hos⟩ : ∃ later, shown i {} (before ++ .step :: after) = _ :=
      shown_split i hm hc hpass hi
    rw [hos, List.append_cons] at hl
    rw [hg.limits] at hl ⊢
    obtain ⟨⟨r', hr', hmatch⟩, hreq⟩ :=
      ho.request_past i (Array.getElem?_eq_getElem hi) hpass rfl hl.left inner tap
    exact ⟨later, r', hos, hr', hmatch, (step_request hc).trans hreq⟩

/-- Two monitors, the inner of which allows one value a request, two of them in all, and no two
requests so soon. The second request is made while the first value is delivered. -/
def requestsOutOfLimits : List Act :=
  [.edit (.report ⟨some .one, some (.upTo 2), some ⟨100⟩, true⟩),
    .edit (.report ⟨some (.upTo 2), none, none, true⟩), .edit (.sequence (.items [some 1, some 2])),
    .edit (.subscriber .custom), .invoke (.subscribe ⟨[1, 0], .sequence 0⟩ 0)] ++
  .replicate 5 .step ++ .invoke (.request ⟨[1, 0], .sequence 0⟩ .one) ::
  .replicate 3 .step ++ .clock ⟨5⟩ :: [.invoke (.request ⟨[1, 0], .sequence 0⟩ (.upTo 2)), .step]

/-- It breaks every limit of the inner monitor and none of the outer one. -/
theorem reports_match_reference_out_of_limits :
    (perform {} requestsOutOfLimits).control =
        .unwinding (.violation (.maxDemandExceeded (.upTo 2) .one)) ∧
      (∃ r, (perform {} requestsOutOfLimits).world.reports[0]? = some r ∧
        r.Matches [⟨⟨0⟩, .one⟩, ⟨⟨5⟩, .upTo 2⟩] ∧
        r.limits.audit [] [⟨⟨0⟩, .one⟩, ⟨⟨5⟩, .upTo 2⟩] =
          [.maxDemandExceeded (.upTo 2) .one, .budgetExceeded (.upTo 3) (.upTo 2),
            .tooFrequent ⟨5⟩ ⟨100⟩]) := by
  have hp : Act.Throughout Act.Permitted {} requestsOutOfLimits := by
    refine ⟨⟨⟨_, rfl⟩, trivial⟩, ⟨⟨_, rfl⟩, trivial⟩, ⟨⟨_, rfl⟩, trivial⟩, ⟨⟨_, rfl⟩, .custom⟩,
      ⟨⟨_, rfl⟩, trivial⟩, trivial, trivial, trivial, trivial, trivial, ⟨⟨_, rfl⟩, trivial⟩,
      trivial, trivial, trivial, trivial, ⟨⟨_, rfl⟩, trivial⟩, trivial, trivial⟩
  have hshown : shown 0 {} requestsOutOfLimits = [⟨⟨0⟩, .one⟩, ⟨⟨5⟩, .upTo 2⟩] := rfl
  have hl : (⟨some .one, some (.upTo 2), some ⟨100⟩, true⟩ : Audit.Limits).Lasting
      (shown 0 {} requestsOutOfLimits) := by
    intro gap hg
    obtain rfl := Option.some.inj hg
    rw [hshown]
    exact .inr (by decide)
  obtain ⟨hmatch, -, -, -, hreq⟩ := reports_match_reference 0 hp rfl hl
  obtain ⟨-, -, -, -, -, hstep⟩ :=
    hreq requestsOutOfLimits.dropLast [] _ [1] [] _ _ _ rfl rfl rfl rfl (by decide +kernel) rfl
  exact ⟨congrArg control hstep, _, rfl, hmatch, rfl⟩

end Machine
end Sluice
