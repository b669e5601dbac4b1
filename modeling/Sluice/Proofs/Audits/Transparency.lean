import Sluice.Proofs.Audits.Steps
import Sluice.Proofs.Machine.Acts

/-!
# Audits are transparent

A run with audits is put through the same acts as the run without any. As long as no
report raises, the two stay the same machine at every moment, but for the audits
themselves; and the reports of monitors that are nested in one another hold the same.
-/

namespace Sluice

def Edit.reaudit (e : Edit) (f : List Nat → List Nat) : Edit :=
  match e with
  | subscriber s => .subscriber (s.reaudit f)
  | e => e

namespace Act

def reaudit (a : Act) (f : List Nat → List Nat) : Act :=
  match a with
  | invoke c => .invoke (c.reaudit f)
  | edit e => .edit (e.reaudit f)
  | a => a

def audits : Act → List Nat
  | invoke (.tell _ (.subscription link)) | invoke (.request link _) | invoke (.cancel link) =>
    link.audits
  | invoke (.subscribe source _) | invoke (.attach source _) => source.audits
  | _ => []

/-- The monitors with the reports `as` are put around a source together, when all of them are
made. -/
def Nests (as : List Nat) (m : Machine) (a : Act) : Prop :=
  (∀ x ∈ a.audits, x ∉ as) ∨ a.audits = as ∧ ∀ x ∈ as, x < m.world.reports.size

instance (as : List Nat) (m : Machine) (a : Act) : Decidable (a.Nests as m) :=
  inferInstanceAs (Decidable (_ ∨ _))

/-- The act in the run without audits, which makes no reports. -/
def bare? : Act → Option Act
  | edit (.report _) => none
  | a => some (a.reaudit fun _ => [])

end Act

variable {f : List Nat → List Nat}

theorem Subscriber.Fresh.reaudit {s : Subscriber} (hs : s.Fresh) : s.reaudit f = s := by
  cases hs <;> rfl

theorem Act.Permitted.reaudit_eq {a : Act} {m : Machine} (ha : a.Permitted m)
    (hf : f a.audits = a.audits) : a.reaudit f = a := by
  cases a with
  | invoke c =>
    cases c with
    | ask q => exact ha.2.elim
    | tell i msg =>
      cases msg with
      | subscription link =>
        exact congrArg (fun l => Act.invoke (.tell i (.subscription ⟨l, link.tap⟩))) hf
      | _ => rfl
    | subscribe source i =>
      exact congrArg (fun l => Act.invoke (.subscribe ⟨l, source.origin⟩ i)) hf
    | attach source i => exact congrArg (fun l => Act.invoke (.attach ⟨l, source.origin⟩ i)) hf
    | request link d => exact congrArg (fun l => Act.invoke (.request ⟨l, link.tap⟩ d)) hf
    | cancel link => exact congrArg (fun l => Act.invoke (.cancel ⟨l, link.tap⟩)) hf
    | _ => rfl
  | edit e =>
    cases e with
    | subscriber s => exact congrArg (fun s => Act.edit (.subscriber s)) ha.2.reaudit
    | _ => rfl
  | _ => rfl

theorem Act.Permitted.reaudit {a : Act} {m : Machine} (ha : a.Permitted m)
    (rs : Array Audit.Report) : (a.reaudit f).Permitted (m.reaudit f rs) := by
  have hidle (hm : m.Idle) : (m.reaudit f rs).Idle := by
    obtain ⟨o, ho⟩ := hm
    exact ⟨o.reaudit f, congrArg (Control.reaudit · f) ho⟩
  have hfresh {source : Source} (hs : source.Fresh m.world) :
      (source.reaudit f).Fresh (m.reaudit f rs).world := by
    obtain ⟨as, origin⟩ := source
    cases origin with
    | stream i pace =>
      refine ⟨hs.1, fun d x hx => ?_⟩
      rw [Machine.getElem?_drivers_reaudit] at hx
      obtain ⟨y, hy, rfl⟩ := Option.map_eq_some_iff.mp hx
      exact hs.2 d y hy
    | _ => trivial
  cases a with
  | step => trivial
  | clock now => trivial
  | attend => exact hidle ha
  | reply r => exact hidle ha
  | raise why => exact hidle ha
  | begin t => exact ⟨hidle ha.1, ha.2⟩
  | invoke c =>
    refine ⟨hidle ha.1, ?_⟩
    cases c with
    | subscribe source i => exact hfresh ha.2
    | attach source i => exact hfresh ha.2
    | _ => exact ha.2
  | edit e =>
    refine ⟨hidle ha.1, ?_⟩
    cases e with
    | subscriber s => exact (show (s.reaudit f).Fresh from ha.2.reaudit.symm ▸ ha.2)
    | _ => trivial

theorem World.edit_reaudit (f : List Nat → List Nat) (rs : Array Audit.Report) (w : World)
    {e : Edit} (he : ∀ limits, e ≠ .report limits) :
    (w.reaudit f rs).edit (e.reaudit f) = (w.edit e).reaudit f rs := by
  cases e with
  | report limits => exact absurd rfl (he limits)
  | subscriber s => simp only [edit, Edit.reaudit, addSubscriber, World.reaudit, Array.map_push]
  | sequence feed =>
    simp only [edit, Edit.reaudit, addSequence, World.reaudit, Array.map_push]
    rfl
  | subject =>
    have hx : Subject.map (fun dest : Outlet => dest.reaudit f) ({} : Subject Outlet) = {} := by
      simp only [Subject.map, Array.map_empty]
    simp only [edit, Edit.reaudit, addSubject, World.reaudit, Array.map_push, hx]
  | manual =>
    simp only [edit, Edit.reaudit, addManual, World.reaudit, Array.map_push]
    rfl
  | dropManual i =>
    simp only [edit, Edit.reaudit, dropManual, World.reaudit, Array.map_setIfInBounds]
    rfl
  | dropStream i => exact dropStream_reaudit f rs w i
  | _ => rfl

namespace Machine

variable {m : Machine} {rs : Array Audit.Report} {a : Act}

def reportsAfter (m : Machine) (f : List Nat → List Nat) (rs : Array Audit.Report) :
    Act → Array Audit.Report
  | .edit (.report limits) => rs.push { limits := limits }
  | .step =>
    match m.control with
    | .calling (.request link d) =>
      (Audit.record m.world.auditClock d rs (f link.audits)).1
    | _ => rs
  | _ => rs

def Unstopped (m : Machine) (f : List Nat → List Nat) (rs : Array Audit.Report) (a : Act) : Prop :=
  a = .step → ∀ link d, m.control = .calling (.request link d) →
    (Audit.record m.world.auditClock d rs (f link.audits)).2 = none

theorem grown_reportsAfter (m : Machine) (f : List Nat → List Nat) (rs : Array Audit.Report)
    (a : Act) : Audit.Grown rs (m.reportsAfter f rs a) := by
  unfold reportsAfter
  split
  · exact Audit.grown_push rs _
  · split
    · exact Audit.grown_record _ _ rs _
    · exact .refl rs
  · exact .refl rs

theorem reportsAfter_cases (m : Machine) (f : List Nat → List Nat) (rs : Array Audit.Report)
    (a : Act) : m.reportsAfter f rs a = rs ∨
    (∃ limits, m.reportsAfter f rs a = rs.push { limits := limits }) ∨
    ∃ link d, a = .step ∧ m.control = .calling (.request link d) ∧
      m.reportsAfter f rs a = (Audit.record m.world.auditClock d rs (f link.audits)).1 := by
  unfold reportsAfter
  split
  next limits => exact .inr (.inl ⟨limits, rfl⟩)
  next =>
    split
    next link d hc => exact .inr (.inr ⟨link, d, rfl, hc, rfl⟩)
    next => exact .inl rfl
  next => exact .inl rfl

theorem step_request {link : Link} {d : Demand} (hc : m.control = .calling (.request link d)) :
    m.step = m.request link d := by
  simp only [step, hc, enter]

theorem reportsAfter_step (hc : ∀ link d, m.control ≠ .calling (.request link d)) :
    m.reportsAfter f rs .step = rs := by
  simp only [reportsAfter]

theorem act_reaudit (hm : m.Unstopped id m.world.reports a) (hf : m.Unstopped f rs a) :
    (m.reaudit f rs).act (a.reaudit f) = (m.act a).reaudit f (m.reportsAfter f rs a) := by
  cases a with
  | step =>
    by_cases hc : ∃ link d, m.control = .calling (.request link d)
    · obtain ⟨link, d, hc⟩ := hc
      have hc' : (m.reaudit f rs).control = .calling (.request (link.reaudit f) d) :=
        congrArg (Control.reaudit · f) hc
      simp only [act, Act.reaudit, step_request hc, step_request hc', reportsAfter, hc]
      exact request_reaudit f rs m link d (hm rfl link d hc) (hf rfl link d hc)
    · have hc (link : Link) (d : Demand) : m.control ≠ .calling (.request link d) :=
        fun h => hc ⟨link, d, h⟩
      rw [reportsAfter_step hc]
      exact step_reaudit f rs m hc
  | attend => rfl
  | invoke c => rfl
  | begin t => rfl
  | reply r =>
    obtain ⟨w, stack, control⟩ := m
    cases stack with
    | nil => rfl
    | cons x rest => cases x <;> rfl
  | raise why =>
    obtain ⟨w, stack, control⟩ := m
    cases stack with
    | nil => rfl
    | cons x rest => cases x <;> rfl
  | clock now => rfl
  | edit e =>
    cases e with
    | report limits => rfl
    | _ =>
      exact congrArg (fun w => Machine.mk w _ _)
        (World.edit_reaudit f rs m.world fun _ h => nomatch h)

/-- The rule `f` leaves every list of audits in the machine as it is. -/
def Within (m : Machine) (f : List Nat → List Nat) : Prop := m.reaudit f m.world.reports = m

theorem within_empty : ({} : Machine).Within f := by
  simp only [Within, reaudit, World.reaudit, Array.map_empty, List.map_nil, Control.reaudit,
    Outcome.reaudit]

theorem Within.control (h : m.Within f) : m.control.reaudit f = m.control :=
  congrArg Machine.control h

theorem Within.request_eq (h : m.Within f) {link : Link} {d : Demand}
    (hc : m.control = .calling (.request link d)) : f link.audits = link.audits := by
  have hl := h.control
  rw [hc] at hl
  injection hl with hl
  injection hl with hl
  exact congrArg Link.audits hl

theorem Within.unstopped (h : m.Within f) (hp : m.Unstopped id m.world.reports a) :
    m.Unstopped f m.world.reports a := by
  intro ha link d hc
  rw [h.request_eq hc]
  exact hp ha link d hc

theorem Within.act_eq (h : m.Within f) (ha : a.reaudit f = a)
    (hp : m.Unstopped id m.world.reports a) :
    m.act a = (m.act a).reaudit f (m.reportsAfter f m.world.reports a) := by
  have hr := act_reaudit hp (h.unstopped hp)
  rwa [h, ha] at hr

theorem Within.reports_act (h : m.Within f) (ha : a.reaudit f = a)
    (hp : m.Unstopped id m.world.reports a) :
    (m.act a).world.reports = m.reportsAfter f m.world.reports a :=
  congrArg (·.world.reports) (h.act_eq ha hp)

theorem request_of_raised {link : Link} {d : Demand} {v : Audit.Violation}
    (hr : (Audit.record m.world.auditClock d m.world.reports link.audits).2 = some v) :
    m.request link d =
      { m.withReports (Audit.record m.world.auditClock d m.world.reports link.audits).1 with
        control := .unwinding (.violation v) } := by
  unfold request
  rw [m.world.audit_eq d link.audits, hr]
  rfl

theorem unstopped_or_raised (m : Machine) (a : Act) : m.Unstopped id m.world.reports a ∨
    ∃ link d v, a = .step ∧ m.control = .calling (.request link d) ∧
      (Audit.record m.world.auditClock d m.world.reports link.audits).2 = some v := by
  by_cases h : ∃ link d v, a = .step ∧ m.control = .calling (.request link d) ∧
      (Audit.record m.world.auditClock d m.world.reports link.audits).2 = some v
  · exact .inr h
  · refine .inl fun ha link d hc => Option.eq_none_iff_forall_ne_some.mpr fun v hv => ?_
    exact h ⟨link, d, v, ha, hc, hv⟩

theorem Within.act (h : m.Within f) (ha : a.reaudit f = a) :
    (m.act a).Within f ∧ Audit.Grown m.world.reports (m.act a).world.reports := by
  obtain hp | ⟨link, d, v, rfl, hc, hv⟩ := m.unstopped_or_raised a
  · have hr := h.reports_act ha hp
    refine ⟨?_, hr ▸ grown_reportsAfter m f _ a⟩
    rw [Within, hr]
    exact (h.act_eq ha hp).symm
  · have hm : m.act .step = _ := (step_request hc).trans (request_of_raised hv)
    rw [hm]
    refine ⟨?_, Audit.grown_record _ d _ link.audits⟩
    exact congrArg (fun n : Machine =>
      { n.withReports (Audit.record m.world.auditClock d m.world.reports link.audits).1 with
        control := .unwinding (.violation v) }) h

theorem unstopped_of_allUnraised (hm : Audit.AllUnraised (m.act a).world.reports) :
    m.Unstopped id m.world.reports a := by
  obtain hp | ⟨link, d, v, rfl, hc, hv⟩ := m.unstopped_or_raised a
  · exact hp
  · have hs : m.act .step = _ := (step_request hc).trans (request_of_raised hv)
    rw [hs] at hm
    exact nomatch hv.symm.trans (Audit.record_snd_eq_none _ d hm)

theorem Within.allUnraised {acts : List Act} (h : m.Within id)
    (hp : Act.Throughout Act.Permitted m acts)
    (hm : Audit.AllUnraised (m.perform acts).world.reports) :
    Audit.AllUnraised m.world.reports := by
  induction acts generalizing m with
  | nil => exact hm
  | cons a acts ih =>
    obtain ⟨hw, hg⟩ := h.act (hp.1.reaudit_eq rfl)
    exact hg.allUnraised (ih hw hp.2 hm)

/-- The machine without its audits and reports. -/
def bare (m : Machine) : Machine := m.reaudit (fun _ => []) #[]

theorem act_bare (hp : m.Unstopped id m.world.reports a) :
    (m.bare).act (a.reaudit fun _ => []) =
      (m.act a).reaudit (fun _ => []) (m.reportsAfter (fun _ => []) #[] a) :=
  act_reaudit hp fun _ _ _ _ => rfl

theorem reportsAfter_bare (ha : ∀ limits, a ≠ .edit (.report limits)) :
    m.reportsAfter (fun _ => []) #[] a = #[] := by
  unfold reportsAfter
  split
  · exact absurd rfl (ha _)
  · split <;> rfl
  · rfl

/-- One run follows the other: the acts of the one, its audits left out, do the same to it. -/
theorem perform_bare {acts : List Act} (h : m.Within id)
    (hp : Act.Throughout Act.Permitted m acts)
    (hm : Audit.AllUnraised (m.perform acts).world.reports) :
    Act.Throughout Act.Permitted m.bare (acts.filterMap Act.bare?) ∧
      m.bare.perform (acts.filterMap Act.bare?) = (m.perform acts).bare := by
  induction acts generalizing m with
  | nil => exact ⟨trivial, rfl⟩
  | cons a acts ih =>
    have hw := (h.act (hp.1.reaudit_eq rfl)).1
    obtain ⟨hrest, heq⟩ := ih hw hp.2 hm
    by_cases ha : ∃ limits, a = .edit (.report limits)
    · obtain ⟨limits, rfl⟩ := ha
      exact ⟨hrest, heq⟩
    · have ha (limits : Audit.Limits) : a ≠ .edit (.report limits) := fun h => ha ⟨limits, h⟩
      have hb : Act.bare? a = some (a.reaudit fun _ => []) := by
        unfold Act.bare?
        split
        · exact absurd rfl (ha _)
        · rfl
      have hact := act_bare (unstopped_of_allUnraised (hw.allUnraised hp.2 hm))
      rw [reportsAfter_bare ha] at hact
      rw [List.filterMap_cons_some hb]
      refine ⟨⟨hp.1.reaudit #[], ?_⟩, ?_⟩
      · rw [hact]
        exact hrest
      · change (m.bare.act _).perform _ = _
        rw [hact]
        exact heq

def apart (as l : List Nat) : List Nat := if ∀ x ∈ l, x ∉ as then l else []

def whole (as l : List Nat) : List Nat := if (∀ x ∈ l, x ∉ as) ∨ l = as then l else []

/-- The reports `as` hold the same. Until all of them are made nothing refers to them. -/
structure Nested (as : List Nat) (m : Machine) : Prop where
  whole : m.Within (whole as)
  alike : ∃ ds, (m.Within (apart as) ∧ ds = [] ∨ ∀ x ∈ as, x < m.world.reports.size) ∧
    ∀ x ∈ as, ∀ r, m.world.reports[x]? = some r → r.requests = ds ∧ r.total = Demand.sum ds

theorem apart_eq {as l : List Nat} (h : ∀ x ∈ l, x ∉ as) : apart as l = l := if_pos h

theorem whole_eq {as l : List Nat} (h : (∀ x ∈ l, x ∉ as) ∨ l = as) : whole as l = l := if_pos h

theorem of_whole_eq {as l : List Nat} (h : whole as l = l) : (∀ x ∈ l, x ∉ as) ∨ l = as := by
  unfold whole at h
  split at h
  · assumption
  · exact .inl fun x hx => absurd (h ▸ hx) List.not_mem_nil

theorem eq_nil_of_apart_eq {as : List Nat} (h : apart as as = as) : as = [] := by
  unfold apart at h
  split at h
  next ha => exact List.eq_nil_iff_forall_not_mem.mpr fun x hx => ha x hx hx
  next => exact h.symm

theorem nested_empty (as : List Nat) : ({} : Machine).Nested as where
  whole := within_empty
  alike := ⟨[], .inl ⟨within_empty, rfl⟩, fun x _ r hr => by
    simp only [Array.getElem?_empty, reduceCtorEq] at hr⟩

theorem Nested.act {as : List Nat} (h : m.Nested as) (hn : as.Nodup) (ha : a.Permitted m)
    (hna : a.Nests as m) (hp : m.Unstopped id m.world.reports a) : (m.act a).Nested as := by
  have hfix : a.reaudit (Machine.whole as) = a :=
    ha.reaudit_eq (whole_eq (hna.imp_right And.left))
  obtain ⟨hw, hg⟩ := h.whole.act hfix
  obtain ⟨ds, hmade, hds⟩ := h.alike
  refine ⟨hw, ?_⟩
  have hrs := h.whole.reports_act hfix hp
  have hsize {x : Nat} (hx : x < m.world.reports.size) : x < (m.act a).world.reports.size := by
    obtain ⟨r, hr, -⟩ := hg x _ (Array.getElem?_eq_getElem hx)
    exact (Array.getElem?_eq_some_iff.mp hr).1
  have hmade' : (m.act a).Within (apart as) ∧ ds = [] ∨
      ∀ x ∈ as, x < (m.act a).world.reports.size := by
    obtain hout | ⟨-, hex⟩ := hna
    · exact hmade.imp (fun ha' => ⟨(ha'.1.act (ha.reaudit_eq (apart_eq hout))).1, ha'.2⟩)
        fun hex x hx => hsize (hex x hx)
    · exact .inr fun x hx => hsize (hex x hx)
  obtain he | ⟨limits, he⟩ | ⟨link, d, hstep, hc, he⟩ :=
    m.reportsAfter_cases (Machine.whole as) m.world.reports a
  · rw [hrs, he]
    exact ⟨ds, he ▸ hrs ▸ hmade', hds⟩
  · refine ⟨ds, hmade', fun x hx r hr => ?_⟩
    rw [hrs, he, Array.getElem?_push] at hr
    split at hr
    next hlt =>
      obtain rfl := Option.some.inj hr
      obtain ⟨-, rfl⟩ | hex := hmade
      · exact ⟨rfl, rfl⟩
      · exact absurd (hex x hx) (by omega)
    next => exact hds x hx r hr
  · have hl := h.whole.request_eq hc
    rw [hl] at he
    obtain hout | hl := of_whole_eq hl
    · refine ⟨ds, hmade', fun x hx r hr => hds x hx r ?_⟩
      rwa [hrs, he, Audit.getElem?_record_of_notMem _ d fun hm => hout x hm hx] at hr
    · have hex : ∀ x ∈ as, x < m.world.reports.size := by
        obtain ⟨hap, -⟩ | hex := hmade
        · have hnil := hap.request_eq hc
          rw [hl] at hnil
          rw [eq_nil_of_apart_eq hnil]
          exact fun x hx => absurd hx List.not_mem_nil
        · exact hex
      refine ⟨ds ++ [d], .inr fun x hx => hsize (hex x hx), fun x hx r hr => ?_⟩
      have hnone := hp hstep link d hc
      simp only [id, hl] at hnone
      rw [hrs, he, hl, Audit.getElem?_record _ d hn hnone] at hr
      obtain ⟨before, hb, rfl⟩ := Option.map_eq_some_iff.mp hr
      obtain ⟨hreq, htot⟩ := hds x hx before hb
      simp only [hx, if_true, Audit.Report.observe, hreq, htot, Demand.sum, List.foldl_append,
        List.foldl_cons, List.foldl_nil, and_self]

theorem Nested.perform {as : List Nat} {acts : List Act} (h : m.Nested as) (hn : as.Nodup)
    (hw : m.Within id) (hp : Act.Throughout Act.Permitted m acts)
    (hna : Act.Throughout (fun m a => a.Nests as m) m acts)
    (hm : Audit.AllUnraised (m.perform acts).world.reports) : (m.perform acts).Nested as := by
  induction acts generalizing m with
  | nil => exact h
  | cons a acts ih =>
    have hw' := (hw.act (hp.1.reaudit_eq rfl)).1
    have hpass := unstopped_of_allUnraised (hw'.allUnraised hp.2 hm)
    exact ih (h.act hn hp.1 hna.1 hpass) hw' hp.2 hna.2 hm

/-- Audits are transparent as long as no report raises: the acts of a run, without the audits, make
the run without audits, and that is permitted too. All it lacks are the audits on links, outlets
and sources and the reports. The reports of monitors that are nested in one another hold the same
requests and the sum of them, whatever their limits are. -/
theorem audits_transparent {acts : List Act} (hp : Act.Throughout Act.Permitted {} acts)
    (hm : ∀ (i : Nat) r, (perform {} acts).world.reports[i]? = some r →
      r.limits.raises = false ∨ r.violations = []) :
    Act.Throughout Act.Permitted {} (acts.filterMap Act.bare?) ∧
      perform {} (acts.filterMap Act.bare?) = (perform {} acts).bare ∧
      ∀ as : List Nat, as.Nodup → Act.Throughout (fun m a => a.Nests as m) {} acts →
        ∃ ds, ∀ x ∈ as, ∀ r, (perform {} acts).world.reports[x]? = some r →
          r.requests = ds ∧ r.total = Demand.sum ds := by
  have hbare : ({} : Machine).bare = {} := within_empty
  obtain ⟨hpb, heq⟩ := perform_bare within_empty hp hm
  rw [hbare] at hpb heq
  refine ⟨hpb, heq, fun as hn hna => ?_⟩
  obtain ⟨ds, -, hds⟩ := ((nested_empty as).perform hn within_empty hp hna hm).alike
  exact ⟨ds, hds⟩

/-- A sequence behind two monitors, the inner of which counts a violation at every request but the
first. The second request is made while the first value is delivered. -/
def requestsAmidDelivery : List Act :=
  [.edit (.report ⟨some .unlimited, none, none, true⟩),
    .edit (.report ⟨none, some .one, none, false⟩), .edit (.sequence (.items [some 1, some 2])),
    .edit (.subscriber .custom), .invoke (.subscribe ⟨[0, 1], .sequence 0⟩ 0)] ++
  .replicate 5 .step ++ .clock ⟨3⟩ :: .invoke (.request ⟨[0, 1], .sequence 0⟩ .one) ::
  .replicate 3 .step ++ .invoke (.request ⟨[0, 1], .sequence 0⟩ (.upTo 2)) ::
  .replicate 2 .step ++ .reply (.demand .zero) :: .replicate 7 .step

/-- Every request is recorded by both monitors, and the value is delivered as it is without them. -/
theorem audits_transparent_amid_delivery :
    perform {} (requestsAmidDelivery.filterMap Act.bare?) = (perform {} requestsAmidDelivery).bare ∧
      (perform {} requestsAmidDelivery).control = .idle (.asked (.value 0 2)) ∧
      (perform {} requestsAmidDelivery).world.reports.map (·.requests) =
        #[[.one, .upTo 2], [.one, .upTo 2]] ∧
      (perform {} requestsAmidDelivery).world.reports.map (·.violations.length) = #[0, 1] ∧
      ∃ ds, ∀ x ∈ [0, 1], ∀ r, (perform {} requestsAmidDelivery).world.reports[x]? = some r →
        r.requests = ds ∧ r.total = Demand.sum ds := by
  have hp : Act.Throughout Act.Permitted {} requestsAmidDelivery := by
    refine ⟨⟨⟨_, rfl⟩, trivial⟩, ⟨⟨_, rfl⟩, trivial⟩, ⟨⟨_, rfl⟩, trivial⟩, ⟨⟨_, rfl⟩, .custom⟩,
      ⟨⟨_, rfl⟩, trivial⟩, trivial, trivial, trivial, trivial, trivial, trivial,
      ⟨⟨_, rfl⟩, trivial⟩, trivial, trivial, trivial, ⟨⟨_, rfl⟩, trivial⟩, trivial, trivial,
      ⟨_, rfl⟩, trivial, trivial, trivial, trivial, trivial, trivial, trivial, trivial⟩
  have hm : ∀ (i : Nat) r, (perform {} requestsAmidDelivery).world.reports[i]? = some r →
      r.limits.raises = false ∨ r.violations = [] := by
    rintro (_ | _ | i) r hr
    · obtain rfl := Option.some.inj hr
      exact .inr rfl
    · obtain rfl := Option.some.inj hr
      exact .inl rfl
    · nomatch hr
  obtain ⟨-, hbare, hnested⟩ := audits_transparent hp hm
  exact ⟨hbare, rfl, by decide +kernel, by decide +kernel,
    hnested [0, 1] (by decide) (by decide +kernel)⟩

end Machine
end Sluice
