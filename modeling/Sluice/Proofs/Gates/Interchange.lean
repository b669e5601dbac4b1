import Sluice.Proofs.Gates.Instances
import Sluice.Proofs.Gates.Subject
import Sluice.Proofs.Gates.Turns

/-!
# Gates that can be interchanged

An assign that is resumed by its setter, where a sink would have been told to pull, is as
good as that sink: both are shown the same values, have the same status after every call,
and are counted in the same broadcasts.
-/

namespace Sluice.Gate

open Conduct

def beside (g : Gate) (b : World) : Performance where
  machine := { world := b.hosting g.fresh #[⟨0, 0⟩] #[] }

def newSequence (feed : Feed) : World := sequenceBase {} feed #[] [0]

def newSubject : World := subjectBase {}

/-- Nobody can tell two gates apart by some pulls on a sequence or some deeds on a subject. -/
structure Interchangeable (k k' : Conduct) (g g' : Gate) (feed : Feed) (cs : List Pull)
    (ds : List Deed) : Prop where
  sequence : Alike k k' (g.beside (newSequence feed)) (g'.beside (newSequence feed))
    (cs.map Pull.call)
  subject : Alike k k' (g.beside newSubject) (g'.beside newSubject) (ds.map Deed.call)
  returns : ∃ p, k.Plays (g.beside newSubject) (ds.map Deed.call) p

variable {R : Nat → Bool} {k k' : Conduct} {fit fit' : World → Prop} {g g' : Gate}

theorem beside_idles (g : Gate) (R : Nat → Bool) (feed : Feed) :
    Idles g R #[] [0] (.awaiting feed) [] .start (g.beside (newSequence feed)) :=
  ⟨_, .awaiting feed, #[⟨0, 0⟩], #[], rfl⟩

theorem beside_keeps (g : Gate) (R : Nat → Bool) :
    Keeps g R (.awaiting none) [] .start (g.beside newSubject) :=
  ⟨_, .awaiting none, #[⟨0, 0⟩], #[], rfl⟩

theorem interchangeable_of_lets (hg : g.Lets k R fit) (hfit : ∀ b, OneHandle b → fit b)
    (hg' : g'.Lets k' R fit') (hfit' : ∀ b, OneHandle b → fit' b) (feed : Feed) {cs : List Pull}
    (hcs : cs.count .subscribe ≤ 1) {ds : List Deed} (hds : ds.countP Deed.subscribes ≤ 1) :
    Interchangeable k k' g g' feed cs ds := by
  have hseq (q : Sequence Outlet) (feed : Feed) : fit (sequenceBase q feed #[] [0]) :=
    hfit _ (.inl rfl)
  have hseq' (q : Sequence Outlet) (feed : Feed) : fit' (sequenceBase q feed #[] [0]) :=
    hfit' _ (.inl rfl)
  have hsub (s : Subject Outlet) : fit (subjectBase s) := hfit _ (.inl rfl)
  have hsub' (s : Subject Outlet) : fit' (subjectBase s) := hfit' _ (.inl rfl)
  have hi : Idles g R #[] [0] _ _ _ _ := beside_idles g R feed
  have hi' : Idles g' R #[] [0] _ _ _ _ := beside_idles g' R feed
  have hk : Keeps g R _ _ _ _ := beside_keeps g R
  have hk' : Keeps g' R _ _ _ _ := beside_keeps g' R
  refine ⟨⟨fun r st vs => ⟨?_, ?_⟩, fun vs => ⟨?_, ?_⟩⟩, ⟨fun r st vs => ⟨?_, ?_⟩,
    fun vs => ⟨?_, ?_⟩⟩, ?_⟩
  · exact returns_of hg hseq hg' hseq' hi hi' rfl hcs
  · exact returns_of hg' hseq' hg hseq hi' hi rfl hcs
  · exact sees_of hg hseq hg' hseq' hi hi' rfl hcs
  · exact sees_of hg' hseq' hg hseq hi' hi rfl hcs
  · exact keeps_returns_of hg hsub hg' hsub' hk hk' rfl hds
  · exact keeps_returns_of hg' hsub' hg hsub hk' hk rfl hds
  · exact keeps_sees_of hg hsub hg' hsub' hk hk' rfl hds
  · exact keeps_sees_of hg' hsub' hg hsub hk' hk rfl hds
  · obtain ⟨-, -, -, -, p, -, -, -, -, hp, -⟩ := keeps_plays hg hsub hg' hsub' hk hk' rfl hds
    exact ⟨p, hp⟩

/-- A sink lets the values at the places `R` pass. An assign that stops after each value, whose
setter resumes it at these places, once or more often, does as well as the sink; and so does one
that never stops, if `R` is all places. -/
theorem sink_interchangeable (R : Nat → Bool) (extra : Nat → Nat) (feed : Feed) {cs : List Pull}
    (hcs : cs.count .subscribe ≤ 1) {ds : List Deed} (hds : ds.countP Deed.subscribes ≤ 1) :
    Interchangeable (deciding R fun _ => []) (resuming fun n => if R n then extra n + 1 else 0)
        sink (assign .thenStop) feed cs ds ∧
      Interchangeable (deciding (fun _ => true) fun _ => []) (resuming fun _ => 0)
        sink (assign .allTheTime) feed cs ds := by
  constructor
  · have hR : (fun n => decide (0 < if R n then extra n + 1 else 0)) = R := by
      funext n
      cases R n <;> simp
    have hassign := thenStop_lets fun n => if R n then extra n + 1 else 0
    rw [hR] at hassign
    exact interchangeable_of_lets (sink_lets R fun _ => []) (fun _ hb => hb) hassign
      (fun _ _ => trivial) feed hcs hds
  · exact interchangeable_of_lets (sink_lets _ fun _ => []) (fun _ hb => hb) allTheTime_lets
      (fun _ _ => trivial) feed hcs hds

theorem sink_interchangeable_alternating :
    [Pull.subscribe, .resume, .cancel].count .subscribe ≤ 1 ∧
    [Deed.send 1, .subscribe, .send 2, .send 3, .resume, .complete .finished].countP
      Deed.subscribes ≤ 1 ∧
    Interchangeable (deciding (fun n => n % 2 == 0) fun _ => [])
      (resuming fun n => if n % 2 == 0 then 1 else 0) sink (assign .thenStop)
      (.items [some 1, some 2, some 3, some 4]) [.subscribe, .resume, .cancel]
      [.send 1, .subscribe, .send 2, .send 3, .resume, .complete .finished] :=
  ⟨by decide, by decide, (sink_interchangeable (fun n => n % 2 == 0) (fun _ => 0) _ (by decide)
    (by decide)).1⟩

end Sluice.Gate
