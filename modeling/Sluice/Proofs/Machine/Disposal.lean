import Sluice.Proofs.Machine.Spares

/-!
# Dropped handles get closed

In every run without a panic, a handle that was dropped and is not closed yet is being
closed, or a call runs through it that will close it.
-/

namespace Sluice

def Frame.handle? : Frame → Option Nat
  | handle h _ | closing h => some h
  | _ => none

/-- No dropped handle is forgotten. -/
def Outline.Disposes (o : Outline) : Prop :=
  ∀ (h : Nat) x, o.roll.handles[h]? = some x → x.state = .dropped →
    ∃ f ∈ o.bonds, f.handle? = some h

theorem Frame.handle_of_refuses {f : Frame} {i : Nat} (h : f.refuses? = some i) :
    f.handle? = none := by
  cases f with
  | handle n left => cases h
  | closing n => cases h
  | _ => rfl

theorem Frame.Lapses.handle {f : Frame} (h : f.Lapses) : f.handle? = none := by
  cases f with
  | handle n left => exact h.elim
  | closing n => exact h.elim
  | _ => rfl

theorem Roll.handles_release (l : Roll) (tap : Tap) : (l.release tap).handles = l.handles := by
  cases tap with
  | subject n e =>
    simp only [release]
    split
    · rfl
    · rfl
  | driver d =>
    simp only [release]
    split
    · rfl
    · rfl
  | _ => rfl

namespace Outline.Disposes

variable {l l' : Roll} {b b' : List Frame} {k k' : Control} {n : Nat} {state : HandleState}

theorem keep (h : Disposes ⟨l, b, k⟩) (hh : l'.handles = l.handles)
    (hb : ∀ f ∈ b, f.handle? ≠ none → f ∈ b') : Disposes ⟨l', b', k'⟩ := by
  intro n x hx hd
  obtain ⟨f, hf, hn⟩ := h n x (hh ▸ hx) hd
  exact ⟨f, hb f hf (by simp [hn]), hn⟩

theorem mem_pop {f g : Frame} (hg : g.handle? = none) (hf : f ∈ g :: b) (hne : f.handle? ≠ none) :
    f ∈ b := by
  refine List.mem_of_ne_of_mem ?_ hf
  rintro rfl
  exact hne hg

theorem setHandle (h : Disposes ⟨l, b, k⟩) (hb : ∀ f ∈ b, f.handle? ≠ some n → f ∈ b')
    (hself : state = .dropped → ∃ f ∈ b', f.handle? = some n) :
    Disposes ⟨l.setHandle n state, b', k'⟩ := by
  intro n' x hx hd
  obtain ⟨y, hy, rfl⟩ :=
    Option.map_eq_some_iff.mp ((l.getElem?_setHandle n state n').symm.trans hx)
  by_cases hn : n = n'
  · subst hn
    rw [if_pos rfl] at hd
    exact hself hd
  · rw [if_neg hn] at hd
    obtain ⟨f, hf, hn'⟩ := h n' y hy hd
    refine ⟨f, hb f hf fun he => hn ?_, hn'⟩
    exact Option.some.inj (he.symm.trans hn')

theorem outlineStep {o o' : Outline} (h : o.Disposes) (hs : o.Step o') : o'.Disposes := by
  cases hs with
  | keepsRoll => exact h.keep rfl fun _ hf _ => hf
  | begins => exact h.keep rfl fun _ hf _ => hf
  | change hl => exact h.keep hl.handles fun _ hf _ => hf
  | heard => exact h.keep rfl fun _ hf _ => hf
  | attach => exact h.keep rfl fun _ hf _ => hf
  | opening => exact h.keep rfl fun _ hf _ => .tail _ hf
  | opened => exact h.keep rfl fun _ => mem_pop rfl
  | exhausted => exact h.keep rfl fun _ hf hne => .tail _ (mem_pop rfl hf hne)
  | enlisted => exact h.keep rfl fun _ hf _ => hf
  | late => exact h.keep rfl fun _ hf _ => .tail _ hf
  | kept => exact h.keep rfl fun _ hf _ => hf
  | driven => exact h.keep rfl fun _ hf _ => .tail _ hf
  | cancelled => exact h.keep (Roll.handles_release _ _) fun _ hf _ => hf
  | rejected hf => exact h.keep rfl fun _ => mem_pop (Frame.handle_of_refuses hf)
  | finished => exact h.keep rfl fun _ hf _ => hf
  | closed => exact h.keep rfl fun _ hf _ => hf
  | completes => exact h.keep rfl fun _ hf _ => .tail _ hf
  | goesOn => exact h.keep rfl fun _ hf hne => .tail _ (mem_pop rfl hf hne)
  | concludes => exact h.keep rfl fun _ hf _ => .tail _ hf
  | stopped => exact h.keep rfl fun _ hf _ => hf
  | parted => exact h.keep rfl fun _ => mem_pop rfl
  | lapsed hf => exact h.keep rfl fun _ => mem_pop hf.handle
  | attached =>
    intro n x hx hd
    rw [Array.getElem?_push] at hx
    split at hx
    · obtain rfl := Option.some.inj hx
      cases hd
    · exact h n x hx hd
  | uses => exact h.keep rfl fun _ hf _ => .tail _ hf
  | usesOn =>
    intro n x hx hd
    obtain ⟨f, hf, hn⟩ := h n x hx hd
    rcases List.mem_cons.mp hf with rfl | hf
    · exact ⟨_, List.mem_cons_self, hn⟩
    · exact ⟨f, .tail _ hf, hn⟩
  | used hlast =>
    intro n x hx hd
    obtain ⟨f, hf, hn⟩ := h n x hx hd
    rcases List.mem_cons.mp hf with rfl | hf
    · obtain rfl := Option.some.inj hn
      obtain ⟨left, hmem⟩ := hlast x hx hd
      exact ⟨_, hmem, rfl⟩
    · exact ⟨f, hf, hn⟩
  | lastUsed =>
    intro n x hx hd
    obtain ⟨f, hf, hn⟩ := h n x hx hd
    rcases List.mem_cons.mp hf with rfl | hf
    · exact ⟨_, List.mem_cons_self, hn⟩
    · exact ⟨f, .tail _ hf, hn⟩
  | dropped hf => exact h.setHandle (fun _ hf _ => hf) fun _ => ⟨_, hf, rfl⟩
  | closes => exact h.setHandle (fun _ hf _ => .tail _ hf) fun _ => ⟨_, List.mem_cons_self, rfl⟩
  | shut =>
    refine h.setHandle (fun f hf hne => List.mem_of_ne_of_mem ?_ hf) (by simp)
    rintro rfl
    exact hne rfl

end Outline.Disposes

theorem Machine.Reached.disposes {m : Machine} (h : Reached Calm m) : m.outline.Disposes :=
  h.outline_invariant (fun n x hx => by simp [outline, World.roll] at hx) fun ho hs =>
    ho.outlineStep hs

end Sluice
