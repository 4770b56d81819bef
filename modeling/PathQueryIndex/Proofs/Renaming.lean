/-
Module: PathQueryIndex.Proofs.Renaming
Layer: Proofs
Purpose: Renamings of the numbers below a bound, and counting in lists without repetition. A map of the
  numbers below a bound to each other hits all of them if and only if it takes no value twice.
Imports: Mathlib.Data.List.Perm.Subperm, Mathlib.Data.List.Nodup
Main exports: Renaming, Renaming.exists_eq, Renaming.perm_map_range, Renaming.of_surjective,
  Renaming.exists_inverse, length_lt_of_forall_ne
-/
import Mathlib.Data.List.Perm.Subperm
import Mathlib.Data.List.Nodup

namespace PathQueryIndex

variable {n : Nat} {σ : Nat → Nat}

/-- `σ` sends the numbers below `n` to each other, no two of them to the same. -/
structure Renaming (n : Nat) (σ : Nat → Nat) : Prop where
  lt : ∀ v < n, σ v < n
  inj : ∀ v < n, ∀ w < n, σ v = σ w → v = w

namespace Renaming

theorem nodup_map_range (h : Renaming n σ) : ((List.range n).map σ).Nodup := by
  apply List.Nodup.map_on _ List.nodup_range
  intro v hv w hw heq
  exact h.inj v (List.mem_range.1 hv) w (List.mem_range.1 hw) heq

/-- A renaming only changes the order of the numbers. -/
theorem perm_map_range (h : Renaming n σ) : ((List.range n).map σ).Perm (List.range n) := by
  have hsub : (List.range n).map σ ⊆ List.range n := by
    intro w hw
    obtain ⟨v, hv, rfl⟩ := List.mem_map.1 hw
    exact List.mem_range.2 (h.lt v (List.mem_range.1 hv))
  apply (List.subperm_of_subset h.nodup_map_range hsub).perm_of_length_le
  exact Nat.le_of_eq (List.length_map _).symm

/-- Every number below the bound is the image of one. -/
theorem exists_eq (h : Renaming n σ) {w : Nat} (hw : w < n) : ∃ v < n, σ v = w := by
  obtain ⟨v, hv, heq⟩ := List.mem_map.1 (h.perm_map_range.symm.subset (List.mem_range.2 hw))
  exact ⟨v, List.mem_range.1 hv, heq⟩

/-- A map of the numbers below `n` to each other that hits all of them is a renaming. -/
theorem of_surjective (hlt : ∀ v < n, σ v < n) (hsurj : ∀ w < n, ∃ v < n, σ v = w) :
    Renaming n σ where
  lt := hlt
  inj := by
    have hsub : List.range n ⊆ (List.range n).map σ := by
      intro w hw
      obtain ⟨v, hv, heq⟩ := hsurj w (List.mem_range.1 hw)
      exact List.mem_map.2 ⟨v, List.mem_range.2 hv, heq⟩
    have hperm : (List.range n).Perm ((List.range n).map σ) := by
      apply (List.subperm_of_subset List.nodup_range hsub).perm_of_length_le
      exact Nat.le_of_eq (List.length_map _)
    have hnodup : ((List.range n).map σ).Nodup := hperm.nodup_iff.1 List.nodup_range
    intro v hv w hw heq
    exact List.inj_on_of_nodup_map hnodup (List.mem_range.2 hv) (List.mem_range.2 hw) heq

/-- A renaming can be undone. -/
theorem exists_inverse (h : Renaming n σ) : ∃ τ : Nat → Nat, ∀ v < n, τ (σ v) = v := by
  have hchoice : ∀ w, ∃ v, w < n → v < n ∧ σ v = w := by
    intro w
    by_cases hw : w < n
    · obtain ⟨v, hv, heq⟩ := h.exists_eq hw
      exact ⟨v, fun _ => ⟨hv, heq⟩⟩
    · exact ⟨w, fun hlt => absurd hlt hw⟩
  obtain ⟨τ, hτ⟩ := Classical.axiomOfChoice hchoice
  refine ⟨τ, fun v hv => ?_⟩
  obtain ⟨hlt, heq⟩ := hτ (σ v) (h.lt v hv)
  exact h.inj _ hlt v hv heq

/-- What undoes a renaming is a renaming. -/
theorem inverse {τ : Nat → Nat} (h : Renaming n σ) (hτ : ∀ v < n, τ (σ v) = v) : Renaming n τ := by
  apply of_surjective
  · intro w hw
    obtain ⟨v, hv, rfl⟩ := h.exists_eq hw
    rw [hτ v hv]
    exact hv
  · intro v hv
    exact ⟨σ v, h.lt v hv, hτ v hv⟩

end Renaming

/-- If no element of a list comes twice, all are below `n`, and one of the numbers below `n` is missing,
    the list is shorter than `n`. -/
theorem length_lt_of_forall_ne {xs : List Nat} (hnodup : xs.Nodup) (hlt : ∀ v ∈ xs, v < n) {x : Nat}
    (hx : x < n) (hne : ∀ v ∈ xs, v ≠ x) : xs.length < n := by
  have hcons : (x :: xs).Nodup := by
    apply List.nodup_cons.2
    exact ⟨fun hmem => hne x hmem rfl, hnodup⟩
  have hsub : x :: xs ⊆ List.range n := by
    intro v hv
    rcases List.mem_cons.1 hv with rfl | hv
    · exact List.mem_range.2 hx
    · exact List.mem_range.2 (hlt v hv)
  have hlen := (List.subperm_of_subset hcons hsub).length_le
  rw [List.length_cons, List.length_range] at hlen
  exact hlen

end PathQueryIndex
