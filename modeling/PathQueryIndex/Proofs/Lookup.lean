/-
Module: PathQueryIndex.Proofs.Lookup
Layer: Proofs
Purpose: Look-ups in a map of pairs after many entries were put in or taken out, one after the other.
Imports: PathQueryIndex.Pair, Std.Data.TreeMap
Main exports: getElem?_foldl_insert_of_mem, getElem?_foldl_insert_of_forall_ne, getElem?_foldl_insert_const,
  getElem?_foldl_erase
-/
import PathQueryIndex.Pair
import Std.Data.TreeMap

namespace PathQueryIndex

open Std

variable {α β : Type} {m : TreeMap Pair β} {key : α → Pair} {value : α → β} {pair : Pair}

/-- Entries for other pairs do not change what a pair has. -/
theorem getElem?_foldl_insert_of_forall_ne {xs : List α} (h : ∀ x ∈ xs, key x ≠ pair) :
    (xs.foldl (fun m x => m.insert (key x) (value x)) m)[pair]? = m[pair]? := by
  induction xs generalizing m with
  | nil => rfl
  | cons x xs ih =>
      have hx : compare (key x) pair ≠ .eq := fun heq =>
        h x (List.mem_cons_self ..) (LawfulEqCmp.eq_of_compare heq)
      rw [List.foldl_cons, ih fun y hy => h y (List.mem_cons_of_mem _ hy), TreeMap.getElem?_insert,
        if_neg hx]

/-- If no pair has two entries, each has the value of its entry. -/
theorem getElem?_foldl_insert_of_mem {xs : List α} (hnodup : (xs.map key).Nodup) {x : α}
    (hx : x ∈ xs) : (xs.foldl (fun m x => m.insert (key x) (value x)) m)[key x]? = some (value x) := by
  induction xs generalizing m with
  | nil => cases hx
  | cons y ys ih =>
      obtain ⟨hy, hys⟩ := List.nodup_cons.1 hnodup
      rw [List.foldl_cons]
      rcases List.mem_cons.1 hx with rfl | hx
      · have hother : ∀ z ∈ ys, key z ≠ key x := fun z hz heq => hy (heq ▸ List.mem_map_of_mem hz)
        rw [getElem?_foldl_insert_of_forall_ne hother, TreeMap.getElem?_insert, if_pos compare_self]
      · exact ih hys hx

/-- Some pairs get the same value, and the others keep theirs. -/
theorem getElem?_foldl_insert_const {pairs : List Pair} {b : β} :
    (pairs.foldl (fun m p => m.insert p b) m)[pair]? = if pair ∈ pairs then some b else m[pair]? := by
  induction pairs generalizing m with
  | nil => rw [List.foldl_nil, if_neg List.not_mem_nil]
  | cons p ps ih =>
      rw [List.foldl_cons, ih, TreeMap.getElem?_insert]
      by_cases hps : pair ∈ ps
      · rw [if_pos hps, if_pos (List.mem_cons_of_mem _ hps)]
      · rw [if_neg hps]
        by_cases hp : p = pair
        · subst hp
          rw [if_pos compare_self, if_pos (List.mem_cons_self ..)]
        · have hcmp : compare p pair ≠ .eq := fun heq => hp (LawfulEqCmp.eq_of_compare heq)
          have hmem : pair ∉ p :: ps := fun hmem => by
            rcases List.mem_cons.1 hmem with heq | hmem
            · exact hp heq.symm
            · exact hps hmem
          rw [if_neg hcmp, if_neg hmem]

/-- Some pairs lose their values, and the others keep theirs. -/
theorem getElem?_foldl_erase {pairs : List Pair} :
    (pairs.foldl (fun m p => m.erase p) m)[pair]? = if pair ∈ pairs then none else m[pair]? := by
  induction pairs generalizing m with
  | nil => rw [List.foldl_nil, if_neg List.not_mem_nil]
  | cons p ps ih =>
      rw [List.foldl_cons, ih, TreeMap.getElem?_erase]
      by_cases hps : pair ∈ ps
      · rw [if_pos hps, if_pos (List.mem_cons_of_mem _ hps)]
      · rw [if_neg hps]
        by_cases hp : p = pair
        · subst hp
          rw [if_pos compare_self, if_pos (List.mem_cons_self ..)]
        · have hcmp : compare p pair ≠ .eq := fun heq => hp (LawfulEqCmp.eq_of_compare heq)
          have hmem : pair ∉ p :: ps := fun hmem => by
            rcases List.mem_cons.1 hmem with heq | hmem
            · exact hp heq.symm
            · exact hps hmem
          rw [if_neg hcmp, if_neg hmem]

end PathQueryIndex
