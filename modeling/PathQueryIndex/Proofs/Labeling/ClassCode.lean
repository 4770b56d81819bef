/-
Module: PathQueryIndex.Proofs.Labeling.ClassCode
Layer: Proofs
Purpose: The flat code of color classes. Whatever code is accepted, the classes read from it cover all
  nodes, each of them once; and the code that is written for some classes is read as these classes, so
  that the signs of the entries are enough to tell where a class ends. A code is accepted if it names every
  node once and its last entry closes a class, and it is then the code of what is read from it.
Imports: PathQueryIndex.Labeling.Equitable, PathQueryIndex.Proofs.Outcome, PathQueryIndex.Proofs.Renaming
Main exports: covers_of_decodeClasses, decodeClasses_encodeClasses, eq_of_decodeClasses_encodeClasses,
  decodeClasses_eq_ok_iff, exists_decodeClasses_iff
-/
import PathQueryIndex.Labeling.Equitable
import PathQueryIndex.Proofs.Outcome
import PathQueryIndex.Proofs.Renaming

namespace PathQueryIndex

variable {count v : Nat} {seen nodes c : List Nat} {code : List Int} {classes cells : List (List Nat)}

/-! ### The nodes of a code -/

/-- The nodes that the entries of an accepted code name are new, below the count, and all different. -/
theorem entryNodes_cons_eq_ok {entry : Int} {entries : List Int} :
    entryNodes count seen (entry :: entries) = .ok nodes ↔
      ∃ v rest, entryNode? entry = some v ∧ v < count ∧ v ∉ seen ∧
        entryNodes count (v :: seen) entries = .ok rest ∧ nodes = v :: rest := by
  constructor
  · intro h
    rw [entryNodes] at h
    split at h
    · cases h
    · rename_i v hv
      split at h
      · cases h
      · rename_i hnew
        obtain ⟨rest, hrest, heq⟩ := bind_eq_ok.1 h
        refine ⟨v, rest, hv, ?_, ?_, hrest, (pure_eq_ok.1 heq).symm⟩
        · exact Nat.lt_of_not_le fun hle => hnew (.inl hle)
        · exact fun hmem => hnew (.inr hmem)
  · intro h
    obtain ⟨v, rest, hv, hlt, hseen, hrest, rfl⟩ := h
    rw [entryNodes, hv]
    dsimp only
    rw [if_neg, hrest]
    · rfl
    · intro h
      rcases h with hle | hmem
      · exact absurd hlt (Nat.not_lt.2 hle)
      · exact hseen hmem

/-- An accepted code names each of its nodes once. -/
theorem entryNodes_spec (h : entryNodes count seen code = .ok nodes) :
    code.map entryNode? = nodes.map some ∧ nodes.Nodup ∧ ∀ v ∈ nodes, v < count ∧ v ∉ seen := by
  induction code generalizing seen nodes with
  | nil =>
      cases h
      exact ⟨rfl, List.nodup_nil, fun v hv => nomatch hv⟩
  | cons entry entries ih =>
      obtain ⟨v, rest, hv, hlt, hseen, hrest, rfl⟩ := entryNodes_cons_eq_ok.1 h
      obtain ⟨hmap, hnodup, hall⟩ := ih hrest
      refine ⟨?_, ?_, fun w hw => ?_⟩
      · rw [List.map_cons, List.map_cons, hv, hmap]
      · apply List.nodup_cons.2
        exact ⟨fun hmem => (hall v hmem).2 (List.mem_cons_self ..), hnodup⟩
      · rcases List.mem_cons.1 hw with rfl | hw
        · exact ⟨hlt, hseen⟩
        · exact ⟨(hall w hw).1, fun hmem => (hall w hw).2 (List.mem_cons_of_mem _ hmem)⟩

/-- A code is accepted if it names different nodes, all of them new and below the count. -/
theorem entryNodes_eq_ok (hmap : code.map entryNode? = nodes.map some) (hnodup : nodes.Nodup)
    (hnew : ∀ v ∈ nodes, v < count ∧ v ∉ seen) : entryNodes count seen code = .ok nodes := by
  induction code generalizing seen nodes with
  | nil =>
      rw [List.map_eq_nil_iff.1 hmap.symm]
      rfl
  | cons entry entries ih =>
      cases nodes with
      | nil => cases hmap
      | cons v rest =>
          obtain ⟨hentry, hrest⟩ := List.cons.inj hmap
          obtain ⟨hv, hnodup⟩ := List.nodup_cons.1 hnodup
          obtain ⟨hlt, hseen⟩ := hnew v (List.mem_cons_self ..)
          refine entryNodes_cons_eq_ok.2 ⟨v, rest, hentry, hlt, hseen, ih hrest hnodup ?_, rfl⟩
          intro w hw
          obtain ⟨hwlt, hwseen⟩ := hnew w (List.mem_cons_of_mem _ hw)
          refine ⟨hwlt, fun hmem => ?_⟩
          rcases List.mem_cons.1 hmem with rfl | hmem
          · exact hv hw
          · exact hwseen hmem

/-! ### Cutting the nodes into classes -/

/-- Cutting loses no node and leaves no class empty. -/
theorem splitClasses_spec (entries : List (Int × Nat)) :
    (splitClasses entries).1.flatten ++ (splitClasses entries).2 = entries.map Prod.snd ∧
      ∀ c ∈ (splitClasses entries).1, c ≠ [] := by
  induction entries with
  | nil => exact ⟨rfl, fun c hc => nomatch hc⟩
  | cons entry rest ih =>
      obtain ⟨entry, v⟩ := entry
      obtain ⟨hflat, hne⟩ := ih
      rw [List.map_cons, ← hflat, splitClasses]
      generalize splitClasses rest = split at hne ⊢
      obtain ⟨classes, left⟩ := split
      dsimp only at hne ⊢
      split
      · refine ⟨rfl, fun c hc => ?_⟩
        rcases List.mem_cons.1 hc with rfl | hc
        · exact List.cons_ne_nil _ _
        · exact hne c hc
      · split
        · exact ⟨rfl, fun c hc => nomatch hc⟩
        · refine ⟨rfl, fun d hd => ?_⟩
          rcases List.mem_cons.1 hd with rfl | hd
          · exact List.cons_ne_nil _ _
          · exact hne d (List.mem_cons_of_mem _ hd)

/-- What an accepted code consists of. -/
theorem decodeClasses_eq_ok (h : decodeClasses count code = .ok cells) :
    ∃ nodes, entryNodes count [] code = .ok nodes ∧ splitClasses (code.zip nodes) = (cells, []) ∧
      count ≤ nodes.length := by
  obtain ⟨nodes, hnodes, hrest⟩ := bind_eq_ok.1 h
  refine ⟨nodes, hnodes, ?_⟩
  dsimp only at hrest
  split at hrest
  · cases hrest
  · rename_i hleft
    split at hrest
    · cases hrest
    · rename_i hcount
      have hcells := pure_eq_ok.1 hrest
      have hnil : (splitClasses (code.zip nodes)).2 = [] := by simpa using hleft
      refine ⟨?_, Nat.le_of_not_lt hcount⟩
      rw [← hcells, ← hnil]

/-- The classes of an accepted code cover all nodes. -/
theorem covers_of_decodeClasses (h : decodeClasses count code = .ok cells) :
    Cells.Covers cells count := by
  obtain ⟨nodes, hnodes, hsplit, hcount⟩ := decodeClasses_eq_ok h
  obtain ⟨hmap, hnodup, hall⟩ := entryNodes_spec hnodes
  have hlen : nodes.length = code.length := by
    have hlen := congrArg List.length hmap
    rw [List.length_map, List.length_map] at hlen
    exact hlen.symm
  obtain ⟨hflat, hne⟩ := splitClasses_spec (code.zip nodes)
  rw [hsplit, List.append_nil, List.map_snd_zip (Nat.le_of_eq hlen)] at hflat
  rw [hsplit] at hne
  refine ⟨?_, hne⟩
  have hsub : nodes ⊆ List.range count := fun v hv => List.mem_range.2 (hall v hv).1
  rw [hflat]
  apply (List.subperm_of_subset hnodup hsub).perm_of_length_le
  rw [List.length_range]
  exact hcount

/-! ### The code of some classes -/

theorem entryNode?_succ (v : Nat) : entryNode? (v + 1 : Int) = some v := by
  unfold entryNode?
  rw [show ((v : Int) + 1).natAbs = v + 1 by omega]

theorem entryNode?_neg_succ (v : Nat) : entryNode? (-(v + 1) : Int) = some v := by
  unfold entryNode?
  rw [show (-((v : Int) + 1)).natAbs = v + 1 by omega]

theorem map_entryNode?_encodeClass (c : List Nat) :
    (encodeClass c).map entryNode? = c.map some := by
  fun_induction encodeClass with
  | case1 => rfl
  | case2 v => rw [List.map_singleton, List.map_singleton, entryNode?_neg_succ]
  | case3 v vs _ ih => rw [List.map_cons, List.map_cons, entryNode?_succ, ih]

theorem map_entryNode?_encodeClasses (classes : List (List Nat)) :
    (encodeClasses classes).map entryNode? = classes.flatten.map some := by
  induction classes with
  | nil => rfl
  | cons c classes ih =>
      rw [encodeClasses, List.flatMap_cons, List.map_append, List.flatten_cons, List.map_append,
        map_entryNode?_encodeClass]
      rw [encodeClasses] at ih
      rw [ih]

/-- The entries of a class, with the nodes that they name, are cut off as one class. -/
theorem splitClasses_encodeClass {rest : List (Int × Nat)} (hc : c ≠ []) :
    splitClasses ((encodeClass c).zip c ++ rest) =
      (c :: (splitClasses rest).1, (splitClasses rest).2) := by
  fun_induction encodeClass c with
  | case1 => exact absurd rfl hc
  | case2 v =>
      rw [List.zip_cons_cons, List.zip_nil_right, List.singleton_append, splitClasses]
      dsimp only
      rw [if_pos (by omega)]
  | case3 v vs hvs ih =>
      rw [List.zip_cons_cons, List.cons_append, splitClasses, ih hvs]
      dsimp only
      rw [if_neg (by omega)]

theorem length_encodeClass (c : List Nat) : (encodeClass c).length = c.length := by
  have hlen := congrArg List.length (map_entryNode?_encodeClass c)
  rw [List.length_map, List.length_map] at hlen
  exact hlen

theorem splitClasses_encodeClasses (hne : ∀ c ∈ classes, c ≠ []) :
    splitClasses ((encodeClasses classes).zip classes.flatten) = (classes, []) := by
  induction classes with
  | nil => rfl
  | cons c classes ih =>
      have hrest := ih fun d hd => hne d (List.mem_cons_of_mem _ hd)
      rw [encodeClasses, List.flatMap_cons, List.flatten_cons,
        List.zip_append (length_encodeClass c), splitClasses_encodeClass (hne c (List.mem_cons_self ..))]
      rw [encodeClasses] at hrest
      rw [hrest]

/-- The code of classes that cover all nodes is accepted, and read as these classes. -/
theorem decodeClasses_encodeClasses (h : Cells.Covers classes count) :
    decodeClasses count (encodeClasses classes) = .ok classes := by
  have hnodes : entryNodes count [] (encodeClasses classes) = .ok classes.flatten := by
    apply entryNodes_eq_ok (map_entryNode?_encodeClasses classes)
    · exact h.1.nodup_iff.2 List.nodup_range
    · exact fun v hv => ⟨List.mem_range.1 (h.1.subset hv), List.not_mem_nil⟩
  have hlen : ¬ classes.flatten.length < count := by
    rw [h.1.length_eq, List.length_range]
    exact Nat.lt_irrefl count
  refine bind_eq_ok.2 ⟨classes.flatten, hnodes, ?_⟩
  rw [splitClasses_encodeClasses h.2]
  dsimp only
  rw [if_neg hlen]
  rfl

/-- The code of some classes is read as these classes. -/
theorem eq_of_decodeClasses_encodeClasses (hne : ∀ c ∈ classes, c ≠ [])
    (h : decodeClasses count (encodeClasses classes) = .ok cells) : cells = classes := by
  obtain ⟨nodes, hnodes, hsplit, _⟩ := decodeClasses_eq_ok h
  have hmap := (entryNodes_spec hnodes).1
  rw [map_entryNode?_encodeClasses] at hmap
  have hflat : classes.flatten = nodes := 
    List.map_injective_iff.2 (fun _ _ heq => Option.some.inj heq) hmap
  rw [← hflat, splitClasses_encodeClasses hne] at hsplit
  exact (Prod.mk.inj hsplit).1.symm

/-! ### Which codes are accepted

A code is cut behind its negative entries, so nothing is left over if and only if the last entry is one; and
writing the classes that were cut off gives the entries back, whatever is left over. -/

theorem entryNode?_eq_some_iff {entry : Int} : entryNode? entry = some v ↔ entry.natAbs = v + 1 := by
  unfold entryNode?
  cases h : entry.natAbs with
  | zero => simp
  | succ w => simp

theorem map_natAbs_of_map_entryNode? (h : code.map entryNode? = nodes.map some) :
    code.map Int.natAbs = nodes.map (· + 1) := by
  induction code generalizing nodes with
  | nil =>
      cases nodes with
      | nil => rfl
      | cons v nodes => cases h
  | cons entry code ih =>
      cases nodes with
      | nil => cases h
      | cons v nodes =>
          simp only [List.map_cons, List.cons.injEq] at h ⊢
          exact ⟨entryNode?_eq_some_iff.1 h.1, ih h.2⟩

/-- Nothing is left over if and only if the last entry closes a class. -/
theorem splitClasses_left_eq_nil_iff {entries : List (Int × Nat)} :
    (splitClasses entries).2 = [] ↔ ∀ last, entries.getLast? = some last → last.1 < 0 := by
  induction entries with
  | nil => simp [splitClasses]
  | cons entry rest ih =>
      have hflat := (splitClasses_spec rest).1
      cases rest with
      | nil =>
          simp only [splitClasses, List.getLast?_singleton, Option.some.injEq, forall_eq']
          split <;> simp [*]
      | cons next rest =>
          rw [List.getLast?_cons_cons, ← ih, splitClasses]
          cases hclasses : (splitClasses (next :: rest)).1 with
          | nil =>
              -- Where no class was cut off, all nodes are left over.
              have hleft : (splitClasses (next :: rest)).2 ≠ [] := by
                intro hnil
                simp [hclasses, hnil] at hflat
              simp only [hclasses]
              split <;> simp [hleft]
          | cons c classes =>
              simp only [hclasses]
              split <;> rfl

/-- The classes that are cut off, written again, and what is left over are all entries. -/
theorem encodeClasses_splitClasses {entries : List (Int × Nat)}
    (h : ∀ x ∈ entries, entryNode? x.1 = some x.2) :
    encodeClasses (splitClasses entries).1 ++ (splitClasses entries).2.map (fun v : Nat => (v + 1 : Int)) =
      entries.map Prod.fst := by
  induction entries with
  | nil => rfl
  | cons x rest ih =>
      rcases x with ⟨entry, v⟩
      have hentry : entry.natAbs = v + 1 := entryNode?_eq_some_iff.1 (h _ (List.mem_cons_self ..))
      have hrest := ih fun y hy => h y (List.mem_cons_of_mem _ hy)
      have hne := (splitClasses_spec rest).2
      rw [List.map_cons, ← hrest, splitClasses]
      generalize splitClasses rest = parts at hne ⊢
      rcases parts with ⟨classes, left⟩
      dsimp only at hne ⊢
      split
      · have hclosed : entry = -(v + 1) := by omega
        simp [encodeClasses, encodeClass, hclosed]
      · have hopen : entry = v + 1 := by omega
        cases classes with
        | nil => simp [encodeClasses, hopen]
        | cons c classes =>
            cases c with
            | nil => exact absurd rfl (hne [] (List.mem_cons_self ..))
            | cons w c => simp [encodeClasses, encodeClass, hopen]

/-- A code is read as some classes if and only if these cover all nodes and it is their code. -/
theorem decodeClasses_eq_ok_iff :
    decodeClasses count code = .ok cells ↔ Cells.Covers cells count ∧ encodeClasses cells = code := by
  constructor
  · intro h
    refine ⟨covers_of_decodeClasses h, ?_⟩
    rcases decodeClasses_eq_ok h with ⟨nodes, hnodes, hsplit, _⟩
    have hmap := (entryNodes_spec hnodes).1
    have hlen : code.length = nodes.length := by simpa using congrArg List.length hmap
    have hnamed : ∀ x ∈ code.zip nodes, entryNode? x.1 = some x.2 := by
      intro x hx
      rcases List.mem_iff_getElem?.1 hx with ⟨i, hi⟩
      rcases List.getElem?_zip_eq_some.1 hi with ⟨hentry, hnode⟩
      have hget := congrArg (·[i]?) hmap
      simpa [hentry, hnode] using hget
    have hwritten := encodeClasses_splitClasses hnamed
    simpa [hsplit, List.map_fst_zip (Nat.le_of_eq hlen)] using hwritten
  · rintro ⟨hcovers, rfl⟩
    exact decodeClasses_encodeClasses hcovers

theorem natAbs_encodeClasses_perm (h : Cells.Covers cells count) :
    ((encodeClasses cells).map Int.natAbs).Perm (List.range' 1 count) := by
  rw [map_natAbs_of_map_entryNode? (map_entryNode?_encodeClasses cells), List.range'_eq_map_range]
  simpa [Nat.add_comm] using h.1.map (· + 1)

theorem getLast?_encodeClass (hc : c ≠ []) : ∃ last, (encodeClass c).getLast? = some last ∧ last < 0 := by
  fun_induction encodeClass c with
  | case1 => exact absurd rfl hc
  | case2 v => exact ⟨-(v + 1), rfl, by omega⟩
  | case3 v vs hvs ih =>
      rcases ih hvs with ⟨last, hlast, hneg⟩
      exact ⟨last, by simp [List.getLast?_cons, hlast], hneg⟩

theorem getLast?_encodeClasses (hne : ∀ c ∈ cells, c ≠ []) :
    ∀ last, (encodeClasses cells).getLast? = some last → last < 0 := by
  induction cells with
  | nil => simp [encodeClasses]
  | cons c cells ih =>
      rcases getLast?_encodeClass (hne c (List.mem_cons_self ..)) with ⟨final, hfinal, hneg⟩
      have hrest := ih fun d hd => hne d (List.mem_cons_of_mem _ hd)
      intro last hlast
      change (encodeClass c ++ encodeClasses cells).getLast? = some last at hlast
      rw [List.getLast?_append, hfinal] at hlast
      cases hcells : (encodeClasses cells).getLast? with
      | none =>
          rw [hcells] at hlast
          cases hlast
          exact hneg
      | some x =>
          rw [hcells] at hlast
          cases hlast
          exact hrest _ hcells

/-- A code is accepted if and only if its entries, signs aside, are the numbers from one to the count in some
    order, and the last of them, if there is one, is negative. -/
theorem exists_decodeClasses_iff : (∃ cells, decodeClasses count code = .ok cells) ↔
    (code.map Int.natAbs).Perm (List.range' 1 count) ∧
      ∀ last, code.getLast? = some last → last < 0 := by
  constructor
  · rintro ⟨cells, h⟩
    rcases decodeClasses_eq_ok_iff.1 h with ⟨hcovers, rfl⟩
    exact ⟨natAbs_encodeClasses_perm hcovers, getLast?_encodeClasses hcovers.2⟩
  · rintro ⟨hperm, hlast⟩
    let entries := code.map fun entry => (entry, entry.natAbs - 1)
    have hnamed : ∀ x ∈ entries, entryNode? x.1 = some x.2 := by
      intro x hx
      rcases List.mem_map.1 hx with ⟨entry, hentry, rfl⟩
      have hone := List.mem_range'_1.1 (hperm.subset (List.mem_map_of_mem hentry))
      exact entryNode?_eq_some_iff.2 (by omega)
    have hclosed : (splitClasses entries).2 = [] := by
      apply splitClasses_left_eq_nil_iff.2
      intro last hget
      rw [List.getLast?_map, Option.map_eq_some_iff] at hget
      rcases hget with ⟨entry, hentry, rfl⟩
      exact hlast entry hentry
    have hwritten := encodeClasses_splitClasses hnamed
    have hflat := (splitClasses_spec entries).1
    rw [hclosed, List.map_nil, List.append_nil] at hwritten
    rw [hclosed, List.append_nil] at hflat
    refine ⟨(splitClasses entries).1, decodeClasses_eq_ok_iff.2 ⟨⟨?_, (splitClasses_spec entries).2⟩, ?_⟩⟩
    · rw [hflat, List.map_map]
      have hshift := hperm.map (· - 1)
      simpa [List.range'_eq_map_range, Function.comp_def] using hshift
    · rw [hwritten, List.map_map]
      exact List.map_id _

end PathQueryIndex
