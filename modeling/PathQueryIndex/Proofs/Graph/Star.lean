/-
Module: PathQueryIndex.Proofs.Graph.Star
Layer: Proofs
Purpose: Stars whose pairs can be told apart. A star has edges from its center to each point of its rim, with labels
  for each point. One step leads from the center to the rim or back, and two steps lead from the center to
  itself or from any point of the rim to any other. If no point has all labels of another one, and every
  point has a label that leads outwards only, the labels of the walks of one or two steps tell their ends. A
  label for each point is enough for that. So are twenty-six labels for a hundred thousand points: one that all
  points have, and five for each decimal digit, followed in either direction.
Imports: PathQueryIndex.Query.Answer, PathQueryIndex.Proofs.Partition.Walks, Mathlib.Data.List.ProdSigma
Main exports: Graph.Apart, Star, Star.graph, Star.step_iff, Star.joined_one, Star.joined_two, Star.apart_one,
  Star.apart_two, Star.oneEach, Star.decimal, Graph.spokes, Graph.detours
-/
import PathQueryIndex.Query.Answer
import PathQueryIndex.Proofs.Partition.Walks
import Mathlib.Data.List.ProdSigma

namespace PathQueryIndex

/-- The edge that a label is followed along from one vertex to another. -/
def Label.between (l : Label) (u v : Vertex) : Edge := if l.inverse then ⟨v, u, l.id⟩ else ⟨u, v, l.id⟩

theorem Label.between_eq_iff {l m : Label} {a b u v : Vertex} : m.between a b = l.between u v ↔
    m = l ∧ a = u ∧ b = v ∨ m = l.flip ∧ a = v ∧ b = u := by
  obtain ⟨id, inverse⟩ := l
  obtain ⟨id', inverse'⟩ := m
  cases inverse <;> cases inverse' <;> simp [between, flip, and_comm, and_assoc, and_left_comm]

namespace Graph

variable {g : Graph} {u v : Vertex} {l m : Label}

theorem walk_two : g.Walk u [l, m] v ↔ ∃ w, g.Step l u w ∧ g.Step m w v := by
  simp only [walk_cons, walk_nil, exists_eq_right]

/-- The labels of the walks of a length tell the ends of the walks: no other vertices are joined by walks with all
    of these labels. -/
def Apart (g : Graph) (n : Nat) : Prop := ∀ u v u' v', g.Joined n u v → g.Joined n u' v' →
  (∀ ls, ls.length = n → g.Walk u ls v → g.Walk u' ls v') → u = u' ∧ v = v'

/-! ### The points of a star -/

/-- The points around the center. -/
def rim (i : Nat) : Vertex := .ofNat (i + 1)

section Rim

variable {n i j : Nat}

theorem toNat_rim (hn : n + 1 < UInt32.size) (hi : i < n) : (rim i).toNat = i + 1 :=
  UInt32.toNat_ofNat_of_lt' (by omega)

theorem rim_ne_zero (hn : n + 1 < UInt32.size) (hi : i < n) : rim i ≠ 0 := by
  intro h
  have hzero := congrArg UInt32.toNat h
  rw [toNat_rim hn hi] at hzero
  cases hzero

theorem rim_inj (hn : n + 1 < UInt32.size) (hi : i < n) (hj : j < n) (h : rim i = rim j) : i = j := by
  have hsame := congrArg UInt32.toNat h
  rw [toNat_rim hn hi, toNat_rim hn hj] at hsame
  exact Nat.succ.inj hsame

end Rim

end Graph

open PathQueryIndex.Graph

/-! ### Stars -/

/-- A star: the labels that lead from the center to each point of the rim. No point has all labels of another one,
    and every point has one that leads nowhere back to the center. -/
structure Star where
  size : Nat
  labels : Nat → List Label
  labelCount : UInt32
  size_lt : size + 1 < UInt32.size
  below : ∀ i < size, ∀ l ∈ labels i, l.id < labelCount
  outward : ∀ i < size, ∃ l ∈ labels i, ∀ j < size, l.flip ∉ labels j
  apart : ∀ i < size, ∀ j < size, i ≠ j → ∃ l ∈ labels i, l ∉ labels j

namespace Star

variable {s : Star} {i j : Nat} {l m : Label} {u v : Vertex}

/-- The edges of a star. -/
def edges (s : Star) : List Edge :=
  (List.range s.size).flatMap fun i => (s.labels i).map fun l => l.between 0 (rim i)

theorem mem_edges {e : Edge} :
    e ∈ s.edges ↔ ∃ i < s.size, ∃ l ∈ s.labels i, l.between 0 (rim i) = e := by
  simp only [edges, List.mem_flatMap, List.mem_range, List.mem_map]

/-- The graph of a star. -/
def graph (s : Star) : Graph where
  vertexCount := .ofNat (s.size + 1)
  labelCount := s.labelCount
  edges := .ofList s.edges
  inBounds := by
    intro e he
    obtain ⟨i, hi, l, hl, rfl⟩ := mem_edges.1 (OrderedSet.mem_ofList.1 he)
    have hcount : (UInt32.ofNat (s.size + 1)).toNat = s.size + 1 := UInt32.toNat_ofNat_of_lt' s.size_lt
    have hcenter : (0 : Vertex) < .ofNat (s.size + 1) := by
      rw [UInt32.lt_iff_toNat_lt, hcount]
      exact Nat.succ_pos _
    have hrim : rim i < .ofNat (s.size + 1) := by
      rw [UInt32.lt_iff_toNat_lt, hcount, toNat_rim s.size_lt hi]
      omega
    obtain ⟨id, inverse⟩ := l
    cases inverse with
    | false => exact ⟨⟨hcenter, hrim⟩, s.below i hi _ hl⟩
    | true => exact ⟨⟨hrim, hcenter⟩, s.below i hi _ hl⟩

/-- A step leads along a label of a point from the center, or against one back to it. -/
theorem step_iff : s.graph.Step l u v ↔ ∃ i < s.size,
    l ∈ s.labels i ∧ u = 0 ∧ v = rim i ∨ l.flip ∈ s.labels i ∧ u = rim i ∧ v = 0 := by
  change l.between u v ∈ OrderedSet.ofList s.edges ↔ _
  simp only [OrderedSet.mem_ofList, mem_edges, Label.between_eq_iff]
  constructor
  · rintro ⟨i, hi, m, hm, ⟨rfl, rfl, rfl⟩ | ⟨rfl, rfl, rfl⟩⟩
    · exact ⟨i, hi, .inl ⟨hm, rfl, rfl⟩⟩
    · exact ⟨i, hi, .inr ⟨hm, rfl, rfl⟩⟩
  · rintro ⟨i, hi, ⟨hl, rfl, rfl⟩ | ⟨hl, rfl, rfl⟩⟩
    · exact ⟨i, hi, l, hl, .inl ⟨rfl, rfl, rfl⟩⟩
    · exact ⟨i, hi, l.flip, hl, .inr ⟨rfl, rfl, rfl⟩⟩

theorem step_out (hi : i < s.size) : s.graph.Step l 0 (rim i) ↔ l ∈ s.labels i := by
  rw [step_iff]
  constructor
  · rintro ⟨j, hj, ⟨hl, _, heq⟩ | ⟨_, heq, _⟩⟩
    · rwa [rim_inj s.size_lt hi hj heq]
    · exact absurd heq.symm (rim_ne_zero s.size_lt hj)
  · exact fun hl => ⟨i, hi, .inl ⟨hl, rfl, rfl⟩⟩

theorem step_back (hi : i < s.size) : s.graph.Step l (rim i) 0 ↔ l.flip ∈ s.labels i := by
  rw [← step_out hi, step_flip]

/-! ### Where one step and two steps lead -/

theorem joined_one : s.graph.Joined 1 u v ↔ ∃ i < s.size, u = 0 ∧ v = rim i ∨ u = rim i ∧ v = 0 := by
  rw [PathQueryIndex.Graph.joined_one]
  constructor
  · rintro ⟨l, hl⟩
    obtain ⟨i, hi, ⟨_, hends⟩ | ⟨_, hends⟩⟩ := step_iff.1 hl
    · exact ⟨i, hi, .inl hends⟩
    · exact ⟨i, hi, .inr hends⟩
  · rintro ⟨i, hi, ⟨rfl, rfl⟩ | ⟨rfl, rfl⟩⟩
    · obtain ⟨l, hl, _⟩ := s.outward i hi
      exact ⟨l, (step_out hi).2 hl⟩
    · obtain ⟨l, hl, _⟩ := s.outward i hi
      exact ⟨l.flip, (step_back hi).2 (l.flip_flip.symm ▸ hl)⟩

/-- Two steps from the center lead back to it, with two labels of one point. -/
theorem walk_center : s.graph.Walk 0 [l, m] 0 ↔ ∃ i < s.size, l ∈ s.labels i ∧ m.flip ∈ s.labels i := by
  rw [walk_two]
  constructor
  · rintro ⟨w, hl, hm⟩
    obtain ⟨i, hi, ⟨hmem, _, rfl⟩ | ⟨_, heq, _⟩⟩ := step_iff.1 hl
    · exact ⟨i, hi, hmem, (step_back hi).1 hm⟩
    · exact absurd heq.symm (rim_ne_zero s.size_lt hi)
  · rintro ⟨i, hi, hl, hm⟩
    exact ⟨rim i, (step_out hi).2 hl, (step_back hi).2 hm⟩

/-- Two steps from a point to a point lead over the center. -/
theorem walk_rim (hi : i < s.size) (hj : j < s.size) :
    s.graph.Walk (rim i) [l, m] (rim j) ↔ l.flip ∈ s.labels i ∧ m ∈ s.labels j := by
  rw [walk_two]
  constructor
  · rintro ⟨w, hl, hm⟩
    obtain ⟨k, hk, ⟨_, heq, _⟩ | ⟨_, _, rfl⟩⟩ := step_iff.1 hl
    · exact absurd heq (rim_ne_zero s.size_lt hi)
    · exact ⟨(step_back hi).1 hl, (step_out hj).1 hm⟩
  · rintro ⟨hl, hm⟩
    exact ⟨0, (step_back hi).2 hl, (step_out hj).2 hm⟩

theorem joined_two : s.graph.Joined 2 u v ↔
    0 < s.size ∧ u = 0 ∧ v = 0 ∨ ∃ i < s.size, ∃ j < s.size, u = rim i ∧ v = rim j := by
  constructor
  · rintro ⟨ls, hlen, hw⟩
    obtain ⟨l, m, rfl⟩ := List.length_eq_two.1 hlen
    obtain ⟨w, hl, hm⟩ := walk_two.1 hw
    obtain ⟨i, hi, ⟨_, rfl, rfl⟩ | ⟨_, rfl, rfl⟩⟩ := step_iff.1 hl
    · obtain ⟨j, hj, ⟨_, heq, _⟩ | ⟨_, _, rfl⟩⟩ := step_iff.1 hm
      · exact absurd heq (rim_ne_zero s.size_lt hi)
      · exact .inl ⟨Nat.zero_lt_of_lt hi, rfl, rfl⟩
    · obtain ⟨j, hj, ⟨_, _, rfl⟩ | ⟨_, heq, _⟩⟩ := step_iff.1 hm
      · exact .inr ⟨i, hi, j, hj, rfl, rfl⟩
      · exact absurd heq.symm (rim_ne_zero s.size_lt hj)
  · rintro (⟨hpos, rfl, rfl⟩ | ⟨i, hi, j, hj, rfl, rfl⟩)
    · obtain ⟨l, hl, _⟩ := s.outward 0 hpos
      exact ⟨[l, l.flip], rfl, walk_center.2 ⟨0, hpos, hl, l.flip_flip.symm ▸ hl⟩⟩
    · obtain ⟨l, hl, _⟩ := s.outward i hi
      obtain ⟨m, hm, _⟩ := s.outward j hj
      exact ⟨[l.flip, m], rfl, (walk_rim hi hj).2 ⟨l.flip_flip.symm ▸ hl, hm⟩⟩

/-! ### What the labels of walks tell -/

/-- A point is told by its labels. -/
theorem eq_of_labels_subset (hi : i < s.size) (hj : j < s.size) (h : ∀ l ∈ s.labels i, l ∈ s.labels j) :
    i = j := by
  by_contra hne
  obtain ⟨l, hl, hmissing⟩ := s.apart i hi j hj hne
  exact hmissing (h l hl)

theorem apart_one : s.graph.Apart 1 := by
  intro u v u' v' h h' hsub
  have hstep : ∀ l, s.graph.Step l u v → s.graph.Step l u' v' := fun l hl =>
    walk_singleton.1 (hsub [l] rfl (walk_singleton.2 hl))
  obtain ⟨i, hi, ⟨rfl, rfl⟩ | ⟨rfl, rfl⟩⟩ := joined_one.1 h
  · obtain ⟨j, hj, ⟨rfl, rfl⟩ | ⟨rfl, rfl⟩⟩ := joined_one.1 h'
    · obtain rfl := eq_of_labels_subset hi hj fun l hl => (step_out hj).1 (hstep l ((step_out hi).2 hl))
      exact ⟨rfl, rfl⟩
    · obtain ⟨l, hl, hout⟩ := s.outward i hi
      exact absurd ((step_back hj).1 (hstep l ((step_out hi).2 hl))) (hout j hj)
  · have hback : ∀ l ∈ s.labels i, s.graph.Step l.flip u' v' := fun l hl =>
      hstep l.flip ((step_back hi).2 (l.flip_flip.symm ▸ hl))
    obtain ⟨j, hj, ⟨rfl, rfl⟩ | ⟨rfl, rfl⟩⟩ := joined_one.1 h'
    · obtain ⟨l, hl, hout⟩ := s.outward i hi
      exact absurd ((step_out hj).1 (hback l hl)) (hout j hj)
    · obtain rfl := eq_of_labels_subset hi hj fun l hl => l.flip_flip ▸ (step_back hj).1 (hback l hl)
      exact ⟨rfl, rfl⟩

theorem apart_two : s.graph.Apart 2 := by
  intro u v u' v' h h' hsub
  rcases joined_two.1 h with ⟨hpos, rfl, rfl⟩ | ⟨i, hi, j, hj, rfl, rfl⟩
  · rcases joined_two.1 h' with ⟨_, rfl, rfl⟩ | ⟨k, hk, m, hm, rfl, rfl⟩
    · exact ⟨rfl, rfl⟩
    · -- out and back along a label that no point leads back with
      obtain ⟨l, hl, hout⟩ := s.outward 0 hpos
      have hwalk := hsub [l, l.flip] rfl (walk_center.2 ⟨0, hpos, hl, l.flip_flip.symm ▸ hl⟩)
      exact absurd ((walk_rim hk hm).1 hwalk).1 (hout k hk)
  · have hwalk : ∀ l ∈ s.labels i, ∀ m ∈ s.labels j, s.graph.Walk u' [l.flip, m] v' := fun l hl m hm =>
      hsub [l.flip, m] rfl ((walk_rim hi hj).2 ⟨l.flip_flip.symm ▸ hl, hm⟩)
    obtain ⟨l, hl, hout⟩ := s.outward i hi
    obtain ⟨m, hm, _⟩ := s.outward j hj
    rcases joined_two.1 h' with ⟨_, rfl, rfl⟩ | ⟨i', hi', j', hj', rfl, rfl⟩
    · obtain ⟨k, hk, hflip, _⟩ := walk_center.1 (hwalk l hl m hm)
      exact absurd hflip (hout k hk)
    · obtain rfl := eq_of_labels_subset hi hi' fun l hl =>
        l.flip_flip ▸ ((walk_rim hi' hj').1 (hwalk l hl m hm)).1
      obtain rfl := eq_of_labels_subset hj hj' fun m hm => ((walk_rim hi hj').1 (hwalk l hl m hm)).2
      exact ⟨rfl, rfl⟩

/-! ### Two stars -/

/-- The star with a label for each point. -/
def oneEach (n : Nat) (hn : n + 1 < UInt32.size) : Star where
  size := n
  labels := fun i => [.forward (.ofNat i)]
  labelCount := .ofNat n
  size_lt := hn
  below := by
    intro i hi l hl
    rw [List.mem_singleton.1 hl, UInt32.lt_iff_toNat_lt]
    change (UInt32.ofNat i).toNat < (UInt32.ofNat n).toNat
    rw [UInt32.toNat_ofNat_of_lt' (by omega), UInt32.toNat_ofNat_of_lt' (by omega)]
    exact hi
  outward := fun i _ => ⟨_, List.mem_singleton_self _, fun j _ h => by
    cases congrArg Label.inverse (List.mem_singleton.1 h)⟩
  apart := by
    intro i hi j hj hne
    refine ⟨_, List.mem_singleton_self _, fun h => hne ?_⟩
    have hsame := congrArg (fun l => l.id.toNat) (List.mem_singleton.1 h)
    change (UInt32.ofNat i).toNat = (UInt32.ofNat j).toNat at hsame
    rwa [UInt32.toNat_ofNat_of_lt' (by omega), UInt32.toNat_ofNat_of_lt' (by omega)] at hsame

/-- The decimal digits of a number, the least one first. -/
def digit (i : Nat) : Nat → Nat
  | 0 => i % 10
  | k + 1 => digit (i / 10) k

theorem digit_lt (i k : Nat) : digit i k < 10 := by
  induction k generalizing i with
  | zero => exact Nat.mod_lt i (by decide)
  | succ k ih => exact ih (i / 10)

/-- Five digits tell a number. -/
theorem eq_of_digits (hi : i < 100000) (hj : j < 100000) (h : ∀ k < 5, digit i k = digit j k) : i = j := by
  have hones : i % 10 = j % 10 := h 0 (by decide)
  have htens : i / 10 % 10 = j / 10 % 10 := h 1 (by decide)
  have hhundreds : i / 10 / 10 % 10 = j / 10 / 10 % 10 := h 2 (by decide)
  have hthousands : i / 10 / 10 / 10 % 10 = j / 10 / 10 / 10 % 10 := h 3 (by decide)
  have hmyriads : i / 10 / 10 / 10 / 10 % 10 = j / 10 / 10 / 10 / 10 % 10 := h 4 (by decide)
  omega

/-- The label that stands for a digit: one of five, in one of two directions. -/
def digitLabel (k d : Nat) : Label := ⟨.ofNat (5 * k + d / 2), d % 2 == 1⟩

theorem toNat_digitLabel {k d : Nat} (hk : k < 5) (hd : d < 10) :
    (digitLabel k d).id.toNat = 5 * k + d / 2 :=
  UInt32.toNat_ofNat_of_lt' (Nat.lt_trans (show 5 * k + d / 2 < 25 by omega) (by decide))

theorem digitLabel_inj {k k' d d' : Nat} (hk : k < 5) (hk' : k' < 5) (hd : d < 10) (hd' : d' < 10)
    (h : digitLabel k d = digitLabel k' d') : k = k' ∧ d = d' := by
  have hid := congrArg (fun l => l.id.toNat) h
  simp only [toNat_digitLabel hk hd, toNat_digitLabel hk' hd'] at hid
  have hparity : (d % 2 == 1) = (d' % 2 == 1) := congrArg Label.inverse h
  rw [Bool.eq_iff_iff, beq_iff_eq, beq_iff_eq] at hparity
  omega

/-- The labels of a point in the decimal star: one that all points have, and one for each of its digits. -/
def decimalLabels (i : Nat) : List Label :=
  .forward 25 :: (List.range 5).map fun k => digitLabel k (digit i k)

theorem mem_decimalLabels :
    l ∈ decimalLabels i ↔ l = .forward 25 ∨ ∃ k < 5, l = digitLabel k (digit i k) := by
  simp only [decimalLabels, List.mem_cons, List.mem_map, List.mem_range, eq_comm (a := l)]

/-- No digit has the label that all points have. -/
theorem id_digitLabel_ne {k d : Nat} (hk : k < 5) (hd : d < 10) : (digitLabel k d).id ≠ 25 := by
  intro h
  have hid := toNat_digitLabel hk hd
  rw [h] at hid
  change 25 = 5 * k + d / 2 at hid
  omega

/-- The label of a digit is one of a point if the point has the digit. -/
theorem digitLabel_mem {k d : Nat} (hk : k < 5) (hd : d < 10) :
    digitLabel k d ∈ decimalLabels j ↔ d = digit j k := by
  rw [mem_decimalLabels]
  constructor
  · rintro (heq | ⟨n, hn, heq⟩)
    · exact absurd (congrArg Label.id heq) (id_digitLabel_ne hk hd)
    · obtain ⟨rfl, rfl⟩ := digitLabel_inj hk hn hd (digit_lt j n) heq
      rfl
  · rintro rfl
    exact .inr ⟨k, hk, rfl⟩

/-- The star with six labels for each point, which tell its decimal digits. -/
def decimal (n : Nat) (hn : n ≤ 100000) : Star where
  size := n
  labels := decimalLabels
  labelCount := 26
  size_lt := Nat.lt_of_le_of_lt (Nat.succ_le_succ hn) (by decide)
  below := by
    intro i _ l hl
    rcases mem_decimalLabels.1 hl with rfl | ⟨k, hk, rfl⟩
    · decide
    · rw [UInt32.lt_iff_toNat_lt, toNat_digitLabel hk (digit_lt i k)]
      change 5 * k + digit i k / 2 < 26
      have hdigit := digit_lt i k
      omega
  outward := by
    intro i _
    refine ⟨.forward 25, mem_decimalLabels.2 (.inl rfl), fun j _ h => ?_⟩
    rcases mem_decimalLabels.1 h with heq | ⟨k, hk, heq⟩
    · cases congrArg Label.inverse heq
    · exact id_digitLabel_ne hk (digit_lt j k) (congrArg Label.id heq).symm
  apart := by
    intro i hi j hj hne
    by_contra hall
    push Not at hall
    refine hne (eq_of_digits (Nat.lt_of_lt_of_le hi hn) (Nat.lt_of_lt_of_le hj hn) fun k hk => ?_)
    exact (digitLabel_mem hk (digit_lt i k)).1 (hall _ (mem_decimalLabels.2 (.inr ⟨k, hk, rfl⟩)))

end Star

namespace Graph

section Pairs

variable {n : Nat} {u v : Vertex}

/-! ### The joined pairs of a star -/

/-- The pairs that one step joins: of the center and the points of the rim. -/
def spokes (n : Nat) : List Pair :=
  (List.range n).map (fun i => ⟨0, rim i⟩) ++ (List.range n).map fun i => ⟨rim i, 0⟩

/-- The pairs that two steps join: the center with itself, and all points of the rim. -/
def detours (n : Nat) : List Pair :=
  ⟨0, 0⟩ :: (List.range n ×ˢ List.range n).map fun x => ⟨rim x.1, rim x.2⟩

theorem mem_spokes : (⟨u, v⟩ : Pair) ∈ spokes n ↔ ∃ i < n, u = 0 ∧ v = rim i ∨ u = rim i ∧ v = 0 := by
  simp only [spokes, List.mem_append, List.mem_map, List.mem_range, Pair.mk.injEq]
  constructor
  · rintro (⟨i, hi, rfl, rfl⟩ | ⟨i, hi, rfl, rfl⟩)
    · exact ⟨i, hi, .inl ⟨rfl, rfl⟩⟩
    · exact ⟨i, hi, .inr ⟨rfl, rfl⟩⟩
  · rintro ⟨i, hi, ⟨rfl, rfl⟩ | ⟨rfl, rfl⟩⟩
    · exact .inl ⟨i, hi, rfl, rfl⟩
    · exact .inr ⟨i, hi, rfl, rfl⟩

theorem mem_detours : (⟨u, v⟩ : Pair) ∈ detours n ↔
    u = 0 ∧ v = 0 ∨ ∃ i < n, ∃ j < n, u = rim i ∧ v = rim j := by
  simp only [detours, List.mem_cons, Pair.mk.injEq, List.mem_map]
  refine or_congr_right ?_
  constructor
  · rintro ⟨x, hx, rfl, rfl⟩
    obtain ⟨hi, hj⟩ := List.mem_product.1 hx
    exact ⟨x.1, List.mem_range.1 hi, x.2, List.mem_range.1 hj, rfl, rfl⟩
  · rintro ⟨i, hi, j, hj, rfl, rfl⟩
    exact ⟨(i, j), List.mem_product.2 ⟨List.mem_range.2 hi, List.mem_range.2 hj⟩, rfl, rfl⟩

theorem length_spokes (n : Nat) : (spokes n).length = 2 * n := by
  rw [spokes, List.length_append, List.length_map, List.length_map, List.length_range, Nat.two_mul]

theorem length_detours (n : Nat) : (detours n).length = n * n + 1 := by
  rw [detours, List.length_cons, List.length_map, List.length_product, List.length_range]

theorem nodup_spokes (hn : n + 1 < UInt32.size) : (spokes n).Nodup := by
  refine List.nodup_append.2 ⟨?_, ?_, ?_⟩
  · refine List.Nodup.map_on (fun i hi j hj h => ?_) List.nodup_range
    exact rim_inj hn (List.mem_range.1 hi) (List.mem_range.1 hj) (congrArg Pair.target h)
  · refine List.Nodup.map_on (fun i hi j hj h => ?_) List.nodup_range
    exact rim_inj hn (List.mem_range.1 hi) (List.mem_range.1 hj) (congrArg Pair.source h)
  · rintro x hx y hy rfl
    obtain ⟨i, hi, rfl⟩ := List.mem_map.1 hx
    obtain ⟨j, _, h⟩ := List.mem_map.1 hy
    exact rim_ne_zero hn (List.mem_range.1 hi) (congrArg Pair.target h).symm

theorem nodup_detours (hn : n + 1 < UInt32.size) : (detours n).Nodup := by
  refine List.nodup_cons.2 ⟨?_, ?_⟩
  · intro h
    obtain ⟨x, hx, h⟩ := List.mem_map.1 h
    exact rim_ne_zero hn (List.mem_range.1 (List.mem_product.1 hx).1) (congrArg Pair.source h)
  · refine List.Nodup.map_on (fun x hx y hy h => ?_) (List.nodup_range.product List.nodup_range)
    obtain ⟨hx₁, hx₂⟩ := List.mem_product.1 hx
    obtain ⟨hy₁, hy₂⟩ := List.mem_product.1 hy
    exact Prod.ext (rim_inj hn (List.mem_range.1 hx₁) (List.mem_range.1 hy₁) (congrArg Pair.source h))
      (rim_inj hn (List.mem_range.1 hx₂) (List.mem_range.1 hy₂) (congrArg Pair.target h))

end Pairs

end Graph

end PathQueryIndex
