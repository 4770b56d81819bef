/-
Module: PathQueryIndex.Proofs.Outcome
Layer: Proofs
Purpose: Taking a successful computation apart. A sequence succeeds if and only if its parts do, one
  after the other, whether it reports its progress or not. Two computations that are alike, failing with
  one error or succeeding with related results, stay alike when they go on alike.
Imports: PathQueryIndex.Progress, Mathlib.Data.List.Forall2
Main exports: bind_eq_ok, bind_eq_error, exists_foldlM_keeping, exists_foldlM, foldlM_induction,
  foldlM_range_induction, exists_foldlM_range, forall₂_of_mapM, exists_mapM, FirstFailure, firstFailure_mapM,
  forall₂_imp_of_mem, Alike, Alike.bind, Alike.foldlM, Traced.bind_eq_ok, Traced.result_foldlM
-/
import PathQueryIndex.Progress
import Mathlib.Data.List.Forall2

namespace PathQueryIndex

variable {α β : Type}

/-- A sequence succeeds if its first part does and the second part does with the result of the first. -/
theorem bind_eq_ok {x : Except Error α} {f : α → Except Error β} {b : β} :
    (x >>= f) = .ok b ↔ ∃ a, x = .ok a ∧ f a = .ok b := by
  cases x with
  | ok a => exact ⟨fun h => ⟨a, rfl, h⟩, fun ⟨_, ha, h⟩ => by cases ha; exact h⟩
  | error e => exact ⟨fun h => (nomatch h), fun ⟨_, ha, _⟩ => (nomatch ha)⟩

/-- A sequence fails if its first part does, or the second part with the result of the first. -/
theorem bind_eq_error {x : Except Error α} {f : α → Except Error β} {e : Error} :
    (x >>= f) = .error e ↔ x = .error e ∨ ∃ a, x = .ok a ∧ f a = .error e := by
  cases x with
  | ok a =>
      constructor
      · intro h
        exact .inr ⟨a, rfl, h⟩
      · rintro (h | ⟨_, h, hf⟩)
        · cases h
        · cases h
          exact hf
  | error e' =>
      constructor
      · intro h
        cases h
        exact .inl rfl
      · rintro (h | ⟨_, h, _⟩)
        · cases h
          rfl
        · cases h

/-- A computation whose result passes a check succeeds. -/
theorem exists_ok_of_any {x : Except Error α} {f : α → Bool} (h : x.toOption.any f = true) :
    ∃ a, x = .ok a ∧ f a = true := by
  cases x with
  | ok a => exact ⟨a, rfl, h⟩
  | error e => cases h

theorem pure_eq_ok {a b : α} : (pure a : Except Error α) = .ok b ↔ a = b :=
  ⟨fun h => by cases h; rfl, fun h => h ▸ rfl⟩

theorem foldlM_cons_eq_ok {f : β → α → Except Error β} {x : α} {xs : List α} {b c : β} :
    (x :: xs).foldlM f b = .ok c ↔ ∃ d, f b x = .ok d ∧ xs.foldlM f d = .ok c := by
  rw [List.foldlM_cons]
  exact bind_eq_ok

/-- A fold succeeds if every step does from what holds of the elements taken so far and of the result so
    far, and makes it hold of one element more. -/
theorem exists_foldlM_keeping {f : β → α → Except Error β} {motive : List α → β → Prop} {xs : List α}
    {b : β} (step : ∀ done x b, done ++ [x] <+: xs → motive done b →
      ∃ c, f b x = .ok c ∧ motive (done ++ [x]) c) (hb : motive [] b) :
    ∃ c, xs.foldlM f b = .ok c ∧ motive xs c := by
  induction xs generalizing motive b with
  | nil => exact ⟨b, rfl, hb⟩
  | cons x xs ih =>
      obtain ⟨d, hd, hmotive⟩ := step [] x b ⟨xs, rfl⟩ hb
      obtain ⟨c, hc, hmotive⟩ := ih (motive := fun done => motive (x :: done))
        (fun done y b hpre => step (x :: done) y b (List.cons_prefix_cons.2 ⟨rfl, hpre⟩)) hmotive
      exact ⟨c, foldlM_cons_eq_ok.2 ⟨d, hd, hc⟩, hmotive⟩

/-- A fold succeeds if every step does. -/
theorem exists_foldlM {f : β → α → Except Error β} {xs : List α}
    (h : ∀ x ∈ xs, ∀ b, ∃ c, f b x = .ok c) (b : β) : ∃ c, xs.foldlM f b = .ok c := by
  have hstep : ∀ done x b, done ++ [x] <+: xs → True → ∃ c, f b x = .ok c ∧ True := by
    intro done x b hpre _
    obtain ⟨c, hc⟩ := h x (hpre.subset (List.mem_append_right _ (List.mem_singleton_self x))) b
    exact ⟨c, hc, trivial⟩
  obtain ⟨c, hc, _⟩ := exists_foldlM_keeping (motive := fun _ _ => True) (b := b) hstep trivial
  exact ⟨c, hc⟩

/-- What holds of the elements taken so far and of the result so far, if every successful step keeps it,
    holds of all elements and of the final result. -/
theorem foldlM_induction {f : β → α → Except Error β} {motive : List α → β → Prop} {xs : List α}
    {b c : β} (step : ∀ done x b c, done ++ [x] <+: xs → f b x = .ok c → motive done b →
      motive (done ++ [x]) c) (h : xs.foldlM f b = .ok c) (hb : motive [] b) : motive xs c := by
  have hrest : ∀ rest done b, done ++ rest = xs → rest.foldlM f b = .ok c → motive done b →
      motive xs c := by
    intro rest
    induction rest with
    | nil =>
        intro done b hxs h hdone
        rw [← hxs, List.append_nil]
        cases h
        exact hdone
    | cons x rest ih =>
        intro done b hxs h hdone
        obtain ⟨d, hx, hrest⟩ := foldlM_cons_eq_ok.1 h
        rw [List.append_cons] at hxs
        exact ih (done ++ [x]) d hxs hrest (step done x b d ⟨rest, hxs⟩ hx hdone)
  exact hrest xs [] b rfl h hb

/-- The elements of a range count those before them. -/
theorem eq_length_of_prefix_range {pre : List Nat} {k n : Nat} (h : pre ++ [k] <+: List.range n) :
    k = pre.length ∧ pre.length < n := by
  have hle := h.length_le
  rw [List.length_append, List.length_range] at hle
  have hget := h.getElem (i := pre.length) (by simp)
  exact ⟨by simpa using hget, hle⟩

/-- What holds at first of a fold over the numbers below `n`, and is kept by every successful step while the
    steps are counted, holds of the final result. -/
theorem foldlM_range_induction {f : β → Nat → Except Error β} {motive : Nat → β → Prop} {n : Nat}
    {b c : β} (step : ∀ k b c, k < n → f b k = .ok c → motive k b → motive (k + 1) c)
    (h : (List.range n).foldlM f b = .ok c) (hb : motive 0 b) : motive n c := by
  have hall := foldlM_induction (motive := fun done b => motive done.length b) ?_ h hb
  · rwa [List.length_range] at hall
  · intro done k b c hpre hstep hb
    obtain ⟨rfl, hlt⟩ := eq_length_of_prefix_range hpre
    rw [List.length_append]
    exact step _ b c hlt hstep hb

/-- A fold over the numbers below `n` succeeds if every step does from what holds of the result so far. -/
theorem exists_foldlM_range {f : β → Nat → Except Error β} {motive : Nat → β → Prop} {n : Nat} {b : β}
    (step : ∀ k b, k < n → motive k b → ∃ c, f b k = .ok c ∧ motive (k + 1) c) (hb : motive 0 b) :
    ∃ c, (List.range n).foldlM f b = .ok c ∧ motive n c := by
  have hall : ∃ c, (List.range n).foldlM f b = .ok c ∧ motive (List.range n).length c := by
    refine exists_foldlM_keeping (motive := fun done b => motive done.length b) ?_ hb
    intro done k b hpre hb
    obtain ⟨rfl, hlt⟩ := eq_length_of_prefix_range hpre
    rw [List.length_append]
    exact step _ b hlt hb
  rwa [List.length_range] at hall

/-- A successful traversal has a result for every element, in order. -/
theorem forall₂_of_mapM {f : α → Except Error β} {xs : List α} {ys : List β}
    (h : xs.mapM f = .ok ys) : List.Forall₂ (fun x y => f x = .ok y) xs ys := by
  induction xs generalizing ys with
  | nil =>
      cases h
      exact .nil
  | cons x xs ih =>
      rw [List.mapM_cons] at h
      obtain ⟨y, hy, h⟩ := bind_eq_ok.1 h
      obtain ⟨zs, hzs, h⟩ := bind_eq_ok.1 h
      cases h
      exact .cons hy (ih hzs)

/-- A traversal succeeds if every element has a result. -/
theorem exists_mapM {f : α → Except Error β} {xs : List α} (h : ∀ x ∈ xs, ∃ y, f x = .ok y) :
    ∃ ys, xs.mapM f = .ok ys := by
  induction xs with
  | nil => exact ⟨[], rfl⟩
  | cons x xs ih =>
      rw [List.forall_mem_cons] at h
      obtain ⟨y, hy⟩ := h.1
      obtain ⟨ys, hys⟩ := ih h.2
      rw [List.mapM_cons]
      exact ⟨y :: ys, bind_eq_ok.2 ⟨y, hy, bind_eq_ok.2 ⟨ys, hys, rfl⟩⟩⟩

/-- What comes of some elements one after the other: the results of all of them in order, or else the error of
    the first one that fails. -/
structure FirstFailure (f : α → Except Error β) (xs : List α) (r : Except Error (List β)) : Prop where
  ok : ∀ ys, r = .ok ys ↔ List.Forall₂ (fun x y => f x = .ok y) xs ys
  error : ∀ e, r = .error e ↔ ∃ done x rest, xs = done ++ x :: rest ∧
    (∀ y ∈ done, ∃ b, f y = .ok b) ∧ f x = .error e

theorem mapM_eq_ok_iff {f : α → Except Error β} {xs : List α} {ys : List β} :
    xs.mapM f = .ok ys ↔ List.Forall₂ (fun x y => f x = .ok y) xs ys := by
  refine ⟨forall₂_of_mapM, fun h => ?_⟩
  induction h with
  | nil => rfl
  | cons hx _ ih =>
      rw [List.mapM_cons]
      exact bind_eq_ok.2 ⟨_, hx, bind_eq_ok.2 ⟨_, ih, rfl⟩⟩

/-- A traversal fails with the error of the first element that has no result. -/
theorem mapM_eq_error_iff {f : α → Except Error β} {xs : List α} {e : Error} :
    xs.mapM f = .error e ↔ ∃ done x rest, xs = done ++ x :: rest ∧
      (∀ y ∈ done, ∃ b, f y = .ok b) ∧ f x = .error e := by
  induction xs with
  | nil => exact ⟨fun h => (nomatch h), fun ⟨done, _, _, h, _⟩ => by cases done <;> cases h⟩
  | cons x xs ih =>
      rw [List.mapM_cons]
      cases hx : f x with
      | error e' =>
          constructor
          · intro h
            cases h
            exact ⟨[], x, xs, rfl, fun _ hy => (nomatch hy), hx⟩
          · rintro ⟨_ | ⟨y, done⟩, z, rest, hsplit, hdone, hz⟩
            · cases hsplit
              rw [hx] at hz
              cases hz
              rfl
            · cases hsplit
              obtain ⟨b, hb⟩ := hdone _ (List.mem_cons_self ..)
              rw [hx] at hb
              cases hb
      | ok b =>
          have hrest : (xs.mapM f >>= fun ys => pure (b :: ys)) = .error e ↔ xs.mapM f = .error e := by
            cases xs.mapM f with
            | ok ys => exact ⟨fun h => (nomatch h), fun h => (nomatch h)⟩
            | error e' => exact Iff.rfl
          refine hrest.trans (ih.trans ?_)
          constructor
          · rintro ⟨done, z, rest, rfl, hdone, hz⟩
            exact ⟨x :: done, z, rest, rfl, List.forall_mem_cons.2 ⟨⟨b, hx⟩, hdone⟩, hz⟩
          · rintro ⟨_ | ⟨y, done⟩, z, rest, hsplit, hdone, hz⟩
            · cases hsplit
              rw [hx] at hz
              cases hz
            · cases hsplit
              exact ⟨done, z, rest, rfl, (List.forall_mem_cons.1 hdone).2, hz⟩

theorem firstFailure_mapM (f : α → Except Error β) (xs : List α) : FirstFailure f xs (xs.mapM f) :=
  ⟨fun _ => mapM_eq_ok_iff, fun _ => mapM_eq_error_iff⟩

/-- Traversals that do the same to related elements are the same. -/
theorem mapM_eq_of_forall₂ {γ : Type} {f : α → Except Error γ} {g : β → Except Error γ} {xs : List α}
    {ys : List β} (h : List.Forall₂ (fun x y => f x = g y) xs ys) : xs.mapM f = ys.mapM g := by
  induction h with
  | nil => rfl
  | cons hxy _ ih => rw [List.mapM_cons, List.mapM_cons, hxy, ih]

/-- A relation of lists only has to imply another one for their elements. -/
theorem forall₂_imp_of_mem {R S : α → β → Prop} {xs : List α} {ys : List β} (h : List.Forall₂ R xs ys)
    (himp : ∀ x ∈ xs, ∀ y ∈ ys, R x y → S x y) : List.Forall₂ S xs ys := by
  induction h with
  | nil => exact .nil
  | cons hxy _ ih =>
      refine .cons (himp _ (List.mem_cons_self ..) _ (List.mem_cons_self ..) hxy) (ih ?_)
      exact fun x hx y hy => himp x (List.mem_cons_of_mem _ hx) y (List.mem_cons_of_mem _ hy)

theorem exists_of_mem_left {R : α → β → Prop} {xs : List α} {ys : List β}
    (h : List.Forall₂ R xs ys) {x : α} (hx : x ∈ xs) : ∃ y ∈ ys, R x y := by
  induction h with
  | nil => cases hx
  | cons hxy _ ih =>
      rcases List.mem_cons.1 hx with rfl | hx
      · exact ⟨_, List.mem_cons_self .., hxy⟩
      · obtain ⟨y, hy, h⟩ := ih hx
        exact ⟨y, List.mem_cons_of_mem _ hy, h⟩

theorem exists_of_mem_right {R : α → β → Prop} {xs : List α} {ys : List β}
    (h : List.Forall₂ R xs ys) {y : β} (hy : y ∈ ys) : ∃ x ∈ xs, R x y :=
  exists_of_mem_left h.flip hy

/-! ### Two computations side by side -/

variable {γ δ : Type}

/-- Two computations fail with the same error, or both succeed and their results are related. -/
inductive Alike (R : α → β → Prop) : Except Error α → Except Error β → Prop where
  | ok {a : α} {b : β} (h : R a b) : Alike R (.ok a) (.ok b)
  | error (e : Error) : Alike R (.error e) (.error e)

namespace Alike

variable {R : α → β → Prop} {S : γ → δ → Prop} {x : Except Error α} {y : Except Error β}

theorem refl (x : Except Error α) : Alike Eq x x := by
  cases x with
  | ok a => exact .ok rfl
  | error e => exact .error e

theorem imp {R' : α → β → Prop} (h : Alike R x y) (himp : ∀ a b, R a b → R' a b) : Alike R' x y := by
  cases h with
  | ok hab => exact .ok (himp _ _ hab)
  | error e => exact .error e

/-- The related results of alike computations are their results. -/
theorem attach (h : Alike R x y) : Alike (fun a b => R a b ∧ x = .ok a ∧ y = .ok b) x y := by
  cases h with
  | ok hab => exact .ok ⟨hab, rfl, rfl⟩
  | error e => exact .error e

/-- What is done with related results is done with alike computations. -/
theorem bind {f : α → Except Error γ} {g : β → Except Error δ} (h : Alike R x y)
    (hnext : ∀ a b, R a b → Alike S (f a) (g b)) : Alike S (x >>= f) (y >>= g) := by
  cases h with
  | ok hab => exact hnext _ _ hab
  | error e => exact .error e

/-- Two folds over lists of the same length are alike if each step keeps a relation of their states. -/
theorem foldlM {motive : Nat → β → δ → Prop} {f : β → α → Except Error β}
    {g : δ → γ → Except Error δ} {xs : List α} {ys : List γ} (hlen : xs.length = ys.length)
    (step : ∀ k x y b d, xs[k]? = some x → ys[k]? = some y → motive k b d →
      Alike (motive (k + 1)) (f b x) (g d y))
    {b : β} {d : δ} (h : motive 0 b d) :
    Alike (motive xs.length) (xs.foldlM f b) (ys.foldlM g d) := by
  induction xs generalizing ys motive b d with
  | nil =>
      obtain rfl := List.length_eq_zero_iff.1 hlen.symm
      exact .ok h
  | cons x xs ih =>
      cases ys with
      | nil => cases hlen
      | cons y ys =>
          rw [List.foldlM_cons, List.foldlM_cons]
          refine (step 0 x y b d rfl rfl h).bind fun b' d' h' => ?_
          exact ih (motive := fun k => motive (k + 1)) (Nat.succ.inj hlen)
            (fun k x y b d hx hy => step (k + 1) x y b d hx hy) h'

end Alike

namespace Traced

theorem bind_eq_ok {x : Traced α} {f : α → Traced β} {b : β} :
    (x >>= f).result = .ok b ↔ ∃ a, x.result = .ok a ∧ (f a).result = .ok b := by
  rw [result_bind]
  exact PathQueryIndex.bind_eq_ok

/-- The result of a fold is the fold of the results. -/
theorem result_foldlM (f : β → α → Traced β) (xs : List α) (b : β) :
    (xs.foldlM f b).result = xs.foldlM (fun b x => (f b x).result) b := by
  induction xs generalizing b with
  | nil => rfl
  | cons x xs ih =>
      rw [List.foldlM_cons, List.foldlM_cons, result_bind]
      congr 1
      funext c
      exact ih c

end Traced

end PathQueryIndex
