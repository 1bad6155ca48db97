import Mathlib
import MerkleSnark.Constraint.LinearCombination
import MerkleSnark.Proofs.Field.Scalar

/-!
# Linear combinations are linear maps

The operations on linear combinations act on their values as their names say, and they keep the
terms in the order on which constant folding relies.

## Main definitions

* `LinearCombination.Sorted` — the wires of the terms increase.
* `LinearCombination.Within` — the wires of the terms lie in a set.

## Main results

* `eval_eq_sum` — the value is the sum of the terms.
* `eval_add`, `eval_sub`, `eval_neg`, `eval_scale` — the value of an operation.
* `Sorted.add`, `Sorted.sub`, `Sorted.scale` — the operations keep the terms sorted.
* `Sorted.eval_of_isConstant` — a combination without variable wires has the value that folding
  takes for it.
* `Within.add`, `Within.sub`, `Within.scale` — the operations mention no new wires.
-/

namespace MerkleSnark.LinearCombination

variable {w : ℕ → Fr} {x y : LinearCombination} {i : ℕ} {c : Fr}

/-! ### Values -/

/-- The value is the sum of the terms. -/
theorem eval_eq_sum (x : LinearCombination) (w : ℕ → Fr) :
    x.eval w = (x.terms.map fun t => t.2 * w t.1).sum := by
  have hfold : ∀ (ts : List (ℕ × Fr)) (acc : Fr),
      ts.foldl (fun acc t => acc + t.2 * w t.1) acc
        = acc + (ts.map fun t => t.2 * w t.1).sum := by
    intro ts
    induction ts with
    | nil => intro acc; simp
    | cons t ts ih =>
      intro acc
      rw [List.foldl_cons, ih, List.map_cons, List.sum_cons, add_assoc]
  rw [eval, hfold, zero_add]

theorem sum_insertTerm (w : ℕ → Fr) (i : ℕ) (c : Fr) (ts : List (ℕ × Fr)) :
    ((insertTerm i c ts).map fun t => t.2 * w t.1).sum
      = (ts.map fun t => t.2 * w t.1).sum + c * w i := by
  induction ts with
  | nil =>
    rw [insertTerm]
    split
    · next h => simp [h]
    · simp
  | cons t ts ih =>
    obtain ⟨j, d⟩ := t
    rw [insertTerm]
    split
    · split
      · next h => simp [h]
      · rw [List.map_cons, List.sum_cons, add_comm]
    · split
      · next h =>
        subst h
        split
        · next h => rw [List.map_cons, List.sum_cons, add_right_comm, ← add_mul, h]; ring
        · rw [List.map_cons, List.map_cons, List.sum_cons, List.sum_cons]; ring
      · rw [List.map_cons, List.map_cons, List.sum_cons, List.sum_cons, ih, add_assoc]

@[simp] theorem eval_addTerm (x : LinearCombination) (i : ℕ) (c : Fr) (w : ℕ → Fr) :
    (x.addTerm i c).eval w = x.eval w + c * w i := by
  rw [eval_eq_sum, eval_eq_sum]
  exact sum_insertTerm w i c x.terms

/-- A fold of steps that each add a value adds all the values. -/
theorem eval_foldl {α : Type} {f : LinearCombination → α → LinearCombination} {g : α → Fr}
    (h : ∀ x a, (f x a).eval w = x.eval w + g a) (l : List α) (x : LinearCombination) :
    (l.foldl f x).eval w = x.eval w + (l.map g).sum := by
  induction l generalizing x with
  | nil => simp
  | cons a l ih => rw [List.foldl_cons, ih, h, List.map_cons, List.sum_cons, add_assoc]

/-- Adding terms one after another adds their values. -/
theorem eval_foldl_addTerm {α : Type} (f : α → ℕ) (g : α → Fr) (ts : List α)
    (x : LinearCombination) (w : ℕ → Fr) :
    (ts.foldl (fun acc t => acc.addTerm (f t) (g t)) x).eval w
      = x.eval w + (ts.map fun t => g t * w (f t)).sum :=
  eval_foldl (fun x t => eval_addTerm x (f t) (g t) w) ts x

theorem eval_ofTerms (ts : List (ℕ × Fr)) (w : ℕ → Fr) :
    (ofTerms ts).eval w = (ts.map fun t => t.2 * w t.1).sum :=
  (eval_foldl_addTerm Prod.fst Prod.snd ts 0 w).trans (zero_add _)

@[simp] theorem eval_term (i : ℕ) (c : Fr) (w : ℕ → Fr) : (term i c).eval w = c * w i := by
  rw [term, eval_addTerm, eval_zero, zero_add]

@[simp] theorem eval_var (i : ℕ) (w : ℕ → Fr) : (var i).eval w = w i := by
  rw [var, eval_term, one_mul]

@[simp] theorem eval_const (c : Fr) (w : ℕ → Fr) : (const c).eval w = c * w oneWire :=
  eval_term oneWire c w

@[simp] theorem eval_add (x y : LinearCombination) (w : ℕ → Fr) :
    (x + y).eval w = x.eval w + y.eval w := by
  rw [eval_eq_sum y]
  exact eval_foldl_addTerm Prod.fst Prod.snd y.terms x w

@[simp] theorem eval_scale (x : LinearCombination) (c : Fr) (w : ℕ → Fr) :
    (x.scale c).eval w = c * x.eval w := by
  rw [scale]
  split
  · next h => rw [h, zero_mul, eval_zero]
  · rw [eval_eq_sum, eval_eq_sum, List.map_map, ← List.sum_map_mul_left]
    refine congrArg List.sum (List.map_congr_left fun t _ => ?_)
    rw [Function.comp_apply]
    ring

@[simp] theorem eval_neg (x : LinearCombination) (w : ℕ → Fr) : (-x).eval w = -x.eval w := by
  rw [show -x = x.scale (-1) from rfl, eval_scale, neg_one_mul]

@[simp] theorem eval_sub (x y : LinearCombination) (w : ℕ → Fr) :
    (x - y).eval w = x.eval w - y.eval w := by
  rw [show x - y = x + -y from rfl, eval_add, eval_neg, sub_eq_add_neg]

/-- Only the wires of the terms count. -/
theorem eval_congr {v : ℕ → Fr} (h : ∀ t ∈ x.terms, w t.1 = v t.1) : x.eval w = x.eval v := by
  rw [eval_eq_sum, eval_eq_sum]
  refine congrArg List.sum (List.map_congr_left fun t ht => ?_)
  rw [h t ht]

/-! ### Sorted terms -/

/-- The wires of the terms increase, so each occurs at most once. -/
def Sorted (x : LinearCombination) : Prop := x.terms.Pairwise fun s t => s.1 < t.1

theorem mem_insertTerm {t : ℕ × Fr} {ts : List (ℕ × Fr)} (h : t ∈ insertTerm i c ts) :
    t.1 = i ∨ t ∈ ts := by
  induction ts with
  | nil =>
    rw [insertTerm] at h
    split at h
    · exact absurd h List.not_mem_nil
    · exact Or.inl (congrArg Prod.fst (List.mem_singleton.mp h))
  | cons s ts ih =>
    obtain ⟨j, d⟩ := s
    rw [insertTerm] at h
    split at h
    · split at h
      · exact Or.inr h
      · exact (List.mem_cons.mp h).imp (congrArg Prod.fst) id
    · split at h
      · next heq =>
        split at h
        · exact Or.inr (List.mem_cons_of_mem _ h)
        · rcases List.mem_cons.mp h with h | h
          · exact Or.inl ((congrArg Prod.fst h).trans heq.symm)
          · exact Or.inr (List.mem_cons_of_mem _ h)
      · rcases List.mem_cons.mp h with h | h
        · exact Or.inr (List.mem_cons.mpr (Or.inl h))
        · exact (ih h).imp id (List.mem_cons_of_mem _)

theorem pairwise_insertTerm (i : ℕ) (c : Fr) {ts : List (ℕ × Fr)}
    (h : ts.Pairwise fun s t => s.1 < t.1) :
    (insertTerm i c ts).Pairwise fun s t => s.1 < t.1 := by
  induction ts with
  | nil =>
    rw [insertTerm]
    split
    · exact List.Pairwise.nil
    · exact List.pairwise_singleton _ _
  | cons s ts ih =>
    obtain ⟨j, d⟩ := s
    obtain ⟨hhead, htail⟩ := List.pairwise_cons.mp h
    rw [insertTerm]
    split
    · next hlt =>
      split
      · exact h
      · refine List.pairwise_cons.mpr ⟨fun t ht => ?_, h⟩
        rcases List.mem_cons.mp ht with rfl | ht
        · exact hlt
        · exact hlt.trans (hhead t ht)
    · split
      · split
        · exact htail
        · exact List.pairwise_cons.mpr ⟨hhead, htail⟩
      · next hge hne =>
        refine List.pairwise_cons.mpr ⟨fun t ht => ?_, ih htail⟩
        rcases mem_insertTerm ht with h | h
        · rw [h]
          exact lt_of_le_of_ne (not_lt.mp hge) (Ne.symm hne)
        · exact hhead t h

namespace Sorted

theorem zero : Sorted 0 := List.Pairwise.nil

theorem addTerm (hx : x.Sorted) (i : ℕ) (c : Fr) : (x.addTerm i c).Sorted :=
  pairwise_insertTerm i c hx

theorem foldl_addTerm {α : Type} (f : α → ℕ) (g : α → Fr) (ts : List α) (hx : x.Sorted) :
    (ts.foldl (fun acc t => acc.addTerm (f t) (g t)) x).Sorted := by
  induction ts generalizing x with
  | nil => exact hx
  | cons t ts ih => exact ih (hx.addTerm (f t) (g t))

theorem term (i : ℕ) (c : Fr) : (term i c).Sorted := zero.addTerm i c

theorem var (i : ℕ) : (var i).Sorted := term i 1

theorem const (c : Fr) : (const c).Sorted := term oneWire c

theorem add (hx : x.Sorted) (y : LinearCombination) : (x + y).Sorted :=
  hx.foldl_addTerm Prod.fst Prod.snd y.terms

theorem scale (hx : x.Sorted) (c : Fr) : (x.scale c).Sorted := by
  rw [LinearCombination.scale]
  split
  · exact zero
  · exact List.pairwise_map.mpr hx

theorem neg (hx : x.Sorted) : (-x).Sorted := hx.scale (-1)

theorem sub (hx : x.Sorted) (y : LinearCombination) : (x - y).Sorted := hx.add (-y)

/-- **A combination without variable wires has the value that folding takes for it.** -/
theorem eval_of_isConstant (hx : x.Sorted) (hconst : x.isConstant = true) (w : ℕ → Fr) :
    x.eval w = x.constantValue * w oneWire := by
  obtain ⟨terms⟩ := x
  rw [isConstant, List.all_eq_true] at hconst
  rw [eval_eq_sum, constantValue]
  match terms, hx, hconst with
  | [], _, _ => simp
  | t :: ts, hx, hconst =>
    have hhead : t.1 = oneWire := beq_iff_eq.mp (hconst t List.mem_cons_self)
    -- a second term would belong to the same wire as the first
    have htail : ts = [] := by
      refine List.eq_nil_iff_forall_not_mem.mpr fun s hs => ?_
      have hlt := (List.pairwise_cons.mp hx).1 s hs
      have hs := beq_iff_eq.mp (hconst s (List.mem_cons_of_mem _ hs))
      omega
    subst htail
    simp [hhead]

end Sorted

/-! ### The wires of a combination -/

/-- All wires of the terms lie in the set. -/
def Within (x : LinearCombination) (S : Set ℕ) : Prop := ∀ t ∈ x.terms, t.1 ∈ S

theorem boundedBy_iff {n : ℕ} : x.boundedBy n = true ↔ x.Within {i | i < n} := by
  simp only [boundedBy, List.all_eq_true, decide_eq_true_eq, Within, Set.mem_ofPred_eq]

namespace Within

variable {S T : Set ℕ}

theorem mono (hx : x.Within S) (h : S ⊆ T) : x.Within T := fun t ht => h (hx t ht)

/-- Assignments that agree on the set give the same value. -/
theorem eval_eq {v : ℕ → Fr} (hx : x.Within S) (h : ∀ i ∈ S, w i = v i) : x.eval w = x.eval v :=
  eval_congr fun t ht => h t.1 (hx t ht)

theorem zero : Within 0 S := fun _ ht => absurd ht List.not_mem_nil

theorem addTerm (hx : x.Within S) (hi : i ∈ S) (c : Fr) : (x.addTerm i c).Within S := by
  intro t ht
  rcases mem_insertTerm ht with h | h
  · exact h ▸ hi
  · exact hx t h

/-- A fold whose steps mention no new wires mentions none. -/
theorem foldl {α : Type} {f : LinearCombination → α → LinearCombination} {l : List α}
    (h : ∀ x, ∀ a ∈ l, x.Within S → (f x a).Within S) (hx : x.Within S) :
    (l.foldl f x).Within S := by
  induction l generalizing x with
  | nil => exact hx
  | cons a l ih =>
    exact ih (fun x b hb => h x b (List.mem_cons_of_mem a hb)) (h x a List.mem_cons_self hx)

theorem term (hi : i ∈ S) (c : Fr) : (term i c).Within S := zero.addTerm hi c

theorem var (hi : i ∈ S) : (var i).Within S := term hi 1

theorem const (h : oneWire ∈ S) (c : Fr) : (const c).Within S := term h c

theorem add (hx : x.Within S) (hy : y.Within S) : (x + y).Within S :=
  foldl (fun _ t ht hz => hz.addTerm (hy t ht) t.2) hx

theorem scale (hx : x.Within S) (c : Fr) : (x.scale c).Within S := by
  rw [LinearCombination.scale]
  split
  · exact zero
  · intro t ht
    obtain ⟨s, hs, rfl⟩ := List.mem_map.mp ht
    exact hx s hs

theorem sub (hx : x.Within S) (hy : y.Within S) : (x - y).Within S := hx.add (hy.scale (-1))

end Within

end MerkleSnark.LinearCombination
