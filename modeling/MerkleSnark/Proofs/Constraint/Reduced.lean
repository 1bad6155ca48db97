import Mathlib
import MerkleSnark.Proofs.Constraint.LinearCombination

/-!
# Reduced linear combinations

The operations build combinations whose wires increase and whose coefficients are not zero.  Such a
combination is the sum of its own terms, so two of them with the same terms in any order are equal.

## Main definitions

* `LinearCombination.Reduced` — increasing wires, and no coefficient zero.
* `LinearCombination.Built` — what the operations give.

## Main results

* `built_iff_reduced` — the operations give just the reduced combinations.
* `Reduced.ofTerms_terms` — a reduced combination is the sum of its terms.
* `Reduced.length_terms_le` — it has at most as many terms as there are wires.
-/

namespace MerkleSnark.LinearCombination

variable {x y : LinearCombination} {i n : ℕ} {c : Fr} {ts : List (ℕ × Fr)}

/-- The wires of the terms increase and no coefficient is zero. -/
structure Reduced (x : LinearCombination) : Prop where
  sorted : x.Sorted
  ne_zero : ∀ t ∈ x.terms, t.2 ≠ 0

/-- What the operations give. -/
inductive Built : LinearCombination → Prop
  | zero : Built 0
  | addTerm {x : LinearCombination} (hx : Built x) (i : ℕ) (c : Fr) : Built (x.addTerm i c)
  | ofTable (entries : List (ℕ × Fr)) : Built (ofTable entries)
  | add {x y : LinearCombination} (hx : Built x) (hy : Built y) : Built (x + y)
  | neg {x : LinearCombination} (hx : Built x) : Built (-x)
  | sub {x y : LinearCombination} (hx : Built x) (hy : Built y) : Built (x - y)
  | scale {x : LinearCombination} (hx : Built x) (c : Fr) : Built (x.scale c)

/-! ### The operations keep combinations reduced -/

theorem ne_zero_of_mem_insertTerm {t : ℕ × Fr} (hts : ∀ t ∈ ts, t.2 ≠ 0)
    (h : t ∈ insertTerm i c ts) : t.2 ≠ 0 := by
  induction ts with
  | nil =>
    rw [insertTerm] at h
    split at h
    · exact absurd h List.not_mem_nil
    · next hc => rwa [List.mem_singleton.mp h]
  | cons s ts ih =>
    obtain ⟨j, d⟩ := s
    have htail : ∀ t ∈ ts, t.2 ≠ 0 := fun t ht => hts t (List.mem_cons_of_mem _ ht)
    rw [insertTerm] at h
    split at h
    · split at h
      · exact hts t h
      · next hc =>
        rcases List.mem_cons.mp h with rfl | h
        · exact hc
        · exact hts t h
    · split at h
      · split at h
        · exact htail t h
        · next hsum =>
          rcases List.mem_cons.mp h with rfl | h
          · exact hsum
          · exact htail t h
      · rcases List.mem_cons.mp h with rfl | h
        · exact hts _ List.mem_cons_self
        · exact ih htail h

namespace Reduced

theorem zero : Reduced 0 := ⟨Sorted.zero, fun _ ht => absurd ht List.not_mem_nil⟩

theorem addTerm (hx : x.Reduced) (i : ℕ) (c : Fr) : (x.addTerm i c).Reduced :=
  ⟨hx.sorted.addTerm i c, fun _ => ne_zero_of_mem_insertTerm hx.ne_zero⟩

/-- Terms that are added one after another. -/
theorem foldl_addTerm (hx : x.Reduced) (ts : List (ℕ × Fr)) :
    (ts.foldl (fun acc t => acc.addTerm t.1 t.2) x).Reduced := by
  induction ts generalizing x with
  | nil => exact hx
  | cons t ts ih => exact ih (hx.addTerm t.1 t.2)

theorem ofTerms (ts : List (ℕ × Fr)) : (ofTerms ts).Reduced := zero.foldl_addTerm ts

theorem add (hx : x.Reduced) (y : LinearCombination) : (x + y).Reduced := hx.foldl_addTerm y.terms

theorem scale (hx : x.Reduced) (c : Fr) : (x.scale c).Reduced := by
  refine ⟨hx.sorted.scale c, ?_⟩
  rw [LinearCombination.scale]
  split
  · exact zero.ne_zero
  · next hc =>
    intro t ht
    obtain ⟨s, hs, rfl⟩ := List.mem_map.mp ht
    exact mul_ne_zero (hx.ne_zero s hs) hc

end Reduced

/-! ### A reduced combination is the sum of its terms -/

/-- A term behind all others is added at the end. -/
theorem insertTerm_of_forall_lt (hts : ∀ t ∈ ts, t.1 < i) (hc : c ≠ 0) :
    insertTerm i c ts = ts ++ [(i, c)] := by
  induction ts with
  | nil => rw [insertTerm, if_neg hc, List.nil_append]
  | cons s ts ih =>
    obtain ⟨j, d⟩ := s
    have hlt : j < i := hts (j, d) List.mem_cons_self
    rw [insertTerm, if_neg (not_lt.mpr hlt.le), if_neg hlt.ne',
      ih fun t ht => hts t (List.mem_cons_of_mem _ ht), List.cons_append]

theorem foldl_addTerm_of_sorted {front : List (ℕ × Fr)}
    (hsorted : (front ++ ts).Pairwise fun s t => s.1 < t.1) (hts : ∀ t ∈ ts, t.2 ≠ 0) :
    ts.foldl (fun acc t => acc.addTerm t.1 t.2) (⟨front⟩ : LinearCombination)
      = ⟨front ++ ts⟩ := by
  induction ts generalizing front with
  | nil => rw [List.foldl_nil, List.append_nil]
  | cons t ts ih =>
    have hfront : ∀ s ∈ front, s.1 < t.1 := fun s hs =>
      (List.pairwise_append.mp hsorted).2.2 s hs t List.mem_cons_self
    have hstep : (⟨front⟩ : LinearCombination).addTerm t.1 t.2 = ⟨front ++ [t]⟩ :=
      congrArg LinearCombination.mk
        (insertTerm_of_forall_lt hfront (hts t List.mem_cons_self))
    have hassoc : front ++ t :: ts = front ++ [t] ++ ts := by simp
    rw [hassoc] at hsorted ⊢
    rw [List.foldl_cons, hstep]
    exact ih hsorted fun s hs => hts s (List.mem_cons_of_mem t hs)

/-- **A reduced combination is the sum of its terms.** -/
theorem Reduced.ofTerms_terms (hx : x.Reduced) : LinearCombination.ofTerms x.terms = x :=
  foldl_addTerm_of_sorted hx.sorted hx.ne_zero

/-- **The operations give just the reduced combinations.** -/
theorem built_iff_reduced : x.Built ↔ x.Reduced := by
  constructor
  · intro h
    induction h with
    | zero => exact .zero
    | addTerm _ i c ih => exact ih.addTerm i c
    | ofTable entries => exact .ofTerms _
    | add _ _ ihx => exact ihx.add _
    | neg _ ih => exact ih.scale _
    | sub _ _ ihx => exact ihx.add _
    | scale _ c ih => exact ih.scale c
  · intro h
    have hfold : ∀ (ts : List (ℕ × Fr)) (acc : LinearCombination), acc.Built →
        (ts.foldl (fun acc t => acc.addTerm t.1 t.2) acc).Built := by
      intro ts
      induction ts with
      | nil => exact fun acc hacc => hacc
      | cons t ts ih => exact fun acc hacc => ih _ (hacc.addTerm t.1 t.2)
    rw [← h.ofTerms_terms]
    exact hfold x.terms 0 .zero

/-- Every wire occurs at most once. -/
theorem Reduced.length_terms_le (hx : x.Reduced) (hn : x.boundedBy n = true) :
    x.terms.length ≤ n := by
  have hnodup : (x.terms.map Prod.fst).Nodup := by
    rw [List.nodup_iff_pairwise_ne, List.pairwise_map]
    exact hx.sorted.imp fun hlt => hlt.ne
  have hsubset : (x.terms.map Prod.fst).toFinset ⊆ Finset.range n := by
    intro i hi
    obtain ⟨t, ht, rfl⟩ := List.mem_map.mp (List.mem_toFinset.mp hi)
    exact Finset.mem_range.mpr (boundedBy_iff.mp hn t ht)
  have hcard := Finset.card_le_card hsubset
  rwa [List.toFinset_card_of_nodup hnodup, Finset.card_range, List.length_map] at hcard

end MerkleSnark.LinearCombination
