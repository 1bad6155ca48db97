import Mathlib
import MerkleSnark.Curve.MultiExp
import MerkleSnark.Proofs.Curve.Bn128
import MerkleSnark.Proofs.Curve.FixedBase

/-!
# Sums of multiples by buckets

The bucket method computes the plain sum of multiples.  Within a window the suffix sums of the
buckets weigh every point by its digit, and between windows the doublings shift the digits that were
summed so far.

## Main definitions

* `MultiExp.weightedBy` — the sum over terms of a point times a function of its scalar.
* `MultiExp.naiveSum` — the sum from left to right, one multiple after another.

## Main results

* `denotes_weightedSum` — suffix sums weigh bucket `d` by `d`.
* `denotes_window` — one window sums the points times their digits.
* `denotes_bucketSum` — the windows sum the points times their scalars.
* `exists_multiExp_eq` — lists of equal length have a sum of multiples.
* `multiExp_denotes_naiveSum` — it is the sum from left to right, and only other lists are refused.
-/

namespace MerkleSnark

open PointGroup

variable {P : Type} [PointGroup P] {A : Type} [AddCommGroup A] {L : Model P A}

namespace MultiExp

/-! ### Weighted sums of terms -/

/-- The sum over terms of the element of the point times a function of the scalar. -/
def weightedBy (L : Model P A) (f : Fr → ℕ) (terms : List (P × Fr)) : A :=
  (terms.map fun t => f t.2 • L.value t.1).sum

theorem weightedBy_nil (f : Fr → ℕ) : weightedBy L f [] = 0 := rfl

theorem weightedBy_cons (f : Fr → ℕ) (t : P × Fr) (ts : List (P × Fr)) :
    weightedBy L f (t :: ts) = f t.2 • L.value t.1 + weightedBy L f ts := by
  rw [weightedBy, weightedBy, List.map_cons, List.sum_cons]

theorem weightedBy_add (f g : Fr → ℕ) (ts : List (P × Fr)) :
    weightedBy L (fun k => f k + g k) ts = weightedBy L f ts + weightedBy L g ts := by
  induction ts with
  | nil => simp [weightedBy_nil]
  | cons t ts ih =>
    rw [weightedBy_cons, weightedBy_cons, weightedBy_cons, ih, add_nsmul, add_add_add_comm]

theorem weightedBy_mul (n : ℕ) (f : Fr → ℕ) (ts : List (P × Fr)) :
    weightedBy L (fun k => n * f k) ts = n • weightedBy L f ts := by
  induction ts with
  | nil => simp [weightedBy_nil]
  | cons t ts ih => rw [weightedBy_cons, weightedBy_cons, ih, nsmul_add, smul_smul]

/-- Terms can be told apart by any property. -/
theorem weightedBy_filter_add (f : Fr → ℕ) (keep : P × Fr → Bool) (ts : List (P × Fr)) :
    weightedBy L f (ts.filter keep) + weightedBy L f (ts.filter fun t => !keep t)
      = weightedBy L f ts := by
  induction ts with
  | nil => simp [weightedBy_nil]
  | cons t ts ih =>
    cases hkeep : keep t with
    | true => simp only [List.filter_cons, hkeep, Bool.not_true, if_true, Bool.false_eq_true,
        if_false, weightedBy_cons, ← ih, add_assoc]
    | false => simp only [List.filter_cons, hkeep, Bool.not_false, if_true, Bool.false_eq_true,
        if_false, weightedBy_cons, ← ih, add_left_comm]

/-- Points at infinity and zero scalars add nothing. -/
theorem weightedBy_nonzeroTerms {ts : List (P × Fr)} (hvalid : ∀ t ∈ ts, L.Valid t.1) :
    weightedBy L Residue.val (nonzeroTerms ts) = weightedBy L Residue.val ts := by
  rw [nonzeroTerms, ← weightedBy_filter_add (L := L) Residue.val
    (fun t => !(t.2.val == 0 || isInfinity t.1)) ts]
  refine (add_eq_left.mpr ?_).symm
  refine List.sum_eq_zero fun a ha => ?_
  obtain ⟨t, ht, rfl⟩ := List.mem_map.mp ha
  obtain ⟨hmem, hdrop⟩ := List.mem_filter.mp ht
  rw [Bool.not_not, Bool.or_eq_true, beq_iff_eq] at hdrop
  rcases hdrop with hzero | hinf
  · rw [hzero, zero_nsmul]
  · rw [(L.isInfinity_iff (hvalid t hmem)).mp hinf, smul_zero]

theorem denotes_plainSum {ts : List (P × Fr)} (hvalid : ∀ t ∈ ts, L.Valid t.1) {acc : P} {a : A}
    (hacc : L.Denotes acc a) :
    L.Denotes (plainSum acc ts) (a + weightedBy L Residue.val ts) := by
  induction ts generalizing acc a with
  | nil => rwa [weightedBy_nil, add_zero]
  | cons t ts ih =>
    have hhead := Model.Denotes.of_valid (hvalid t List.mem_cons_self)
    rw [weightedBy_cons, ← add_assoc]
    exact ih (fun s hs => hvalid s (List.mem_cons_of_mem _ hs)) (hacc.add (hhead.smul t.2))

/-- Terms with the scalar one are added as they stand. -/
theorem denotes_foldl_add {ts : List (P × Fr)} (hvalid : ∀ t ∈ ts, L.Valid t.1)
    (hone : ∀ t ∈ ts, t.2.val = 1) {acc : P} {a : A} (hacc : L.Denotes acc a) :
    L.Denotes (ts.foldl (fun acc t => add acc t.1) acc) (a + weightedBy L Residue.val ts) := by
  induction ts generalizing acc a with
  | nil => rwa [weightedBy_nil, add_zero]
  | cons t ts ih =>
    have hhead := Model.Denotes.of_valid (hvalid t List.mem_cons_self)
    rw [weightedBy_cons, hone t List.mem_cons_self, one_nsmul, ← add_assoc]
    exact ih (fun s hs => hvalid s (List.mem_cons_of_mem _ hs))
      (fun s hs => hone s (List.mem_cons_of_mem _ hs)) (hacc.add hhead)

/-! ### Buckets -/

/-- The digit of a scalar in a window of `c` bits. -/
def digit (c window : ℕ) (k : Fr) : ℕ := (k.val >>> (window * c)) % 2 ^ c

theorem digit_lt (c window : ℕ) (k : Fr) : digit c window k < 2 ^ c :=
  Nat.mod_lt _ (Nat.two_pow_pos c)

/-- The digits from a window on are the digit of the window and those from the next one on. -/
theorem shiftRight_eq (c window : ℕ) (k : Fr) :
    k.val >>> (window * c) = 2 ^ c * (k.val >>> ((window + 1) * c)) + digit c window k := by
  rw [digit, Nat.succ_mul, Nat.shiftRight_add, Nat.shiftRight_eq_div_pow _ c, Nat.div_add_mod]

/-- The indicator of the terms that belong into bucket `d`. -/
def inBucket (c window d : ℕ) (k : Fr) : ℕ := if digit c window k = d then 1 else 0

/-- Adds one point into the bucket of its digit. -/
def fillOne (c window : ℕ) (buckets : Array P) (t : P × Fr) : Array P :=
  if digit c window t.2 = 0 then buckets else buckets.modify (digit c window t.2) (add · t.1)

theorem fillBuckets_eq (c window : ℕ) (ts : List (P × Fr)) :
    fillBuckets c window ts = ts.foldl (fillOne c window) (Array.replicate (2 ^ c) infinity) := by
  simp only [fillBuckets, Nat.one_shiftLeft]
  rfl

theorem size_fillOne (c window : ℕ) (buckets : Array P) (t : P × Fr) :
    (fillOne c window buckets t).size = buckets.size := by
  rw [fillOne]
  split
  · rfl
  · exact Array.size_modify

/-- One point adds to the bucket of its digit, unless this is the first one. -/
theorem denotes_fillOne {c window : ℕ} {t : P × Fr} (ht : L.Valid t.1) {buckets : Array P}
    (hsize : buckets.size = 2 ^ c) {d : ℕ} (hd : d ≠ 0) {b : A}
    (hbucket : L.Denotes (buckets.getD d infinity) b) :
    L.Denotes ((fillOne c window buckets t).getD d infinity)
      (b + inBucket c window d t.2 • L.value t.1) := by
  rw [fillOne, inBucket]
  split
  · next hzero =>
    rw [if_neg (by omega), zero_nsmul, add_zero]
    exact hbucket
  · rw [Array.getD_eq_getD_getElem?, Array.getElem?_modify]
    split
    · next heq =>
      have hlt : d < buckets.size := by
        rw [hsize, ← heq]
        exact digit_lt c window t.2
      rw [Array.getD_eq_getD_getElem?, Array.getElem?_eq_getElem hlt] at hbucket
      rw [Array.getElem?_eq_getElem hlt, one_nsmul]
      exact hbucket.add (Model.Denotes.of_valid ht)
    · rw [zero_nsmul, add_zero, ← Array.getD_eq_getD_getElem?]
      exact hbucket

/-- Filling adds to every bucket but the first the points of its digit. -/
theorem denotes_foldl_fillOne (c window : ℕ) {ts : List (P × Fr)}
    (hvalid : ∀ t ∈ ts, L.Valid t.1) {buckets : Array P} (hsize : buckets.size = 2 ^ c) {d : ℕ}
    (hd : d ≠ 0) {b : A} (hbucket : L.Denotes (buckets.getD d infinity) b) :
    (ts.foldl (fillOne c window) buckets).size = 2 ^ c
      ∧ L.Denotes ((ts.foldl (fillOne c window) buckets).getD d infinity)
          (b + weightedBy L (inBucket c window d) ts) := by
  induction ts generalizing buckets b with
  | nil =>
    rw [weightedBy_nil, add_zero]
    exact ⟨hsize, hbucket⟩
  | cons t ts ih =>
    rw [List.foldl_cons, weightedBy_cons, ← add_assoc]
    refine ih (fun s hs => hvalid s (List.mem_cons_of_mem _ hs)) ?_ ?_
    · rw [size_fillOne, hsize]
    · exact denotes_fillOne (hvalid t List.mem_cons_self) hsize hd hbucket

theorem denotes_fillBuckets (c window : ℕ) {ts : List (P × Fr)} (hvalid : ∀ t ∈ ts, L.Valid t.1)
    {d : ℕ} (hd : d ≠ 0) :
    (fillBuckets c window ts).size = 2 ^ c
      ∧ L.Denotes ((fillBuckets c window ts).getD d infinity)
          (weightedBy L (inBucket c window d) ts) := by
  have hempty : L.Denotes ((Array.replicate (2 ^ c) (infinity : P)).getD d infinity) 0 := by
    rw [Array.getD_eq_getD_getElem?, Array.getElem?_replicate]
    split <;> exact Model.Denotes.infinity
  have h := denotes_foldl_fillOne c window hvalid Array.size_replicate hd hempty
  rwa [zero_add, ← fillBuckets_eq] at h

/-- Behind a new first bucket every other bucket is counted once more. -/
theorem sum_succ_nsmul_cons (p : P) (bs : List P) :
    ∑ i ∈ Finset.range (p :: bs).length, (i + 1) • L.value ((p :: bs).getD i infinity)
      = ∑ i ∈ Finset.range bs.length, (i + 1) • L.value (bs.getD i infinity)
        + ((bs.map L.value).sum + L.value p) := by
  have hsum : (bs.map L.value).sum
      = ∑ i ∈ Finset.range bs.length, L.value (bs.getD i infinity) := by
    rw [← Fin.sum_univ_eq_sum_range (fun i => L.value (bs.getD i infinity)),
      ← Fin.sum_univ_fun_getElem]
    exact Finset.sum_congr rfl fun i _ => by rw [List.getD_eq_getElem _ _ i.isLt]
  rw [List.length_cons, Finset.sum_range_succ', hsum, ← add_assoc, ← Finset.sum_add_distrib]
  simp only [List.getD_cons_succ, List.getD_cons_zero, zero_add, one_nsmul, add_nsmul]

/-- The running sum holds the buckets once each, and the total holds them as often as they were in
the running sum. -/
theorem denotes_foldr_running {buckets : List P} (hvalid : ∀ p ∈ buckets, L.Valid p) :
    L.Denotes (buckets.foldr (fun bucket (acc : P × P) =>
        (add acc.1 bucket, add acc.2 (add acc.1 bucket))) (infinity, infinity)).1
        (buckets.map L.value).sum
      ∧ L.Denotes (buckets.foldr (fun bucket (acc : P × P) =>
          (add acc.1 bucket, add acc.2 (add acc.1 bucket))) (infinity, infinity)).2
        (∑ i ∈ Finset.range buckets.length, (i + 1) • L.value (buckets.getD i infinity)) := by
  induction buckets with
  | nil => exact ⟨Model.Denotes.infinity, Model.Denotes.infinity⟩
  | cons p bs ih =>
    obtain ⟨hrunning, htotal⟩ := ih fun q hq => hvalid q (List.mem_cons_of_mem _ hq)
    have hmore := hrunning.add (Model.Denotes.of_valid (hvalid p List.mem_cons_self))
    constructor
    · rw [List.map_cons, List.sum_cons, add_comm]
      exact hmore
    · rw [sum_succ_nsmul_cons]
      exact htotal.add hmore

/-- **Suffix sums weigh the first bucket by one, the next by two, and so on.** -/
theorem denotes_weightedSum {buckets : List P} (hvalid : ∀ p ∈ buckets, L.Valid p) :
    L.Denotes (weightedSum buckets)
      (∑ i ∈ Finset.range buckets.length, (i + 1) • L.value (buckets.getD i infinity)) := by
  rw [weightedSum, List.foldl_reverse]
  exact (denotes_foldr_running hvalid).2

/-- The buckets weighed by their number hold the points times their digits. -/
theorem sum_nsmul_inBucket (c window : ℕ) (ts : List (P × Fr)) :
    ∑ d ∈ Finset.range (2 ^ c), d • weightedBy L (inBucket c window d) ts
      = weightedBy L (digit c window) ts := by
  induction ts with
  | nil => simp [weightedBy_nil]
  | cons t ts ih =>
    have hdigit := digit_lt c window t.2
    simp only [weightedBy_cons, nsmul_add, Finset.sum_add_distrib, ih, inBucket, ite_smul,
      one_nsmul, zero_nsmul, smul_ite, nsmul_zero]
    rw [Finset.sum_ite_eq, if_pos (Finset.mem_range.mpr hdigit)]

/-- **One window sums the points times their digits.** -/
theorem denotes_window (c window : ℕ) {ts : List (P × Fr)} (hvalid : ∀ t ∈ ts, L.Valid t.1) :
    L.Denotes (weightedSum (fillBuckets c window ts).toList.tail)
      (weightedBy L (digit c window) ts) := by
  have hsize : (fillBuckets c window ts).size = 2 ^ c :=
    (denotes_fillBuckets c window hvalid one_ne_zero).1
  have hentry (i : ℕ) : L.Denotes ((fillBuckets c window ts).toList.tail.getD i infinity)
      (weightedBy L (inBucket c window (i + 1)) ts) := by
    have h := (denotes_fillBuckets c window hvalid (Nat.succ_ne_zero i)).2
    rwa [List.getD_eq_getElem?_getD, List.getElem?_tail, Array.getElem?_toList,
      ← Array.getD_eq_getD_getElem?]
  have hlen : (fillBuckets c window ts).toList.tail.length = 2 ^ c - 1 := by
    rw [List.length_tail, Array.length_toList, hsize]
  have hbuckets : ∀ p ∈ (fillBuckets c window ts).toList.tail, L.Valid p := by
    intro p hp
    obtain ⟨i, hi, rfl⟩ := List.getElem_of_mem hp
    rw [← List.getD_eq_getElem _ infinity hi]
    exact (hentry i).1
  have hsum : ∑ i ∈ Finset.range (fillBuckets c window ts).toList.tail.length,
        (i + 1) • L.value ((fillBuckets c window ts).toList.tail.getD i infinity)
      = weightedBy L (digit c window) ts := by
    rw [← sum_nsmul_inBucket, hlen,
      ← Nat.sub_add_cancel (Nat.one_le_two_pow : 1 ≤ 2 ^ c), Finset.sum_range_succ', zero_nsmul,
      add_zero, Nat.add_sub_cancel]
    exact Finset.sum_congr rfl fun i _ => by rw [(hentry i).2]
  rw [← hsum]
  exact denotes_weightedSum hbuckets

theorem denotes_doubleTimes (n : ℕ) {p : P} {a : A} (hp : L.Denotes p a) :
    L.Denotes (doubleTimes n p) ((2 ^ n) • a) := by
  induction n generalizing p a with
  | zero => rwa [pow_zero, one_nsmul]
  | succ n ih =>
    have h := ih hp.double
    rwa [← two_nsmul, smul_smul, ← pow_succ] at h

/-- Before the windows below `n` are summed, the digits from window `n` on are. -/
theorem denotes_windows (c n : ℕ) {ts : List (P × Fr)} (hvalid : ∀ t ∈ ts, L.Valid t.1) {acc : P}
    (hacc : L.Denotes acc (weightedBy L (fun k => k.val >>> (n * c)) ts)) :
    L.Denotes ((List.range n).foldr (fun window acc =>
        add (doubleTimes c acc) (weightedSum (fillBuckets c window ts).toList.tail)) acc)
      (weightedBy L Residue.val ts) := by
  induction n generalizing acc with
  | zero => simpa using hacc
  | succ n ih =>
    rw [List.range_succ, List.foldr_append, List.foldr_cons, List.foldr_nil]
    refine ih ?_
    rw [funext (shiftRight_eq c n), weightedBy_add, weightedBy_mul]
    exact (denotes_doubleTimes c hacc).add (denotes_window c n hvalid)

/-- **The windows sum the points times their scalars.** -/
theorem denotes_bucketSum {ts : List (P × Fr)} (hvalid : ∀ t ∈ ts, L.Valid t.1) :
    L.Denotes (bucketSum ts) (weightedBy L Residue.val ts) := by
  set c := bucketWindow ts.length with hc
  have hwindow : 1 ≤ c := (by decide : 1 ≤ 2).trans (Nat.le_max_left _ _)
  have hdone : weightedBy L (fun k => k.val >>> (FixedBaseTable.windowCount c * c)) ts = 0 := by
    have hzero (k : Fr) : k.val >>> (FixedBaseTable.windowCount c * c) = 0 * k.val := by
      rw [zero_mul, Nat.shiftRight_eq_div_pow]
      exact Nat.div_eq_of_lt (k.val_lt.trans (FixedBaseTable.scalarOrder_lt.trans_le
        (Nat.pow_le_pow_right (by decide) (FixedBaseTable.bitLength_le_windowCount_mul hwindow))))
    rw [funext hzero, weightedBy_mul, zero_nsmul]
  rw [bucketSum, List.foldl_reverse]
  refine denotes_windows c (FixedBaseTable.windowCount c) hvalid ?_
  rw [hdone]
  exact Model.Denotes.infinity

end MultiExp

open MultiExp

/-- **Lists of equal length have a sum of multiples.** -/
theorem exists_multiExp_eq {points : List P} {scalars : List Fr}
    (hlen : points.length = scalars.length) (hvalid : ∀ p ∈ points, L.Valid p) :
    ∃ p, multiExp points scalars = .ok p
      ∧ L.Denotes p (List.zipWith (fun p k => k.val • L.value p) points scalars).sum := by
  set terms := nonzeroTerms (points.zip scalars) with hterms
  set units := (terms.filter (·.2.val == 1)).foldl (fun acc t => add acc t.1) infinity with hunits
  set rest := terms.filter (·.2.val != 1) with hrest
  have hzip : ∀ t ∈ points.zip scalars, L.Valid t.1 := fun t ht =>
    hvalid t.1 (List.of_mem_zip ht).1
  have hvalidTerms : ∀ t ∈ terms, L.Valid t.1 := fun t ht => hzip t (List.mem_filter.mp ht).1
  have hvalidRest : ∀ t ∈ rest, L.Valid t.1 := fun t ht => hvalidTerms t (List.mem_filter.mp ht).1
  have hsum : (List.zipWith (fun p k => k.val • L.value p) points scalars).sum
      = weightedBy L Residue.val (terms.filter (·.2.val == 1)) + weightedBy L Residue.val rest := by
    rw [hrest, show (fun t : P × Fr => t.2.val != 1) = fun t => !(t.2.val == 1) from rfl,
      weightedBy_filter_add, hterms, weightedBy_nonzeroTerms hzip, weightedBy, List.zip,
      List.map_zipWith]
  have hdenotes : L.Denotes units (weightedBy L Residue.val (terms.filter (·.2.val == 1))) := by
    have hone : ∀ t ∈ terms.filter (·.2.val == 1), t.2.val = 1 := fun t ht =>
      beq_iff_eq.mp (List.mem_filter.mp ht).2
    have h := denotes_foldl_add (fun t ht => hvalidTerms t (List.mem_filter.mp ht).1) hone
      Model.Denotes.infinity
    rwa [zero_add] at h
  refine ⟨_, by rw [multiExp, if_neg (not_not.mpr hlen)], ?_⟩
  rw [hsum]
  split
  · exact denotes_plainSum hvalidRest hdenotes
  · exact hdenotes.add (denotes_bucketSum hvalidRest)

/-- Points with known exponents have the sum of the products as the exponent of their sum. -/
theorem exists_multiExp_exponent (horder : addOrderOf L.base = scalarOrder) {points : List P}
    {exponents : List Fr} (hpoints : List.Forall₂ L.Exponent points exponents) {scalars : List Fr}
    (hlen : exponents.length = scalars.length) :
    ∃ p, multiExp points scalars = .ok p
      ∧ L.Exponent p (List.zipWith (· * ·) exponents scalars).sum := by
  have hvalid : ∀ p ∈ points, L.Valid p := by
    intro p hp
    obtain ⟨i, hi, rfl⟩ := List.getElem_of_mem hp
    exact (hpoints.get hi (hpoints.length_eq ▸ hi)).1
  obtain ⟨p, hok, hdenotes⟩ := exists_multiExp_eq (hpoints.length_eq.trans hlen) hvalid
  refine ⟨p, hok, ?_⟩
  have hsum : ∀ (ps : List P) (es ks : List Fr), List.Forall₂ L.Exponent ps es →
      (List.zipWith (fun p k => k.val • L.value p) ps ks).sum
        = (List.zipWith (· * ·) es ks).sum.val • L.base := by
    intro ps es ks h
    induction h generalizing ks with
    | nil => exact (zero_nsmul _).symm
    | @cons p e ps es hhead htail ih =>
      cases ks with
      | nil => exact (zero_nsmul _).symm
      | cons k ks =>
        rw [List.zipWith_cons_cons, List.zipWith_cons_cons, List.sum_cons, List.sum_cons, ih,
          Model.add_val_nsmul horder, mul_comm, Model.mul_val_nsmul horder, hhead.2]
  rw [Model.Exponent, ← hsum points exponents scalars hpoints]
  exact hdenotes

/-! ### The sum from left to right -/

/-- The sum from left to right, one multiple after another. -/
def MultiExp.naiveSum (points : List P) (scalars : List ScalarInput) : P :=
  (points.zip scalars).foldl (fun acc t => add acc (multiple t.1 t.2.factor)) infinity

/-- The sum from left to right represents the sum of the multiples. -/
theorem MultiExp.denotes_naiveSum {points : List P} (hvalid : ∀ p ∈ points, L.Valid p)
    (scalars : List ScalarInput) :
    L.Denotes (naiveSum points scalars) (List.zipWith (fun p k => k.val • L.value p) points
      (scalars.map ScalarInput.toFr)).sum := by
  have hplain : naiveSum points scalars
      = plainSum infinity (points.zip (scalars.map ScalarInput.toFr)) := by
    simp only [naiveSum, plainSum, smul, List.zip_map_right, List.foldl_map, Prod.map_fst,
      Prod.map_snd, id_eq, ScalarInput.val_toFr]
  have hzip : ∀ t ∈ points.zip (scalars.map ScalarInput.toFr), L.Valid t.1 := fun t ht =>
    hvalid t.1 (List.of_mem_zip ht).1
  have h := denotes_plainSum hzip (Model.Denotes.infinity (L := L))
  rwa [zero_add, ← hplain, weightedBy, List.zip, List.map_zipWith] at h

/-- **A sum of multiples is the sum from left to right.**  With few terms and with many, it
represents the same element as the sum of the single multiples by the scalars modulo the order, and
lists are refused only for their lengths. -/
theorem multiExp_denotes_naiveSum (L : Model P A) (points : List P) (scalars : List ScalarInput)
    (hvalid : ∀ p ∈ points, L.Valid p) :
    (points.length = scalars.length → ∃ p, multiExp points (scalars.map ScalarInput.toFr) = .ok p
        ∧ L.Denotes p (L.value (naiveSum points scalars)) ∧ L.Valid (naiveSum points scalars))
      ∧ ∀ e, multiExp points (scalars.map ScalarInput.toFr) = .error e
          ↔ points.length ≠ scalars.length ∧ e = ⟨points.length, scalars.length⟩ := by
  have hmap : (scalars.map ScalarInput.toFr).length = scalars.length := List.length_map _
  refine ⟨fun hlen => ?_, fun e => ?_⟩
  · obtain ⟨p, hok, hdenotes⟩ := exists_multiExp_eq (hlen.trans hmap.symm) hvalid
    obtain ⟨hnaive, hvalue⟩ := denotes_naiveSum hvalid scalars
    exact ⟨p, hok, hvalue ▸ hdenotes, hnaive⟩
  · rw [multiExp, hmap]
    split
    · next hne =>
      rw [Except.error.injEq]
      exact ⟨fun h => ⟨hne, h.symm⟩, fun h => h.2.symm⟩
    · next heq => exact ⟨nofun, fun h => absurd h.1 heq⟩

/-- Seventeen copies of the generator, its opposite and infinity, with a negative factor, factors
beyond the order and elements of the field. -/
theorem multiExp_denotes_naiveSum_generator :
    let points := List.replicate 17 G1.base ++ [neg G1.base, infinity]
    let scalars := List.replicate 17 (.integer (2 * scalarOrder - 5)) ++ [.integer (-3), .element 7]
    (∀ p ∈ points, G1.model.Valid p) ∧ points.length = scalars.length
      ∧ ∃ p, multiExp points (scalars.map ScalarInput.toFr) = .ok p
        ∧ G1.model.value p = G1.model.value (naiveSum points scalars) := by
  intro points scalars
  have hvalid : ∀ p ∈ points, G1.model.Valid p := by
    intro p hp
    rcases List.mem_append.mp hp with hp | hp
    · rw [List.eq_of_mem_replicate hp]
      exact G1.onCurve_base
    · rcases List.mem_pair.mp hp with rfl | rfl
      · exact (G1.model.neg G1.onCurve_base).1
      · exact G1.model.infinity.1
  have hlen : points.length = scalars.length := rfl
  obtain ⟨p, hok, hdenotes, -⟩ := (multiExp_denotes_naiveSum G1.model points scalars hvalid).1 hlen
  exact ⟨hvalid, hlen, p, hok, hdenotes.2⟩

end MerkleSnark
