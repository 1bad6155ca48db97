import Mathlib
import MerkleSnark.Curve.FixedBase
import MerkleSnark.Proofs.Curve.Bn128

/-!
# Fixed-base tables multiply

Row `k` of a table holds the multiples of `2 ^ (k · w)` times the base by all digits, so the entries
of the digits of a number sum to the multiple of the base by this number.

## Main results

* `denotes_row_entry`, `denotes_row_next` — what a row holds, and the base that it leaves.
* `exists_entry?_eq` — what a table holds at a window and a digit.
* `denotes_sumDigits` — the entries of the digits sum to the multiple.
* `denotes_mul` — a table multiplies its base.
* `exists_ofBase?_multiplies` — a table has these entries only, and agrees with double-and-add.
-/

namespace MerkleSnark.FixedBaseTable

open PointGroup

variable {P : Type} [PointGroup P] {A : Type} [AddCommGroup A] {L : Model P A}
variable {p q : P} {a b : A}

/-! ### Rows -/

theorem length_progression (b p : P) (n : ℕ) : (progression b p n).length = n := by
  induction n generalizing p with
  | zero => rfl
  | succ n ih => rw [progression, List.length_cons, ih]

theorem denotes_progression (hp : L.Denotes p a) (hq : L.Denotes q b) {n i : ℕ} (hi : i < n) :
    L.Denotes ((progression q p n).getD i infinity) (a + i • b) := by
  induction n generalizing p a i with
  | zero => omega
  | succ n ih =>
    rw [progression]
    cases i with
    | zero => simpa using hp
    | succ i =>
      have h := ih (hp.add hq) (Nat.lt_of_succ_lt_succ hi)
      rw [List.getD_cons_succ, succ_nsmul', ← add_assoc]
      exact h

/-- Entry `d` of a row is the multiple of its base by `d`. -/
theorem denotes_row_entry (hp : L.Denotes p a) {w d : ℕ} (hd : d < 2 ^ w) :
    L.Denotes ((row w p).1.getD d infinity) (d • a) := by
  have hlen := length_progression p p (1 <<< w)
  rw [Nat.one_shiftLeft] at hlen
  rw [row, Array.getD_eq_getD_getElem?, List.getElem?_toArray, ← List.getD_eq_getElem?_getD]
  cases d with
  | zero =>
    rw [List.getD_cons_zero, zero_nsmul]
    exact Model.Denotes.infinity
  | succ d =>
    have hlt : d < (progression p p (1 <<< w)).dropLast.length := by
      rw [List.length_dropLast, Nat.one_shiftLeft, hlen]
      omega
    rw [List.getD_cons_succ, List.getD_eq_getElem _ _ hlt, List.getElem_dropLast,
      ← List.getD_eq_getElem _ infinity, succ_nsmul']
    exact denotes_progression hp hp (by rw [Nat.one_shiftLeft]; omega)

/-- A row of `w` bits leaves the multiple of its base by `2 ^ w`. -/
theorem denotes_row_next (hp : L.Denotes p a) (w : ℕ) :
    L.Denotes (row w p).2 ((2 ^ w) • a) := by
  have hpos : 0 < 2 ^ w := Nat.two_pow_pos w
  have hlen := length_progression p p (2 ^ w)
  have hlast : 2 ^ w - 1 < (progression p p (2 ^ w)).length := by omega
  have h := denotes_progression hp hp (Nat.sub_lt hpos Nat.one_pos)
  rw [← succ_nsmul', Nat.sub_add_cancel hpos, List.getD_eq_getElem _ _ hlast] at h
  rw [row, Nat.one_shiftLeft, List.getLast?_eq_getElem?, hlen, List.getElem?_eq_getElem hlast]
  exact h

/-- A row has one entry for each digit, also when the only digit but zero is one. -/
theorem size_row (w : ℕ) (p : P) : (row w p).1.size = 2 ^ w := by
  have hpos : 0 < 2 ^ w := Nat.two_pow_pos w
  rw [row, List.size_toArray, List.length_cons, List.length_dropLast, length_progression,
    Nat.one_shiftLeft, Nat.sub_add_cancel hpos]

/-! ### Tables -/

theorem length_rowsFrom (w : ℕ) (p : P) (n : ℕ) : (rowsFrom w p n).length = n := by
  induction n generalizing p with
  | zero => rfl
  | succ n ih => rw [rowsFrom, List.length_cons, ih]

/-- Row `j` belongs to the multiple of the first base by `2 ^ (j · w)`. -/
theorem exists_getElem?_rowsFrom (hp : L.Denotes p a) {w n j : ℕ} (hj : j < n) :
    ∃ q, (rowsFrom w p n)[j]? = some (row w q).1 ∧ L.Denotes q (2 ^ (j * w) • a) := by
  induction n generalizing p a j with
  | zero => omega
  | succ n ih =>
    rw [rowsFrom]
    cases j with
    | zero =>
      refine ⟨p, rfl, ?_⟩
      rwa [Nat.zero_mul, pow_zero, one_nsmul]
    | succ j =>
      -- behind the first row stand the rows of the base that it leaves
      obtain ⟨q, hrow, hq⟩ := ih (denotes_row_next hp w) (Nat.lt_of_succ_lt_succ hj)
      refine ⟨q, hrow, ?_⟩
      rwa [smul_smul, ← pow_add, ← Nat.succ_mul] at hq

theorem size_of_mem_rowsFrom {w n : ℕ} {p : P} {entries : Array P}
    (h : entries ∈ rowsFrom w p n) : entries.size = 2 ^ w := by
  induction n generalizing p with
  | zero => cases h
  | succ n ih =>
    rw [rowsFrom] at h
    rcases List.mem_cons.mp h with rfl | h
    · exact size_row w p
    · exact ih h

/-- **The entry of a window and a digit** is the multiple of the base by the digit at this place. -/
theorem exists_entry?_eq (hp : L.Denotes p a) {w j d : ℕ} (hj : j < windowCount w)
    (hd : d < 2 ^ w) :
    ∃ q, entry? (ofBase p w) j d = some q ∧ L.Denotes q ((d * 2 ^ (j * w)) • a) := by
  obtain ⟨base, hrow, hbase⟩ := exists_getElem?_rowsFrom hp hj
  have hsize : d < (row w base).1.size := by rwa [size_row]
  have hentry := denotes_row_entry hbase hd
  rw [Array.getD_eq_getD_getElem?, Array.getElem?_eq_getElem hsize, Option.getD_some,
    ← mul_nsmul'] at hentry
  refine ⟨_, ?_, hentry⟩
  rw [ entry?, ofBase, hrow, Option.bind_eq_bind, Option.bind_some, Array.getElem?_eq_getElem hsize]

/-! ### Multiples -/

/-- **The entries of the digits of a number sum to its multiple of the base.** -/
theorem denotes_sumDigits {w n k : ℕ} (hp : L.Denotes p a) (hq : L.Denotes q b)
    (hk : k < 2 ^ (n * w)) : L.Denotes (sumDigits w (rowsFrom w p n) k q) (b + k • a) := by
  induction n generalizing p a q b k with
  | zero =>
    have hzero : k = 0 := by rw [Nat.zero_mul] at hk; omega
    rw [rowsFrom, sumDigits, hzero, zero_nsmul, add_zero]
    exact hq
  | succ n ih =>
    rw [rowsFrom, sumDigits]
    split
    · next hzero =>
      rw [hzero, zero_nsmul, add_zero]
      exact hq
    · -- the digit is taken off and the rest belongs to the rows behind
      have hrest : k >>> w < 2 ^ (n * w) := by
        rw [Nat.shiftRight_eq_div_pow, Nat.div_lt_iff_lt_mul (Nat.two_pow_pos w), ← pow_add,
          ← Nat.succ_mul]
        exact hk
      have hsplit : b + k • a = (b + (k % 2 ^ w) • a) + (k >>> w) • 2 ^ w • a := by
        rw [Nat.shiftRight_eq_div_pow, smul_smul, add_assoc, ← add_nsmul, mul_comm,
          Nat.mod_add_div]
      rw [hsplit, Nat.one_shiftLeft]
      refine ih (denotes_row_next hp w) ?_ hrest
      split
      · next hdigit => rwa [hdigit, zero_nsmul, add_zero]
      · exact hq.add (denotes_row_entry hp (Nat.mod_lt _ (Nat.two_pow_pos w)))

/-- The windows cover a scalar. -/
theorem bitLength_le_windowCount_mul {w : ℕ} (hw : 1 ≤ w) : Fr.bitLength ≤ windowCount w * w := by
  have h := Nat.div_add_mod (Fr.bitLength + w - 1) w
  have hmod := Nat.mod_lt (Fr.bitLength + w - 1) (show 0 < w by omega)
  rw [mul_comm] at h
  rw [windowCount]
  omega

theorem scalarOrder_lt : scalarOrder < 2 ^ Fr.bitLength := by decide

/-- **A table multiplies its base.** -/
theorem denotes_mul (hp : L.Denotes p a) {w : ℕ} (hw : 1 ≤ w) (k : Fr) :
    L.Denotes ((ofBase p w).mul k) (k.val • a) := by
  have hk : k.val < 2 ^ (windowCount w * w) :=
    k.val_lt.trans (scalarOrder_lt.trans_le
      (Nat.pow_le_pow_right (by decide) (bitLength_le_windowCount_mul hw)))
  have h := denotes_sumDigits hp Model.Denotes.infinity hk
  rwa [zero_add] at h

/-- **A table agrees with double-and-add.**  Windows of at least one bit cover the scalars with as
few rows as possible, each entry is the multiple of the base by its digit at its place, and the
entries sum to the multiple by any integer modulo the order. -/
theorem exists_ofBase?_multiplies (L : Model P A) (hp : L.Valid p) {w : ℕ} (hw : 1 ≤ w) :
    ∃ table, ofBase? p w = some table
      ∧ table.rows.length = 254 ⌈/⌉ w ∧ (∀ entries ∈ table.rows, entries.size = 2 ^ w)
      ∧ (∀ j < 254 ⌈/⌉ w, ∀ d < 2 ^ w, ∃ q, entry? table j d = some q
          ∧ L.Denotes q ((d * 2 ^ (j * w)) • L.value p))
      ∧ ∀ s : ScalarInput, L.Denotes (table.mul s.toFr) (s.factor • L.value p)
          ∧ L.Denotes (multiple p s.factor) (s.factor • L.value p) := by
  have hbase : L.Denotes p (L.value p) := Model.Denotes.of_valid hp
  have hcount : windowCount w = 254 ⌈/⌉ w := (Nat.ceilDiv_eq_add_pred_div 254 w).symm
  refine ⟨ofBase p w, if_neg (by omega), ?_, fun entries h => size_of_mem_rowsFrom h, ?_, ?_⟩
  · rw [ofBase, length_rowsFrom, hcount]
  · intro j hj d hd
    rw [← hcount] at hj
    exact exists_entry?_eq hbase hj hd
  · intro s
    have hmul := denotes_mul hbase hw s.toFr
    rw [ScalarInput.val_toFr] at hmul
    exact ⟨hmul, hbase.multiple s.factor⟩

/-- Windows of five bits do not divide a scalar evenly, and the last of them is cut short. -/
theorem exists_ofBase?_multiplies_fiveBits :
    G2.model.Valid G2.base ∧ 1 ≤ 5 ∧ ∃ table, ofBase? G2.base 5 = some table
      ∧ table.rows.length = 51
      ∧ (∃ q, entry? table 50 31 = some q
          ∧ G2.model.Denotes q ((31 * 2 ^ 250) • G2.model.value G2.base))
      ∧ G2.model.value (table.mul (.ofInt scalarOrder (-3)))
          = G2.model.value (multiple G2.base (scalarOrder - 3)) := by
  have hw : 1 ≤ 5 := by decide
  obtain ⟨table, htable, hrows, -, hentry, hmul⟩ :=
    exists_ofBase?_multiplies G2.model G2.onCurve_base hw
  obtain ⟨hdenotes, hmultiple⟩ := hmul (.integer (-3))
  exact ⟨G2.onCurve_base, hw, table, htable, hrows, hentry 50 (by decide) 31 (by decide),
    hdenotes.2.trans hmultiple.2.symm⟩

end MerkleSnark.FixedBaseTable
