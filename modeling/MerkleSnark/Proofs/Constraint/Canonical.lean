import Mathlib
import MerkleSnark.Constraint.Operand
import MerkleSnark.Proofs.Codec.Recognizer
import MerkleSnark.Proofs.Codec.Writing

/-!
# Linear combinations are canonical

A combination that the operations build has no zero coefficient and its wires increase, so it is
known from its values on the assignments with a one on the constant wire, and also from its bytes.
Equality of combinations, of linear maps and of encodings are therefore the same, and the order in
which terms are added leaves no trace.

## Main definitions

* `Operand.Denotes` — an operand is built by operations that stand for a linear map.
* `LinearCombination.addTerms` — terms added in place, one after another.

## Main results

* `Reduced.ext_eval` — values with a one on the constant wire determine a reduced combination.
* `Reduced.addTerms_perm` — the order of the terms does not matter.
* `exists_encode_iff`, `Reduced.eq_of_encode_eq` — which combinations have an encoding, and
  that no two have the same.
* `Operand.Denotes.built`, `Operand.Denotes.eval_eq` — what every operation keeps.
* `denotes_canonical` — the same combination, the same linear map, the same bytes.
-/

namespace MerkleSnark

namespace LinearCombination

variable {x y : LinearCombination} {w : ℕ → Fr} {i n : ℕ} {c : Fr} {ts us : List (ℕ × Fr)}

/-! ### Values determine a reduced combination -/

/-- The value is linear in the assignment too. -/
theorem eval_add_assignment (x : LinearCombination) (w v : ℕ → Fr) :
    x.eval (w + v) = x.eval w + x.eval v := by
  rw [eval_eq_sum, eval_eq_sum, eval_eq_sum, ← List.sum_map_add]
  refine congrArg List.sum (List.map_congr_left fun t _ => ?_)
  rw [Pi.add_apply, mul_add]

/-- The coefficient of a wire is the value where only this wire carries one. -/
theorem Sorted.eval_single_of_mem (hx : x.Sorted) (h : (i, c) ∈ x.terms) :
    x.eval (Pi.single i 1) = c := by
  obtain ⟨ts⟩ := x
  rw [eval_eq_sum]
  induction ts with
  | nil => exact absurd h List.not_mem_nil
  | cons t ts ih =>
    obtain ⟨hhead, htail⟩ := List.pairwise_cons.mp hx
    rw [List.map_cons, List.sum_cons]
    rcases List.mem_cons.mp h with rfl | h
    · have hrest : (ts.map fun s => s.2 * (Pi.single i 1 : ℕ → Fr) s.1).sum = 0 := by
        refine List.sum_eq_zero (List.forall_mem_map.mpr fun s hs => ?_)
        rw [Pi.single_eq_of_ne (hhead s hs).ne', mul_zero]
      rw [hrest, Pi.single_eq_same, mul_one, add_zero]
    · rw [Pi.single_eq_of_ne (hhead _ h).ne, mul_zero, zero_add]
      exact ih htail h

/-- A wire without a term does not count. -/
theorem eval_single_of_forall_ne (h : ∀ t ∈ x.terms, t.1 ≠ i) : x.eval (Pi.single i 1) = 0 := by
  rw [eval_eq_sum]
  refine List.sum_eq_zero (List.forall_mem_map.mpr fun t ht => ?_)
  rw [Pi.single_eq_of_ne (h t ht), mul_zero]

/-- The terms of a reduced combination are the wires that count, with what they count. -/
theorem Reduced.mem_terms_iff (hx : x.Reduced) {t : ℕ × Fr} :
    t ∈ x.terms ↔ t.2 ≠ 0 ∧ x.eval (Pi.single t.1 1) = t.2 := by
  constructor
  · intro ht
    exact ⟨hx.ne_zero t ht, hx.sorted.eval_single_of_mem ht⟩
  · rintro ⟨hne, heval⟩
    by_contra hmem
    -- a wire without a term counts nothing, and one with another coefficient counts that one
    by_cases hwire : ∃ s ∈ x.terms, s.1 = t.1
    · obtain ⟨⟨i, c⟩, hs, rfl⟩ := hwire
      rw [hx.sorted.eval_single_of_mem hs] at heval
      rw [heval] at hs
      exact hmem hs
    · rw [eval_single_of_forall_ne fun s hs heq => hwire ⟨s, hs, heq⟩] at heval
      exact hne heval.symm

/-- Values at which single wires carry one can be told from those with a one on the constant wire. -/
theorem eval_single_eq_of_eval_eq (h : ∀ w, w oneWire = 1 → x.eval w = y.eval w) (i : ℕ) :
    x.eval (Pi.single i 1) = y.eval (Pi.single i 1) := by
  have hone : x.eval (Pi.single oneWire 1) = y.eval (Pi.single oneWire 1) :=
    h _ (Pi.single_eq_same _ _)
  by_cases hi : i = oneWire
  · rw [hi, hone]
  · have hboth := h (Pi.single oneWire 1 + Pi.single i 1) (by
      rw [Pi.add_apply, Pi.single_eq_same, Pi.single_eq_of_ne (Ne.symm hi), add_zero])
    rw [eval_add_assignment, eval_add_assignment, hone] at hboth
    exact add_left_cancel hboth

/-- **Values with a one on the constant wire determine a reduced combination.** -/
theorem Reduced.ext_eval (hx : x.Reduced) (hy : y.Reduced)
    (h : ∀ w, w oneWire = 1 → x.eval w = y.eval w) : x = y := by
  have hmem : ∀ t, t ∈ x.terms ↔ t ∈ y.terms := fun t => by
    rw [hx.mem_terms_iff, hy.mem_terms_iff, eval_single_eq_of_eval_eq h]
  have : Std.Asymm fun s t : ℕ × Fr => s.1 < t.1 := ⟨fun _ _ hst => hst.asymm⟩
  exact LinearCombination.ext (hx.sorted.eq_of_mem_iff hy.sorted hmem)

/-! ### Values on lists of wires -/

/-- A list that is long enough gives the value. -/
theorem evalAt?_ofFn (hx : x.boundedBy n = true) (w : ℕ → Fr) :
    x.evalAt? (Array.ofFn fun i : Fin n => w i) = some (x.eval w) := by
  unfold evalAt?
  rw [Array.size_ofFn, if_pos hx]
  refine congrArg some (eval_congr fun t ht => ?_)
  have hlt : t.1 < n := boundedBy_iff.mp hx t ht
  simp [hlt]

/-- The wires of a combination lie below some number. -/
theorem exists_boundedBy (x : LinearCombination) : ∃ n, x.boundedBy n = true := by
  obtain ⟨n, hn⟩ := (x.terms.map Prod.fst).toFinset.exists_nat_subset_range
  refine ⟨n, boundedBy_iff.mpr fun t ht => ?_⟩
  exact Finset.mem_range.mp (hn (List.mem_toFinset.mpr (List.mem_map_of_mem ht)))

/-- Combinations that cannot be told apart by lists of wire values have the same values. -/
theorem eval_eq_of_evalAt?_eq
    (h : ∀ values : Array Fr, values[oneWire]? = some 1 → x.evalAt? values = y.evalAt? values)
    (hw : w oneWire = 1) : x.eval w = y.eval w := by
  obtain ⟨m, hm⟩ := x.exists_boundedBy
  obtain ⟨n, hn⟩ := y.exists_boundedBy
  let size := m + n + 1
  have hx : x.boundedBy size = true :=
    boundedBy_iff.mpr ((boundedBy_iff.mp hm).mono fun i (hi : i < m) => by
      show i < m + n + 1
      omega)
  have hy : y.boundedBy size = true :=
    boundedBy_iff.mpr ((boundedBy_iff.mp hn).mono fun i (hi : i < n) => by
      show i < m + n + 1
      omega)
  have hsame := h (Array.ofFn fun i : Fin size => w i) (by simp [size, oneWire, ← hw])
  rw [evalAt?_ofFn hx, evalAt?_ofFn hy] at hsame
  exact Option.some.inj hsame

/-! ### The order of terms -/

/-- Terms added in place, one after another. -/
def addTerms (x : LinearCombination) (ts : List (ℕ × Fr)) : LinearCombination :=
  ts.foldl (fun x t => x.addTerm t.1 t.2) x

theorem Reduced.addTerms (hx : x.Reduced) (ts : List (ℕ × Fr)) : (x.addTerms ts).Reduced :=
  hx.foldl_addTerm ts

theorem eval_addTerms (x : LinearCombination) (ts : List (ℕ × Fr)) (w : ℕ → Fr) :
    (x.addTerms ts).eval w = x.eval w + (ts.map fun t => t.2 * w t.1).sum :=
  eval_foldl_addTerm Prod.fst Prod.snd ts x w

/-- **The order of the terms does not matter.** -/
theorem Reduced.addTerms_perm (hx : x.Reduced) (h : ts.Perm us) : x.addTerms ts = x.addTerms us := by
  refine (hx.addTerms ts).ext_eval (hx.addTerms us) fun w _ => ?_
  rw [eval_addTerms, eval_addTerms, (h.map _).sum_eq]

/-! ### Encodings -/

theorem lt_of_count_eq {bs : Bytes} (h : Encode.count n = .ok bs) : n < 2 ^ 32 := by
  unfold Encode.count at h
  split at h
  · assumption
  · cases h

/-- **The count of the terms has to fit its field** as well as the wires. -/
theorem exists_encode_iff (hbound : x.boundedBy (2 ^ 32) = true) :
    (∃ bs, x.encode = .ok bs) ↔ x.terms.length < 2 ^ 32 := by
  constructor
  · rintro ⟨bs, h⟩
    unfold encode at h
    obtain ⟨items, -, h⟩ := exists_of_bind_eq_ok h
    obtain ⟨count, hcount, -⟩ := exists_of_bind_eq_ok h
    exact lt_of_count_eq hcount
  · intro hlength
    obtain ⟨items, hitems, -⟩ := exists_mapM_eq (R := fun _ _ => True) (g := id)
      (f := fun t : ℕ × Fr => do return (← Encode.count t.1) ++ Encode.scalar t.2)
      (l := x.terms) fun t ht => by
        refine ⟨Bytes.ofNat 4 t.1 ++ Encode.scalar t.2, ?_, trivial⟩
        rw [Spells.count_eq (boundedBy_iff.mp hbound t ht)]
        rfl
    refine ⟨Bytes.ofNat 4 x.terms.length ++ items.flatten, ?_⟩
    rw [encode, hitems, Spells.count_eq hlength]
    rfl

/-- **No two combinations have the same encoding.** -/
theorem Reduced.eq_of_encode_eq (hx : x.Reduced) (hy : y.Reduced) (hxn : x.boundedBy n = true)
    (hyn : y.boundedBy n = true) {bs : Bytes} (hxbs : x.encode = .ok bs)
    (hybs : y.encode = .ok bs) : x = y := by
  have hread := (reads_decode hxn hxbs [] 0).symm.trans (reads_decode hyn hybs [] 0)
  have hsame : x.reread = y.reread := Except.ok.inj (Prod.mk.inj hread).1
  rwa [reread, reread, hx.ofTerms_terms, hy.ofTerms_terms] at hsame

end LinearCombination

/-! ### Operations -/

/-- The terms that a decoder reads, in any order and with repetitions. -/
def LinearCombination.readTerms (numVariables : ℕ) (reader : ByteReader) : List (ℕ × Fr) :=
  ((ExceptT.run (Decoder.counted (decodeTerm numVariables)) reader).1.toOption).getD []

/-- What decoding gives is the sum of the terms that it reads. -/
theorem LinearCombination.eq_ofTerms_readTerms {n : ℕ} {reader reader' : ByteReader}
    {x : LinearCombination} (h : ExceptT.run (decode n) reader = (.ok x, reader')) :
    x = ofTerms (readTerms n reader) := by
  obtain ⟨ts, middle, hrun, h⟩ := Decoder.exists_of_run_bind_eq_ok h
  obtain ⟨rfl, rfl⟩ := Decoder.eq_of_run_pure h
  rw [readTerms, hrun]
  rfl

namespace Operand

open LinearCombination

/-- The operand is built by operations that stand for the linear map: tables of coefficients, wires
and constants, terms added in place, copies, sums, differences, negatives, multiples by scalars from
either side, and decoding.  A number among the operands of a sum stands for a constant. -/
inductive Denotes : Operand → ((ℕ → Fr) → Fr) → Prop
  | scalar (c : ScalarInput) : Denotes (.number c.toInt) fun w => c.toFr * w oneWire
  | table (entries : List (ℕ × ScalarInput)) :
    Denotes (.combination (ofTable (entries.map fun t => (t.1, t.2.toFr)))) fun w =>
      ((lastEntries (entries.map fun t => (t.1, t.2.toFr))).map fun t => t.2 * w t.1).sum
  | term (i : ℕ) (c : ScalarInput) : Denotes (.combination (term i c.toFr)) fun w => c.toFr * w i
  | const (c : ScalarInput) : Denotes (.combination (const c.toFr)) fun w => c.toFr * w oneWire
  | decode {n : ℕ} {reader reader' : ByteReader} {x : LinearCombination}
    (h : ExceptT.run (decode n) reader = (.ok x, reader')) :
    Denotes (.combination x) fun w => ((readTerms n reader).map fun t => t.2 * w t.1).sum
  | addTerm {x : LinearCombination} {f : (ℕ → Fr) → Fr} (hx : Denotes (.combination x) f) (i : ℕ)
    (c : ScalarInput) : Denotes (.combination (x.addTerm i c.toFr)) fun w => f w + c.toFr * w i
  | copy {x : LinearCombination} {f : (ℕ → Fr) → Fr} (hx : Denotes (.combination x) f) :
    Denotes (.combination ⟨x.terms⟩) f
  | add {X Y : Operand} {f g : (ℕ → Fr) → Fr} (hx : Denotes X f) (hy : Denotes Y g) :
    Denotes (X + Y) fun w => f w + g w
  | sub {X Y : Operand} {f g : (ℕ → Fr) → Fr} (hx : Denotes X f) (hy : Denotes Y g) :
    Denotes (X - Y) fun w => f w - g w
  | neg {X : Operand} {f : (ℕ → Fr) → Fr} (hx : Denotes X f) : Denotes (-X) fun w => -f w
  | mulScalar {x : LinearCombination} {f : (ℕ → Fr) → Fr} (hx : Denotes (.combination x) f)
    (c : ScalarInput) {Z : Operand} (hz : (Operand.combination x).mul? (.number c.toInt) = some Z) :
    Denotes Z fun w => c.toFr * f w
  | scalarMul {x : LinearCombination} {f : (ℕ → Fr) → Fr} (hx : Denotes (.combination x) f)
    (c : ScalarInput) {Z : Operand} (hz : (Operand.number c.toInt).mul? (.combination x) = some Z) :
    Denotes Z fun w => c.toFr * f w

theorem toCombination_number (n : ℤ) : (number n).toCombination = .const (n : Fr) := rfl

variable {w : ℕ → Fr}

/-- A sum of operands has the sum of the values, whether numbers are among them or not. -/
theorem eval_toCombination_add (X Y : Operand) :
    (X + Y).toCombination.eval w = X.toCombination.eval w + Y.toCombination.eval w := by
  cases X with
  | combination x => exact eval_add x Y.toCombination w
  | number m =>
    cases Y with
    | combination y => exact eval_add _ y w
    | number n =>
      rw [show (number m + number n : Operand) = number (m + n) from rfl]
      simp only [toCombination_number, eval_const, Int.cast_add, add_mul]

theorem eval_toCombination_sub (X Y : Operand) :
    (X - Y).toCombination.eval w = X.toCombination.eval w - Y.toCombination.eval w := by
  cases X with
  | combination x => exact eval_sub x Y.toCombination w
  | number m =>
    cases Y with
    | combination y => exact eval_sub _ y w
    | number n =>
      rw [show (number m - number n : Operand) = number (m - n) from rfl]
      simp only [toCombination_number, eval_const, Int.cast_sub, sub_mul]

theorem eval_toCombination_neg (X : Operand) :
    (-X).toCombination.eval w = -X.toCombination.eval w := by
  cases X with
  | combination x => exact eval_neg x w
  | number n =>
    rw [show (-number n : Operand) = number (-n) from rfl]
    simp only [toCombination_number, eval_const, Int.cast_neg, neg_mul]

/-- Numbers and combinations alike, operands stand for combinations that are built. -/
theorem built_toCombination_add {X Y : Operand} (hx : X.toCombination.Built)
    (hy : Y.toCombination.Built) : (X + Y).toCombination.Built := by
  cases X <;> cases Y
  case number.number => exact Built.zero.addTerm _ _
  all_goals exact hx.add hy

theorem built_toCombination_sub {X Y : Operand} (hx : X.toCombination.Built)
    (hy : Y.toCombination.Built) : (X - Y).toCombination.Built := by
  cases X <;> cases Y
  case number.number => exact Built.zero.addTerm _ _
  all_goals exact hx.sub hy

namespace Denotes

variable {X : Operand} {f : (ℕ → Fr) → Fr}

/-- **Every operation builds.** -/
theorem built (h : Denotes X f) : X.toCombination.Built := by
  induction h with
  | scalar c => exact Built.zero.addTerm _ _
  | table entries => exact .ofTable _
  | term i c => exact Built.zero.addTerm i _
  | const c => exact Built.zero.addTerm _ _
  | decode h =>
    rw [toCombination_combination, eq_ofTerms_readTerms h]
    exact built_iff_reduced.mpr (.ofTerms _)
  | addTerm _ i c ih => exact ih.addTerm i _
  | copy _ ih => exact ih
  | add _ _ ihx ihy => exact built_toCombination_add ihx ihy
  | sub _ _ ihx ihy => exact built_toCombination_sub ihx ihy
  | @neg X _ _ ih =>
    cases X with
    | combination x => exact ih.neg
    | number n => exact Built.zero.addTerm _ _
  | mulScalar _ c hz ih | scalarMul _ c hz ih =>
    obtain rfl := Option.some.inj hz
    exact ih.scale _

/-- **Every operation is the linear map that it stands for.** -/
theorem eval_eq (h : Denotes X f) (w : ℕ → Fr) : X.toCombination.eval w = f w := by
  induction h with
  | scalar c =>
    rw [toCombination, ScalarInput.ofInt_toInt, eval_const]
  | table entries => exact eval_ofTerms _ w
  | term i c => exact eval_term i _ w
  | const c => exact eval_const _ w
  | decode h =>
    rw [toCombination_combination, eq_ofTerms_readTerms h, eval_ofTerms]
  | addTerm _ i c ih =>
    rw [toCombination_combination] at ih ⊢
    rw [eval_addTerm, ih]
  | copy _ ih => exact ih
  | add _ _ ihx ihy => rw [eval_toCombination_add, ihx, ihy]
  | sub _ _ ihx ihy => rw [eval_toCombination_sub, ihx, ihy]
  | neg _ ih => rw [eval_toCombination_neg, ih]
  | mulScalar _ c hz ih | scalarMul _ c hz ih =>
    obtain rfl := Option.some.inj hz
    rw [toCombination_combination] at ih ⊢
    rw [ScalarInput.ofInt_toInt, eval_scale, ih]

theorem reduced {x : LinearCombination} (h : Denotes (.combination x) f) : x.Reduced :=
  built_iff_reduced.mp h.built

end Denotes

end Operand

namespace LinearCombination

open Operand

/-- **Combinations are canonical.**  Whatever operations built them, no coefficient is zero, and the
values are those of the linear map that the operations stand for.  Two combinations are equal exactly
when they have the same values wherever the constant wire carries one, and exactly when they have the
same bytes.  There are bytes unless all of the `2 ^ 32` wires that an index can name occur, as then
the count of the terms does not fit.  Terms may be added in any order. -/
theorem denotes_canonical {x y : LinearCombination} {f g : (ℕ → Fr) → Fr}
    (hx : Denotes (.combination x) f) (hy : Denotes (.combination y) g) :
    (∀ t ∈ x.terms, t.2 ≠ 0)
      ∧ (∀ w, x.eval w = f w ∧ (x + y).eval w = x.eval w + y.eval w
        ∧ (x - y).eval w = x.eval w - y.eval w ∧ (-x).eval w = -x.eval w
        ∧ ∀ c, (x.scale c).eval w = c * x.eval w)
      ∧ [x = y, ∀ w, w oneWire = 1 → x.eval w = y.eval w,
          ∀ values : Array Fr, values[oneWire]? = some 1 →
            x.evalAt? values = y.evalAt? values].TFAE
      ∧ (x.boundedBy (2 ^ 32) = true → y.boundedBy (2 ^ 32) = true →
        ((∃ bs, x.encode = .ok bs) ↔ x.terms.length < 2 ^ 32)
          ∧ ∀ bs, x.encode = .ok bs → (y.encode = .ok bs ↔ x = y))
      ∧ ∀ ts us : List (ℕ × Fr), ts.Perm us → x.addTerms ts = x.addTerms us := by
  refine ⟨hx.reduced.ne_zero, fun w => ⟨hx.eval_eq w, eval_add x y w, eval_sub x y w, eval_neg x w,
    fun c => eval_scale x c w⟩, ?_, fun hxn hyn => ⟨exists_encode_iff hxn, fun bs hbs => ?_⟩,
    fun ts us => hx.reduced.addTerms_perm⟩
  · tfae_have 1 → 3 := fun h values _ => by rw [h]
    tfae_have 3 → 2 := fun h w => eval_eq_of_evalAt?_eq h
    tfae_have 2 → 1 := hx.reduced.ext_eval hy.reduced
    tfae_finish
  · constructor
    · exact hx.reduced.eq_of_encode_eq hy.reduced hxn hyn hbs
    · rintro rfl
      exact hbs

/-- Five times the first wire and three times the second: once with the terms added in their order,
once as the difference from a multiple by an integer that is not reduced. -/
theorem denotes_canonical_twoOrders :
    let five := ScalarInput.integer 5
    let three := ScalarInput.element (.ofNat scalarOrder 3)
    let minusFive := ScalarInput.integer (-5)
    let x := (term 1 five.toFr).addTerm 2 three.toFr
    let y := term 2 three.toFr - (var 1).scale minusFive.toFr
    ∃ f g, Denotes (.combination x) f ∧ Denotes (.combination y) g ∧ x = y
      ∧ ∃ bs, x.encode = .ok bs ∧ y.encode = .ok bs := by
  intro five three minusFive x y
  have hx := (Denotes.term 1 five).addTerm 2 three
  have hvar := Denotes.term 1 (.integer 1)
  have hy := (Denotes.term 2 three).sub (hvar.mulScalar minusFive rfl)
  obtain ⟨-, hvalues, htfae, hencode, -⟩ := denotes_canonical (x := x) (y := y) hx hy
  obtain ⟨-, hvalues', -⟩ := denotes_canonical (x := y) (y := x) hy hx
  have hone : (ScalarInput.integer 1).toFr = 1 := by decide
  have hsum : five.toFr + minusFive.toFr = 0 := by decide
  have hsame : x = y := (htfae.out 0 1).mpr fun w _ => by
    rw [(hvalues w).1, (hvalues' w).1, hone]
    linear_combination w 1 * hsum
  obtain ⟨hexists, hbytes⟩ := hencode (by decide) (by decide)
  obtain ⟨bs, hbs⟩ := hexists.mpr (by decide)
  exact ⟨_, _, hx, hy, hsame, bs, hbs, (hbytes bs hbs).mpr hsame⟩

end LinearCombination

end MerkleSnark
