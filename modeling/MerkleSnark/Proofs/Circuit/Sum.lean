import Mathlib
import MerkleSnark.Proofs.Circuit.Witness

/-!
# Addition modulo `2 ^ 32`

A sum of words is recorded as one step.  It writes the thirty-two low digits of the sum to the wires
of the result and the others to new wires for the carry.  However many words there are, the digits
are enough for the largest sum that they can have, and as long as this sum lies below `2 ^ 253`,
they are too few for two sums of the same class modulo the order of the field.

## Main definitions

* `Step.Adds` — a step computes the digits of a sum and leaves no choice for them.
* `Draft.RecordsSum` — a draft gets such a step and the wires for the carry.

## Main results

* `Word.adds_digits` — a packed sum with its digits on any wires adds.
* `Word.sum_adds` — **words are added modulo `2 ^ 32`** on given wires and on fresh ones.
-/

namespace MerkleSnark

open LinearCombination

/-- The step adds words whose combinations mention some of the first wires.  The result and the carry
stand on wires that the words do not mention. -/
structure Step.Adds (s : Step) (words : List Word) (result : Vector ℕ 32) (carry : List ℕ)
    (wires : ℕ) : Prop where
  /-- Once the words carry numbers the step can be carried out.  It writes the digits of their sum and
  nothing else, and its constraints hold then. -/
  assigns : ∀ state : Board, wires ≤ state.values.size → state.valueAt oneWire = 1 →
    ∀ ns, List.Forall₂ (Word.Carries state.valueAt) words ns →
      ∃ state', s.assign.run state = (.ok (), state')
        ∧ state.Rewrites state' {i | i ∈ result ∨ i ∈ carry}
        ∧ s.Holds state'.valueAt ∧ Word.DigitsOn state'.valueAt result carry ns.sum
  /-- No other digits meet the constraints. -/
  forces : ∀ w : ℕ → Fr, w oneWire = 1 → s.Holds w →
    ∀ ns, List.Forall₂ (Word.Carries w) words ns → Word.DigitsOn w result carry ns.sum

/-- Between the two drafts a sum was recorded: one step, with new wires from `carry` on for the bits
that the largest sum of so many words has beyond thirty-two. -/
def Draft.RecordsSum (d d' : Draft) (words : List Word) (result : Vector ℕ 32) (carry : ℕ) : Prop :=
  d'.next = carry + Word.carryBits words.length ∧ ∃ s, d'.steps = d.steps.push s
    ∧ s.Adds words result (List.range' carry (Word.carryBits words.length)) d'.next

namespace Word

variable {words : List Word} {label : String} {result : Vector ℕ 32} {carry wires : ℕ} {d : Draft}

theorem forall₂_carries_congr {w v : ℕ → Fr} {S : Set ℕ} {ns : List ℕ}
    (h : List.Forall₂ (Carries w) words ns) (hwords : ∀ x ∈ words, ∀ a ∈ x, a.Within S)
    (hwv : ∀ i ∈ S, v i = w i) : List.Forall₂ (Carries v) words ns := by
  induction h with
  | nil => exact .nil
  | cons hx _ ih =>
    rw [List.forall_mem_cons] at hwords
    exact .cons (hx.congr hwords.1 hwv) (ih hwords.2)

/-- **A packed sum adds** when its digits stand on different wires that the words do not mention. -/
theorem adds_digits (hmany : words.length * (2 ^ 32 - 1) < 2 ^ 253) (label : String)
    (hnodup : (digitWires result.toList carry (carryBits words.length)).Nodup)
    (hwrites : ∀ i ∈ digitWires result.toList carry (carryBits words.length), 0 < i ∧ i < wires)
    (hwords : ∀ x ∈ words, ∀ a ∈ x, a.Within
      {i | i < wires ∧ i ∉ digitWires result.toList carry (carryBits words.length)})
    (hwires : 0 < wires) :
    (Step.digits (pack (words.map Vector.toList))
      (digitWires result.toList carry (carryBits words.length)) label).Adds words result
        (List.range' carry (carryBits words.length)) wires := by
  set digits := digitWires result.toList carry (carryBits words.length)
  have hone : oneWire ∉ digits := fun hmem => (hwrites oneWire hmem).1.ne rfl
  have hnext : (Step.digits (pack (words.map Vector.toList)) digits label).Next
      {i | i < wires ∧ i ∉ digits} := by
    refine ⟨within_pack fun word hword a ha => ?_, hnodup, fun i hi hmem => hmem.2 hi, ?_⟩
    · obtain ⟨x, hx, rfl⟩ := List.mem_map.mp hword
      exact hwords x hx a (Vector.mem_toList_iff.mp ha)
    · show 2 ^ digits.length ≤ scalarOrder
      rw [length_digitWires, Vector.length_toList]
      exact two_pow_le_scalarOrder hmany
  refine ⟨fun state hsize hstate ns hns => ?_, fun w hw hholds ns hns =>
    digitsOn_of_holds hw hmany hholds hns⟩
  obtain ⟨state', hrun, hrewrites, hholds⟩ := Step.run_assign hnext ⟨hwires, hone⟩ hstate
    (fun i hi => hi.1.trans_le hsize) (fun i hi => (hwrites i hi).2.trans_le hsize) (fits_digits hns)
  -- the operands are not written, so what stands on the digits is the sum from before
  have hkeep : ∀ i ∈ {i | i < wires ∧ i ∉ digits}, state'.valueAt i = state.valueAt i :=
    fun i hi => hrewrites.valueAt_eq i hi.2
  have hone' := (hkeep oneWire ⟨hwires, hone⟩).trans hstate
  refine ⟨state', hrun, hrewrites.mono fun i hi => ?_, hholds,
    digitsOn_of_holds hone' hmany hholds (forall₂_carries_congr hns hwords hkeep)⟩
  exact (mem_digitWires.mp hi).imp Vector.mem_toList_iff.mp List.mem_range'_1.mpr

/-- A sum whose result stands on wires that are there. -/
theorem recordsSum_sumOn (hmany : words.length * (2 ^ 32 - 1) < 2 ^ 253) (label : String)
    (hpos : 0 < d.next) (hnodup : result.toList.Nodup) (hresult : ∀ i ∈ result, 0 < i ∧ i < d.next)
    (hwords : ∀ x ∈ words, ∀ a ∈ x, a.Within {i | i < d.next ∧ i ∉ result}) :
    d.RecordsSum ((sumOn words label result).run d).2 words result d.next := by
  have hmem : ∀ i ∈ result.toList, 0 < i ∧ i < d.next := fun i hi =>
    hresult i (Vector.mem_toList_iff.mp hi)
  refine ⟨rfl, _, rfl, adds_digits hmany label (nodup_digitWires hnodup (fun i hi => (hmem i hi).2) _)
    (fun i hi => ?_) (fun x hx a ha => (hwords x hx a ha).mono fun i hi => ?_)
    (hpos.trans_le (Nat.le_add_right _ _))⟩
  · show 0 < i ∧ i < d.next + carryBits words.length
    rcases mem_digitWires.mp hi with hi | ⟨hge, hlt⟩
    · have := hmem i hi
      omega
    · omega
  · obtain ⟨hlt, hnot⟩ := hi
    refine ⟨hlt.trans_le (Nat.le_add_right _ _), fun h => ?_⟩
    rcases mem_digitWires.mp h with h | h
    · exact hnot (Vector.mem_toList_iff.mp h)
    · exact absurd h.1 (not_le.mpr hlt)

/-- **Words are added modulo `2 ^ 32`.**  Their number is bounded only by the order of the field, which
their sum must not reach.  The result may stand on any thirty-two wires that are there, other than the
constant one and those of the words, or on new ones, which are allocated before those of the carry. -/
theorem sum_adds (hmany : words.length * (2 ^ 32 - 1) < 2 ^ 253) (label : String) (hpos : 0 < d.next)
    (hwords : ∀ x ∈ words, ∀ a ∈ x, a.Within {i | i < d.next}) :
    (∀ result : Vector ℕ 32, result.toList.Nodup → (∀ i ∈ result, 0 < i ∧ i < d.next) →
      (∀ x ∈ words, ∀ a ∈ x, a.Within {i | i ∉ result}) →
        d.RecordsSum ((sumOn words label result).run d).2 words result d.next)
      ∧ ((sum words label).run d).1 = ofWires d.next
      ∧ d.RecordsSum ((sum words label).run d).2 words (Vector.range' d.next 32) (d.next + 32) := by
  refine ⟨fun result hnodup hresult hapart => ?_, rfl, ?_⟩
  · exact recordsSum_sumOn hmany label hpos hnodup hresult fun x hx a ha t ht =>
      ⟨hwords x hx a ha t ht, hapart x hx a ha t ht⟩
  · -- new wires are wires that are there by the time the sum is recorded
    let allocated := ((DraftM.allocateBlock label 32).run d).2
    have hnext : allocated.next = d.next + 32 := rfl
    have hrecords : allocated.RecordsSum
        ((sumOn words label (Vector.range' d.next 32)).run allocated).2 words
          (Vector.range' d.next 32) allocated.next := by
      refine recordsSum_sumOn hmany label (hpos.trans_le (Nat.le_add_right _ _)) ?_ (fun i hi => ?_)
        fun x hx a ha => (hwords x hx a ha).mono fun i (hi : i < d.next) => ⟨by omega, fun h => ?_⟩
      · rw [toList_range']
        exact List.nodup_range'
      · obtain ⟨hge, hlt⟩ := mem_range'_iff.mp hi
        omega
      · exact absurd (mem_range'_iff.mp h).1 (not_le.mpr hi)
    exact hrecords

/-- The largest number is added to a word, on wires in falling order.  One wire is left for the carry,
and it carries one when the word is as large. -/
theorem sum_adds_fallingWires :
    let words := [const (2 ^ 32 - 1), ofWires 1]
    let result := Vector.ofFn fun j : Fin 32 => 64 - j.val
    ∃ s, ((sumOn words "sum" result).run { next := 65 }).2.steps = #[s]
      ∧ s.Adds words result [65] 66
      ∧ ∀ w, w oneWire = 1 → s.Holds w → Carries w (ofWires 1) (2 ^ 32 - 1) → w 65 = 1 := by
  intro words result
  have hentry : ∀ x ∈ words, ∀ a ∈ x, a.Within {i | i < 33} := by
    intro x hx a ha
    rcases List.mem_pair.mp hx with rfl | rfl <;> obtain ⟨j, rfl⟩ := Vector.mem_ofFn.mp ha
    · exact .const (by decide : oneWire < 33) _
    · exact .var (by show 1 + j.val < 33; omega)
  have hresult : ∀ i ∈ result, 32 < i ∧ i < 65 := by
    intro i hi
    obtain ⟨j, rfl⟩ := Vector.mem_ofFn.mp hi
    omega
  have hbelow : ∀ x ∈ words, ∀ a ∈ x, a.Within {i | i < 65} := fun x hx a ha =>
    (hentry x hx a ha).mono fun i (hi : i < 33) => hi.trans (by decide)
  obtain ⟨hgiven, -, -⟩ := sum_adds (d := { next := 65 }) (by decide) "sum" (by decide) hbelow
  obtain ⟨hnext, s, hsteps, hadds⟩ := hgiven result (by decide)
    (fun i hi => ⟨(Nat.zero_le 32).trans_lt (hresult i hi).1, (hresult i hi).2⟩)
    fun x hx a ha => (hentry x hx a ha).mono fun i (hi : i < 33) hmem =>
      absurd (hresult i hmem).1 (by omega)
  have hcount : carryBits words.length = 1 := by decide
  rw [hnext, hcount] at hadds
  refine ⟨s, hsteps, hadds, fun w hone hholds hw => ?_⟩
  have hdigits := hadds.forces w hone hholds _ (.cons (carries_const hone _) (.cons hw .nil))
  exact hdigits.high 0 (by decide)

end Word

end MerkleSnark
