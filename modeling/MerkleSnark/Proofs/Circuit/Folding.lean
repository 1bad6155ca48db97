import Mathlib
import MerkleSnark.Proofs.Circuit.Witness
import MerkleSnark.Proofs.Constraint.Canonical
import MerkleSnark.Proofs.Sha256.Refinement

/-!
# Constant folding

The bitwise functions ask for products.  A product with a constant factor is linear, so it is given as
a combination and nothing is drafted for it; every other one gets a wire and a constraint.  Whether a
factor is constant can be seen from its terms, as they are canonical, and it may be so because its
wires cancel.  The words that come out carry the same numbers in any case.

## Main definitions

* `LinearCombination.Fixed` — a combination that stands for a constant.
* `DraftM.Appends` — a computation depends on nothing but the number of the next wire.
* `Product`, `Draft.Multiplies` — the products that lead from one draft to another.
* `Bitwise` — the three functions on words, as circuits and on vectors of bits.
* `Bitwise.Computes`, `Bitwise.Drafts` — what steps compute, and what a function drafts for words.

## Main results

* `LinearCombination.Reduced.isConstant_iff` — the terms show whether a combination is constant.
* `DraftM.asks_product` — a product is drafted exactly if no factor is constant.
* `Word.folding_exact` — **the words carry what the functions give**, and exactly the products
  without a constant factor are drafted.
-/

namespace MerkleSnark

open LinearCombination

/-! ### Constants -/

namespace LinearCombination

variable {x : LinearCombination}

/-- The combination has one value wherever the constant wire carries one. -/
def Fixed (x : LinearCombination) : Prop := ∃ c, ∀ w : ℕ → Fr, w oneWire = 1 → x.eval w = c

theorem isConstant_const (c : Fr) : (const c).isConstant = true := by
  unfold const term addTerm isConstant
  rw [terms_zero, insertTerm]
  split <;> rfl

/-- **The terms show whether a combination is constant.** -/
theorem Reduced.isConstant_iff (hx : x.Reduced) : x.isConstant = true ↔ x.Fixed := by
  constructor
  · intro h
    refine ⟨x.constantValue, fun w hw => ?_⟩
    rw [hx.sorted.eval_of_isConstant h, hw, mul_one]
  · rintro ⟨c, hc⟩
    -- canonical combinations with the same values have the same terms
    have heq : x = const c := hx.ext_eval (Reduced.zero.addTerm oneWire c) fun w hw => by
      rw [hc w hw, eval_const, hw, mul_one]
    rw [heq, isConstant_const]

end LinearCombination

/-! ### Drafts behind drafts -/

/-- The draft with what was drafted by a computation that started with its next wire. -/
def Draft.append (d e : Draft) : Draft := ⟨e.next, d.labels ++ e.labels, d.steps ++ e.steps⟩

namespace DraftM

variable {α β : Type}

/-- The computation depends on nothing but the number of the next wire, and what it drafts comes behind
what there is. -/
def Appends (m : DraftM α) : Prop :=
  ∀ d : Draft, m.run d = ((m.run { next := d.next }).1, d.append (m.run { next := d.next }).2)

theorem appends_pure (a : α) : Appends (pure a : DraftM α) := by
  intro d
  show (a, d) = (a, d.append { next := d.next })
  rw [Draft.append, Array.append_empty, Array.append_empty]

theorem Appends.bind {m : DraftM α} {f : α → DraftM β} (hm : Appends m) (hf : ∀ a, Appends (f a)) :
    Appends (m >>= f) := by
  intro d
  have hrun : ∀ e, (m >>= f).run e = (f (m.run e).1).run (m.run e).2 := fun _ => rfl
  rw [hrun, hrun, hm d]
  -- the second half starts from the same wire, whether the first one had something before it or not
  rw [hf _ (m.run { next := d.next }).2, hf _ (d.append _)]
  simp only [Draft.append, Array.append_assoc]

theorem appends_allocate (label : String) : Appends (allocate label) := by
  intro d
  show (d.next, (⟨d.next + 1, d.labels.push label, d.steps⟩ : Draft)) = _
  have hsteps : d.steps = d.steps ++ #[] := Array.append_empty.symm
  rw [Array.push_eq_append, hsteps]
  rfl

theorem appends_record (s : Step) : Appends (record s) := by
  intro d
  show ((), (⟨d.next, d.labels, d.steps.push s⟩ : Draft)) = _
  have hlabels : d.labels = d.labels ++ #[] := Array.append_empty.symm
  rw [Array.push_eq_append, hlabels]
  rfl

theorem appends_product (offset x y : LinearCombination) (label : String) :
    Appends (product offset x y label) := by
  unfold product
  split
  · exact appends_pure _
  · split
    · exact appends_pure _
    · exact (appends_allocate label).bind fun out => (appends_record _).bind fun _ => appends_pure _

/-- What comes behind a draft is what is drafted with nothing before it. -/
theorem Appends.run {m : DraftM α} (hm : Appends m) (d : Draft) :
    (m.run d).1 = (m.run { next := d.next }).1
      ∧ (m.run d).2.next = (m.run { next := d.next }).2.next
      ∧ (m.run d).2.steps.toList = d.steps.toList ++ (m.run { next := d.next }).2.steps.toList := by
  rw [hm d]
  exact ⟨rfl, rfl, Array.toList_append⟩

theorem Appends.ofFnM {n : ℕ} {f : Fin n → DraftM α} (h : ∀ i, Appends (f i)) :
    Appends (Vector.ofFnM f) := by
  induction n with
  | zero =>
    rw [Vector.ofFnM_zero]
    exact appends_pure _
  | succ n ih =>
    rw [Vector.ofFnM_succ]
    exact (ih fun i => h i.castSucc).bind fun _ => (h (Fin.last n)).bind fun _ => appends_pure _

end DraftM

/-! ### Products -/

/-- A product `offset + x · y` that is asked for, and the combination that is given for it. -/
structure Product where
  /-- What is added. -/
  offset : LinearCombination
  /-- The first factor. -/
  x : LinearCombination
  /-- The second factor. -/
  y : LinearCombination
  /-- The name. -/
  label : String
  /-- What is given. -/
  value : LinearCombination

namespace Draft

/-- The draft with a wire for the product and the step that determines it. -/
def multiply (d : Draft) (p : Product) : Draft :=
  ⟨d.next + 1, d.labels.push p.label, d.steps.push (.product d.next p.offset p.x p.y p.label)⟩

/-- The products lead from one draft to the other.  For one with a constant factor nothing is drafted,
and what is given for it has its value; each other one gets a wire and a step. -/
inductive Multiplies : Draft → List Product → Draft → Prop
  | nil (d : Draft) : Multiplies d [] d
  | linear {d d' : Draft} {p : Product} {ps : List Product} (hconstant : p.x.Fixed ∨ p.y.Fixed)
    (hvalue : ∀ w, w oneWire = 1 →
      p.value.eval w = p.offset.eval w + p.x.eval w * p.y.eval w)
    (hrest : Multiplies d ps d') : Multiplies d (p :: ps) d'
  | drafted {d d' : Draft} {p : Product} {ps : List Product} (hx : ¬ p.x.Fixed) (hy : ¬ p.y.Fixed)
    (hvalue : p.value = .var d.next) (hrest : Multiplies (d.multiply p) ps d') :
    Multiplies d (p :: ps) d'

namespace Multiplies

variable {d d₁ d₂ : Draft} {ps qs : List Product}

theorem append (h : d.Multiplies ps d₁) (hqs : d₁.Multiplies qs d₂) : d.Multiplies (ps ++ qs) d₂ := by
  induction h with
  | nil => exact hqs
  | linear hconstant hvalue _ ih => exact .linear hconstant hvalue (ih hqs)
  | drafted hx hy hvalue _ ih => exact .drafted hx hy hvalue (ih hqs)

/-- Every wire comes with one constraint. -/
theorem exists_steps (h : d.Multiplies ps d₁) : ∃ steps, d₁.steps.toList = d.steps.toList ++ steps
    ∧ d₁.next = d.next + (steps.flatMap Step.constraints).length := by
  induction h with
  | nil => exact ⟨[], (List.append_nil _).symm, rfl⟩
  | linear _ _ _ ih => exact ih
  | @drafted d d' p ps _ _ _ _ ih =>
    -- the step of this product comes before those of the rest
    obtain ⟨steps, hsteps, hnext⟩ := ih
    refine ⟨.product d.next p.offset p.x p.y p.label :: steps, ?_, ?_⟩
    · rw [hsteps, multiply, Array.toList_push, List.append_assoc, List.singleton_append]
    · rw [hnext, List.flatMap_cons, List.length_append]
      exact Nat.add_assoc d.next 1 _

end Multiplies

end Draft

namespace DraftM

variable {α β : Type}

/-- The computation asks for products, which are related to its result, and drafts nothing else. -/
def Asks (m : DraftM α) (post : α → List Product → Prop) : Prop :=
  ∀ d : Draft, ∃ ps, d.Multiplies ps (m.run d).2 ∧ post (m.run d).1 ps

namespace Asks

theorem mono {m : DraftM α} {p q : α → List Product → Prop} (h : Asks m p)
    (hpq : ∀ a ps, p a ps → q a ps) : Asks m q := by
  intro d
  obtain ⟨ps, hps, hp⟩ := h d
  exact ⟨ps, hps, hpq _ _ hp⟩

theorem pure {a : α} {p : α → List Product → Prop} (h : p a []) : Asks (pure a) p :=
  fun d => ⟨[], .nil d, h⟩

theorem bind {m : DraftM α} {f : α → DraftM β} {p : α → List Product → Prop}
    {q : β → List Product → Prop} (hm : Asks m p)
    (hf : ∀ a ps, p a ps → Asks (f a) fun b qs => q b (ps ++ qs)) : Asks (m >>= f) q := by
  intro d
  obtain ⟨ps, hps, hp⟩ := hm d
  obtain ⟨qs, hqs, hq⟩ := hf _ ps hp (m.run d).2
  exact ⟨ps ++ qs, hps.append hqs, hq⟩

/-- Entries that are drafted one after another ask for their products in this order. -/
theorem ofFnM {n : ℕ} {f : Fin n → DraftM α} {p : Fin n → α → List Product → Prop}
    (h : ∀ i, Asks (f i) (p i)) : Asks (Vector.ofFnM f) fun v ps =>
      ∃ pss : Fin n → List Product, ps = (List.ofFn pss).flatten ∧ ∀ i, p i (v.get i) (pss i) := by
  -- a vector is drafted from the front, so the induction splits off its last entry
  induction n with
  | zero =>
    rw [Vector.ofFnM_zero]
    exact pure ⟨fun _ => [], rfl, fun i => i.elim0⟩
  | succ n ih =>
    rw [Vector.ofFnM_succ]
    refine (ih fun i => h i.castSucc).bind fun v ps => ?_
    rintro ⟨pss, rfl, hv⟩
    refine (h (Fin.last n)).bind fun a qs hqs => ?_
    refine pure ⟨Fin.lastCases qs pss, ?_, fun i => ?_⟩
    · rw [List.ofFn_succ_last]
      simp
    · cases i using Fin.lastCases with
      | last => simpa using hqs
      | cast i => simpa using hv i

end Asks

/-- **A product is drafted exactly if no factor is constant.** -/
theorem asks_product {offset x y : LinearCombination} (hoffset : offset.Reduced) (hx : x.Reduced)
    (hy : y.Reduced) (label : String) : Asks (product offset x y label) fun z ps =>
      z.Reduced ∧ ps = [⟨offset, x, y, label, z⟩] := by
  unfold product
  by_cases hxc : x.isConstant = true
  · rw [if_pos hxc]
    refine fun d => ⟨_, .linear (Or.inl (hx.isConstant_iff.mp hxc)) (fun w hw => ?_) (.nil d),
      hoffset.add _, rfl⟩
    show (offset + y.scale x.constantValue).eval w = _
    rw [eval_add, eval_scale, hx.sorted.eval_of_isConstant hxc, hw, mul_one]
  · rw [if_neg hxc]
    by_cases hyc : y.isConstant = true
    · rw [if_pos hyc]
      refine fun d => ⟨_, .linear (Or.inr (hy.isConstant_iff.mp hyc)) (fun w hw => ?_) (.nil d),
        hoffset.add _, rfl⟩
      show (offset + x.scale y.constantValue).eval w = _
      rw [eval_add, eval_scale, hy.sorted.eval_of_isConstant hyc, hw, mul_one, mul_comm]
    · rw [if_neg hyc]
      exact fun d => ⟨_, .drafted (mt hx.isConstant_iff.mpr hxc) (mt hy.isConstant_iff.mpr hyc) rfl
        (.nil _), Reduced.zero.addTerm d.next 1, rfl⟩

end DraftM

/-! ### The bitwise functions -/

/-- The functions of three words that are drafted bit by bit. -/
inductive Bitwise
  | xor3
  | choice
  | majority

namespace Bitwise

open DraftM Word

/-- The circuit. -/
def draft : Bitwise → Word → Word → Word → String → DraftM Word
  | xor3 => Word.xor3
  | choice => Word.choice
  | majority => Word.majority

/-- The function on vectors of bits. -/
def apply : Bitwise → BitVec 32 → BitVec 32 → BitVec 32 → BitVec 32
  | xor3 => fun a b c => a ^^^ b ^^^ c
  | choice => Sha256.Standard.choice
  | majority => Sha256.Standard.majority

/-- The circuit for one bit. -/
def draftBit : Bitwise → String → ℕ → LinearCombination → LinearCombination → LinearCombination →
    DraftM LinearCombination
  | xor3 => xor3Bit
  | choice => choiceBit
  | majority => majorityBit

/-- The products for one bit.  The last one is the bit; of two products the first is a factor in the
last. -/
def products (label : String) (j : ℕ) (x y z first last : LinearCombination) :
    Bitwise → List Product
  | xor3 => [⟨x + y, x.scale (-(1 + 1)), y, s!"{label}[{j}].0", first⟩,
      ⟨first + z, first.scale (-(1 + 1)), z, s!"{label}[{j}]", last⟩]
  | choice => [⟨z, x, y - z, s!"{label}[{j}]", last⟩]
  | majority => [⟨0, y, z, s!"{label}[{j}].bc", first⟩,
      ⟨first, x, y + z - first.scale (1 + 1), s!"{label}[{j}]", last⟩]

variable {op : Bitwise} {x y z : Word} {label : String}

theorem draft_eq (op : Bitwise) (x y z : Word) (label : String) :
    op.draft x y z label = Vector.ofFnM fun j => op.draftBit label j (x.get j) (y.get j) (z.get j) := by
  cases op <;> rfl

theorem appends_draft (op : Bitwise) (x y z : Word) (label : String) :
    Appends (op.draft x y z label) := by
  rw [draft_eq]
  refine .ofFnM fun j => ?_
  cases op with
  | xor3 => exact (appends_product _ _ _ _).bind fun _ => appends_product _ _ _ _
  | choice => exact appends_product _ _ _ _
  | majority => exact (appends_product _ _ _ _).bind fun _ => appends_product _ _ _ _

theorem asks_draftBit (op : Bitwise) (label : String) (j : ℕ) {x y z : LinearCombination}
    (hx : x.Reduced) (hy : y.Reduced) (hz : z.Reduced) :
    Asks (op.draftBit label j x y z) fun r ps =>
      r.Reduced ∧ ∃ first, ps = op.products label j x y z first r := by
  cases op with
  | xor3 =>
    refine (asks_product (hx.add y) (hx.scale _) hy _).bind fun t ps ht => ?_
    obtain ⟨ht, rfl⟩ := ht
    refine (asks_product (ht.add z) (ht.scale _) hz _).mono fun r qs hr => ?_
    obtain ⟨hr, rfl⟩ := hr
    exact ⟨hr, t, rfl⟩
  | choice =>
    refine (asks_product hz hx (hy.add _) _).mono fun r ps hr => ?_
    obtain ⟨hr, rfl⟩ := hr
    exact ⟨hr, 0, rfl⟩
  | majority =>
    refine (asks_product .zero hy hz _).bind fun t ps ht => ?_
    obtain ⟨ht, rfl⟩ := ht
    refine (asks_product ht hx ((hy.add z).add _) _).mono fun r qs hr => ?_
    obtain ⟨hr, rfl⟩ := hr
    exact ⟨hr, t, rfl⟩

/-- The products for all bits, from the highest on. -/
def allProducts (op : Bitwise) (label : String) (x y z first last : Word) : List Product :=
  (List.ofFn fun j : Fin 32 =>
    op.products label j (x.get j) (y.get j) (z.get j) (first.get j) (last.get j)).flatten

/-- **What is asked for.** -/
theorem asks_draft (op : Bitwise) (label : String) (hx : ∀ a ∈ x, a.Reduced)
    (hy : ∀ a ∈ y, a.Reduced) (hz : ∀ a ∈ z, a.Reduced) :
    Asks (op.draft x y z label) fun r ps =>
      (∀ a ∈ r, a.Reduced) ∧ ∃ first, ps = op.allProducts label x y z first r := by
  rw [draft_eq]
  have hentry : ∀ {u : Word}, (∀ a ∈ u, a.Reduced) → ∀ j, (u.get j).Reduced := fun hu j =>
    hu _ (Vector.getElem_mem j.isLt)
  have hbits := Asks.ofFnM fun j : Fin 32 => op.asks_draftBit label j (hentry hx j) (hentry hy j)
    (hentry hz j)
  refine hbits.mono fun r ps => ?_
  rintro ⟨pss, rfl, hr⟩
  choose hreduced first hfirst using hr
  refine ⟨fun a ha => ?_, Vector.ofFn first, ?_⟩
  · obtain ⟨j, hj, rfl⟩ := Vector.getElem_of_mem ha
    exact hreduced ⟨j, hj⟩
  · rw [allProducts]
    refine congrArg (fun f => (List.ofFn f).flatten) (funext fun j => ?_)
    have hget : (Vector.ofFn first).get j = first j := Vector.getElem_ofFn j.isLt
    rw [hfirst j, hget]

/-- What the steps force. -/
theorem ensures_draft {w : ℕ → Fr} (hw : w oneWire = 1) (op : Bitwise) (x y z : Word)
    (label : String) : Ensures w (op.draft x y z label) fun r => ∀ a b c : BitVec 32,
      Carries w x a.toNat → Carries w y b.toNat → Carries w z c.toNat →
        Carries w r (op.apply a b c).toNat := by
  cases op with
  | xor3 =>
    refine (ensures_xor3 hw x y z label).mono fun r h a b c hx hy hz => ?_
    show Carries w r (a ^^^ b ^^^ c).toNat
    rw [BitVec.toNat_xor, BitVec.toNat_xor]
    exact h _ _ _ hx hy hz
  | choice =>
    refine (ensures_choice hw x y z label).mono fun r h a b c hx hy hz => ?_
    show Carries w r (Sha256.Standard.choice a b c).toNat
    rw [← Sha256.choice_toNat]
    exact h _ _ _ hx hy hz
  | majority =>
    refine (ensures_majority hw x y z label).mono fun r h a b c hx hy hz => ?_
    show Carries w r (Sha256.Standard.majority a b c).toNat
    rw [← Sha256.majority_toNat]
    exact h _ _ _ hx hy hz

theorem builds_draft {g : Given} {R : Set ℕ} {d : Draft} (op : Bitwise) (label : String)
    (hx : x.Good g d.steps.toList) (hy : y.Good g d.steps.toList) (hz : z.Good g d.steps.toList) :
    Builds g R R d (op.draft x y z label) fun r steps => Good g r steps := by
  cases op with
  | xor3 => exact builds_xor3 label hx hy hz
  | choice => exact builds_choice label hx hy hz
  | majority => exact builds_majority label hx hy hz

end Bitwise

/-! ### What is drafted for words -/

/-- What words start from that mention some of the first wires and carry numbers. -/
def Given.ofWords (words : List Word) (start : ℕ) (hpos : 0 < start)
    (hwords : ∀ x ∈ words, ∀ a ∈ x, a.Within {i | i < start}) : Given where
  start := start
  wires := {i | i < start}
  Meets w := w oneWire = 1 ∧ ∀ x ∈ words, ∃ n, Word.Carries w x n
  lt_start := id
  one_mem := hpos
  one_eq := And.left
  congr := by
    rintro w v ⟨hone, hcarries⟩ hwv
    refine ⟨(hwv oneWire hpos).trans hone, fun x hx => ?_⟩
    obtain ⟨n, hn⟩ := hcarries x hx
    exact ⟨n, hn.congr (hwords x hx) hwv⟩

theorem Word.good_ofWords {words : List Word} {start : ℕ} {hpos : 0 < start}
    {hwords : ∀ x ∈ words, ∀ a ∈ x, a.Within {i | i < start}} {steps : List Step} :
    ∀ x ∈ words, x.Good (.ofWords words start hpos hwords) steps := fun x hx =>
  ⟨fun a ha => (hwords x hx a ha).mono fun _ => Or.inl, fun _ hw _ => hw.2 x hx⟩

namespace Bitwise

open DraftM Word

/-- The steps compute the function: the wires from `start` on below `next` are all that they write. -/
structure Computes (op : Bitwise) (x y z r : Word) (steps : List Step) (start next : ℕ) : Prop where
  /-- Once the words carry numbers the steps can be carried out, and their constraints hold then. -/
  assigns : ∀ state : Board, next ≤ state.values.size → state.valueAt oneWire = 1 →
    ∀ a b c : BitVec 32, Carries state.valueAt x a.toNat → Carries state.valueAt y b.toNat →
      Carries state.valueAt z c.toNat →
        ∃ state', (steps.forM Step.assign : BoardM PUnit).run state = (.ok PUnit.unit, state')
          ∧ state.Rewrites state' {i | start ≤ i ∧ i < next}
          ∧ (∀ s ∈ steps, s.Holds state'.valueAt) ∧ Carries state'.valueAt r (op.apply a b c).toNat
  /-- Whatever meets the constraints gives the same. -/
  forces : ∀ w : ℕ → Fr, w oneWire = 1 → (∀ s ∈ steps, s.Holds w) →
    ∀ a b c : BitVec 32, Carries w x a.toNat → Carries w y b.toNat → Carries w z c.toNat →
      Carries w r (op.apply a b c).toNat

/-- What the function drafts for the words `x`, `y`, `z`, and what it gives for them. -/
structure Drafts (op : Bitwise) (label : String) (x y z : Word) (d : Draft) (r : Word)
    (d' : Draft) : Prop where
  /-- Wires and steps are drafted for the products without a constant factor. -/
  multiplies : ∃ first : Word, d.Multiplies (op.allProducts label x y z first r) d'
  /-- The new steps compute the function, and every new wire comes with one constraint. -/
  computes : ∃ steps, d'.steps.toList = d.steps.toList ++ steps
    ∧ d'.next = d.next + (steps.flatMap Step.constraints).length
    ∧ op.Computes x y z r steps d.next d'.next
  /-- The result is made of canonical combinations of wires that are there. -/
  canonical : ∀ a ∈ r, a.Reduced ∧ a.Within {i | i < d'.next}

variable {op : Bitwise} {x y z : Word} {start : ℕ}

/-- Behind wires that words mention, the function is computed for these words. -/
theorem computes_draft (op : Bitwise) (label : String) (hpos : 0 < start)
    (hwords : ∀ u ∈ [x, y, z], ∀ a ∈ u, a.Within {i | i < start}) :
    let run := (op.draft x y z label).run { next := start }
    op.Computes x y z run.1 run.2.steps.toList start run.2.next
      ∧ ∀ a ∈ run.1, a.Within {i | i < run.2.next} := by
  intro run
  have hmem : x ∈ [x, y, z] ∧ y ∈ [x, y, z] ∧ z ∈ [x, y, z] := by simp
  obtain ⟨hmemx, hmemy, hmemz⟩ := hmem
  let g := Given.ofWords [x, y, z] start hpos hwords
  have hbuilds : Builds g ∅ ∅ { next := start } (op.draft x y z label) fun r steps => r.Good g steps :=
    op.builds_draft label (good_ofWords x hmemx) (good_ofWords y hmemy) (good_ofWords z hmemz)
  obtain ⟨hready, -, hgood⟩ := hbuilds (.start fun i hi => absurd hi (Set.notMem_empty i))
  have hforces : ∀ w : ℕ → Fr, w oneWire = 1 → (∀ s ∈ run.2.steps.toList, s.Holds w) →
      ∀ a b c : BitVec 32, Carries w x a.toNat → Carries w y b.toNat → Carries w z c.toNat →
        Carries w run.1 (op.apply a b c).toNat := fun w hw hholds =>
    (op.ensures_draft hw x y z label { next := start }).2 hholds
  refine ⟨⟨fun state hsize hone a b c hx hy hz => ?_, hforces⟩, fun a ha =>
    (hgood.within a ha).mono hready.lt_next⟩
  have hmeets : g.Meets state.valueAt := by
    refine ⟨hone, fun u hu => ?_⟩
    simp only [List.mem_cons, List.not_mem_nil, or_false] at hu
    rcases hu with rfl | rfl | rfl
    exacts [⟨_, hx⟩, ⟨_, hy⟩, ⟨_, hz⟩]
  obtain ⟨state', hrun, hrewrites, hmeets', hholds⟩ := hready.computable.run hmeets fun i hi =>
    (hready.lt_next i hi).trans_le hsize
  -- the words are not written, so they still carry the numbers from before
  have hkeep : ∀ i ∈ {i | i < start}, state'.valueAt i = state.valueAt i := fun i hi =>
    hrewrites.valueAt_eq i fun h => h.2 hi
  refine ⟨state', hrun, hrewrites.mono fun i hi => ⟨not_lt.mp hi.2, hready.lt_next i hi.1⟩, hholds,
    hforces _ hmeets'.1 hholds a b c (hx.congr (hwords x hmemx) hkeep) (hy.congr (hwords y hmemy) hkeep)
      (hz.congr (hwords z hmemz) hkeep)⟩

end Bitwise

namespace Word

/-- **Folding changes nothing but what is drafted.**  Whatever mixture of constants, wires and other
combinations the words are, what is given for them carries what the functions give.  Rotations and
shifts rearrange words and draft nothing. -/
theorem folding_exact {x y z : Word} {d : Draft} (hpos : 0 < d.next)
    (hwords : ∀ u ∈ [x, y, z], ∀ a ∈ u, a.Reduced ∧ a.Within {i | i < d.next}) (label : String) :
    (∀ op : Bitwise, let run := (op.draft x y z label).run d
      op.Drafts label x y z d run.1 run.2)
    ∧ ∀ (u : Word) (w : ℕ → Fr) (a : BitVec 32), Carries w u a.toNat → ∀ n, 0 < n → n < 32 →
      Carries w (u.rotateRight n) (a.rotateRight n).toNat
        ∧ Carries w (u.shiftRight n) (a >>> n).toNat := by
  refine ⟨fun op => ?_, fun u w a hu n _ hn => ?_⟩
  · have hmem : x ∈ [x, y, z] ∧ y ∈ [x, y, z] ∧ z ∈ [x, y, z] := by simp
    obtain ⟨hmemx, hmemy, hmemz⟩ := hmem
    intro run
    obtain ⟨hcomputes, hthere⟩ := op.computes_draft label hpos fun u hu a ha => (hwords u hu a ha).2
    obtain ⟨_, hmultiplies, hreduced, first, rfl⟩ := op.asks_draft label
      (fun a ha => (hwords x hmemx a ha).1) (fun a ha => (hwords y hmemy a ha).1)
      (fun a ha => (hwords z hmemz a ha).1) d
    obtain ⟨steps, hsteps, hnext⟩ := hmultiplies.exists_steps
    -- the steps behind `d` are those that are drafted with nothing before them
    obtain ⟨hvalue, hlast, hbehind⟩ := (op.appends_draft x y z label).run d
    obtain rfl := List.append_cancel_left (hsteps.symm.trans hbehind)
    rw [← hvalue, ← hlast] at hcomputes hthere
    exact ⟨⟨first, hmultiplies⟩, ⟨_, hbehind, hnext, hcomputes⟩, fun a ha =>
      ⟨hreduced a ha, hthere a ha⟩⟩
  · rw [← Sha256.rotateRight_toNat a hn, BitVec.toNat_ushiftRight]
    exact ⟨hu.rotateRight hn.le, hu.shiftRight n⟩

/-- Of two equal words either may be chosen: the differences of their bits cancel, so nothing is
drafted.  For the majority there are two products for every bit, and what their constraints force is
the same word. -/
theorem folding_exact_equalWords :
    ((Bitwise.choice.draft (ofWires 1) (ofWires 33) (ofWires 33) "bits").run
        { next := 65 }).2.next = 65
      ∧ ((Bitwise.majority.draft (ofWires 1) (ofWires 33) (ofWires 33) "bits").run
          { next := 65 }).2.next = 129
      ∧ let run := (Bitwise.majority.draft (ofWires 1) (ofWires 33) (ofWires 33) "bits").run
          { next := 65 }
        ∀ w, w oneWire = 1 → (∀ s ∈ run.2.steps.toList, s.Holds w) → ∀ a b : BitVec 32,
          Carries w (ofWires 1) a.toNat → Carries w (ofWires 33) b.toNat →
            Carries w run.1 b.toNat ∧ Carries w (run.1.rotateRight 7) (b.rotateRight 7).toNat := by
  have hwords : ∀ u ∈ [ofWires 1, ofWires 33, ofWires 33], ∀ a ∈ u,
      a.Reduced ∧ a.Within {i | i < 65} := by
    intro u hu a ha
    simp only [List.mem_cons, List.not_mem_nil, or_false, or_self] at hu
    rcases hu with rfl | rfl <;> obtain ⟨j, rfl⟩ := Vector.mem_ofFn.mp ha
    · exact ⟨Reduced.zero.addTerm _ 1, .var (show 1 + j.val < 65 by omega)⟩
    · exact ⟨Reduced.zero.addTerm _ 1, .var (show 33 + j.val < 65 by omega)⟩
  obtain ⟨hdrafts, hrearranged⟩ :=
    folding_exact (d := { next := 65 }) (by decide) hwords "bits"
  refine ⟨by decide +kernel, by decide +kernel, fun w hw hholds a b ha hb => ?_⟩
  obtain ⟨steps, hsteps, -, hcomputes⟩ := (hdrafts .majority).computes
  have hforced := hcomputes.forces w hw (fun s hs => hholds s (hsteps ▸ hs)) a b b ha hb hb
  have hsame : Bitwise.majority.apply a b b = b := by
    show (a &&& b) ^^^ (a &&& b) ^^^ (b &&& b) = b
    rw [BitVec.xor_self, BitVec.zero_xor, BitVec.and_self]
  rw [hsame] at hforced
  exact ⟨hforced, (hrearranged _ w b hforced 7 (by decide) (by decide)).1⟩

end Word

end MerkleSnark
