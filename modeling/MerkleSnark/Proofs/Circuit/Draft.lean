import Mathlib
import MerkleSnark.Circuit.Draft
import MerkleSnark.Proofs.Constraint.LinearCombination

/-!
# What the constraints of a draft force

A draft only ever adds steps, so whatever its steps force about an assignment stays forced when more
is drafted.  `Ensures w m post` packs the two facts: running `m` keeps the steps that were there,
and if all steps hold for `w` in the end, the result of `m` satisfies `post`.  The postcondition
carries its own assumptions about the arguments of `m`, so that the rule for sequencing needs no
assumption on the first computation.

## Main definitions

* `Step.Holds` — an assignment meets all constraints of a step.
* `DraftM.Ensures` — the steps of a computation force a property of its result.

## Main results

* `Ensures.bind`, `Ensures.ofFnM`, `Ensures.foldlM`, `Ensures.forM` — rules for composed drafts.
* `ensures_product`, `ensures_xor` — the value of a product, folded or not.
-/

namespace MerkleSnark

/-- The assignment meets all constraints of the step. -/
def Step.Holds (s : Step) (w : ℕ → Fr) : Prop := ∀ k ∈ s.constraints, k.Holds w

namespace DraftM

variable {w : ℕ → Fr} {α β γ ι : Type}

/-- Running the computation keeps the steps that were drafted before, and if all steps hold in the
end, the result has the property. -/
def Ensures (w : ℕ → Fr) (m : DraftM α) (post : α → Prop) : Prop :=
  ∀ d : Draft, d.steps.toList ⊆ (m.run d).2.steps.toList
    ∧ ((∀ s ∈ (m.run d).2.steps.toList, s.Holds w) → post (m.run d).1)

namespace Ensures

theorem mono {m : DraftM α} {p q : α → Prop} (h : Ensures w m p) (hpq : ∀ a, p a → q a) :
    Ensures w m q := by
  intro d
  obtain ⟨hsub, hpost⟩ := h d
  exact ⟨hsub, fun hd => hpq _ (hpost hd)⟩

theorem pure {a : α} {p : α → Prop} (h : p a) : Ensures w (pure a) p := by
  intro d
  exact ⟨List.Subset.refl _, fun _ => h⟩

/-- The rule for sequencing: what the first computation forces is an assumption of what the second
one has to force. -/
theorem bind {m : DraftM α} {f : α → DraftM β} {p : α → Prop} {q : β → Prop}
    (hm : Ensures w m p) (hf : ∀ a, Ensures w (f a) fun b => p a → q b) :
    Ensures w (m >>= f) q := by
  intro d
  obtain ⟨hsub, hp⟩ := hm d
  obtain ⟨hsub', hq⟩ := hf (m.run d).1 (m.run d).2
  -- the second run starts from the steps that the first one leaves
  have hrun : (m >>= f).run d = (f (m.run d).1).run (m.run d).2 := rfl
  rw [hrun]
  refine ⟨fun s hs => hsub' (hsub hs), fun hd => hq hd (hp ?_)⟩
  intro s hs
  exact hd s (hsub' hs)

theorem map {m : DraftM α} {f : α → β} {q : β → Prop} (hm : Ensures w m fun a => q (f a)) :
    Ensures w (f <$> m) q := by
  rw [← bind_pure_comp]
  exact hm.bind fun a => pure id

/-- What holds for every value of a parameter holds for all of them together. -/
theorem forall_of [Nonempty ι] {m : DraftM α} {p : ι → α → Prop}
    (h : ∀ i, Ensures w m (p i)) : Ensures w m fun a => ∀ i, p i a := by
  intro d
  obtain ⟨i⟩ := ‹Nonempty ι›
  exact ⟨(h i d).1, fun hd i => (h i d).2 hd⟩

/-- Entries that are drafted one after another have their properties together. -/
theorem ofFnM {n : ℕ} {f : Fin n → DraftM α} {p : Fin n → α → Prop}
    (h : ∀ i, Ensures w (f i) (p i)) :
    Ensures w (Vector.ofFnM f) fun v => ∀ i : Fin n, p i v[i] := by
  induction n with
  | zero =>
    rw [Vector.ofFnM_zero]
    exact pure fun i => i.elim0
  | succ n ih =>
    rw [Vector.ofFnM_succ]
    refine (ih fun i => h i.castSucc).bind fun v => ?_
    refine (h (Fin.last n)).bind fun a => ?_
    refine pure fun ha hv i => ?_
    cases i using Fin.lastCases with
    | last => simpa using ha
    | cast i => simpa using hv i

/-- A fold follows a fold of values when every step does. -/
theorem foldlM {f : β → ι → DraftM β} {step : γ → ι → γ} {R : β → γ → Prop}
    (h : ∀ b i, Ensures w (f b i) fun b' => ∀ c, R b c → R b' (step c i)) (l : List ι) (b : β) :
    Ensures w (l.foldlM f b) fun b' => ∀ c, R b c → R b' (l.foldl step c) := by
  induction l generalizing b with
  | nil =>
    rw [List.foldlM_nil]
    exact pure fun c hc => hc
  | cons i l ih =>
    rw [List.foldlM_cons]
    refine (h b i).bind fun b' => ?_
    refine (ih b').mono fun b'' hrest hstep c hc => ?_
    exact hrest _ (hstep c hc)

theorem forM {f : ι → DraftM PUnit} {p : ι → Prop} (h : ∀ i, Ensures w (f i) fun _ => p i)
    (l : List ι) : Ensures w (l.forM f) fun _ => ∀ i ∈ l, p i := by
  induction l with
  | nil => exact pure fun i hi => absurd hi List.not_mem_nil
  | cons i l ih =>
    show Ensures w (f i >>= fun _ => l.forM f) _
    refine (h i).bind fun _ => ?_
    refine ih.mono fun _ hrest hi j hj => ?_
    cases List.mem_cons.mp hj with
    | inl heq => exact heq ▸ hi
    | inr hmem => exact hrest j hmem

end Ensures

/-! ### Wires and steps -/

theorem ensures_allocate (label : String) : Ensures w (allocate label) fun _ => True := by
  intro d
  exact ⟨List.Subset.refl _, fun _ => trivial⟩

theorem ensures_allocateBlock (label : String) (count : ℕ) :
    Ensures w (allocateBlock label count) fun _ => True := by
  intro d
  exact ⟨List.Subset.refl _, fun _ => trivial⟩

/-- A recorded step holds. -/
theorem ensures_record (step : Step) : Ensures w (record step) fun _ => step.Holds w := by
  intro d
  have hsteps : ((record step).run d).2.steps.toList = d.steps.toList ++ [step] :=
    Array.toList_push
  rw [hsteps]
  refine ⟨List.subset_append_left _ _, fun hd => hd step ?_⟩
  exact List.mem_append_right _ (List.mem_singleton_self step)

/-! ### Products -/

open LinearCombination

variable (hw : w oneWire = 1)

include hw

/-- **The value of a product.**  With a constant factor no step is recorded, as the combination has
the value already. -/
theorem ensures_product (offset x y : LinearCombination) (label : String) :
    Ensures w (product offset x y label) fun z => offset.Sorted → x.Sorted → y.Sorted →
      z.Sorted ∧ z.eval w = offset.eval w + x.eval w * y.eval w := by
  unfold product
  by_cases hx : x.isConstant = true
  · rw [if_pos hx]
    refine Ensures.pure fun hoffset hxs _ => ⟨hoffset.add _, ?_⟩
    rw [eval_add, eval_scale, hxs.eval_of_isConstant hx, hw, mul_one]
  · rw [if_neg hx]
    by_cases hy : y.isConstant = true
    · rw [if_pos hy]
      refine Ensures.pure fun hoffset _ hys => ⟨hoffset.add _, ?_⟩
      rw [eval_add, eval_scale, hys.eval_of_isConstant hy, hw, mul_one, mul_comm]
    · rw [if_neg hy]
      refine (ensures_allocate label).bind fun out => ?_
      refine (ensures_record _).bind fun _ => ?_
      refine Ensures.pure fun hholds _ _ _ _ => ⟨Sorted.var out, ?_⟩
      -- the constraint of the step is `x · y = out - offset`
      have hproduct := hholds ⟨x, y, .var out - offset, label⟩ (List.mem_singleton_self _)
      rw [Constraint.Holds, eval_sub, eval_var] at hproduct
      rw [eval_var, hproduct]
      ring

/-- The value of an exclusive or, as the polynomial that it is on bits. -/
theorem ensures_xor (x y : LinearCombination) (label : String) :
    Ensures w (xor x y label) fun z => x.Sorted → y.Sorted →
      z.Sorted ∧ z.eval w = x.eval w + y.eval w - 2 * x.eval w * y.eval w := by
  unfold xor
  refine (ensures_product hw _ _ _ label).mono fun z h hx hy => ?_
  obtain ⟨hz, heval⟩ := h (hx.add y) (hx.scale _) hy
  refine ⟨hz, ?_⟩
  rw [heval, eval_add, eval_scale]
  ring

end DraftM

end MerkleSnark
