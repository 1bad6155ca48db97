import Mathlib
import MerkleSnark.Groth16.Setup

/-!
# Drawing the secrets

The secrets are the first scalars of a source: four of them in order, then the first one that does
not lie on the domain.  The search for it has no bound, so what is said of it is said by the number
of points that it passes over.

## Main definitions

* `ScalarSource.after`, `ScalarSource.scalar` — the states and the scalars of a source.
* `Secrets.Drawn` — secrets that a source gives, with the number of points that were drawn again.

## Main results

* `run_drawOffDomain` — the first scalar off the domain is found, however far away it is.
* `Secrets.Drawn.run_sample` — what is drawn, and where the source stands then.
-/

namespace MerkleSnark

/-! ### The scalars of a source -/

namespace ScalarSource

variable {σ : Type} [ScalarSource σ]

/-- The state after `k` draws. -/
def after (source : σ) (k : ℕ) : σ := (fun s : σ => (next s).2)^[k] source

/-- The scalar that is drawn after `k` others. -/
def scalar (source : σ) (k : ℕ) : Fr := (next (after source k)).1

theorem after_add (source : σ) (j k : ℕ) : after source (j + k) = after (after source j) k := by
  rw [after, add_comm, Function.iterate_add_apply]
  rfl

/-- A computation that begins with a draw goes on with the next scalar. -/
theorem run_draw_next {α : Type} (s : σ) (f : Fr → StateM σ α) :
    (draw >>= f).run s = (f (next s).1).run (next s).2 := rfl

end ScalarSource

namespace Groth16

open MerkleSnark.Polynomial ScalarSource

variable {σ : Type} [ScalarSource σ] {n : ℕ} {source : σ}

/-! ### Off the domain -/

/-- One round of the search: a point on the domain is drawn again. -/
def redraw (n : ℕ) (_ : Fr) : StateM σ (Fr ⊕ Fr) := do
  let tau ← draw
  if vanishing n tau ≠ 0 then return .inr tau else return .inl tau

theorem drawOffDomain_eq (n : ℕ) :
    (drawOffDomain n : StateM σ Fr) = (draw >>= fun tau =>
      if vanishing n tau = 0 then repeatM (redraw n) tau else pure tau) := by
  unfold drawOffDomain
  refine bind_congr fun tau => ?_
  split
  · change repeatM _ tau >>= pure = _
    rw [bind_pure]
    refine congrArg (repeatM · tau) (funext fun tau => ?_)
    change (draw >>= _) >>= _ = _
    rw [bind_assoc]
    refine bind_congr fun tau => ?_
    split <;> rfl
  · rfl

/-- The search ends with a point off the domain, and goes on behind one on it. -/
theorem run_repeatM_redraw (tau : Fr) :
    (repeatM (redraw n) tau).run source
      = if vanishing n (next source).1 = 0 then
          (repeatM (redraw n) (next source).1).run (next source).2
        else next source := by
  have : Nonempty σ := ⟨source⟩
  rw [repeatM_eq_of_monadTail]
  change ((redraw n tau >>= _).run source) = _
  rw [redraw, bind_assoc, run_draw_next]
  split
  · rfl
  · next h =>
    rw [if_pos (not_not.mp h)]
    rfl

/-- **The first scalar off the domain is found**, however far away it is. -/
theorem run_drawOffDomain {k : ℕ} (hon : ∀ j < k, vanishing n (scalar source j) = 0)
    (hoff : vanishing n (scalar source k) ≠ 0) :
    (drawOffDomain n).run source = (scalar source k, after source (k + 1)) := by
  have hsearch : ∀ (source : σ) (k : ℕ) (tau : Fr),
      (∀ j < k, vanishing n (scalar source j) = 0) → vanishing n (scalar source k) ≠ 0 →
      (repeatM (redraw n) tau).run source = (scalar source k, after source (k + 1)) := by
    intro source k
    induction k generalizing source with
    | zero =>
      intro tau _ hoff
      rw [run_repeatM_redraw]
      exact if_neg hoff
    | succ k ih =>
      intro tau hon hoff
      have hfirst : vanishing n (next source).1 = 0 := hon 0 k.succ_pos
      rw [run_repeatM_redraw, if_pos hfirst]
      exact ih _ _ (fun j hj => hon (j + 1) (Nat.succ_lt_succ hj)) hoff
  rw [drawOffDomain_eq, run_draw_next]
  cases k with
  | zero =>
    have hfirst : vanishing n (next source).1 ≠ 0 := hoff
    rw [if_neg hfirst]
    rfl
  | succ k =>
    have hfirst : vanishing n (next source).1 = 0 := hon 0 k.succ_pos
    rw [if_pos hfirst]
    exact hsearch _ _ _ (fun j hj => hon (j + 1) (Nat.succ_lt_succ hj)) hoff

/-! ### The five secrets -/

/-- The secrets are scalars of a source in their order.  `redraws` points that lay on the domain of
size `n` were drawn again before the evaluation point. -/
structure Secrets.Drawn (n : ℕ) (source : σ) (redraws : ℕ) (s : Secrets) : Prop where
  alpha : s.alpha = scalar source 0
  beta : s.beta = scalar source 1
  gamma : s.gamma = scalar source 2
  delta : s.delta = scalar source 3
  onDomain : ∀ j < redraws, vanishing n (scalar source (4 + j)) = 0
  tau : s.tau = scalar source (4 + redraws)
  offDomain : vanishing n s.tau ≠ 0

/-- **What is drawn**, and where the source stands then. -/
theorem Secrets.Drawn.run_sample {redraws : ℕ} {s : Secrets} (h : s.Drawn n source redraws) :
    (Secrets.sample n).run source = (s, after source (5 + redraws)) := by
  have hscalar (j : ℕ) : scalar (after source 4) j = scalar source (4 + j) := by
    rw [scalar, ← after_add, scalar]
  have hpoint : (drawOffDomain n).run (after source 4)
      = (scalar source (4 + redraws), after source (5 + redraws)) := by
    have hlast : 5 + redraws = 4 + (redraws + 1) := by omega
    rw [hlast, after_add, ← hscalar]
    apply run_drawOffDomain
    · intro j hj
      rw [hscalar]
      exact h.onDomain j hj
    · rw [hscalar, ← h.tau]
      exact h.offDomain
  obtain ⟨alpha, beta, gamma, delta, tau⟩ := s
  obtain ⟨rfl, rfl, rfl, rfl, -, rfl, -⟩ := h
  rw [Secrets.sample, run_draw_next, run_draw_next, run_draw_next, run_draw_next, StateT.run_bind]
  change ((drawOffDomain n).run (after source 4) >>= _) = _
  rw [hpoint]
  rfl

/-- Making keys takes the scalars of the secrets from the source, whether there are keys or not. -/
theorem Secrets.Drawn.generate_eq {P Q : Type} [PointGroup P] [PointGroup Q] {cs : ConstraintSystem}
    {redraws : ℕ} {s : Secrets} (h : s.Drawn (domainSize cs.numConstraints) source redraws)
    (tables : TableCache P Q) :
    generate cs (source, tables)
      = (keysOf? (tables.fetch (tableWindow cs)).1 cs s, after source (5 + redraws),
        (tables.fetch (tableWindow cs)).2) := by
  rw [generate, h.run_sample]

end Groth16

end MerkleSnark
