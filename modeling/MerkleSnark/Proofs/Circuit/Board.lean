import Mathlib
import MerkleSnark.Circuit.Draft
import MerkleSnark.Proofs.Constraint.LinearCombination

/-!
# Runs on a board

The rules by which a computation on a board is taken apart, the computations that do nothing but
give wires values, and those that do nothing but add constraints.

## Main definitions

* `Board.Rewrites` — nothing but the values of some wires changes.
* `BoardM.Emits` — a computation adds a list of constraints and nothing else.

## Main results

* `BoardM.run_bind_ok`, `BoardM.exists_of_run_bind` — runs of two computations in sequence.
* `BoardM.Emits.bind`, `BoardM.Emits.forM` — constraints added one after another.
* `BoardM.run_draft` — what a draft leaves on the board.
-/

namespace MerkleSnark

/-- The value of a wire. -/
def Board.valueAt (board : Board) (i : ℕ) : Fr := board.values.getD i 0

/-- As many wires with the same values. -/
theorem Board.values_ext {board board' : Board} (hsize : board.values.size = board'.values.size)
    (h : ∀ i < board.values.size, board.valueAt i = board'.valueAt i) :
    board.values = board'.values := by
  refine Array.ext hsize fun i hi hi' => ?_
  have hi_eq := h i hi
  rwa [valueAt, valueAt, Array.getD_eq_getD_getElem?, Array.getD_eq_getD_getElem?,
    Array.getElem?_eq_getElem hi, Array.getElem?_eq_getElem hi', Option.getD_some,
    Option.getD_some] at hi_eq

/-- Nothing but the values of the wires in the set changes. -/
structure Board.Rewrites (board board' : Board) (S : Set ℕ) : Prop where
  /-- The names, the constraints and the public wires stay the same. -/
  rest : board' = { board with values := board'.values }
  /-- No wire comes or goes. -/
  size_eq : board'.values.size = board.values.size
  /-- The other wires keep their values. -/
  valueAt_eq : ∀ i ∉ S, board'.valueAt i = board.valueAt i

namespace Board.Rewrites

variable {board board₁ board₂ : Board} {S T : Set ℕ}

theorem refl (board : Board) (S : Set ℕ) : board.Rewrites board S := ⟨rfl, rfl, fun _ _ => rfl⟩

theorem trans (h₁ : board.Rewrites board₁ S) (h₂ : board₁.Rewrites board₂ T) :
    board.Rewrites board₂ (S ∪ T) := by
  refine ⟨?_, h₂.size_eq.trans h₁.size_eq, fun i hi => ?_⟩
  · rw [h₂.rest, h₁.rest]
  · rw [h₂.valueAt_eq i fun h => hi (Or.inr h), h₁.valueAt_eq i fun h => hi (Or.inl h)]

theorem mono (h : board.Rewrites board₁ S) (hS : S ⊆ T) : board.Rewrites board₁ T :=
  ⟨h.rest, h.size_eq, fun i hi => h.valueAt_eq i fun hmem => hi (hS hmem)⟩

end Board.Rewrites

namespace BoardM

variable {α β ι : Type} {board board' : Board}

theorem run_pure (a : α) (board : Board) : (pure a : BoardM α).run board = (.ok a, board) := rfl

theorem run_get (board : Board) : (get : BoardM Board).run board = (.ok board, board) := rfl

/-- A computation goes on where the first half gives a result. -/
theorem run_bind (m : BoardM α) (f : α → BoardM β) (board : Board) :
    (m >>= f).run board = (match m.run board with
      | (.ok a, b) => (f a).run b
      | (.error e, b) => (.error e, b)) := by
  show (match m.run board with
    | (x, b) => ExceptT.bindCont f x b) = _
  rcases m.run board with ⟨e | a, b⟩ <;> rfl

theorem run_bind_ok {m : BoardM α} {a : α} (h : m.run board = (.ok a, board')) (f : α → BoardM β) :
    (m >>= f).run board = (f a).run board' := by
  rw [run_bind, h]

theorem run_bind_error {m : BoardM α} {e : BoardError} (h : m.run board = (.error e, board'))
    (f : α → BoardM β) : (m >>= f).run board = (.error e, board') := by
  rw [run_bind, h]

/-- A run that is seen not to fail gives a result. -/
theorem exists_ok_of_toBool {result : Except BoardError α} (h : result.toBool = true) :
    ∃ a, result = .ok a := by
  cases result with
  | error e => exact absurd h Bool.false_ne_true
  | ok a => exact ⟨a, rfl⟩

/-- Both halves of a run that gives a result give one. -/
theorem exists_of_run_bind {m : BoardM α} {f : α → BoardM β} {b : β}
    (h : (m >>= f).run board = (.ok b, board')) :
    ∃ a middle, m.run board = (.ok a, middle) ∧ (f a).run middle = (.ok b, board') := by
  rcases hm : m.run board with ⟨e | a, middle⟩
  · rw [run_bind_error hm] at h
    exact absurd h nofun
  · rw [run_bind_ok hm] at h
    exact ⟨a, middle, rfl, h⟩

/-- More inputs than there are wires are refused. -/
theorem run_setInputSize (size : ℕ) (board : Board) :
    (setInputSize size).run board
      = if size > board.numVariables then
          (.error (.tooManyInputs size board.numVariables), board)
        else (.ok (), { board with primarySize := size }) := by
  show (if size > board.numVariables then _ else _ : BoardM Unit).run board = _
  split <;> rfl

theorem run_setInputSize_ok {size : ℕ} (h : size < board.values.size) :
    (setInputSize size).run board = (.ok (), { board with primarySize := size }) := by
  rw [run_setInputSize, if_neg]
  unfold Board.numVariables
  omega

theorem primarySize_of_run_setInputSize {size : ℕ} {u : Unit}
    (h : (setInputSize size).run board = (.ok u, board')) : board'.primarySize = size := by
  rw [run_setInputSize] at h
  split at h
  · exact absurd h nofun
  · obtain ⟨-, rfl⟩ := Prod.mk.inj h
    rfl

/-! ### Reading and writing wires -/

/-- Neither the constant wire nor one that is not there is written. -/
theorem run_setWire_eq (i : ℕ) (x : Fr) (board : Board) :
    (setWire i x).run board
      = if i = oneWire then (.error .constantWire, board)
        else if board.values.size ≤ i then (.error .missingWire, board)
        else (.ok (), { board with values := board.values.set! i x }) := by
  show (if i = oneWire then _ else _ : BoardM Unit).run board = _
  split
  · rfl
  · show (if board.values.size ≤ i then _ else _ : BoardM Unit).run board = _
    split <;> rfl

theorem run_setWire {i : ℕ} (hone : i ≠ oneWire) (hi : i < board.values.size) (x : Fr) :
    ∃ board', (setWire i x).run board = (.ok (), board') ∧ board.Rewrites board' {i} ∧
      board'.valueAt i = x := by
  refine ⟨{ board with values := board.values.set! i x }, ?_, ⟨rfl, ?_, fun j hj => ?_⟩, ?_⟩
  · rw [run_setWire_eq, if_neg hone, if_neg (not_le.mpr hi)]
  · simp
  · have hne : i ≠ j := fun h => hj (Set.mem_singleton_iff.mpr h.symm)
    simp [Board.valueAt, Array.getD_eq_getD_getElem?, Array.getElem?_setIfInBounds_ne hne]
  · simp [Board.valueAt, Array.getD_eq_getD_getElem?, Array.getElem?_setIfInBounds_self_of_lt hi]

theorem run_eval {x : LinearCombination} (hx : x.Within {i | i < board.values.size}) :
    (eval x).run board = (.ok (x.eval board.valueAt), board) := by
  have hvalue : x.evalAt? board.values = some (x.eval board.valueAt) := by
    unfold LinearCombination.evalAt?
    rw [if_pos (LinearCombination.boundedBy_iff.mpr hx)]
    rfl
  unfold eval
  rw [run_bind_ok (run_get board)]
  simp only [hvalue]
  rfl

/-! ### Computations that add constraints -/

/-- The computation adds the constraints and does nothing else. -/
def Emits (m : BoardM PUnit) (ks : List Constraint) : Prop :=
  ∀ board : Board, m.run board
    = (.ok PUnit.unit, { board with constraints := board.constraints ++ ks.toArray })

theorem emits_pure : Emits (pure PUnit.unit) [] := by
  intro board
  rw [run_pure]
  simp

theorem emits_addConstraint (k : Constraint) : Emits (addConstraint k) [k] := by
  intro board
  show (_, ({ board with constraints := board.constraints.push k } : Board)) = _
  rw [Array.push_eq_append]

namespace Emits

theorem bind {m n : BoardM PUnit} {ks ls : List Constraint} (hm : Emits m ks) (hn : Emits n ls) :
    Emits (m >>= fun _ => n) (ks ++ ls) := by
  intro board
  rw [run_bind_ok (hm board), hn]
  simp [Array.append_assoc]

theorem forM {f : ι → BoardM PUnit} {g : ι → List Constraint} {l : List ι}
    (h : ∀ i ∈ l, Emits (f i) (g i)) : Emits (l.forM f) (l.flatMap g) := by
  induction l with
  | nil => exact emits_pure
  | cons i l ih =>
    show Emits (f i >>= fun _ => l.forM f) (g i ++ l.flatMap g)
    exact (h i List.mem_cons_self).bind (ih fun j hj => h j (List.mem_cons_of_mem i hj))

/-- There is only one list of constraints that a computation adds. -/
theorem unique {m : BoardM PUnit} {ks ls : List Constraint} (hk : Emits m ks) (hl : Emits m ls) :
    ks = ls := by
  have hrun := (hk Board.empty).symm.trans (hl Board.empty)
  have hconstraints := congrArg (fun p => p.2.constraints.toList) hrun
  simpa [Board.empty] using hconstraints

end Emits

theorem emits_forM_addConstraint (ks : List Constraint) : Emits (ks.forM addConstraint) ks := by
  have h := Emits.forM (l := ks) fun k _ => emits_addConstraint k
  rwa [List.flatMap_singleton'] at h

/-! ### Drafts -/

/-- A draft that cannot fail gives its steps, and puts its wires behind the others. -/
theorem run_draft (m : DraftM α) (f : List Step → β) (board : Board) :
    ∃ labels,
      (draft (liftM m : ExceptT BoardError DraftM α) >>= fun p => return f p.2).run board
        = (.ok (f (m.run { next := board.values.size }).2.steps.toList),
          { board with
            values := board.values ++ Array.replicate
              (m.run { next := board.values.size }).2.labels.size (0 : Fr)
            labels := labels }) :=
  ⟨_, rfl⟩

end BoardM

end MerkleSnark
