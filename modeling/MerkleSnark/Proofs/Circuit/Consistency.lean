import Mathlib
import MerkleSnark.Proofs.Circuit.Complete

/-!
# Boards stay consistent

Wires are allocated and written, inputs are declared and constraints are added in any order, and a
call that is refused leaves the board as it was.  After every run of such calls the board still
offers the same wire values to its own check and to the proof system.

## Main definitions

* `Board.Call` — one call; `Board.Call.perform` carries it out.
* `Board.Call.Refuses`, `Board.Call.Changes` — the calls that are refused, and everything that the
  others do.
* `Board.Sound` — the constant wire carries one, the public wires are there, and the constraints
  mention wires that are there.
* `Board.after`, `Board.Admits` — a run of calls whose constraints are over allocated wires.
* `Board.Consistent` — the views of the wire values agree.

## Main results

* `Board.Call.perform_cases` — a call changes the board as it should or not at all.
* `Board.Sound.step`, `Board.Sound.after` — one call keeps the board sound, and so does a run.
* `Board.Sound.consistent` — a sound board is consistent.
* `Board.run_consistent` — what holds after every run.
-/

namespace MerkleSnark.Board

/-! ### Calls -/

/-- A call of the board. -/
inductive Call
  /-- One wire is allocated. -/
  | allocate (label : String)
  /-- Consecutive wires are allocated. -/
  | allocateBlock (label : String) (count : ℕ)
  /-- The first wires are declared to be public. -/
  | setInputSize (size : ℕ)
  /-- A wire is written. -/
  | setWire (i : ℕ) (x : ScalarInput)
  /-- A constraint is added. -/
  | addConstraint (k : Constraint)

namespace Call

/-- Carries a call out, and gives the wires that it allocates. -/
def perform : Call → BoardM (List ℕ)
  | allocate label => return [← BoardM.allocate label]
  | allocateBlock label count => return List.range' (← BoardM.allocateBlock label count) count
  | setInputSize size => do BoardM.setInputSize size; return []
  | setWire i x => do BoardM.setWire i x.toFr; return []
  | addConstraint k => do BoardM.addConstraint k; return []

/-- The constraint that a call adds. -/
def constraint? : Call → Option Constraint
  | addConstraint k => some k
  | _ => none

/-- The calls that are refused, and why. -/
inductive Refuses (board : Board) : Call → BoardError → Prop
  | tooManyInputs {size : ℕ} (h : board.numVariables < size) :
    Refuses board (.setInputSize size) (.tooManyInputs size board.numVariables)
  | constantWire (x : ScalarInput) : Refuses board (.setWire oneWire x) .constantWire
  | missingWire {i : ℕ} (h : board.values.size ≤ i) (x : ScalarInput) :
    Refuses board (.setWire i x) .missingWire

/-- Everything that a call changes when it is not refused, and the wires that it gives. -/
inductive Changes (board : Board) : Call → List ℕ → Board → Prop
  | allocate {label : String} {board' : Board} (h : board.Allocates board')
    (hsize : board'.values.size = board.values.size + 1)
    (hzero : ∀ i ≥ board.values.size, board'.valueAt i = 0) :
    Changes board (.allocate label) [board.values.size] board'
  | allocateBlock {label : String} {count : ℕ} {board' : Board} (h : board.Allocates board')
    (hsize : board'.values.size = board.values.size + count)
    (hzero : ∀ i ≥ board.values.size, board'.valueAt i = 0) :
    Changes board (.allocateBlock label count) (List.range' board.values.size count) board'
  | setInputSize {size : ℕ} (h : size ≤ board.numVariables) :
    Changes board (.setInputSize size) [] { board with primarySize := size }
  | setWire {i : ℕ} {x : ScalarInput} {board' : Board} (hone : i ≠ oneWire)
    (hi : i < board.values.size) (h : board.Rewrites board' {i})
    (hvalue : board'.valueAt i = x.toFr) : Changes board (.setWire i x) [] board'
  | addConstraint (k : Constraint) :
    Changes board (.addConstraint k) [] { board with constraints := board.constraints.push k }

/-- Wires are put behind the others, and carry zero. -/
theorem allocates_replicate (board : Board) (count : ℕ) (labels : Array String) :
    let board' := { board with
      values := board.values ++ Array.replicate count (0 : Fr), labels := labels }
    board.Allocates board' ∧ board'.values.size = board.values.size + count
      ∧ ∀ i ≥ board.values.size, board'.valueAt i = 0 := by
  refine ⟨.of_append board _ _, ?_, fun i hi => ?_⟩
  · rw [Array.size_append, Array.size_replicate]
  · rw [valueAt, Array.getD_eq_getD_getElem?, Array.getElem?_append_right hi,
      Array.getElem?_replicate]
    split <;> rfl

/-- **A call changes the board as it should or not at all.** -/
theorem perform_cases (board : Board) (c : Call) :
    (∃ e, c.Refuses board e ∧ c.perform.run board = (.error e, board))
      ∨ ∃ wires board', c.perform.run board = (.ok wires, board')
        ∧ Changes board c wires board' := by
  cases c with
  | allocate label =>
    -- one wire is a block of one
    obtain ⟨hallocates, hsize, hzero⟩ := allocates_replicate board 1 (board.labels.push label)
    refine Or.inr ⟨_, _, ?_, .allocate hallocates hsize hzero⟩
    rw [show Array.replicate 1 (0 : Fr) = #[0] from rfl, ← Array.push_eq_append]
    rfl
  | allocateBlock label count =>
    obtain ⟨hallocates, hsize, hzero⟩ := allocates_replicate board count _
    exact Or.inr ⟨_, _, rfl, .allocateBlock hallocates hsize hzero⟩
  | setInputSize size =>
    by_cases hmany : size > board.numVariables
    · exact Or.inl ⟨_, .tooManyInputs hmany,
        BoardM.run_bind_error (by rw [BoardM.run_setInputSize, if_pos hmany]) _⟩
    · exact Or.inr ⟨[], _, BoardM.run_bind_ok (by rw [BoardM.run_setInputSize, if_neg hmany]) _,
        .setInputSize (not_lt.mp hmany)⟩
  | setWire i x =>
    by_cases hone : i = oneWire
    · subst hone
      exact Or.inl ⟨_, .constantWire x,
        BoardM.run_bind_error (by rw [BoardM.run_setWire_eq, if_pos rfl]) _⟩
    by_cases hi : i < board.values.size
    · obtain ⟨board', hrun, hrewrites, hvalue⟩ := BoardM.run_setWire hone hi x.toFr
      exact Or.inr ⟨[], board', BoardM.run_bind_ok hrun _, .setWire hone hi hrewrites hvalue⟩
    · exact Or.inl ⟨_, .missingWire (not_lt.mp hi) x, BoardM.run_bind_error
        (by rw [BoardM.run_setWire_eq, if_neg hone, if_pos (not_lt.mp hi)]) _⟩
  | addConstraint k => exact Or.inr ⟨[], _, rfl, .addConstraint k⟩

end Call

/-- What holds of a board at any time. -/
structure Sound (board : Board) : Prop extends board.Ready where
  bounded : ∀ k ∈ board.constraints, k.boundedBy board.values.size = true

variable {board board' : Board} {c : Call} {wires : List ℕ}

theorem sound_empty : empty.Sound :=
  ⟨⟨rfl, Nat.zero_lt_one⟩, fun k hk => absurd hk (Array.not_mem_empty k)⟩

/-! ### One call -/

namespace Call

/-- A constraint that is added mentions wires that are there. -/
def Fits (board : Board) : Call → Prop
  | addConstraint k => k.boundedBy board.values.size = true
  | _ => True

instance (board : Board) : DecidablePred (Fits board)
  | allocate _ | allocateBlock _ _ | setInputSize _ | setWire _ _ => .isTrue trivial
  | addConstraint k => inferInstanceAs (Decidable (k.boundedBy board.values.size = true))

namespace Changes

/-- No wire goes. -/
theorem size_le (h : Changes board c wires board') : board.values.size ≤ board'.values.size := by
  cases h with
  | allocate h => exact h.size_le
  | allocateBlock h => exact h.size_le
  | setInputSize => exact le_refl _
  | setWire _ _ h => exact h.size_eq.ge
  | addConstraint => exact le_refl _

/-- The wires that a call gives are new, and they are there. -/
theorem wires_new (h : Changes board c wires board') :
    ∀ i ∈ wires, board.values.size ≤ i ∧ i < board'.values.size := by
  intro i hi
  cases h with
  | allocate _ hsize =>
    obtain rfl := List.mem_singleton.mp hi
    omega
  | allocateBlock _ hsize =>
    have := List.mem_range'_1.mp hi
    omega
  | setInputSize | setWire | addConstraint => exact absurd hi List.not_mem_nil

/-- A call adds no constraint but its own. -/
theorem constraints_eq (h : Changes board c wires board') :
    board'.constraints.toList = board.constraints.toList ++ c.constraint?.toList := by
  cases h with
  | allocate h => rw [h.rest]; exact (List.append_nil _).symm
  | allocateBlock h => rw [h.rest]; exact (List.append_nil _).symm
  | setInputSize => exact (List.append_nil _).symm
  | setWire _ _ h => rw [h.rest]; exact (List.append_nil _).symm
  | addConstraint k => exact Array.toList_push

/-- The constant wire keeps carrying one, and the public wires are there. -/
theorem ready (hboard : board.Ready) (h : Changes board c wires board') : board'.Ready := by
  obtain ⟨hone, hprimary⟩ := hboard
  have hpos : oneWire < board.values.size := (Nat.zero_le _).trans_lt hprimary
  have hallocates : board.Allocates board' → board'.Ready := fun h =>
    ⟨(h.valueAt_eq oneWire hpos).trans hone, by
      rw [h.rest]; exact hprimary.trans_le h.size_le⟩
  cases h with
  | allocate h => exact hallocates h
  | allocateBlock h => exact hallocates h
  | setInputSize hsize => exact ⟨hone, (Nat.lt_succ_of_le hsize).trans_eq (Nat.sub_add_cancel hpos)⟩
  | setWire hi _ h =>
    refine ⟨(h.valueAt_eq oneWire fun hmem => hi (Set.mem_singleton_iff.mp hmem).symm).trans hone, ?_⟩
    rw [h.size_eq, h.rest]
    exact hprimary
  | addConstraint => exact ⟨hone, hprimary⟩

/-- **One call keeps a board sound.** -/
theorem sound (hboard : board.Sound) (hfits : c.Fits board) (h : Changes board c wires board') :
    board'.Sound := by
  refine ⟨h.ready hboard.toReady, fun k hk => ?_⟩
  have hthere : k.boundedBy board.values.size = true := by
    rw [← Array.mem_toList_iff, h.constraints_eq, List.mem_append] at hk
    rcases hk with hk | hk
    · exact hboard.bounded k (Array.mem_toList_iff.mp hk)
    · cases h with
      | addConstraint l => obtain rfl := List.mem_singleton.mp hk; exact hfits
      | _ => exact absurd hk List.not_mem_nil
  exact Constraint.boundedBy_iff.mpr ((Constraint.boundedBy_iff.mp hthere).mono
    fun i (hi : i < board.values.size) => hi.trans_le h.size_le)

end Changes

end Call

/-- The board after a call, whether it is refused or not. -/
def step (board : Board) (c : Call) : Board := (c.perform.run board).2

/-- **One call keeps a board sound**, loses no wire and adds no constraint but its own. -/
theorem Sound.step (h : board.Sound) (hfits : c.Fits board) :
    (board.step c).Sound ∧ board.values.size ≤ (board.step c).values.size
      ∧ (board.step c).constraints.toList = board.constraints.toList ++ c.constraint?.toList := by
  unfold Board.step
  rcases c.perform_cases board with ⟨e, hrefuses, hrun⟩ | ⟨wires, board', hrun, hchanges⟩
  · have hnone : c.constraint? = none := by cases hrefuses <;> rfl
    rw [hrun, hnone]
    exact ⟨h, le_refl _, (List.append_nil _).symm⟩
  · rw [hrun]
    exact ⟨hchanges.sound h hfits, hchanges.size_le, hchanges.constraints_eq⟩

/-! ### Runs -/

/-- The board after some calls; after one that is refused, the next one is carried out. -/
def after (board : Board) (calls : List Call) : Board := calls.foldl step board

/-- Every constraint that is added mentions wires that are there at that time. -/
def Admits (board : Board) : List Call → Prop
  | [] => True
  | c :: calls => c.Fits board ∧ (board.step c).Admits calls

instance decidableAdmits (board : Board) : (calls : List Call) → Decidable (board.Admits calls)
  | [] => .isTrue trivial
  | c :: calls =>
    have := decidableAdmits (board.step c) calls
    inferInstanceAs (Decidable (c.Fits board ∧ (board.step c).Admits calls))

variable {calls later : List Call}

theorem after_append (board : Board) (calls later : List Call) :
    board.after (calls ++ later) = (board.after calls).after later := List.foldl_append

theorem admits_append :
    board.Admits (calls ++ later) ↔ board.Admits calls ∧ (board.after calls).Admits later := by
  induction calls generalizing board with
  | nil => exact (and_iff_right trivial).symm
  | cons c calls ih => exact (and_congr_right fun _ => ih).trans and_assoc.symm

/-- **A run keeps a board sound**, loses no wire and adds no constraint but those of its calls. -/
theorem Sound.after (h : board.Sound) (hcalls : board.Admits calls) :
    (board.after calls).Sound ∧ board.values.size ≤ (board.after calls).values.size
      ∧ (board.after calls).constraints.toList
        = board.constraints.toList ++ calls.filterMap Call.constraint? := by
  induction calls generalizing board with
  | nil => exact ⟨h, le_refl _, (List.append_nil _).symm⟩
  | cons c calls ih =>
    obtain ⟨hstep, hle, hadded⟩ := h.step hcalls.1
    obtain ⟨hafter, hle', hadded'⟩ := ih hstep hcalls.2
    refine ⟨hafter, hle.trans hle', hadded'.trans ?_⟩
    rw [hadded, List.append_assoc, List.filterMap_cons]
    cases c.constraint? <;> rfl

/-! ### The views of the wire values -/

/-- All views of a board show the same values and agree about the constraints. -/
structure Consistent (board : Board) : Prop where
  /-- The constant wire carries one. -/
  one_eq : board.valueAt oneWire = 1
  /-- A wire that is there is read, and so is a combination in a constraint. -/
  run_wire : ∀ i < board.values.size,
    (BoardM.wire i).run board = (.ok (board.valueAt i), board)
  run_eval : ∀ k ∈ board.constraints, ∀ x ∈ [k.a, k.b, k.c],
    (BoardM.eval x).run board = (.ok (x.eval board.valueAt), board)
  /-- The two input lists hold everything behind the constant wire. -/
  inputs_eq : board.primaryInput ++ board.auxiliaryInput = board.values.toList.tail
  /-- The proof system takes the input lists for the wire values. -/
  assignment_eq : board.system.assignment? board.primaryInput board.auxiliaryInput
    = .ok board.values
  /-- Nothing is reported just when all constraints hold. -/
  firstUnsatisfied_eq_none_iff : board.firstUnsatisfied? = .ok none
    ↔ ∀ k ∈ board.constraints, k.Holds board.valueAt
  /-- The first constraint that fails is reported by its name, or by its number without one. -/
  firstUnsatisfied_eq_some : ∀ i (hi : i < board.constraints.size),
    ¬ board.constraints[i].Holds board.valueAt →
    (∀ j (hj : j < i), board.constraints[j].Holds board.valueAt) →
    board.firstUnsatisfied? = .ok (some (if board.constraints[i].label = "" then
      s!"constraint #{i}" else board.constraints[i].label))

theorem Sound.wellFormed (h : board.Sound) : board.system.WellFormed := fun k hk => by
  rw [h.numVariables_eq]
  exact h.bounded k (Array.mem_toList_iff.mp hk)

/-- **A sound board is consistent.** -/
theorem Sound.consistent (h : board.Sound) : board.Consistent where
  one_eq := h.one_eq
  run_wire i hi := BoardM.run_wire hi
  run_eval k hk x hx := by
    have hwithin := Constraint.boundedBy_iff.mp (h.bounded k hk)
    refine BoardM.run_eval ?_
    rcases List.mem_cons.mp hx with rfl | hx
    · exact hwithin.1
    rcases List.mem_pair.mp hx with rfl | rfl
    · exact hwithin.2.1
    · exact hwithin.2.2
  inputs_eq := congrArg List.tail h.toList_values
  assignment_eq := h.assignment?_eq
  firstUnsatisfied_eq_none_iff := by
    rw [h.firstUnsatisfied?_eq h.wellFormed, Except.ok.injEq, Option.map_eq_none_iff,
      List.findIdx?_eq_none_iff]
    simp only [Bool.not_eq_false', decide_eq_true_eq, Array.mem_toList_iff]
  firstUnsatisfied_eq_some i hi hfails hbefore := by
    have hfirst : board.constraints.toList.findIdx? (fun k => !decide (k.Holds board.valueAt))
        = some i := by
      refine List.findIdx?_eq_some_iff_getElem.mpr ⟨hi, ?_, fun j hj => ?_⟩
      · simpa using hfails
      · simpa using hbefore j hj
    rw [h.firstUnsatisfied?_eq h.wellFormed, hfirst, Option.map_some, constraintName,
      Array.getD_eq_getD_getElem?, Array.getElem?_eq_getElem hi, Option.getD_some]
    simp only [String.isEmpty_iff]

/-- **Whatever is called, the views of a board agree.**  Wires are allocated and written, inputs are
declared and constraints are added in any order, and some of the calls may be refused.  Then the
board is consistent, it has the constraints that were added, and every wire that was there at any
time is there.  At every time a call was refused and changed nothing, or it did what it should, and
the wires that it gave were new. -/
theorem run_consistent {calls : List Call} (hcalls : empty.Admits calls) :
    (empty.after calls).Consistent
      ∧ (empty.after calls).constraints.toList = calls.filterMap Call.constraint?
      ∧ ∀ earlier c later, calls = earlier ++ c :: later →
        (empty.after earlier).Consistent
          ∧ (∀ i < (empty.after earlier).values.size, (BoardM.wire i).run (empty.after calls)
            = (.ok ((empty.after calls).valueAt i), empty.after calls))
          ∧ ((∃ e, c.Refuses (empty.after earlier) e
              ∧ c.perform.run (empty.after earlier) = (.error e, empty.after earlier))
            ∨ ∃ wires next, c.perform.run (empty.after earlier) = (.ok wires, next)
              ∧ Call.Changes (empty.after earlier) c wires next
              ∧ ∀ i ∈ wires, (empty.after earlier).values.size ≤ i
                ∧ (BoardM.wire i).run (empty.after calls)
                  = (.ok ((empty.after calls).valueAt i), empty.after calls)) := by
  obtain ⟨hsound, -, hconstraints⟩ := sound_empty.after hcalls
  refine ⟨hsound.consistent, hconstraints, ?_⟩
  rintro earlier c later rfl
  obtain ⟨hearlier, hfits, hlater⟩ := admits_append.mp hcalls
  obtain ⟨hbefore, -, -⟩ := sound_empty.after hearlier
  obtain ⟨hstep, hgrown, -⟩ := hbefore.step hfits
  have hkept : ((empty.after earlier).step c).values.size
      ≤ (empty.after (earlier ++ c :: later)).values.size := by
    rw [after_append]
    exact (hstep.after hlater).2.1
  refine ⟨hbefore.consistent, fun i hi => BoardM.run_wire (hi.trans_le (hgrown.trans hkept)), ?_⟩
  refine (c.perform_cases _).imp_right ?_
  rintro ⟨wires, next, hrun, hchanges⟩
  refine ⟨wires, next, hrun, hchanges, fun i hi => ?_⟩
  obtain ⟨hnew, hthere⟩ := hchanges.wires_new i hi
  have hnext : (empty.after earlier).step c = next := congrArg Prod.snd hrun
  exact ⟨hnew, BoardM.run_wire (hthere.trans_le (hnext ▸ hkept))⟩

/-- A square, with a root that is changed after the square was checked.  Too many inputs, the
constant wire and a wire that is not there are refused in between. -/
def tamperedSquare : List Call :=
  [.allocateBlock "x" 2, .setInputSize 3, .setWire 1 (.integer 3), .setWire oneWire (.integer 7),
    .setWire 2 (.integer 9), .addConstraint ⟨.var 1, .var 1, .var 2, ""⟩, .setInputSize 1,
    .setWire 5 (.integer 1), .addConstraint ⟨.var 1, 0, 0, "zero"⟩, .setWire 1 (.integer (-4)),
    .setInputSize 2]

/-- The board after the tampering agrees with itself, and the square is reported by its number. -/
theorem run_consistent_tamperedSquare :
    empty.Admits tamperedSquare ∧ (empty.after tamperedSquare).Consistent
      ∧ (empty.after tamperedSquare).firstUnsatisfied? = .ok (some "constraint #0") := by
  have hadmits : empty.Admits tamperedSquare := by decide
  obtain ⟨hconsistent, -⟩ := run_consistent hadmits
  exact ⟨hadmits, hconsistent,
    hconsistent.firstUnsatisfied_eq_some 0 (by decide) (by decide) fun j hj => absurd hj (by simp)⟩

end MerkleSnark.Board
