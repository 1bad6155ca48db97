import Mathlib
import MerkleSnark.Proofs.Circuit.Bit
import MerkleSnark.Proofs.Circuit.Board

/-!
# Carrying out steps

A step that reads known wires and writes other ones changes nothing that was computed before it, and
it meets its own constraints: a product always does, digits do when there are enough of them.  A
list of such steps, each with what the earlier ones wrote among its known wires, meets all its
constraints at once.  No other values of the wires that are written meet them, provided that no digits
spell a number as large as the order of the field.

## Main definitions

* `Step.Fits`, `Step.Short` — there are enough digits for the total, but not too many.
* `Step.Next` — a step reads known wires and writes others.
* `Given` — the wires that have their values beforehand, and what these values satisfy.
* `Given.Computable` — steps that can be carried out one after another.

## Main results

* `Step.run_assign`, `Given.Computable.run` — one step, and all steps.
* `Step.eq_of_holds`, `Given.Computable.eq_of_holds` — the wires that they write have no other
  values.
-/

namespace MerkleSnark

open LinearCombination

namespace Step

variable {s : Step} {K : Set ℕ} {w v : ℕ → Fr} {board : Board}

/-- The wires that a step determines. -/
def writes : Step → List ℕ
  | product out _ _ _ _ => [out]
  | digits _ bits _ => bits

/-- The step looks at wires of the set only. -/
def Reads : Step → Set ℕ → Prop
  | product _ offset x y _, K => offset.Within K ∧ x.Within K ∧ y.Within K
  | digits total _ _, K => total.Within K

/-- There are enough digits for the total. -/
def Fits : Step → (ℕ → Fr) → Prop
  | product _ _ _ _ _, _ => True
  | digits total bits _, w => (total.eval w).val < 2 ^ bits.length

/-- The digits do not spell two numbers of the same class. -/
def Short : Step → Prop
  | product _ _ _ _ _ => True
  | digits _ bits _ => 2 ^ bits.length ≤ scalarOrder

/-- The step reads known wires and writes others, each of them once. -/
structure Next (K : Set ℕ) (s : Step) : Prop where
  /-- What it reads is known. -/
  reads : s.Reads K
  /-- No wire is written twice. -/
  nodup : s.writes.Nodup
  /-- No known wire is written. -/
  fresh : ∀ i ∈ s.writes, i ∉ K
  /-- There are not too many digits. -/
  short : s.Short

theorem Reads.mono {L : Set ℕ} (h : s.Reads K) (hsub : K ⊆ L) : s.Reads L := by
  cases s with
  | product out offset x y label =>
    obtain ⟨hoffset, hx, hy⟩ := h
    exact ⟨hoffset.mono hsub, hx.mono hsub, hy.mono hsub⟩
  | digits total bits label => exact LinearCombination.Within.mono h hsub

/-! ### What a step asks for -/

theorem holds_product_iff {out : ℕ} {offset x y : LinearCombination} {label : String} :
    (product out offset x y label).Holds w ↔ w out = offset.eval w + x.eval w * y.eval w := by
  have hiff : (product out offset x y label).Holds w
      ↔ x.eval w * y.eval w = w out - offset.eval w := by
    refine ⟨fun h => ?_, fun h k hk => ?_⟩
    · have hk := h _ (List.mem_singleton_self _)
      rwa [Constraint.Holds, eval_sub, eval_var] at hk
    · rw [List.mem_singleton.mp hk, Constraint.Holds, eval_sub, eval_var, h]
  rw [hiff, eq_sub_iff_add_eq, eq_comm, add_comm]

/-- Nothing but the wires that a step reads and writes counts for its constraints. -/
theorem Holds.congr (h : s.Holds w) (hone : w oneWire = 1) (hone' : v oneWire = 1)
    (hreads : s.Reads K) (hwrites : ∀ i ∈ s.writes, i ∈ K) (hwv : ∀ i ∈ K, v i = w i) :
    s.Holds v := by
  cases s with
  | product out offset x y label =>
    obtain ⟨hoffset, hx, hy⟩ := hreads
    rw [holds_product_iff] at h ⊢
    rw [hwv out (hwrites out (List.mem_singleton_self out)), hoffset.eval_eq hwv, hx.eval_eq hwv,
      hy.eval_eq hwv, h]
  | digits total bits label =>
    obtain ⟨hsum, hbits⟩ := (holds_digits_iff hone).mp h
    refine (holds_digits_iff hone').mpr ⟨?_, fun i hi => ?_⟩
    · rw [Within.eval_eq hreads hwv, hsum]
      refine congrArg List.sum (List.map_congr_left fun p hp => ?_)
      rw [hwv p.1 (hwrites p.1 (List.fst_mem_of_mem_zipIdx hp))]
    · rw [hwv i (hwrites i hi)]
      exact hbits i hi

/-- **What a step writes is determined** by what it reads. -/
theorem eq_of_holds (h : s.Holds w) (h' : s.Holds v) (hone : w oneWire = 1) (hone' : v oneWire = 1)
    (hreads : s.Reads K) (hshort : s.Short) (hwv : ∀ i ∈ K, v i = w i) :
    ∀ i ∈ s.writes, v i = w i := by
  intro i hi
  cases s with
  | product out offset x y label =>
    obtain ⟨hoffset, hx, hy⟩ := hreads
    rw [holds_product_iff] at h h'
    rw [List.mem_singleton.mp hi, h, h', hoffset.eval_eq hwv, hx.eval_eq hwv, hy.eval_eq hwv]
  | digits total bits label =>
    obtain ⟨n, hn, htotal, hdigits⟩ := exists_digits hone h
    obtain ⟨m, hm, htotal', hdigits'⟩ := exists_digits hone' h'
    -- both numbers are below the order of the field, and they have the same class
    rw [Within.eval_eq hreads hwv, htotal, Residue.natCast_eq_natCast_iff,
      Nat.mod_eq_of_lt (hn.trans_le hshort), Nat.mod_eq_of_lt (hm.trans_le hshort)] at htotal'
    obtain ⟨k, hk⟩ := List.mem_iff_getElem?.mp hi
    rw [hdigits k i hk, hdigits' k i hk, htotal']

/-! ### Carrying out one step -/

theorem run_assignDigits {wires : List ℕ} (n : ℕ) (hnodup : wires.Nodup)
    (hwires : ∀ i ∈ wires, i ≠ oneWire ∧ i < board.values.size) :
    ∃ board', (assignDigits n wires).run board = (.ok (), board') ∧
      board.Rewrites board' {i | i ∈ wires} ∧
      wires.map board'.valueAt
        = ((List.range wires.length).map n.testBit).map bitScalar := by
  induction wires generalizing n board with
  | nil => exact ⟨board, rfl, .refl _ _, rfl⟩
  | cons i wires ih =>
    obtain ⟨hfresh, hnodup⟩ := List.nodup_cons.mp hnodup
    obtain ⟨hone, hsize⟩ := hwires i List.mem_cons_self
    obtain ⟨middle, hset, hmiddle, hvalue⟩ :=
      BoardM.run_setWire hone hsize (.ofNat scalarOrder (n % 2))
    obtain ⟨last, hrun, hlast, hvalues⟩ := @ih middle (n / 2) hnodup fun j hj => by
      rw [hmiddle.size_eq]
      exact hwires j (List.mem_cons_of_mem i hj)
    refine ⟨last, ?_, (hmiddle.trans hlast).mono ?_, ?_⟩
    · show (BoardM.setWire i (.ofNat scalarOrder (n % 2)) >>= fun _ =>
        assignDigits (n / 2) wires).run board = _
      rw [BoardM.run_bind_ok hset, hrun]
    · rintro j (hj | hj)
      · exact List.mem_cons.mpr (Or.inl hj)
      · exact List.mem_cons_of_mem i hj
    · -- the other wires come later and leave the first digit alone
      have hfirst : last.valueAt i = bitScalar (n.testBit 0) := by
        rw [hlast.valueAt_eq i hfresh, hvalue, Nat.testBit_zero]
        rcases Nat.mod_two_eq_zero_or_one n with h | h <;> rw [h] <;> rfl
      rw [List.map_cons, List.length_cons, List.range_succ_eq_map, List.map_cons, List.map_cons,
        hfirst, hvalues, List.map_map (f := Nat.succ)]
      refine congrArg (_ :: List.map bitScalar ·) (List.map_congr_left fun k _ => ?_)
      exact (Nat.testBit_succ n k).symm

/-- **One step.**  It changes nothing but the wires that it writes, and then its constraints
hold. -/
theorem run_assign (hnext : s.Next K) (hK : oneWire ∈ K) (hone : board.valueAt oneWire = 1)
    (hknown : ∀ i ∈ K, i < board.values.size) (hwrites : ∀ i ∈ s.writes, i < board.values.size)
    (hfits : s.Fits board.valueAt) :
    ∃ board', s.assign.run board = (.ok (), board') ∧
      board.Rewrites board' {i | i ∈ s.writes} ∧ s.Holds board'.valueAt := by
  -- what is known is on the board, and it is not overwritten
  have hne : ∀ i ∈ s.writes, i ≠ oneWire := fun i hi h => hnext.fresh i hi (h ▸ hK)
  have hkeep : ∀ {board'}, board.Rewrites board' {i | i ∈ s.writes} →
      ∀ i ∈ K, board'.valueAt i = board.valueAt i :=
    fun h i hi => h.valueAt_eq i fun hmem => hnext.fresh i hmem hi
  cases s with
  | product out offset x y label =>
    obtain ⟨hoffset, hx, hy⟩ := hnext.reads
    obtain ⟨board', hset, hboard', hvalue⟩ :=
      BoardM.run_setWire (hne out (List.mem_singleton_self out))
        (hwrites out (List.mem_singleton_self out))
        (offset.eval board.valueAt + x.eval board.valueAt * y.eval board.valueAt)
    have hrewrites : board.Rewrites board' {i | i ∈ (product out offset x y label).writes} :=
      hboard'.mono fun i hi => List.mem_singleton.mpr hi
    refine ⟨board', ?_, hrewrites, ?_⟩
    · show (BoardM.eval offset >>= fun a => BoardM.eval x >>= fun b => BoardM.eval y >>= fun c =>
        BoardM.setWire out (a + b * c)).run board = _
      rw [BoardM.run_bind_ok (BoardM.run_eval (hoffset.mono hknown)),
        BoardM.run_bind_ok (BoardM.run_eval (hx.mono hknown)),
        BoardM.run_bind_ok (BoardM.run_eval (hy.mono hknown)), hset]
    · rw [holds_product_iff, hvalue, hoffset.eval_eq (hkeep hrewrites),
        hx.eval_eq (hkeep hrewrites), hy.eval_eq (hkeep hrewrites)]
  | digits total bits label =>
    obtain ⟨board', hrun, hrewrites, hvalues⟩ :=
      run_assignDigits (total.eval board.valueAt).val hnext.nodup fun i hi =>
        ⟨hne i hi, hwrites i hi⟩
    have htotal : total.eval board'.valueAt = total.eval board.valueAt :=
      Within.eval_eq hnext.reads (hkeep hrewrites)
    refine ⟨board', ?_, hrewrites, holds_digits ((hkeep hrewrites oneWire hK).trans hone) hfits ?_
      hvalues⟩
    · show (BoardM.eval total >>= fun a => assignDigits a.val bits).run board = _
      rw [BoardM.run_bind_ok (BoardM.run_eval (Within.mono hnext.reads hknown))]
      exact hrun
    · rw [htotal, Residue.natCast_val]

end Step

/-! ### Carrying out a list of steps -/

/-- Wires that have their values beforehand, the constant one among them, and what these values
satisfy. -/
structure Given where
  /-- The number of wires that there are beforehand. -/
  start : ℕ
  /-- The wires that have their values. -/
  wires : Set ℕ
  /-- What their values satisfy. -/
  Meets : (ℕ → Fr) → Prop
  /-- They are wires that there are beforehand. -/
  lt_start : ∀ {i}, i ∈ wires → i < start
  /-- The constant wire is one of them. -/
  one_mem : oneWire ∈ wires
  /-- It carries one. -/
  one_eq : ∀ {w}, Meets w → w oneWire = 1
  /-- Nothing but the values of these wires counts. -/
  congr : ∀ {w v}, Meets w → (∀ i ∈ wires, v i = w i) → Meets v

namespace Given

variable {g : Given} {s : Step} {steps : List Step}

/-- The wires that have their values after some steps. -/
def known (g : Given) (steps : List Step) : Set ℕ :=
  {i | i ∈ g.wires ∨ ∃ s ∈ steps, i ∈ s.writes}

/-- Steps each of which reads what is known by then and writes other wires, with enough digits for
whatever values meet the steps before it. -/
inductive Computable (g : Given) : List Step → Prop
  | nil : g.Computable []
  | snoc {steps : List Step} {s : Step} (h : g.Computable steps) (hnext : s.Next (g.known steps))
    (hfits : ∀ w, g.Meets w → (∀ p ∈ steps, p.Holds w) → s.Fits w) : g.Computable (steps ++ [s])

theorem known_mono {steps' : List Step} (h : steps ⊆ steps') : g.known steps ⊆ g.known steps' := by
  rintro i (hi | ⟨s, hs, hi⟩)
  exacts [Or.inl hi, Or.inr ⟨s, h hs, hi⟩]

theorem mem_known_snoc {i : ℕ} :
    i ∈ g.known (steps ++ [s]) ↔ i ∈ g.known steps ∨ i ∈ s.writes := by
  constructor
  · rintro (hi | ⟨p, hp, hi⟩)
    · exact Or.inl (Or.inl hi)
    · rcases List.mem_append.mp hp with hp | hp
      · exact Or.inl (Or.inr ⟨p, hp, hi⟩)
      · exact Or.inr (List.mem_singleton.mp hp ▸ hi)
  · rintro (hi | hi)
    · exact known_mono (List.subset_append_left _ _) hi
    · exact Or.inr ⟨s, List.mem_append_right _ (List.mem_singleton_self s), hi⟩

namespace Computable

theorem reads (h : g.Computable steps) : ∀ p ∈ steps, p.Reads (g.known steps) := by
  induction h with
  | nil => exact fun p hp => absurd hp List.not_mem_nil
  | @snoc steps s h hnext hfits ih =>
    intro p hp
    refine Step.Reads.mono ?_ (known_mono (List.subset_append_left steps [s]))
    rcases List.mem_append.mp hp with hp | hp
    · exact ih p hp
    · exact List.mem_singleton.mp hp ▸ hnext.reads

/-- **What the steps write is determined** by what is given. -/
theorem eq_of_holds (h : g.Computable steps) {w v : ℕ → Fr} (hone : w oneWire = 1)
    (hw : ∀ p ∈ steps, p.Holds w) (hv : ∀ p ∈ steps, p.Holds v) (hwv : ∀ i ∈ g.wires, v i = w i) :
    ∀ i ∈ g.known steps, v i = w i := by
  induction h with
  | nil =>
    rintro i (hi | ⟨s, hs, -⟩)
    · exact hwv i hi
    · exact absurd hs List.not_mem_nil
  | @snoc steps s h hnext hfits ih =>
    simp only [List.forall_mem_append, List.forall_mem_singleton] at hw hv
    have hbefore := ih hw.1 hv.1
    intro i hi
    rcases mem_known_snoc.mp hi with hi | hi
    · exact hbefore i hi
    · have hone' : v oneWire = 1 := (hwv oneWire g.one_mem).trans hone
      exact Step.eq_of_holds hw.2 hv.2 hone hone' hnext.reads hnext.short hbefore i hi

/-- **All steps.**  They change no wire that is given, and then all their constraints hold. -/
theorem run (h : g.Computable steps) {board : Board} (hmeets : g.Meets board.valueAt)
    (hsize : ∀ i ∈ g.known steps, i < board.values.size) :
    ∃ board', (steps.forM Step.assign : BoardM PUnit).run board = (.ok PUnit.unit, board') ∧
      board.Rewrites board' (g.known steps \ g.wires) ∧
      g.Meets board'.valueAt ∧ ∀ p ∈ steps, p.Holds board'.valueAt := by
  induction h with
  | nil => exact ⟨board, rfl, .refl _ _, hmeets, fun p hp => absurd hp List.not_mem_nil⟩
  | @snoc steps s h hnext hfits ih =>
    obtain ⟨middle, hrun, hmiddle, hmeets', hholds⟩ := ih fun i hi =>
      hsize i (mem_known_snoc.mpr (Or.inl hi))
    have hone := g.one_eq hmeets'
    obtain ⟨last, hassign, hlast, hs⟩ := Step.run_assign hnext (Or.inl g.one_mem) hone
      (fun i hi => by
        rw [hmiddle.size_eq]
        exact hsize i (mem_known_snoc.mpr (Or.inl hi)))
      (fun i hi => by
        rw [hmiddle.size_eq]
        exact hsize i (mem_known_snoc.mpr (Or.inr hi)))
      (hfits _ hmeets' hholds)
    -- the last step leaves alone what the others rely on
    have hkeep : ∀ i ∈ g.known steps, last.valueAt i = middle.valueAt i := fun i hi =>
      hlast.valueAt_eq i fun hmem => hnext.fresh i hmem hi
    have hlastMeets := g.congr hmeets' fun i hi => hkeep i (Or.inl hi)
    refine ⟨last, ?_, (hmiddle.trans hlast).mono ?_, hlastMeets, fun p hp => ?_⟩
    · have happend : ((steps ++ [s]).forM Step.assign : BoardM PUnit)
          = steps.forM Step.assign >>= fun _ => s.assign >>= fun _ => pure PUnit.unit :=
        List.forM_append
      rw [happend, BoardM.run_bind_ok hrun, BoardM.run_bind_ok hassign]
      rfl
    · rintro i (⟨hi, hnot⟩ | hi)
      · exact ⟨mem_known_snoc.mpr (Or.inl hi), hnot⟩
      · exact ⟨mem_known_snoc.mpr (Or.inr hi), fun hwires => hnext.fresh i hi (Or.inl hwires)⟩
    · rcases List.mem_append.mp hp with hp | hp
      · exact (hholds p hp).congr hone (g.one_eq hlastMeets) (h.reads p hp)
          (fun i hi => Or.inr ⟨p, hp, hi⟩) hkeep
      · exact List.mem_singleton.mp hp ▸ hs

end Computable

end Given

end MerkleSnark
