import Mathlib
import MerkleSnark.Proofs.Circuit.Complete
import MerkleSnark.Proofs.Merkle.Arena

/-!
# Laying out a tree of complete gadgets

A tree of complete gadgets can be laid out, and its gadgets can then be computed in the order in
which they were placed.  While the tree grows, a set `K` of wires is followed: those that have their
final values once the gadgets placed so far are computed.  A new gadget reads digests whose wires lie
in `K` and writes wires outside of it, namely those of its output and wires that it has just
allocated.  The wires of the public digest and of the root digest were allocated before all gadgets,
so they are reserved until they are written.

## Main definitions

* `Arena.Known` — digests that are given, or the output of a gadget.
* `Arena.Chain` — gadgets that can be computed one after another.
* `Arena.Laid` — an arena whose gadgets can be, on the board they were placed on.

## Main results

* `Arena.Chain.run` — the gadgets compute the hashes and meet their constraints.
* `Arena.Laid.bind`, `Arena.Laid.joinPairs`, `Arena.Laid.joinLevels` — one gadget, one level and all
  levels can be laid out.
-/

namespace MerkleSnark

namespace Arena

variable {gadget : HashGadget} {asks : PlacedGadget → List Constraint → Prop}
  {hash : List Bool → List Bool → List Bool} {D K₀ K R : Set ℕ}
  {a a' b : Arena} {board board' board'' : Board} {ds : Array Digest} {bs : List Binding}

/-! ### Gadgets that are computed one after another -/

/-- The digest at the place is given, or the output of one of the gadgets. -/
def Known (D : Set ℕ) (bs : List Binding) (i : ℕ) : Prop := i ∈ D ∨ ∃ x ∈ bs, x.output = i

/-- Every gadget reads digests that are known by then and writes wires that are not final yet.  The
digests `D` are given, and the wires `K₀` are final beforehand. -/
inductive Chain (gadget : HashGadget) (ds : Array Digest) (D K₀ : Set ℕ) :
    List Binding → Set ℕ → Prop
  | nil : Chain gadget ds D K₀ [] K₀
  | snoc {bs : List Binding} {K : Set ℕ} {x : Binding} {inner : Set ℕ}
    (before : Chain gadget ds D K₀ bs K) (left : Known D bs x.left) (right : Known D bs x.right)
    (output_lt : x.output < ds.size)
    (fresh : Disjoint K ((ds.getD x.output default).span ∪ inner))
    (places : gadget.Places (ds.getD x.left default) (ds.getD x.right default)
      (ds.getD x.output default) inner x.gadget) :
    Chain gadget ds D K₀ (bs ++ [x]) (K ∪ ((ds.getD x.output default).span ∪ inner))

theorem known_snoc {x : Binding} {i : ℕ} :
    Known D (bs ++ [x]) i ↔ Known D bs i ∨ x.output = i := by
  unfold Known
  simp only [List.mem_append, List.mem_singleton, or_and_right, exists_or, exists_eq_left, or_assoc]

namespace Chain

theorem lt_of_known (h : Chain gadget ds D K₀ bs K) (hD : ∀ i ∈ D, i < ds.size) {i : ℕ}
    (hi : Known D bs i) : i < ds.size := by
  induction h with
  | nil => exact hi.elim (hD i) fun ⟨_, hx, _⟩ => absurd hx List.not_mem_nil
  | @snoc bs K x inner before left right output_lt fresh places ih =>
    rcases known_snoc.mp hi with hi | rfl
    · exact ih hi
    · exact output_lt

theorem subset (h : Chain gadget ds D K₀ bs K) : K₀ ⊆ K := by
  induction h with
  | nil => exact subset_rfl
  | snoc _ _ _ _ _ _ ih => exact ih.trans Set.subset_union_left

/-- The wires of known digests are final. -/
theorem span_subset (h : Chain gadget ds D K₀ bs K)
    (hD : ∀ i ∈ D, (ds.getD i default).span ⊆ K₀) {i : ℕ} (hi : Known D bs i) :
    (ds.getD i default).span ⊆ K := by
  induction h with
  | nil => exact hi.elim (hD i) fun ⟨_, hx, _⟩ => absurd hx List.not_mem_nil
  | @snoc bs K x inner before left right output_lt fresh places ih =>
    rcases known_snoc.mp hi with hi | rfl
    · exact (ih hi).trans Set.subset_union_left
    · exact Set.subset_union_left.trans Set.subset_union_right

theorem known_mono {bs' : List Binding} (h : bs ⊆ bs') {i : ℕ} (hi : Known D bs i) :
    Known D bs' i :=
  hi.imp_right fun ⟨x, hx, hout⟩ => ⟨x, h hx, hout⟩

/-- The inputs of the gadgets are known. -/
theorem known_inputs (h : Chain gadget ds D K₀ bs K) :
    ∀ x ∈ bs, Known D bs x.left ∧ Known D bs x.right := by
  induction h with
  | nil => exact fun x hx => absurd hx List.not_mem_nil
  | @snoc bs K x inner before left right output_lt fresh places ih =>
    intro y hy
    have hsub : bs ⊆ bs ++ [x] := List.subset_append_left bs [x]
    rcases List.mem_append.mp hy with hy | hy
    · exact ⟨known_mono hsub (ih y hy).1, known_mono hsub (ih y hy).2⟩
    · rw [List.mem_singleton.mp hy]
      exact ⟨known_mono hsub left, known_mono hsub right⟩

theorem exists_emits (hgadget : gadget.Complete hash) (h : Chain gadget ds D K₀ bs K) :
    ∀ x ∈ bs, ∃ ks, BoardM.Emits x.gadget.constrain ks := by
  induction h with
  | nil => exact fun x hx => absurd hx List.not_mem_nil
  | @snoc bs K x inner before left right output_lt fresh places ih =>
    intro y hy
    rcases List.mem_append.mp hy with hy | hy
    · exact ih y hy
    · rw [List.mem_singleton.mp hy]
      obtain ⟨ks, hks, -⟩ := hgadget.fulfills places
      exact ⟨ks, hks⟩

/-- New digests change nothing. -/
theorem extend (h : Chain gadget a.digests D K₀ bs K) (hD : ∀ i ∈ D, i < a.digests.size)
    (hextends : a.Extends a') : Chain gadget a'.digests D K₀ bs K := by
  induction h with
  | nil => exact .nil
  | @snoc bs K x inner before left right output_lt fresh places ih =>
    have hl := hextends.digests_getD (before.lt_of_known hD left)
    have hr := hextends.digests_getD (before.lt_of_known hD right)
    have ho := hextends.digests_getD output_lt
    rw [← ho]
    rw [← ho] at fresh
    rw [← hl, ← hr, ← ho] at places
    exact .snoc ih left right (output_lt.trans_le hextends.size_digests_le) fresh places

/-- What a gadget has done once the wires `K` have their final values `w`: its output carries the
hash of its inputs, and the constraints that it is asked for hold. -/
structure Done (asks : PlacedGadget → List Constraint → Prop)
    (hash : List Bool → List Bool → List Bool) (ds : Array Digest) (K : Set ℕ) (w : ℕ → Fr)
    (x : Binding) : Prop where
  hashes : ∀ l r, (ds.getD x.left default).Carries w l → (ds.getD x.right default).Carries w r →
    (ds.getD x.output default).Carries w (hash l r)
  holds : ∃ ks, asks x.gadget ks ∧ ∀ k ∈ ks, k.Within K ∧ k.Holds w

/-- What was done before stays done when only other wires are written. -/
theorem Done.keep {K' : Set ℕ} {w v : ℕ → Fr} {x : Binding} (h : Done asks hash ds K w x)
    (hkeep : ∀ i ∈ K, v i = w i) (hK : K ⊆ K') (hleft : (ds.getD x.left default).span ⊆ K)
    (hright : (ds.getD x.right default).span ⊆ K)
    (houtput : (ds.getD x.output default).span ⊆ K) : Done asks hash ds K' v x := by
  obtain ⟨ks, hasks, hks⟩ := h.holds
  refine ⟨fun l r hl hr => ?_, ks, hasks, fun k hk => ?_⟩
  · have hl' := hl.congr fun i hi => (hkeep i (hleft hi)).symm
    have hr' := hr.congr fun i hi => (hkeep i (hright hi)).symm
    exact (h.hashes l r hl' hr').congr fun i hi => hkeep i (houtput hi)
  · obtain ⟨hwithin, hholds⟩ := hks k hk
    exact ⟨hwithin.mono hK, (hwithin.holds_iff hkeep).mpr hholds⟩

/-- A gadget that was computed from its inputs has done its part, when the inputs stayed. -/
theorem Done.of_carries {w v : ℕ → Fr} {x : Binding} {l r : List Bool} {ks : List Constraint}
    (hleft : (ds.getD x.left default).Carries w l) (hright : (ds.getD x.right default).Carries w r)
    (hkeep : ∀ i ∈ (ds.getD x.left default).span ∪ (ds.getD x.right default).span, v i = w i)
    (houtput : (ds.getD x.output default).Carries v (hash l r)) (hasks : asks x.gadget ks)
    (hks : ∀ k ∈ ks, k.Within K ∧ k.Holds v) : Done asks hash ds K v x := by
  refine ⟨fun l' r' hl hr => ?_, ks, hasks, hks⟩
  have hl' := hl.congr fun i hi => (hkeep i (Or.inl hi)).symm
  have hr' := hr.congr fun i hi => (hkeep i (Or.inr hi)).symm
  rw [hl'.unique hleft, hr'.unique hright]
  exact houtput

/-- **The gadgets are computed.**  Afterwards every known digest carries bits, every gadget has
given its output the hash of its inputs, and all constraints that the gadgets are asked for hold. -/
theorem run (hgadget : gadget.Meets asks hash) (h : Chain gadget ds D K₀ bs K) {state : Board}
    (hone : state.valueAt oneWire = 1) (hmem : oneWire ∈ K₀)
    (hstate : ∀ i ∈ K, i < state.values.size)
    (hD : ∀ i ∈ D, (ds.getD i default).span ⊆ K₀
      ∧ ∃ bits, (ds.getD i default).Carries state.valueAt bits) :
    ∃ state', (bs.forM fun x => x.gadget.assign).run state = (.ok PUnit.unit, state')
      ∧ state.Rewrites state' (K \ K₀)
      ∧ (∀ i, Known D bs i → ∃ bits, (ds.getD i default).Carries state'.valueAt bits)
      ∧ ∀ x ∈ bs, Done asks hash ds K state'.valueAt x := by
  induction h with
  | nil =>
    refine ⟨state, rfl, .refl _ _, fun i hi => ?_, fun x hx => absurd hx List.not_mem_nil⟩
    rcases hi with hi | ⟨x, hx, -⟩
    · exact (hD i hi).2
    · exact absurd hx List.not_mem_nil
  | @snoc bs K x inner before left right output_lt fresh places ih =>
    obtain ⟨middle, hrun, hmiddle, hcarries, hdone⟩ := ih fun i hi => hstate i (Or.inl hi)
    have hspan := fun i => before.span_subset (fun i hi => (hD i hi).1) (i := i)
    have hone' : middle.valueAt oneWire = 1 := by
      rw [hmiddle.valueAt_eq oneWire fun hnot => hnot.2 hmem, hone]
    obtain ⟨l, hl⟩ := hcarries x.left left
    obtain ⟨r, hr⟩ := hcarries x.right right
    obtain ⟨ks, hasks, hwithin, hassign⟩ := hgadget.evaluates places
    have hinputs : (ds.getD x.left default).span ∪ (ds.getD x.right default).span ⊆ K :=
      Set.union_subset (hspan _ left) (hspan _ right)
    have hmiddleSize : ∀ i ∈ (ds.getD x.left default).span ∪ (ds.getD x.right default).span
        ∪ ((ds.getD x.output default).span ∪ inner), i < middle.values.size := fun i hi =>
      (hstate i (Set.union_subset_union_left _ hinputs hi)).trans_eq hmiddle.size_eq.symm
    obtain ⟨last, hlastRun, hlast, hholds, hout⟩ := hassign middle hmiddleSize hone' l r hl hr
    -- what was final before the last gadget stays as it is
    have hkeep : ∀ i ∈ K, last.valueAt i = middle.valueAt i := fun i hi =>
      hlast.valueAt_eq i fun hwritten => Set.disjoint_left.mp fresh hi hwritten
    refine ⟨last, ?_, (hmiddle.trans hlast).mono ?_, fun i hi => ?_, fun y hy => ?_⟩
    · have happend : ((bs ++ [x]).forM fun x => x.gadget.assign)
          = (bs.forM fun x => x.gadget.assign) >>= fun _ =>
            x.gadget.assign >>= fun _ => pure PUnit.unit := List.forM_append
      rw [happend, BoardM.run_bind_ok hrun, BoardM.run_bind_ok hlastRun]
      rfl
    · rintro i (⟨hi, hnot⟩ | hi)
      · exact ⟨Or.inl hi, hnot⟩
      · exact ⟨Or.inr hi, fun hgiven => Set.disjoint_left.mp fresh (before.subset hgiven) hi⟩
    · rcases known_snoc.mp hi with hi | rfl
      · obtain ⟨bits, hbits⟩ := hcarries i hi
        exact ⟨bits, hbits.congr fun j hj => hkeep j (hspan i hi hj)⟩
      · exact ⟨_, hout⟩
    -- the gadgets from before are done still, and the last one is done now
    rcases List.mem_append.mp hy with hy | hy
    · obtain ⟨hleft, hright⟩ := before.known_inputs y hy
      exact (hdone y hy).keep hkeep Set.subset_union_left (hspan _ hleft) (hspan _ hright)
        (hspan _ (Or.inr ⟨y, hy, rfl⟩))
    · obtain rfl := List.mem_singleton.mp hy
      refine .of_carries hl hr (fun i hi => hkeep i (hinputs hi)) hout hasks
        fun k hk => ⟨(hwithin k hk).mono ?_, hholds k hk⟩
      rintro i (((hi | hi) | hi) | hi)
      · rw [Set.mem_singleton_iff.mp hi]
        exact Or.inl (before.subset hmem)
      · exact Or.inl (hinputs (Or.inl hi))
      · exact Or.inl (hinputs (Or.inr hi))
      · exact Or.inr hi

end Chain

/-! ### Laying out -/

theorem Runs.step {α β : Type} {m : Arena.M α} {f : α → Arena.M β} {x : α} {y : β}
    (hm : Runs m a board x b board') (hf : Runs (f x) b board' y a' board'') :
    Runs (m >>= f) a board y a' board'' :=
  (BoardM.run_bind_ok hm _).trans hf

/-- The layout succeeds, and what was there stays as it is. -/
structure Succeeds {α : Type} (m : Arena.M α) (a : Arena) (board : Board) (x : α) (a' : Arena)
    (board' : Board) : Prop where
  runs : Runs m a board x a' board'
  keeps : a.Extends a'
  allocates : board.Allocates board'

namespace Succeeds

variable {α β : Type} {m : Arena.M α} {f : α → Arena.M β} {x : α} {y : β}

theorem pure (x : α) (a : Arena) (board : Board) :
    Succeeds (Pure.pure x) a board x a board := ⟨rfl, .refl a, .refl board⟩

theorem bind (hm : Succeeds m a board x b board') (hf : Succeeds (f x) b board' y a' board'') :
    Succeeds (m >>= f) a board y a' board'' :=
  ⟨hm.runs.step hf.runs, hm.keeps.trans hf.keeps, hm.allocates.trans hf.allocates⟩

end Succeeds

/-- The digests have the size of the gadget, and their wires are on the board. -/
def Placed (gadget : HashGadget) (a : Arena) (board : Board) : Prop :=
  ∀ i < a.digests.size, (a.digests.getD i default).size = gadget.digestSize
    ∧ 0 < (a.digests.getD i default).first
    ∧ (a.digests.getD i default).first + (a.digests.getD i default).size ≤ board.values.size

theorem Placed.mono (h : Placed gadget a board) (hle : board.values.size ≤ board'.values.size) :
    Placed gadget a board' :=
  fun i hi => ⟨(h i hi).1, (h i hi).2.1, (h i hi).2.2.trans hle⟩

/-- A gadget can stand between placed digests when its output is apart from its inputs. -/
theorem Placed.layout (h : Placed gadget a board) {left right output : ℕ}
    (hleft : left < a.digests.size) (hright : right < a.digests.size)
    (houtput : output < a.digests.size)
    (hapart : Disjoint (a.digests.getD output default).span
      ((a.digests.getD left default).span ∪ (a.digests.getD right default).span)) :
    gadget.Layout (a.digests.getD left default) (a.digests.getD right default)
      (a.digests.getD output default) board.values.size := by
  obtain ⟨hleftSize, hleftWithin⟩ := h left hleft
  obtain ⟨hrightSize, hrightWithin⟩ := h right hright
  obtain ⟨houtputSize, houtputWithin⟩ := h output houtput
  refine ⟨?_, ?_, hapart⟩
  · simp only [List.forall_mem_cons, List.not_mem_nil, false_implies, implies_true, and_true]
    exact ⟨hleftSize, hrightSize, houtputSize⟩
  · simp only [List.forall_mem_cons, List.not_mem_nil, false_implies, implies_true, and_true]
    exact ⟨hleftWithin, hrightWithin, houtputWithin⟩

theorem getD_push_self (ds : Array Digest) (d : Digest) : (ds.push d).getD ds.size default = d := by
  rw [Array.getD_eq_getD_getElem?, Array.getElem?_push, if_pos rfl]
  rfl

/-- A new digest takes the next wires. -/
theorem exists_newDigest (h : Placed gadget a board) (hpos : 0 < board.values.size)
    (label : String) :
    ∃ board', Succeeds (newDigest gadget.digestSize label) a board a.digests.size
        { a with digests := a.digests.push ⟨board.values.size, gadget.digestSize, label⟩ } board'
      ∧ board'.values.size = board.values.size + gadget.digestSize
      ∧ Placed gadget
        { a with digests := a.digests.push ⟨board.values.size, gadget.digestSize, label⟩ } board' := by
  have hsize : (board.values ++ Array.replicate gadget.digestSize (0 : Fr)).size
      = board.values.size + gadget.digestSize := by
    rw [Array.size_append, Array.size_replicate]
  refine ⟨_, ⟨rfl, extends_pushDigest _ _, .of_append _ _ _⟩, hsize, fun i hi => ?_⟩
  rw [Array.size_push] at hi
  by_cases hlast : i < a.digests.size
  · rw [(extends_pushDigest a _).digests_getD hlast]
    obtain ⟨hdigest, hfirst, hle⟩ := h i hlast
    refine ⟨hdigest, hfirst, hle.trans ?_⟩
    rw [hsize]
    exact Nat.le_add_right _ _
  · have hi : i = a.digests.size := by omega
    rw [hi, getD_push_self]
    exact ⟨rfl, hpos, hsize.ge⟩

theorem run_liftM {α : Type} {m : BoardM α} {x : α} (h : m.run board = (.ok x, board')) (a : Arena) :
    Runs (liftM m) a board x a board' :=
  (BoardM.run_bind_ok h _).trans rfl

/-- Binding succeeds where the gadget can be placed. -/
theorem runs_bind_of_place {kind : NodeKind} {digest left right : ℕ} {placed : PlacedGadget}
    (h : (gadget.place (a.digests.getD (a.digestIndex left) default)
        (a.digests.getD (a.digestIndex right) default) (a.digests.getD digest default)
        s!"hash_{(a.digests.getD digest default).label}").run board = (.ok placed, board')) :
    Runs (bind gadget kind digest left right) a board a.nodes.size
      { a with
        bindings := a.bindings.push ⟨a.digestIndex left, a.digestIndex right, digest, placed⟩
        nodes := a.nodes.push ⟨kind, digest, some (left, right)⟩ } board' := by
  unfold bind
  apply Runs.step (run_digestOf left a board)
  apply Runs.step (run_digestOf right a board)
  apply Runs.step (run_digestAt digest a board)
  apply Runs.step (run_digestAt _ a board)
  apply Runs.step (run_digestAt _ a board)
  exact Runs.step (run_liftM h a) rfl

/-- The gadgets placed so far can be computed one after another.  Afterwards the wires `K` are final,
and those of `R`, which are on the board as well, are not. -/
structure Laid (gadget : HashGadget) (D K₀ K R : Set ℕ) (a : Arena) (board : Board) : Prop where
  placed : Placed gadget a board
  chain : Chain gadget a.digests D K₀ a.bindings.toList K
  given_lt : ∀ i ∈ D, i < a.digests.size
  span_subset : ∀ i ∈ D, (a.digests.getD i default).span ⊆ K₀
  pos : 0 < board.values.size
  final_lt : ∀ i ∈ K, i < board.values.size
  reserved_lt : ∀ i ∈ R, i < board.values.size
  reserved : Disjoint K R

/-- What was final stays final, and the wires that are new become final. -/
structure Settles (K K' : Set ℕ) (board board' : Board) : Prop where
  keeps : K ⊆ K'
  covers : ∀ i, board.values.size ≤ i → i < board'.values.size → i ∈ K'

namespace Settles

variable {K' K'' : Set ℕ}

theorem refl (K : Set ℕ) (board : Board) : Settles K K board board :=
  ⟨subset_rfl, fun _ hge hlt => absurd hlt (not_lt.mpr hge)⟩

theorem trans (h : Settles K K' board board') (h' : Settles K' K'' board' board'') :
    Settles K K'' board board'' := by
  refine ⟨h.keeps.trans h'.keeps, fun i hge hlt => ?_⟩
  by_cases hold : i < board'.values.size
  · exact h'.keeps (h.covers i hge hold)
  · exact h'.covers i (not_lt.mp hold) hlt

end Settles

namespace Laid

theorem lt_of_known (h : Laid gadget D K₀ K R a board) {i : ℕ}
    (hi : Known D a.bindings.toList i) : i < a.digests.size :=
  h.chain.lt_of_known h.given_lt hi

theorem newDigest (h : Laid gadget D K₀ K R a board) (label : String) :
    ∃ board', Succeeds (Arena.newDigest gadget.digestSize label) a board a.digests.size
        { a with digests := a.digests.push ⟨board.values.size, gadget.digestSize, label⟩ } board'
      ∧ board'.values.size = board.values.size + gadget.digestSize
      ∧ Laid gadget D K₀ K R
        { a with digests := a.digests.push ⟨board.values.size, gadget.digestSize, label⟩ } board'
      ∧ Disjoint (K ∪ R) (⟨board.values.size, gadget.digestSize, label⟩ : Digest).span := by
  obtain ⟨board', hnew, hsize, hplaced⟩ := exists_newDigest h.placed h.pos label
  refine ⟨board', hnew, hsize, ?_, ?_⟩
  · exact
      { placed := hplaced
        chain := h.chain.extend h.given_lt hnew.keeps
        given_lt := fun i hi => (h.given_lt i hi).trans_le hnew.keeps.size_digests_le
        span_subset := fun i hi => by
          rw [hnew.keeps.digests_getD (h.given_lt i hi)]
          exact h.span_subset i hi
        pos := h.pos.trans_le hnew.allocates.size_le
        final_lt := fun i hi => (h.final_lt i hi).trans_le hnew.allocates.size_le
        reserved_lt := fun i hi => (h.reserved_lt i hi).trans_le hnew.allocates.size_le
        reserved := h.reserved }
  · rw [Set.disjoint_left]
    rintro i (hi | hi) hnew
    · exact absurd (h.final_lt i hi) (not_lt.mpr hnew.1)
    · exact absurd (h.reserved_lt i hi) (not_lt.mpr hnew.1)

theorem digest_layout (h : Laid gadget D K₀ K R a board) {left right output : ℕ}
    (hleft : Known D a.bindings.toList left) (hright : Known D a.bindings.toList right)
    (houtput : output < a.digests.size)
    (hfresh : Disjoint K (a.digests.getD output default).span) :
    gadget.Layout (a.digests.getD left default) (a.digests.getD right default)
      (a.digests.getD output default) board.values.size := by
  refine h.placed.layout (h.lt_of_known hleft) (h.lt_of_known hright) houtput
    (hfresh.symm.mono_right (Set.union_subset ?_ ?_))
  · exact h.chain.span_subset h.span_subset hleft
  · exact h.chain.span_subset h.span_subset hright

/-- **One gadget** is placed on digests that are known.  The output may have been reserved. -/
theorem bind (hgadget : gadget.Placeable) (h : Laid gadget D K₀ K R a board) {R' : Set ℕ}
    (hR : R' ⊆ R) (kind : NodeKind) {digest left right : ℕ}
    (hleft : Known D a.bindings.toList (a.digestIndex left))
    (hright : Known D a.bindings.toList (a.digestIndex right)) (hdigest : digest < a.digests.size)
    (hfresh : Disjoint K (a.digests.getD digest default).span)
    (hapart : Disjoint R' (a.digests.getD digest default).span) :
    ∃ node a' board' K', Succeeds (Arena.bind gadget kind digest left right) a board node a' board'
      ∧ Laid gadget D K₀ K' R' a' board' ∧ Settles K K' board board' ∧ node < a'.nodes.size
      ∧ a'.digestIndex node = digest ∧ Known D a'.bindings.toList digest
      ∧ ∀ {α : Type} {op : α → α → α} (V : ℕ → α → Prop), Closed op a' V → ∀ l r,
        V (a.digestIndex left) l → V (a.digestIndex right) r → V digest (op l r) := by
  have hlayout := h.digest_layout hleft hright hdigest hfresh
  obtain ⟨placed, board', hplace, hallocates⟩ := hgadget _ _ _
    s!"hash_{(a.digests.getD digest default).label}" board hlayout
  let x : Binding := ⟨a.digestIndex left, a.digestIndex right, digest, placed⟩
  let a₁ : Arena := { a with bindings := a.bindings.push x }
  let a' : Arena := { a₁ with nodes := a.nodes.push ⟨kind, digest, some (left, right)⟩ }
  have hextends : a.Extends a' := (extends_pushBinding a x).trans (extends_pushNode a₁ _)
  have hbindings : a'.bindings.toList = a.bindings.toList ++ [x] := Array.toList_push
  have hout := h.placed digest hdigest
  -- the wires that were allocated just now are neither final nor reserved
  have hinner : ∀ S : Set ℕ, (∀ i ∈ S, i < board.values.size) →
      Disjoint S (a.digests.getD digest default).span → Disjoint S
        ((a.digests.getD digest default).span ∪ Set.Ico board.values.size board'.values.size) := by
    intro S hS hspan
    refine Set.disjoint_union_right.mpr ⟨hspan, Set.disjoint_left.mpr fun i hi hnew => ?_⟩
    exact absurd (hS i hi) (not_lt.mpr hnew.1)
  have hreserved := hinner R' (fun i hi => h.reserved_lt i (hR hi)) hapart
  have hwritten : ∀ i ∈ (a.digests.getD digest default).span
      ∪ Set.Ico board.values.size board'.values.size, i < board'.values.size := by
    rintro i (hi | hi)
    · exact (hi.2.trans_le hout.2.2).trans_le hallocates.size_le
    · exact hi.2
  refine ⟨a.nodes.size, a', board', K ∪ ((a.digests.getD digest default).span
    ∪ Set.Ico board.values.size board'.values.size), ⟨runs_bind_of_place hplace, hextends, hallocates⟩,
    ?_, ⟨Set.subset_union_left, fun i hge hlt => Or.inr (Or.inr ⟨hge, hlt⟩)⟩, ?_, ?_, ?_, ?_⟩
  · exact
      { placed := h.placed.mono hallocates.size_le
        chain := by
          rw [hbindings]
          exact .snoc h.chain hleft hright hdigest (hinner K h.final_lt hfresh)
            ⟨_, _, _, hlayout, hplace, rfl⟩
        given_lt := h.given_lt
        span_subset := h.span_subset
        pos := h.pos.trans_le hallocates.size_le
        final_lt := fun i hi => hi.elim (fun hi => (h.final_lt i hi).trans_le hallocates.size_le)
          (hwritten i)
        reserved_lt := fun i hi => (h.reserved_lt i (hR hi)).trans_le hallocates.size_le
        reserved := Set.disjoint_union_left.mpr ⟨h.reserved.mono_right hR, hreserved.symm⟩ }
  · show a.nodes.size < (a.nodes.push _).size
    rw [Array.size_push]
    exact Nat.lt_succ_self _
  · exact digestIndex_pushNode a₁ ⟨kind, digest, some (left, right)⟩
  · rw [hbindings]
    exact known_snoc.mpr (Or.inr rfl)
  · intro α op V hV l r hl hr
    exact hV x Array.mem_push_self l r hl hr

end Laid

/-- The node is there, and its digest is known. -/
def Stands (D : Set ℕ) (a : Arena) (n : ℕ) : Prop :=
  n < a.nodes.size ∧ Known D a.bindings.toList (a.digestIndex n)

theorem Stands.mono {n : ℕ} (h : Stands D a n) (hextends : a.Extends a') : Stands D a' n := by
  refine ⟨h.1.trans_le hextends.size_nodes_le, ?_⟩
  rw [hextends.digestIndex_eq h.1]
  exact Chain.known_mono hextends.bindings.subset h.2

namespace Laid

/-- A node below the root gets a digest of its own. -/
theorem joinPair (hgadget : gadget.Placeable) (h : Laid gadget D K₀ K R a board)
    (root : ℕ) {height : ℕ} (i : ℕ) {left right : ℕ} (hheight : height ≠ 0) (hleft : Stands D a left)
    (hright : Stands D a right) :
    ∃ node a' board' K',
      Succeeds (Arena.joinPair gadget root height i left right) a board node a' board'
        ∧ Laid gadget D K₀ K' R a' board' ∧ Settles K K' board board' ∧ Stands D a' node
        ∧ ∀ {α : Type} {op : α → α → α} (V : ℕ → α → Prop), Closed op a' V → ∀ l r,
          V (a.digestIndex left) l → V (a.digestIndex right) r →
            V (a'.digestIndex node) (op l r) := by
  obtain ⟨middle, hnew, hsize, hlaid, hfresh⟩ := h.newDigest s!"intermediate_{height}_{i}"
  have hleft' := hleft.mono hnew.keeps
  have hright' := hright.mono hnew.keeps
  have hnewest := getD_push_self a.digests
    ⟨board.values.size, gadget.digestSize, s!"intermediate_{height}_{i}"⟩
  have hlt : a.digests.size < (a.digests.push
      ⟨board.values.size, gadget.digestSize, s!"intermediate_{height}_{i}"⟩).size := by
    rw [Array.size_push]
    exact Nat.lt_succ_self _
  obtain ⟨hfinal, hreserved⟩ := Set.disjoint_union_left.mp hfresh
  obtain ⟨node, a', board', K', hbind, hlast, hsettles, hnode, hindex, hknown, hhash⟩ :=
    hlaid.bind hgadget (subset_refl R) .intermediate hleft'.2 hright'.2 hlt (by rwa [hnewest])
      (by rwa [hnewest])
  -- the wires of the new digest are those of the output
  have hnewSettles : Settles K K' board board' := by
    refine ⟨hsettles.keeps, fun j hge hlt' => ?_⟩
    by_cases hold : j < middle.values.size
    · have hspan := hlast.chain.span_subset hlast.span_subset hknown
      rw [hbind.keeps.digests_getD hlt, hnewest] at hspan
      exact hspan ⟨hge, hold.trans_eq hsize⟩
    · exact hsettles.covers j (not_lt.mp hold) hlt'
  refine ⟨node, a', board', K', ?_, hlast, hnewSettles, ⟨hnode, hindex ▸ hknown⟩, ?_⟩
  · unfold Arena.joinPair
    rw [if_neg hheight]
    exact hnew.bind hbind
  · rw [hindex]
    rwa [hnew.keeps.digestIndex_eq hleft.1, hnew.keeps.digestIndex_eq hright.1] at hhash

/-- **One level** below the root. -/
theorem joinPairs (hgadget : gadget.Placeable) (h : Laid gadget D K₀ K R a board)
    (root : ℕ) {height : ℕ} (i : ℕ) {level : List ℕ} (hheight : height ≠ 0)
    (hlevel : ∀ n ∈ level, Stands D a n) :
    ∃ parents a' board' K',
      Succeeds (Arena.joinPairs gadget root height i level) a board parents a' board'
        ∧ Laid gadget D K₀ K' R a' board' ∧ Settles K K' board board'
        ∧ (∀ n ∈ parents, Stands D a' n)
        ∧ parents.length = level.length / 2
        ∧ ∀ {α : Type} {op : α → α → α} (V : ℕ → α → Prop), Closed op a' V → ∀ xs,
          List.Forall₂ V (level.map a.digestIndex) xs →
            List.Forall₂ V (parents.map a'.digestIndex) (pairUp op xs) := by
  induction level using List.twoStepInduction generalizing i a board K with
  | nil =>
    refine ⟨[], a, board, K, .pure _ _ _, h, .refl _ _, by simp, rfl, fun V _ xs hxs => ?_⟩
    cases hxs
    exact .nil
  | singleton n =>
    refine ⟨[], a, board, K, .pure _ _ _, h, .refl _ _, by simp, by simp, fun V _ xs hxs => ?_⟩
    cases hxs with
    | cons _ hrest =>
      cases hrest
      exact .nil
  | cons_cons left right rest ih _ =>
    simp only [List.forall_mem_cons] at hlevel
    obtain ⟨hleft, hright, hlevel⟩ := hlevel
    obtain ⟨parent, b, middle, K₁, hfirst, hlaid, hsettles, hparent, hhash⟩ :=
      h.joinPair hgadget root i hheight hleft hright
    obtain ⟨others, a', board', K₂, hrest, hlast, hsettles', hothers, hlength, hlift⟩ :=
      ih hlaid (i + 1) fun n hn => (hlevel n hn).mono hfirst.keeps
    refine ⟨parent :: others, a', board', K₂, ?_, hlast, hsettles.trans hsettles', ?_, ?_,
      fun V hV xs hxs => ?_⟩
    · rw [joinPairs_cons]
      exact hfirst.bind (hrest.bind (.pure _ _ _))
    · exact List.forall_mem_cons.mpr ⟨hparent.mono hrest.keeps, hothers⟩
    · simp only [List.length_cons, hlength]
      omega
    · rw [List.map_cons, List.map_cons] at hxs
      cases hxs with
      | @cons _ l _ xs hl hxs =>
        cases hxs with
        | @cons _ r _ xs hr hxs =>
          rw [List.map_cons, hrest.keeps.digestIndex_eq hparent.1]
          apply List.Forall₂.cons (hhash V (hV.of_extends hrest.keeps) l r hl hr)
          apply hlift V hV xs
          -- the nodes that are left still have their digests
          rwa [hfirst.keeps.map_digestIndex fun n hn => (hlevel n hn).1]

/-- **All levels.**  The last gadget writes the root digest, which is reserved until then. -/
theorem joinLevels (hgadget : gadget.Placeable) {root height : ℕ} {level : List ℕ} {R' : Set ℕ}
    (h : Laid gadget D K₀ K (R' ∪ (a.digests.getD root default).span) a board)
    (hlevel : ∀ n ∈ level, Stands D a n) (hlength : level.length = 2 ^ height)
    (hheight : height ≠ 0) (hroot : root < a.digests.size)
    (hapart : Disjoint R' (a.digests.getD root default).span) :
    ∃ node a' board' K',
      Succeeds (Arena.joinLevels gadget root height level) a board node a' board'
        ∧ Laid gadget D K₀ K' R' a' board' ∧ Settles K K' board board'
        ∧ Known D a'.bindings.toList root
        ∧ ∀ {α : Type} [Inhabited α] {op : α → α → α} (V : ℕ → α → Prop), Closed op a' V →
          ∀ xs, xs.length = 2 ^ height → List.Forall₂ V (level.map a.digestIndex) xs →
            V root (treeRoot op height xs) := by
  induction height generalizing a board K level with
  | zero => exact absurd rfl hheight
  | succ height ih =>
    cases height with
    | zero =>
      -- the only gadget of the last level stands on the root digest
      obtain ⟨left, right, rfl⟩ := List.length_eq_two.mp hlength
      simp only [List.forall_mem_cons] at hlevel
      obtain ⟨hleft, hright, -⟩ := hlevel
      obtain ⟨node, a', board', K', hbind, hlast, hsettles, hnode, hindex, hknown, hhash⟩ :=
        h.bind hgadget Set.subset_union_left .root hleft.2 hright.2 hroot
          (h.reserved.mono_right Set.subset_union_right) hapart
      refine ⟨node, a', board', K', ?_, hlast, hsettles, hknown, fun V hV xs hlength hxs => ?_⟩
      · have hpairs : Succeeds (Arena.joinPairs gadget root 0 0 [left, right]) a board [node] a'
            board' := by
          rw [joinPairs_cons]
          exact hbind.bind ((Succeeds.pure [] a' board').bind (.pure _ _ _))
        have hend : Succeeds (Arena.joinLevels gadget root 0 [node]) a' board' node a' board' :=
          .pure _ _ _
        exact hpairs.bind hend
      · obtain ⟨l, r, rfl⟩ := List.length_eq_two.mp hlength
        simp only [List.map_cons, List.map_nil, List.forall₂_cons] at hxs
        exact hhash V hV l r hxs.1 hxs.2.1
    | succ height =>
      obtain ⟨parents, b, middle, K₁, hpairs, hlaid, hsettles, hparents, hcount, hlift⟩ :=
        h.joinPairs hgadget root 0 (Nat.succ_ne_zero height) hlevel
      have hdigest := hpairs.keeps.digests_getD hroot
      rw [← hdigest] at hlaid hapart
      have hhalf : parents.length = 2 ^ (height + 1) := by
        rw [hcount, hlength, pow_succ, Nat.mul_div_cancel _ (by decide)]
      obtain ⟨node, a', board', K₂, hlevels, hlast, hsettles', hknown, hrest⟩ := ih hlaid hparents
        hhalf (Nat.succ_ne_zero height) (hroot.trans_le hpairs.keeps.size_digests_le) hapart
      refine ⟨node, a', board', K₂, hpairs.bind hlevels, hlast, hsettles.trans hsettles', hknown,
        fun V hV xs hlength hxs => ?_⟩
      apply hrest V hV
      · rw [length_pairUp, hlength, pow_succ, Nat.mul_div_cancel _ (by decide)]
      · exact hlift V (hV.of_extends hlevels.keeps) xs hxs

end Laid

end Arena

end MerkleSnark
