import Mathlib
import MerkleSnark.Proofs.Circuit.Complete
import MerkleSnark.Proofs.Circuit.Sha256Gadget
import MerkleSnark.Proofs.Circuit.Witness

/-!
# The SHA-256 gadget computes the hash

The steps of the circuit can be carried out whenever the wires of the two input digests carry bits.
Every intermediate word has bits for its values then, so every packed sum fits into its digits; the
wires of the output digest are reserved until the additions at the end use them up.

## Main definitions

* `Sha256Gadget.Layout` — three digests of 256 bits, the output apart from the inputs.
* `Sha256Gadget.given` — what the circuit starts from.

## Main results

* `Starts.builds_draft` — the steps of the circuit can be carried out.
* `place_complete` — a placed gadget computes the hash of two digests that carry bits, meets its
  constraints and touches no other wires.
-/

namespace MerkleSnark.Sha256Gadget

open Sha256 DraftM Word

/-- Three digests of 256 bits among the first wires of a board, the output apart from the inputs. -/
structure Layout (left right output : Digest) (wires : ℕ) : Prop where
  /-- The digests have the size of the gadget. -/
  size_eq : left.size = digestSize ∧ right.size = digestSize ∧ output.size = digestSize
  /-- Their wires are there. -/
  lt_wires : ∀ d ∈ [left, right, output], d.first + d.size ≤ wires
  /-- The constant wire is not one of the output. -/
  pos : 0 < output.first
  /-- No wire is one of the output and of an input. -/
  disjoint : ∀ i ∈ output.wires, i ∉ left.wires ∧ i ∉ right.wires

namespace Layout

variable {left right output : Digest} {wires : ℕ}

theorem lt_of_mem (h : Layout left right output wires) {d : Digest} (hd : d ∈ [left, right, output])
    {i : ℕ} (hi : i ∈ d.wires) : i < wires :=
  (List.mem_range'_1.mp hi).2.trans_le (h.lt_wires d hd)

theorem one_mem (h : Layout left right output wires) : oneWire < wires ∧ oneWire ∉ output.wires := by
  have hle := h.lt_wires output (by simp)
  have hpos := h.pos
  refine ⟨by rw [oneWire]; omega, fun hmem => ?_⟩
  exact absurd (List.mem_range'_1.mp hmem).1 (not_le.mpr hpos)

theorem left_mem (h : Layout left right output wires) {i : ℕ} (hi : i ∈ left.wires) :
    i < wires ∧ i ∉ output.wires :=
  ⟨h.lt_of_mem (by simp) hi, fun hout => (h.disjoint i hout).1 hi⟩

theorem right_mem (h : Layout left right output wires) {i : ℕ} (hi : i ∈ right.wires) :
    i < wires ∧ i ∉ output.wires :=
  ⟨h.lt_of_mem (by simp) hi, fun hout => (h.disjoint i hout).2 hi⟩

/-- What the circuit starts from: all wires but those of the output are there, and those of the
inputs carry bits. -/
def given (h : Layout left right output wires) : Given where
  start := wires
  wires := {i | i < wires ∧ i ∉ output.wires}
  Meets w := w oneWire = 1 ∧ (∀ i ∈ left.wires, w i = 0 ∨ w i = 1) ∧
    ∀ i ∈ right.wires, w i = 0 ∨ w i = 1
  lt_start hi := hi.1
  one_mem := h.one_mem
  one_eq hw := hw.1
  congr := by
    rintro w v ⟨hone, hleft, hright⟩ hwv
    refine ⟨?_, fun i hi => ?_, fun i hi => ?_⟩
    · rwa [hwv oneWire h.one_mem]
    · rw [hwv i (h.left_mem hi)]
      exact hleft i hi
    · rw [hwv i (h.right_mem hi)]
      exact hright i hi

end Layout

section Circuit

variable {g : Given} {R : Set ℕ} {d : Draft}

/-! ### The message schedule -/

theorem builds_scheduleWord (label : String) {words : Array Word} (t : ℕ)
    (hwords : ∀ t, Good g (words.getD t default) d.steps.toList) :
    Builds g R R d (scheduleWord label words t) fun z steps => Good g z steps := by
  unfold scheduleWord
  have hx := hwords (t - 15)
  have hy := hwords (t - 2)
  refine (builds_xor3 _ (hx.rotateRight (by decide)) (hx.rotateRight (by decide))
    (hx.shiftRight 3)).bind fun s0 d₁ hsub₁ hs0 => ?_
  have hy := hy.mono hsub₁
  refine (builds_xor3 _ (hy.rotateRight (by decide)) (hy.rotateRight (by decide))
    (hy.shiftRight 10)).bind fun s1 d₂ hsub₂ hs1 => ?_
  refine builds_sum _ (fun x hx => ?_) (by simp)
  have hold : ∀ t, Good g (words.getD t default) d₂.steps.toList := fun t =>
    (hwords t).mono (List.Subset.trans hsub₁ hsub₂)
  simp only [List.mem_cons, List.not_mem_nil, or_false] at hx
  rcases hx with rfl | rfl | rfl | rfl
  exacts [hold _, hs0.mono hsub₂, hold _, hs1]

/-- A schedule to which a good word is added. -/
theorem good_push {words : Array Word} {x : Word} {steps : List Step}
    (hwords : ∀ t, Good g (words.getD t default) steps) (hx : Good g x steps) (t : ℕ) :
    Good g ((words.push x).getD t default) steps := by
  have ht := hwords t
  rw [Array.getD_eq_getD_getElem?] at ht ⊢
  rw [Array.getElem?_push]
  split
  · exact hx
  · exact ht

theorem builds_schedule (label : String) {block : Array Word}
    (hblock : ∀ t, Good g (block.getD t default) d.steps.toList) :
    Builds g R R d (schedule label block) fun words steps =>
      ∀ t, Good g (words.getD t default) steps := by
  unfold schedule
  refine .foldlM (fun words i _ d' _ hwords => ?_) hblock
  refine (builds_scheduleWord label (i + 16) hwords).bind fun z d₁ hsub hz => ?_
  exact .pure (good_push (fun t => (hwords t).mono hsub) hz)

/-! ### The rounds -/

theorem builds_round (label : String) (t : ℕ) {s : State Word} (k : ℕ) {x : Word}
    (hs : ∀ y ∈ s.toList, Good g y d.steps.toList) (hx : Good g x d.steps.toList) :
    Builds g R R d (round label t s k x) fun s' steps => ∀ y ∈ s'.toList, Good g y steps := by
  simp only [State.toList, List.forall_mem_cons, List.not_mem_nil, false_implies, implies_true,
    and_true] at hs ⊢
  obtain ⟨ha, hb, hc, hd, he, hf, hg, hh⟩ := hs
  unfold round
  refine (builds_xor3 _ (he.rotateRight (by decide)) (he.rotateRight (by decide))
    (he.rotateRight (by decide))).bind fun s1 d₁ hsub₁ hs1 => ?_
  refine (builds_choice _ (he.mono hsub₁) (hf.mono hsub₁) (hg.mono hsub₁)).bind
    fun ch d₂ hsub₂ hch => ?_
  have ha₂ := (ha.mono hsub₁).mono hsub₂
  refine (builds_xor3 _ (ha₂.rotateRight (by decide)) (ha₂.rotateRight (by decide))
    (ha₂.rotateRight (by decide))).bind fun s0 d₃ hsub₃ hs0 => ?_
  have hold₃ := List.Subset.trans hsub₁ (List.Subset.trans hsub₂ hsub₃)
  refine (builds_majority _ (ha.mono hold₃) (hb.mono hold₃) (hc.mono hold₃)).bind
    fun maj d₄ hsub₄ hmaj => ?_
  -- both sums take words from before the round and from all parts of it
  have hold₄ := List.Subset.trans hold₃ hsub₄
  have hs1 := ((hs1.mono hsub₂).mono hsub₃).mono hsub₄
  have hch := (hch.mono hsub₃).mono hsub₄
  have hk : Good g (Word.const k) d₄.steps.toList := Good.const k
  refine (builds_sum _ ?_ (by simp)).bind fun e d₅ hsub₅ he' => ?_
  · simp only [List.forall_mem_cons, List.not_mem_nil, false_implies, implies_true, and_true]
    exact ⟨hd.mono hold₄, hh.mono hold₄, hs1, hch, hk, hx.mono hold₄⟩
  refine (builds_sum _ ?_ (by simp)).bind fun a d₆ hsub₆ ha' => ?_
  · simp only [List.forall_mem_cons, List.not_mem_nil, false_implies, implies_true, and_true]
    exact ⟨(hh.mono hold₄).mono hsub₅, hs1.mono hsub₅, hch.mono hsub₅, Good.const k,
      (hx.mono hold₄).mono hsub₅, (hs0.mono hsub₄).mono hsub₅, hmaj.mono hsub₅⟩
  have hold₆ := List.Subset.trans hold₄ (List.Subset.trans hsub₅ hsub₆)
  exact .pure ⟨ha', ha.mono hold₆, hb.mono hold₆, hc.mono hold₆, he'.mono hsub₆, he.mono hold₆,
    hf.mono hold₆, hg.mono hold₆⟩

theorem builds_rounds (label : String) {words : Array Word} {s : State Word}
    (hwords : ∀ t, Good g (words.getD t default) d.steps.toList)
    (hs : ∀ y ∈ s.toList, Good g y d.steps.toList) :
    Builds g R R d (rounds label words s) fun s' steps => ∀ y ∈ s'.toList, Good g y steps := by
  unfold rounds
  refine .foldlM (fun s p _ d' hsub hs => ?_) hs
  exact builds_round label p.2 p.1 hs ((hwords p.2).mono hsub)

/-! ### The feed-forward -/

/-- The words of the output are used up one after another. -/
theorem builds_finish (label : String) {s : State Word} {output : Digest}
    (hs : ∀ y ∈ s.toList, Good g y d.steps.toList) :
    Builds g (block output.first 256) ∅ d (finish label s output) fun _ _ => True := by
  have hlength : (initialState.zip s.toList).length = 8 := rfl
  have hall := Builds.forM_zipIdx (g := g) (d := d) (k := 0) (l := initialState.zip s.toList)
    (R := fun i => block (output.first + 32 * i) (256 - 32 * i))
    (f := fun p => sumInto [Word.const p.1.1, p.1.2] s!"{label}.out[{p.2}]"
      (output.first + 32 * p.2)) ?_
  · have hfirst : block (output.first + 32 * 0) (256 - 32 * 0) = block output.first 256 := rfl
    have hlast : block (output.first + 32 * (0 + (initialState.zip s.toList).length))
        (256 - 32 * (0 + (initialState.zip s.toList).length)) = ∅ := by
      rw [hlength]
      exact Set.eq_empty_of_forall_notMem fun i hi => absurd hi.2 (by have := hi.1; omega)
    rw [hfirst, hlast] at hall
    exact hall
  · intro p hp d' hsub
    obtain ⟨-, hlt, hget⟩ := List.mem_zipIdx hp
    rw [hlength] at hlt
    have hword : Good g p.1.2 d'.steps.toList := by
      refine (hs _ ?_).mono hsub
      rw [hget]
      exact (List.of_mem_zip (List.getElem_mem _)).2
    refine (builds_sumInto _ ?_ (by simp) (fun i hi => ?_) fun i => ?_).mono
      fun _ _ _ _ => trivial
    · simp only [List.forall_mem_cons, List.not_mem_nil, false_implies, implies_true, and_true]
      exact ⟨Good.const _, hword⟩
    · obtain ⟨hge, hlt'⟩ := hi
      exact ⟨hge, by omega⟩
    · simp only [block, Set.mem_ofPred_eq]
      omega

/-! ### The circuit -/

theorem good_initial {steps : List Step} : ∀ y ∈ initial.toList, Good g y steps := by
  have hinitial : initial.toList = initialState.map Word.const := rfl
  rw [hinitial, List.forall_mem_map]
  exact fun n _ => Good.const n

end Circuit

variable {g : Given} {left right output : Digest} {wires : ℕ}

/-- The wires of two digests of the right size have their values beforehand, and these are bits. -/
structure Starts (g : Given) (left right : Digest) : Prop where
  size_eq : left.size = digestSize ∧ right.size = digestSize
  left_mem : ∀ i ∈ left.wires, i ∈ g.wires
  right_mem : ∀ i ∈ right.wires, i ∈ g.wires
  left_bits : ∀ w, g.Meets w → ∀ i ∈ left.wires, w i = 0 ∨ w i = 1
  right_bits : ∀ w, g.Meets w → ∀ i ∈ right.wires, w i = 0 ∨ w i = 1

/-- The words of the two input digests are given. -/
theorem Starts.good_blockWords (h : Starts g left right) (t : ℕ) :
    Good g ((blockWords left right).getD t default) [] := by
  obtain ⟨hleft, hright⟩ := h.size_eq
  have hword : ∀ d : Digest, d.size = digestSize → (∀ i ∈ d.wires, i ∈ g.wires) →
      (∀ w, g.Meets w → ∀ i ∈ d.wires, w i = 0 ∨ w i = 1) → ∀ k < 8,
        Good g (Word.ofWires (d.first + 32 * k)) [] := by
    intro d hsize hmem hbits k hk
    have hwire : ∀ j < 32, d.first + 32 * k + j ∈ d.wires := fun j hj =>
      List.mem_range'_1.mpr (by rw [hsize, digestSize]; omega)
    exact .ofWires (fun j hj => Or.inl (hmem _ (hwire j hj))) fun w hw _ =>
      exists_carries_ofWires fun j hj => hbits w hw _ (hwire j hj)
  rw [getD_blockWords]
  split
  · next ht => exact hword left hleft h.left_mem h.left_bits t ht
  · split
    · next ht => exact hword right hright h.right_mem h.right_bits _ (by omega)
    · exact Good.default

/-- **The steps of the circuit can be carried out** from the bits of its inputs, and the wires of the
output are used up. -/
theorem Starts.builds_draft (h : Starts g left right) (output : Digest) (label : String) :
    Builds g (block output.first 256) ∅ { next := g.start } (draft left right output label)
      fun _ _ => True := by
  unfold draft
  refine (builds_schedule label h.good_blockWords).bind fun words d₁ _ hwords => ?_
  refine (builds_rounds label hwords good_initial).bind fun s d₂ _ hs => ?_
  exact builds_finish label hs

theorem Layout.starts (h : Layout left right output wires) : Starts h.given left right where
  size_eq := ⟨h.size_eq.1, h.size_eq.2.1⟩
  left_mem _ := h.left_mem
  right_mem _ := h.right_mem
  left_bits _ hw := hw.2.1
  right_bits _ hw := hw.2.2

theorem builds_draft (h : Layout left right output wires) (label : String) :
    Builds h.given (block output.first 256) ∅ { next := wires } (draft left right output label)
      fun _ _ => True := h.starts.builds_draft output label

/-! ### The gadget -/

/-- What is asked of the digests of any gadget suffices for this one. -/
theorem layout_of_layout (h : gadget.Layout left right output wires) :
    Layout left right output wires where
  size_eq := ⟨h.size_eq left (by simp), h.size_eq right (by simp), h.size_eq output (by simp)⟩
  lt_wires d hd := (h.within d hd).2
  pos := (h.within output (by simp)).1
  disjoint i hi := by
    have hnot := Set.disjoint_left.mp h.disjoint (Digest.mem_wires_iff.mp hi)
    exact ⟨fun hl => hnot (Or.inl (Digest.mem_wires_iff.mp hl)),
      fun hr => hnot (Or.inr (Digest.mem_wires_iff.mp hr))⟩

/-- **The gadget computes its witness.**  Wherever it is placed, and whatever values the other wires
have, as soon as the input digests carry bits it meets all its constraints, gives the output digest
the hash of the input digests and changes nothing but its own wires and those of the output. -/
theorem place_complete {left right output : Digest} {board : Board}
    (h : Layout left right output board.values.size) (label : String) :
    ∃ placed board' ks, (gadget.place left right output label).run board = (.ok placed, board')
      ∧ BoardM.Emits placed.constrain ks
      ∧ ∀ state : Board, board'.values.size ≤ state.values.size → state.valueAt oneWire = 1 →
        (∀ i ∈ left.wires, state.valueAt i = 0 ∨ state.valueAt i = 1) →
          (∀ i ∈ right.wires, state.valueAt i = 0 ∨ state.valueAt i = 1) →
            ∃ state', placed.assign.run state = (.ok (), state')
              ∧ state.Rewrites state' {i | i ∈ output.wires
                ∨ board.values.size ≤ i ∧ i < board'.values.size}
              ∧ (∀ k ∈ ks, k.Holds state'.valueAt)
              ∧ ∃ l r out, left.CarriesBytes state.valueAt l ∧ right.CarriesBytes state.valueAt r
                ∧ twoToOne? l r = .ok out ∧ output.CarriesBytes state'.valueAt out := by
  obtain ⟨hleft, hright, houtput⟩ := h.size_eq
  have hbuilds := (builds_draft h label).ensures fun w hw =>
    ensures_bytes hw.1 hleft hright houtput label
  have hreserved : ∀ i ∈ block output.first 256, i < board.values.size ∧ i ∉ h.given.wires := by
    intro i hi
    have hmem : i ∈ output.wires := List.mem_range'_1.mpr (by rw [houtput]; exact hi)
    exact ⟨h.lt_of_mem (by simp) hmem, fun hwires => hwires.2 hmem⟩
  obtain ⟨steps, board', hrun, hcomputable, hknown, -, hvalue⟩ :=
    (hbuilds.mono fun _ _ _ hp => hp).exists_run hreserved (ofSteps label) rfl
  refine ⟨_, board', _, ?_, emits_ofSteps label steps, ?_⟩
  · rw [show gadget.place = place from rfl, place_eq hleft hright houtput]
    exact hrun
  intro state hsize hone hleftBits hrightBits
  obtain ⟨state', hassign, hrewrites, hmeets, hholds⟩ :=
    hcomputable.run ⟨hone, hleftBits, hrightBits⟩ fun i hi => (hknown i hi).trans_le hsize
  refine ⟨state', hassign, hrewrites.mono ?_, fun k hk => ?_, ?_⟩
  · rintro i ⟨hi, hnot⟩
    rw [Set.mem_ofPred_eq, or_iff_not_imp_left]
    exact fun hout => ⟨not_lt.mp fun hlt => hnot ⟨hlt, hout⟩, hknown i hi⟩
  · obtain ⟨s, hs, hk⟩ := List.mem_flatMap.mp hk
    exact hholds s hs k hk
  · obtain ⟨l, r, out, hl, hr, hhash, hout⟩ := hvalue _ hmeets hholds hmeets.2.1 hmeets.2.2
    -- the input digests are not written
    have hkeep : ∀ i ∈ h.given.wires, state'.valueAt i = state.valueAt i := fun i hi =>
      hrewrites.valueAt_eq i fun hwritten => hwritten.2 hi
    exact ⟨l, r, out, hl.congr fun i hi => (hkeep i (h.left_mem hi)).symm,
      hr.congr fun i hi => (hkeep i (h.right_mem hi)).symm, hhash, hout⟩

/-- A board whose wires, other than the constant one, carry zero. -/
def blank (count : ℕ) : Board := ⟨#[1] ++ Array.replicate count 0, #[], #[], 0⟩

theorem size_blank (count : ℕ) : (blank count).values.size = count + 1 := by
  rw [blank, Array.size_append, Array.size_replicate, Nat.add_comm]
  rfl

theorem valueAt_blank_one (count : ℕ) : (blank count).valueAt oneWire = 1 := by
  simp [Board.valueAt, blank, Array.getD_eq_getD_getElem?, oneWire]

theorem valueAt_blank (count : ℕ) {i : ℕ} (hi : i ≠ oneWire) : (blank count).valueAt i = 0 := by
  have hpos : ¬ i < 1 := fun h => hi (Nat.lt_one_iff.mp h)
  simp only [Board.valueAt, blank, Array.getD_eq_getD_getElem?, Array.getElem?_append,
    List.size_toArray, List.length_singleton, if_neg hpos, Array.getElem?_replicate]
  split <;> rfl

theorem layout_blank : gadget.Layout ⟨1, 256, "left"⟩ ⟨257, 256, "right"⟩ ⟨513, 256, "output"⟩
    (blank 768).values.size := by
  rw [size_blank]
  refine ⟨by decide, by decide, Set.disjoint_left.mpr ?_⟩
  rintro i ⟨hge, -⟩ (⟨-, hlt⟩ | ⟨-, hlt⟩)
  · exact absurd (hge.trans_lt hlt) (by decide)
  · exact absurd (hge.trans_lt hlt) (by decide)

/-- The gadget between the first three digests of a board, on a board whose digests are zero. -/
theorem place_complete_blank :
    ∃ placed board' ks state', (gadget.place ⟨1, 256, "left"⟩ ⟨257, 256, "right"⟩
        ⟨513, 256, "output"⟩ "hash").run (blank 768) = (.ok placed, board')
      ∧ BoardM.Emits placed.constrain ks
      ∧ placed.assign.run (blank board'.values.size) = (.ok (), state')
      ∧ ∀ k ∈ ks, k.Holds state'.valueAt := by
  obtain ⟨placed, board', ks, hrun, hemits, hassign⟩ :=
    place_complete (layout_of_layout layout_blank) "hash"
  have hbits : ∀ d : Digest, 0 < d.first → ∀ i ∈ d.wires,
      (blank board'.values.size).valueAt i = 0 ∨ (blank board'.values.size).valueAt i = 1 :=
    fun d hpos i hi =>
      Or.inl (valueAt_blank _ (hpos.trans_le (List.mem_range'_1.mp hi).1).ne')
  obtain ⟨state', hstate, -, hholds, -⟩ := hassign (blank board'.values.size)
    (by rw [size_blank]; omega) (valueAt_blank_one _) (hbits _ (by decide)) (hbits _ (by decide))
  exact ⟨placed, board', ks, state', hrun, hemits, hstate, hholds⟩

end MerkleSnark.Sha256Gadget
