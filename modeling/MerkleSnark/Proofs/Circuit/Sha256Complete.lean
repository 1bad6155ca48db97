import Mathlib
import MerkleSnark.Proofs.Circuit.Sha256Witness
import MerkleSnark.Proofs.Codec.Packing

/-!
# The SHA-256 gadget is complete and sound

The steps of the circuit read nothing but the constant wire, the input digests and what they have
written themselves, and they write nothing but the output digest and new wires.  So the gadget is
one that trees can be built from, for the hash function read as a function on bits.

## Main definitions

* `Sha256Gadget.hash` — the hash of two blocks of bits.
* `Sha256Gadget.inputs` — the wires that the circuit reads.

## Main results

* `Sha256Gadget.complete` — the gadget is complete for the hash of bits.
* `Sha256Gadget.place_sound` — a placed gadget forces the hash of two digests that carry bits.
-/

namespace MerkleSnark

/-! ### The wires of a step -/

theorem LinearCombination.within_weighted {S : Set ℕ} {bits : List ℕ} (h : ∀ i ∈ bits, i ∈ S) :
    (Step.weighted bits).Within S :=
  Within.foldl (fun _ p hp hx => hx.addTerm (h p.1 (List.fst_mem_of_mem_zipIdx hp)) _) Within.zero

/-- The constraints of a step mention the constant wire and those that it reads or writes. -/
theorem Step.within_constraints {S : Set ℕ} {s : Step} (hone : oneWire ∈ S) (hreads : s.Reads S)
    (hwrites : ∀ i ∈ s.writes, i ∈ S) : ∀ k ∈ s.constraints, k.Within S := by
  intro k hk
  cases s with
  | product out offset x y label =>
    obtain ⟨hoffset, hx, hy⟩ := hreads
    rw [List.mem_singleton.mp hk]
    have hout := LinearCombination.Within.var (hwrites out (List.mem_singleton_self out))
    exact ⟨hx, hy, hout.sub hoffset⟩
  | digits total bits label =>
    rcases List.mem_cons.mp hk with rfl | hk
    · exact ⟨hreads, .const hone 1, LinearCombination.within_weighted hwrites⟩
    · obtain ⟨p, hp, rfl⟩ := List.mem_map.mp hk
      apply Constraint.within_boolean hone
      exact .var (hwrites p.1 (List.fst_mem_of_mem_zipIdx hp))

/-- No step writes a wire that is given. -/
theorem Given.Computable.fresh {g : Given} {steps : List Step} (h : g.Computable steps) :
    ∀ s ∈ steps, ∀ i ∈ s.writes, i ∉ g.wires := by
  induction h with
  | nil => exact fun s hs => absurd hs List.not_mem_nil
  | @snoc steps s h hnext _ ih =>
    intro p hp i hi hgiven
    rcases List.mem_append.mp hp with hp | hp
    · exact ih p hp i hi hgiven
    · rw [List.mem_singleton.mp hp] at hi
      exact hnext.fresh i hi (Or.inl hgiven)

namespace Sha256Gadget

open Sha256

/-- The hash of two blocks of bits. -/
def hash (l r : List Bool) : List Bool :=
  match twoToOne? (bytesOfBits l) (bytesOfBits r) with
  | .ok out => bitsOfBytes out
  | .error _ => []

variable {left right output : Digest} {label : String} {wires : ℕ} {w : ℕ → Fr} {l r : List Bool}
  {d : Draft}

/-- Bits that meet the constraints are hashed. -/
theorem carries_hash (hd : ((draft left right output label).run { next := wires }).2 = d)
    (hleft : left.size = digestSize) (hright : right.size = digestSize)
    (houtput : output.size = digestSize) (hw : w oneWire = 1)
    (hsteps : ∀ s ∈ d.steps.toList, s.Holds w)
    (hl : left.Carries w l) (hr : right.Carries w r) : output.Carries w (hash l r) := by
  rw [← hd] at hsteps
  obtain ⟨_, _, out, hleftBytes, hrightBytes, hhash, hout⟩ :=
    (ensures_bytes hw hleft hright houtput label _).2 hsteps hl.eq_zero_or_one hr.eq_zero_or_one
  unfold hash
  rw [← hleftBytes.eq_bytesOfBits hl, ← hrightBytes.eq_bytesOfBits hr, hhash]
  exact hout.carries

/-! ### The wires that the circuit reads and writes -/

namespace Layout

variable (h : Layout left right output wires)

/-- What the circuit reads: the constant wire and those of the inputs, which carry bits. -/
def inputs : Given where
  start := wires
  wires := {i | i = oneWire ∨ i ∈ left.wires ∨ i ∈ right.wires}
  Meets := h.given.Meets
  lt_start := by
    rintro i (rfl | hi | hi)
    exacts [h.one_mem.1, (h.left_mem hi).1, (h.right_mem hi).1]
  one_mem := Or.inl rfl
  one_eq := h.given.one_eq
  congr := by
    rintro w v ⟨hone, hleft, hright⟩ hwv
    refine ⟨?_, fun i hi => ?_, fun i hi => ?_⟩
    · rwa [hwv oneWire (Or.inl rfl)]
    · rw [hwv i (Or.inr (Or.inl hi))]
      exact hleft i hi
    · rw [hwv i (Or.inr (Or.inr hi))]
      exact hright i hi

theorem starts_inputs : Starts h.inputs left right where
  size_eq := ⟨h.size_eq.1, h.size_eq.2.1⟩
  left_mem _ hi := Or.inr (Or.inl hi)
  right_mem _ hi := Or.inr (Or.inr hi)
  left_bits _ hw := hw.2.1
  right_bits _ hw := hw.2.2

include h

theorem mem_output {i : ℕ} (hi : i ∈ block output.first 256) : i ∈ output.wires := by
  unfold Digest.wires
  rw [h.size_eq.2.2]
  exact List.mem_range'_1.mpr hi

variable (hd : ((draft left right output label).run { next := wires }).2 = d)
include hd

/-- The steps can be carried out once the inputs carry bits, and no wire is left over. -/
theorem ready_inputs : d.Ready h.inputs ∅ := by
  have hbuilds := h.starts_inputs.builds_draft output label
  obtain ⟨hready, -⟩ := hbuilds.computable (p := fun _ => True) fun i hi => by
    have hmem := h.mem_output hi
    refine ⟨h.lt_of_mem (by simp) hmem, ?_⟩
    rintro (rfl | hi | hi)
    exacts [h.one_mem.2 hmem, (h.left_mem hi).2 hmem, (h.right_mem hi).2 hmem]
  rw [show h.inputs.start = wires from rfl, hd] at hready
  exact hready

/-- The steps write the output and new wires. -/
theorem mem_of_writes {s : Step} (hs : s ∈ d.steps.toList) {i : ℕ} (hi : i ∈ s.writes) :
    i ∈ output.wires ∨ wires ≤ i ∧ i < wires + d.labels.size := by
  obtain ⟨hready, -⟩ := (builds_draft h label).computable (p := fun _ => True) fun i hi =>
    ⟨h.lt_of_mem (by simp) (h.mem_output hi), fun hgiven => hgiven.2 (h.mem_output hi)⟩
  rw [show h.given.start = wires from rfl, hd] at hready
  have hlt := hready.lt_next i (Or.inr ⟨s, hs, hi⟩)
  have hfresh := hready.computable.fresh s hs i hi
  rw [hready.next_eq] at hlt
  by_cases hwires : i < wires
  · exact Or.inl (not_not.mp fun hout => hfresh ⟨hwires, hout⟩)
  · exact Or.inr ⟨not_lt.mp hwires, hlt⟩

end Layout

/-! ### The gadget -/

/-- The recorded steps do what is asked of a gadget. -/
theorem fulfills_ofSteps (h : gadget.Layout left right output wires)
    (hd : ((draft left right output label).run { next := wires }).2 = d) :
    (ofSteps label d.steps.toList).Fulfills hash left right output
      (Set.Ico wires (wires + d.labels.size)) := by
  have hlayout := layout_of_layout h
  obtain ⟨hleft, hright, houtput⟩ := hlayout.size_eq
  set steps := d.steps.toList
  set inner := Set.Ico wires (wires + d.labels.size)
  have hcomputable : hlayout.inputs.Computable steps := (hlayout.ready_inputs hd).computable
  have hwritten : ∀ s ∈ steps, ∀ i ∈ s.writes, i ∈ output.span ∪ inner := by
    intro s hs i hi
    rcases hlayout.mem_of_writes hd hs hi with hout | hinner
    · exact Or.inl (Digest.mem_wires_iff.mp hout)
    · exact Or.inr hinner
  have hknown : hlayout.inputs.known steps
      ⊆ {oneWire} ∪ left.span ∪ right.span ∪ (output.span ∪ inner) := by
    rintro i ((rfl | hi | hi) | ⟨s, hs, hi⟩)
    · exact Or.inl (Or.inl (Or.inl rfl))
    · exact Or.inl (Or.inl (Or.inr (Digest.mem_wires_iff.mp hi)))
    · exact Or.inl (Or.inr (Digest.mem_wires_iff.mp hi))
    · exact Or.inr (hwritten s hs i hi)
  refine ⟨_, emits_ofSteps label steps, fun k hk => ?_, fun state hstate hone l r hl hr => ?_⟩
  · obtain ⟨s, hs, hk⟩ := List.mem_flatMap.mp hk
    refine Constraint.Within.mono (Step.within_constraints (Or.inl hlayout.inputs.one_mem) ?_ ?_ k hk)
      hknown
    · exact hcomputable.reads s hs
    · exact fun i hi => Or.inr ⟨s, hs, hi⟩
  · have hsize : ∀ i ∈ hlayout.inputs.known steps, i < state.values.size := by
      intro i hi
      rcases hknown hi with ((rfl | hi) | hi) | hi
      · -- the constant wire comes before those of the output
        have hfirst := hstate output.first
          (Or.inr (Or.inl ⟨le_rfl, by rw [houtput, digestSize]; omega⟩))
        exact (Nat.zero_le _).trans_lt hfirst
      · exact hstate i (Or.inl (Or.inl hi))
      · exact hstate i (Or.inl (Or.inr hi))
      · exact hstate i (Or.inr hi)
    obtain ⟨state', hrun, hrewrites, hmeets, hholds⟩ :=
      hcomputable.run ⟨hone, hl.eq_zero_or_one, hr.eq_zero_or_one⟩ hsize
    -- the inputs are not written, so what is hashed are the bits from before
    have hkeep : ∀ i ∈ hlayout.inputs.wires, state'.valueAt i = state.valueAt i := fun i hi =>
      hrewrites.valueAt_eq i fun hmem => hmem.2 hi
    refine ⟨state', hrun, hrewrites.mono ?_, fun k hk => ?_, ?_⟩
    · rintro i ⟨hi | ⟨s, hs, hi⟩, hnot⟩
      · exact absurd hi hnot
      · exact hwritten s hs i hi
    · obtain ⟨s, hs, hk⟩ := List.mem_flatMap.mp hk
      exact hholds s hs k hk
    · apply carries_hash hd hleft hright houtput hmeets.1 hholds
      · exact hl.congr fun i hi => hkeep i (Or.inr (Or.inl (Digest.mem_wires_iff.mpr hi)))
      · exact hr.congr fun i hi => hkeep i (Or.inr (Or.inr (Digest.mem_wires_iff.mpr hi)))

/-! ### The placed gadget -/

/-- Placing the gadget records the steps of its draft, whose wires are the next ones. -/
theorem exists_run_place (hleft : left.size = digestSize) (hright : right.size = digestSize)
    (houtput : output.size = digestSize) (label : String) (board : Board) : ∃ d labels,
      ((draft left right output label).run { next := board.values.size }).2 = d
        ∧ (gadget.place left right output label).run board
          = (.ok (ofSteps label d.steps.toList),
            { board with
              values := board.values ++ Array.replicate d.labels.size (0 : Fr)
              labels := labels }) := by
  obtain ⟨labels, hrun⟩ :=
    BoardM.run_draft (draft left right output label) (ofSteps label) board
  rw [← place_eq hleft hright houtput] at hrun
  exact ⟨_, labels, rfl, hrun⟩

/-- **The gadget is complete for the hash of bits.** -/
theorem complete : gadget.Complete hash := by
  intro left right output label board h
  obtain ⟨hleft, hright, houtput⟩ := (layout_of_layout h).size_eq
  obtain ⟨d, labels, hd, hrun⟩ := exists_run_place hleft hright houtput label board
  refine ⟨_, _, hrun, .of_append board _ labels, ?_⟩
  rw [Array.size_append, Array.size_replicate]
  exact fulfills_ofSteps h hd

/-- **Soundness of the gadget.**  Wherever it is placed, its constraints force the output digest to
carry the hash of the input digests as soon as these carry bits. -/
theorem place_sound {left right output : Digest} (hleft : left.size = digestSize)
    (hright : right.size = digestSize) (houtput : output.size = digestSize) (label : String)
    (board : Board) :
    ∃ placed board' ks, (gadget.place left right output label).run board = (.ok placed, board')
      ∧ BoardM.Emits placed.constrain ks
      ∧ ∀ w : ℕ → Fr, w oneWire = 1 → (∀ k ∈ ks, k.Holds w) →
        (∀ i ∈ left.wires, w i = 0 ∨ w i = 1) → (∀ i ∈ right.wires, w i = 0 ∨ w i = 1) →
          (∀ i ∈ output.wires, w i = 0 ∨ w i = 1) ∧
            ∃ l r out, left.CarriesBytes w l ∧ right.CarriesBytes w r
              ∧ twoToOne? l r = .ok out ∧ output.CarriesBytes w out := by
  obtain ⟨d, labels, hd, hrun⟩ := exists_run_place hleft hright houtput label board
  refine ⟨_, _, _, hrun, emits_ofSteps _ _, ?_⟩
  intro w hw hks hleftBits hrightBits
  have hsteps : ∀ s ∈ ((draft left right output label).run
      { next := board.values.size }).2.steps.toList, s.Holds w := by
    rw [hd]
    exact fun s hs k hk => hks k (List.mem_flatMap.mpr ⟨s, hs, hk⟩)
  obtain ⟨l, r, out, hl, hr, hhash, hout⟩ :=
    (ensures_bytes hw hleft hright houtput label _).2 hsteps hleftBits hrightBits
  exact ⟨hout.eq_zero_or_one, l, r, out, hl, hr, hhash, hout⟩

/-- A digest of zeros. -/
theorem carries_blank {count : ℕ} {d : Digest} (hpos : 0 < d.first) :
    d.Carries (blank count).valueAt (List.replicate d.size false) := by
  refine Digest.carries_iff.mpr ⟨List.length_replicate, fun i hi => ?_⟩
  rw [valueAt_blank count (show d.first + i ≠ oneWire from (Nat.add_pos_left hpos i).ne'),
    List.getD_eq_getElem?_getD, List.getElem?_replicate_of_lt hi]
  rfl

/-- The gadget between three digests of zeros, with the values that it computes. -/
theorem place_sound_blank :
    ∃ placed board' ks w, (gadget.place ⟨1, 256, "left"⟩ ⟨257, 256, "right"⟩
        ⟨513, 256, "output"⟩ "hash").run (blank 768) = (.ok placed, board')
      ∧ BoardM.Emits placed.constrain ks ∧ w oneWire = 1 ∧ (∀ k ∈ ks, k.Holds w)
      ∧ (∀ i ∈ (⟨1, 256, "left"⟩ : Digest).wires, w i = 0 ∨ w i = 1)
      ∧ (∀ i ∈ (⟨257, 256, "right"⟩ : Digest).wires, w i = 0 ∨ w i = 1)
      ∧ (∀ i ∈ (⟨513, 256, "output"⟩ : Digest).wires, w i = 0 ∨ w i = 1)
      ∧ ∃ l r out, (⟨1, 256, "left"⟩ : Digest).CarriesBytes w l
        ∧ (⟨257, 256, "right"⟩ : Digest).CarriesBytes w r ∧ twoToOne? l r = .ok out
        ∧ (⟨513, 256, "output"⟩ : Digest).CarriesBytes w out := by
  obtain ⟨placed, board', ks, hrun, hemits, hforces⟩ :=
    place_sound (show Digest.size ⟨1, 256, "left"⟩ = digestSize from rfl)
      (show Digest.size ⟨257, 256, "right"⟩ = digestSize from rfl)
      (show Digest.size ⟨513, 256, "output"⟩ = digestSize from rfl) "hash" (blank 768)
  obtain ⟨placed', board'', hrun', hallocates, ks', hemits', -, hassign⟩ :=
    complete _ _ _ "hash" (blank 768) layout_blank
  obtain ⟨hok, rfl⟩ := Prod.mk.inj (hrun'.symm.trans hrun)
  obtain rfl := Except.ok.inj hok
  obtain rfl := hemits'.unique hemits
  have hlarge : 769 ≤ board''.values.size := (size_blank 768).ge.trans hallocates.size_le
  have hthere : ∀ i ∈ (⟨1, 256, "left"⟩ : Digest).span ∪ (⟨257, 256, "right"⟩ : Digest).span
      ∪ ((⟨513, 256, "output"⟩ : Digest).span
        ∪ Set.Ico (blank 768).values.size board''.values.size),
      i < (blank board''.values.size).values.size := by
    rw [size_blank board''.values.size]
    rintro i ((⟨-, hlt⟩ | ⟨-, hlt⟩) | ⟨-, hlt⟩ | ⟨-, hlt⟩)
    · have : i < 257 := hlt
      omega
    · have : i < 513 := hlt
      omega
    · have : i < 769 := hlt
      omega
    · exact Nat.lt_succ_of_lt hlt
  obtain ⟨state, -, hrewrites, hholds, -⟩ := hassign (blank board''.values.size) hthere
    (valueAt_blank_one _) _ _ (carries_blank Nat.one_pos) (carries_blank (by decide))
  -- the wires up to the output are not written
  have hkeep : ∀ i < 513, state.valueAt i = (blank board''.values.size).valueAt i := by
    refine fun i hi => hrewrites.valueAt_eq i ?_
    rintro (⟨hge, -⟩ | ⟨hge, -⟩)
    · exact absurd hge (not_le.mpr hi)
    · rw [size_blank] at hge
      omega
  have hbits {d : Digest} (hpos : 0 < d.first) (hle : d.first + d.size ≤ 513) :
      ∀ i ∈ d.wires, state.valueAt i = 0 ∨ state.valueAt i = 1 :=
    ((carries_blank hpos).congr fun i hi => hkeep i (hi.2.trans_le hle)).eq_zero_or_one
  have hone : state.valueAt oneWire = 1 :=
    (hkeep oneWire (by decide)).trans (valueAt_blank_one _)
  have hleft := hbits (d := ⟨1, 256, "left"⟩) (by decide) (by decide)
  have hright := hbits (d := ⟨257, 256, "right"⟩) (by decide) (by decide)
  exact ⟨placed', board'', ks', state.valueAt, hrun, hemits, hone, hholds, hleft, hright,
    hforces _ hone hholds hleft hright⟩

end Sha256Gadget

end MerkleSnark
