import Mathlib
import MerkleSnark.Circuit.Registry
import MerkleSnark.Proofs.Circuit.Digest
import MerkleSnark.Proofs.Sha256.Compress

/-!
# The SHA-256 gadget forces the hash

The circuit is followed part by part next to the compression function.  The words of the message
schedule and of the state carry the numbers that the function computes, whatever the values of the
inner wires are, as long as all constraints hold.

## Main definitions

* `ScheduleCarries`, `StateCarries` — the two relations that the circuit keeps.

## Main results

* `ensures_schedule`, `ensures_rounds`, `ensures_finish` — the three parts.
* `ensures_draft`, `ensures_bytes` — the whole circuit, on words and on bytes.
-/

namespace MerkleSnark.Sha256Gadget

open Sha256 DraftM

variable {w : ℕ → Fr}

/-- The words of an array carry the numbers of another one.  Past the end both are zero. -/
def ScheduleCarries (w : ℕ → Fr) (words : Array Word) (ns : Array ℕ) : Prop :=
  words.size = ns.size ∧ ∀ t, Word.Carries w (words.getD t default) (ns.getD t 0)

/-- The words of a state carry the numbers of another one. -/
structure StateCarries (w : ℕ → Fr) (s : State Word) (n : State ℕ) : Prop where
  a : Word.Carries w s.a n.a
  b : Word.Carries w s.b n.b
  c : Word.Carries w s.c n.c
  d : Word.Carries w s.d n.d
  e : Word.Carries w s.e n.e
  f : Word.Carries w s.f n.f
  g : Word.Carries w s.g n.g
  h : Word.Carries w s.h n.h

theorem StateCarries.bounded {s : State Word} {n : State ℕ} (h : StateCarries w s n) :
    n.Bounded := by
  intro x hx
  simp only [State.toList, List.mem_cons, List.not_mem_nil, or_false] at hx
  rcases hx with rfl | rfl | rfl | rfl | rfl | rfl | rfl | rfl
  exacts [h.a.1, h.b.1, h.c.1, h.d.1, h.e.1, h.f.1, h.g.1, h.h.1]

theorem StateCarries.getD {s : State Word} {n : State ℕ} (h : StateCarries w s n) (i : ℕ) :
    Word.Carries w (s.toList.getD i default) (n.toList.getD i 0) := by
  match i with
  | 0 => exact h.a
  | 1 => exact h.b
  | 2 => exact h.c
  | 3 => exact h.d
  | 4 => exact h.e
  | 5 => exact h.f
  | 6 => exact h.g
  | 7 => exact h.h
  | _ + 8 => exact Word.carries_default

theorem ScheduleCarries.push {words : Array Word} {ns : Array ℕ} (h : ScheduleCarries w words ns)
    {x : Word} {n : ℕ} (hx : Word.Carries w x n) :
    ScheduleCarries w (words.push x) (ns.push n) := by
  refine ⟨by rw [Array.size_push, Array.size_push, h.1], fun t => ?_⟩
  have ht := h.2 t
  rw [Array.getD_eq_getD_getElem?, Array.getD_eq_getD_getElem?] at ht ⊢
  rw [Array.getElem?_push, Array.getElem?_push, h.1]
  by_cases hlast : t = ns.size
  · rw [if_pos hlast, if_pos hlast]
    exact hx
  · rw [if_neg hlast, if_neg hlast]
    exact ht

/-- The words of the block: eight on the wires of either digest, and no others. -/
theorem getD_blockWords (left right : Digest) (t : ℕ) :
    (blockWords left right).getD t default =
      if t < 8 then Word.ofWires (left.first + 32 * t)
      else if t < 16 then Word.ofWires (right.first + 32 * (t - 8)) else default := by
  have hblock : blockWords left right
      = ((List.range 8).map (fun t => Word.ofWires (left.first + 32 * t))
        ++ (List.range 8).map (fun t => Word.ofWires (right.first + 32 * t))).toArray :=
    List.append_toArray _ _
  rw [hblock, Array.getD_eq_getD_getElem?, List.getElem?_toArray, List.getElem?_append,
    List.length_map, List.length_range]
  by_cases hlow : t < 8
  · rw [if_pos hlow, if_pos hlow, List.getElem?_map, List.getElem?_range hlow]
    rfl
  · rw [if_neg hlow, if_neg hlow]
    by_cases hhigh : t < 16
    · rw [if_pos hhigh, List.getElem?_map, List.getElem?_range (by omega)]
      rfl
    · rw [if_neg hhigh, List.getElem?_eq_none (by simp; omega)]
      rfl

/-- The block of two digests. -/
theorem scheduleCarries_blockWords {left right : Digest} {ls rs : List ℕ} (hls : ls.length = 8)
    (hrs : rs.length = 8) (hleft : left.CarriesWords w ls) (hright : right.CarriesWords w rs) :
    ScheduleCarries w (blockWords left right) (ls ++ rs).toArray := by
  refine ⟨by simp [blockWords, hls, hrs], fun t => ?_⟩
  rw [getD_blockWords, Array.getD_eq_getD_getElem?, List.getElem?_toArray, List.getElem?_append,
    hls]
  by_cases hlow : t < 8
  · -- the first eight words are on the left digest
    rw [if_pos hlow, if_pos hlow]
    have hword := hleft.2 t (hls ▸ hlow)
    rwa [List.getD_eq_getElem?_getD] at hword
  · rw [if_neg hlow, if_neg hlow]
    by_cases hhigh : t < 16
    · rw [if_pos hhigh]
      have hword := hright.2 (t - 8) (hrs ▸ by omega)
      rwa [List.getD_eq_getElem?_getD] at hword
    · -- there is no other word
      rw [if_neg hhigh, List.getElem?_eq_none (by omega)]
      exact Word.carries_default

section Circuit

variable (hw : w oneWire = 1)

include hw

/-! ### The message schedule -/

theorem ensures_scheduleWord (label : String) (words : Array Word) (t : ℕ) :
    Ensures w (scheduleWord label words t) fun z => ∀ ns, ScheduleCarries w words ns →
      Word.Carries w z (Sha256.scheduleWord ns t) := by
  unfold scheduleWord
  refine (Word.ensures_xor3 hw _ _ _ _).bind fun s0 => ?_
  refine (Word.ensures_xor3 hw _ _ _ _).bind fun s1 => ?_
  refine (Word.ensures_sum hw _ _ (by simp)).mono ?_
  intro z hz hs1 hs0 ns hns
  have hx := hns.2 (t - 15)
  have hy := hns.2 (t - 2)
  rw [scheduleWord_eq]
  refine hz _ (.cons (hns.2 _) (.cons ?_ (.cons (hns.2 _) (.cons ?_ .nil))))
  · exact hs0 _ _ _ (hx.rotateRight (by decide)) (hx.rotateRight (by decide)) (hx.shiftRight 3)
  · exact hs1 _ _ _ (hy.rotateRight (by decide)) (hy.rotateRight (by decide)) (hy.shiftRight 10)

theorem ensures_schedule (label : String) (block : Array Word) :
    Ensures w (schedule label block) fun words => ∀ bytes : Bytes,
      ScheduleCarries w block (Sha256.blockWords bytes).toArray →
        ScheduleCarries w words (Sha256.schedule bytes) := by
  have hstep : ∀ words i, Ensures w
      (do return Array.push words (← scheduleWord label words (i + 16))) fun words' =>
        ∀ ns, ScheduleCarries w words ns →
          ScheduleCarries w words' (ns.push (Sha256.scheduleWord ns (i + 16))) := by
    intro words i
    refine (ensures_scheduleWord hw label words (i + 16)).bind fun z => ?_
    exact Ensures.pure fun hz ns hns => hns.push (hz ns hns)
  have hfold := Ensures.foldlM hstep (List.range 48) block
  unfold schedule
  refine hfold.mono fun words hwords bytes hblock => ?_
  unfold Sha256.schedule
  exact hwords _ hblock

/-! ### The rounds -/

/-- The relation between the states of the two loops. -/
def CarriesInts (w : ℕ → Fr) (s : State Word) (z : State ℤ) : Prop :=
  ∃ n : State ℕ, z = n.map Nat.cast ∧ StateCarries w s n

theorem ensures_round (label : String) (t : ℕ) (s : State Word) (k : ℕ) (x : Word) :
    Ensures w (round label t s k x) fun s' => ∀ z m, CarriesInts w s z → Word.Carries w x m →
      CarriesInts w s' (Sha256.round z k m) := by
  unfold round
  refine (Word.ensures_xor3 hw _ _ _ _).bind fun s1 => ?_
  refine (Word.ensures_choice hw _ _ _ _).bind fun ch => ?_
  refine (Word.ensures_xor3 hw _ _ _ _).bind fun s0 => ?_
  refine (Word.ensures_majority hw _ _ _ _).bind fun maj => ?_
  refine (Word.ensures_sum hw _ _ (by simp)).bind fun e => ?_
  refine (Word.ensures_sum hw _ _ (by simp)).bind fun a => ?_
  refine Ensures.pure ?_
  intro ha he hmaj hs0 hch hs1 z m hz hm
  obtain ⟨n, rfl, hn⟩ := hz
  have hk := Word.carries_const hw k
  have hS1 := hs1 _ _ _ (hn.e.rotateRight (k := 6) (by decide))
    (hn.e.rotateRight (k := 11) (by decide)) (hn.e.rotateRight (k := 25) (by decide))
  have hS0 := hs0 _ _ _ (hn.a.rotateRight (k := 2) (by decide))
    (hn.a.rotateRight (k := 13) (by decide)) (hn.a.rotateRight (k := 22) (by decide))
  have hCh := hch _ _ _ hn.e hn.f hn.g
  have hMaj := hmaj _ _ _ hn.a hn.b hn.c
  rw [round_natCast hn.bounded]
  refine ⟨_, rfl, ?_⟩
  constructor
  case a =>
    exact ha _ (.cons hn.h (.cons hS1 (.cons hCh (.cons hk (.cons hm (.cons hS0
      (.cons hMaj .nil)))))))
  case e => exact he _ (.cons hn.d (.cons hn.h (.cons hS1 (.cons hCh (.cons hk (.cons hm .nil))))))
  all_goals first | exact hn.a | exact hn.b | exact hn.c | exact hn.e | exact hn.f | exact hn.g

theorem ensures_rounds (label : String) (words : Array Word) (s : State Word) :
    Ensures w (rounds label words s) fun s' => ∀ ns z, CarriesInts w s z →
      ScheduleCarries w words ns →
        CarriesInts w s' (roundConstants.zipIdx.foldl
          (fun s p => Sha256.round s p.1 (ns.getD p.2 0)) z) := by
  refine Ensures.forall_of fun ns => ?_
  have hstep : ∀ (s : State Word) (p : ℕ × ℕ),
      Ensures w (round label p.2 s p.1 (words.getD p.2 default)) fun s' =>
        ∀ z, (ScheduleCarries w words ns → CarriesInts w s z) →
          ScheduleCarries w words ns →
            CarriesInts w s' (Sha256.round z p.1 (ns.getD p.2 0)) := by
    intro s p
    refine (ensures_round hw label p.2 s p.1 _).mono fun s' h z hz hns => ?_
    exact h z _ (hz hns) (hns.2 p.2)
  have hfold := Ensures.foldlM hstep roundConstants.zipIdx s
  unfold rounds
  refine hfold.mono fun s' h z hz hns => ?_
  exact h z (fun _ => hz) hns

/-! ### The feed-forward -/

theorem ensures_finish (label : String) (s : State Word) (output : Digest) :
    Ensures w (finish label s output) fun _ => ∀ n, StateCarries w s n → ∀ i < 8,
      Word.Carries w (Word.ofWires (output.first + 32 * i))
        ((initialState.getD i 0 + n.toList.getD i 0) % 2 ^ 32) := by
  have hstep : ∀ p : (ℕ × Word) × ℕ,
      Ensures w (Word.sumInto [Word.const p.1.1, p.1.2] s!"{label}.out[{p.2}]"
          (output.first + 32 * p.2)) fun _ =>
        ∀ m, Word.Carries w p.1.2 m →
          Word.Carries w (Word.ofWires (output.first + 32 * p.2)) ((p.1.1 + m) % 2 ^ 32) := by
    intro p
    refine (Word.ensures_sumInto hw _ _ _ (by simp)).mono fun _ h m hm => ?_
    have hsum := h _ (.cons (Word.carries_const hw p.1.1) (.cons hm .nil))
    have hmod : [p.1.1 % 2 ^ 32, m].sum % 2 ^ 32 = (p.1.1 + m) % 2 ^ 32 := by
      simp only [List.sum_cons, List.sum_nil]
      omega
    rwa [hmod] at hsum
  have hall := Ensures.forM hstep (initialState.zip s.toList).zipIdx
  unfold finish
  refine hall.mono fun _ h n hn i hi => ?_
  have hget : (initialState.zip s.toList)[i]?
      = some (initialState.getD i 0, s.toList.getD i default) := by
    interval_cases i <;> rfl
  exact h ((initialState.getD i 0, s.toList.getD i default), i)
    (List.mem_zipIdx_iff_getElem?.mpr hget) _ (hn.getD i)

/-! ### The circuit -/

theorem stateCarries_initial {iv : State ℕ} (hiv : iv.toList = initialState) (h : iv.Bounded) :
    StateCarries w initial iv := by
  have hinitial : initial = iv.map Word.const := by
    unfold initial
    rw [← hiv]
    rfl
  have hword : ∀ n ∈ iv.toList, Word.Carries w (Word.const n) n := by
    intro n hn
    have hconst := Word.carries_const hw n
    rwa [Nat.mod_eq_of_lt (h n hn)] at hconst
  simp only [State.toList, List.forall_mem_cons] at hword
  obtain ⟨ha, hb, hc, hd, he, hf, hg, hh, -⟩ := hword
  rw [hinitial]
  exact ⟨ha, hb, hc, hd, he, hf, hg, hh⟩

/-- **The circuit forces the hash.** -/
theorem ensures_draft (left right output : Digest) (label : String) :
    Ensures w (draft left right output label) fun _ => ∀ ls rs : List ℕ, ls.length = 8 →
      rs.length = 8 → left.CarriesWords w ls → right.CarriesWords w rs →
        ∃ out : List ℕ, out.length = 8 ∧
          twoToOne? (ls.flatMap (Bytes.ofNat 4)) (rs.flatMap (Bytes.ofNat 4))
            = .ok (out.flatMap (Bytes.ofNat 4)) ∧
          ∀ i < 8, Word.Carries w (Word.ofWires (output.first + 32 * i)) (out.getD i 0) := by
  obtain ⟨iv, hiv, hbounded⟩ := exists_initialState
  unfold draft
  refine (ensures_schedule hw label _).bind fun words => ?_
  refine (ensures_rounds hw label words initial).bind fun s => ?_
  refine (ensures_finish hw label s output).mono ?_
  intro _ hfinish hrounds hschedule ls rs hls hrs hleft hright
  -- the block that is compressed is made of the words of both digests
  have hblock : Sha256.blockWords (ls.flatMap (Bytes.ofNat 4) ++ rs.flatMap (Bytes.ofNat 4))
      = ls ++ rs := by
    rw [← List.flatMap_append]
    refine blockWords_flatMap fun n hn => ?_
    rcases List.mem_append.mp hn with h | h
    exacts [hleft.lt n h, hright.lt n h]
  have hwords := hschedule (ls.flatMap (Bytes.ofNat 4) ++ rs.flatMap (Bytes.ofNat 4)) (by
    rw [hblock]
    exact scheduleCarries_blockWords hls hrs hleft hright)
  obtain ⟨n, hn, hs⟩ := hrounds _ _ ⟨iv, rfl, stateCarries_initial hw hiv hbounded⟩ hwords
  have hlength : roundConstants.length
      ≤ (Sha256.schedule (ls.flatMap (Bytes.ofNat 4) ++ rs.flatMap (Bytes.ofNat 4))).size := by
    rw [size_schedule, hblock, List.length_append, hls, hrs]
    decide
  refine ⟨(compressState (iv.map Nat.cast)
    (ls.flatMap (Bytes.ofNat 4) ++ rs.flatMap (Bytes.ofNat 4))).toList, rfl, ?_, ?_⟩
  · exact twoToOne?_eq hiv (by rw [length_flatMap_ofNat, hls]) (by rw [length_flatMap_ofNat, hrs])
  · intro i hi
    have hword := hfinish n hs i hi
    unfold compressState
    rw [rounds_eq hlength, hn, feedForward_natCast]
    rw [← hiv] at hword
    interval_cases i <;> exact hword

/-- Digests that carry bits carry bytes, and the output carries their hash. -/
theorem ensures_bytes {left right output : Digest} (hleft : left.size = digestSize)
    (hright : right.size = digestSize) (houtput : output.size = digestSize) (label : String) :
    Ensures w (draft left right output label) fun _ =>
      (∀ i ∈ left.wires, w i = 0 ∨ w i = 1) → (∀ i ∈ right.wires, w i = 0 ∨ w i = 1) →
        ∃ l r out, left.CarriesBytes w l ∧ right.CarriesBytes w r ∧ twoToOne? l r = .ok out
          ∧ output.CarriesBytes w out := by
  refine (ensures_draft hw left right output label).mono fun _ h hleftBits hrightBits => ?_
  obtain ⟨ls, hls, hleftWords⟩ := Digest.exists_carriesWords 8 hleft hleftBits
  obtain ⟨rs, hrs, hrightWords⟩ := Digest.exists_carriesWords 8 hright hrightBits
  obtain ⟨out, hlength, hhash, hwords⟩ := h ls rs hls hrs hleftWords hrightWords
  have houtputWords : output.CarriesWords w out := by
    refine ⟨?_, fun t ht => hwords t (hlength ▸ ht)⟩
    rw [houtput, hlength]
    rfl
  exact ⟨_, _, _, hleftWords.bytes, hrightWords.bytes, hhash, houtputWords.bytes⟩

end Circuit

/-! ### The gadget -/

theorem place_eq {left right output : Digest} (hleft : left.size = digestSize)
    (hright : right.size = digestSize) (houtput : output.size = digestSize) (label : String) :
    place left right output label
      = BoardM.draft (liftM (draft left right output label)) >>= fun p =>
          return ofSteps label p.2 := by
  have hcheck : ∀ d : Digest, d.size = digestSize → checkSize label d = pure () := by
    intro d hd
    unfold checkSize
    exact if_neg (not_not.mpr hd)
  unfold place
  rw [hcheck left hleft, hcheck right hright, hcheck output houtput, pure_bind, pure_bind,
    pure_bind]

theorem emits_ofSteps (label : String) (steps : List Step) :
    BoardM.Emits (ofSteps label steps).constrain (steps.flatMap Step.constraints) :=
  BoardM.emits_forM_addConstraint _

end MerkleSnark.Sha256Gadget
