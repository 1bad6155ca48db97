import Mathlib
import MerkleSnark.Circuit.RaggedWord
import MerkleSnark.Proofs.Circuit.Word

/-!
# Lists of thirty-two bits

Where the lists have thirty-two entries the operations on words of any length are those on words:
no bit is missing and every place has a weight, so none of them fails, and the same wires and steps
are drafted.  What is proved about words holds for such lists as well.

## Main results

* `Word.rotateRight_toList`, `Word.shiftRight_toList` — rearranged lists.
* `Word.xor3?_toList`, `Word.choice?_toList`, `Word.majority?_toList` — the bitwise functions.
* `Word.sum?_toList`, `Word.sum?_digest` — sums on fresh and on given wires.
-/

namespace MerkleSnark

namespace RaggedWord

theorem bit_toList (x : Word) (j : Fin 32) : bit x.toList j = pure (x.get j) := by
  have hget : x.toList[j.val]? = some (x.get j) := by
    rw [List.getElem?_eq_getElem (by rw [Vector.length_toList]; exact j.isLt), Vector.getElem_toList]
    rfl
  rw [bit, hget]

/-- Bits none of which fails are drafted one after another, as those of a vector. -/
theorem mapM_range {n : ℕ} {f : ℕ → M LinearCombination} {g : Fin n → DraftM LinearCombination}
    (h : ∀ j : Fin n, f j = liftM (g j)) :
    (List.range n).mapM f = liftM (Vector.toList <$> Vector.ofFnM g) := by
  induction n with
  | zero =>
    rw [Vector.ofFnM_zero]
    rfl
  | succ n ih =>
    rw [List.range_succ, List.mapM_append, ih fun j => h j.castSucc, Vector.ofFnM_succ]
    simp only [List.mapM_cons, List.mapM_nil, map_bind, map_pure, liftM_bind, liftM_map, liftM_pure,
      bind_map_left, bind_assoc, pure_bind, Vector.toList_push]
    -- what is left is the last bit
    rw [← h (Fin.last n)]
    rfl

end RaggedWord

namespace Word

open RaggedWord

theorem splitLast_toList (x : Word) (n : ℕ) :
    splitLast x.toList n = (x.toList.take (32 - n), x.toList.drop (32 - n)) := by
  rw [splitLast, if_neg (by omega), List.splitAt_eq, Vector.length_toList, Int.toNat_natCast]

theorem rotateRight_toList (x : Word) {n : ℕ} (hn : n ≤ 32) :
    RaggedWord.rotateRight x.toList n = (x.rotateRight n).toList := by
  have hlength : x.toList.length = 32 := x.length_toList
  rw [RaggedWord.rotateRight, splitLast_toList, Word.rotateRight, Vector.toList_ofFn]
  refine List.ext_getElem ?_ fun j hj hj' => ?_
  · rw [List.length_append, List.length_drop, List.length_take, hlength, List.length_ofFn]
    omega
  · rw [List.length_ofFn] at hj'
    rw [List.getElem_ofFn]
    -- the first `n` places hold what was dropped at the end
    by_cases hlow : j < n
    · rw [List.getElem_append_left (by rw [List.length_drop, hlength]; omega), List.getElem_drop]
      have hplace : (j + (32 - n)) % 32 = 32 - n + j := by omega
      simp only [hplace]
      exact Vector.getElem_toList _
    · rw [List.getElem_append_right (by rw [List.length_drop, hlength]; omega), List.getElem_take]
      have hplace : (j + (32 - n)) % 32 = j - (x.toList.drop (32 - n)).length := by
        rw [List.length_drop, hlength]
        omega
      simp only [hplace]
      exact Vector.getElem_toList _

theorem shiftRight_toList (x : Word) {n : ℕ} (hpos : 0 < n) (hn : n ≤ 32) :
    RaggedWord.shiftRight x.toList n = (x.shiftRight n).toList := by
  have hlength : x.toList.length = 32 := x.length_toList
  rw [RaggedWord.shiftRight, if_neg (by omega), splitLast_toList, Int.toNat_natCast, Word.shiftRight,
    Vector.toList_ofFn]
  refine List.ext_getElem ?_ fun j hj hj' => ?_
  · rw [List.length_append, List.length_replicate, List.length_take, hlength, List.length_ofFn]
    omega
  · rw [List.getElem_ofFn]
    by_cases hlow : j < n
    · rw [List.getElem_append_left (by rw [List.length_replicate]; exact hlow),
        List.getElem_replicate, if_neg (not_le.mpr hlow)]
    · rw [List.getElem_append_right (by rw [List.length_replicate]; omega), List.getElem_take,
        if_pos (not_lt.mp hlow)]
      simp only [List.length_replicate]
      exact Vector.getElem_toList _

theorem xor3?_toList (x y z : Word) (label : String) :
    xor3? x.toList y.toList z.toList label = liftM (Vector.toList <$> xor3 x y z label) := by
  refine mapM_range fun j => ?_
  simp only [bit_toList, pure_bind]
  exact (liftM_bind _ _).symm

theorem choice?_toList (e f g : Word) (label : String) :
    choice? e.toList f.toList g.toList label = liftM (Vector.toList <$> choice e f g label) := by
  refine mapM_range fun j => ?_
  simp only [bit_toList, pure_bind]
  rfl

theorem majority?_toList (x y z : Word) (label : String) :
    majority? x.toList y.toList z.toList label = liftM (Vector.toList <$> majority x y z label) := by
  refine mapM_range fun j => ?_
  simp only [bit_toList, pure_bind]
  exact (liftM_bind _ _).symm

theorem pack?_toList (words : List Word) :
    pack? (words.map Vector.toList) = .ok (pack (words.map Vector.toList)) := by
  rw [pack?, if_neg]
  simp

theorem toList_ofWires (first : ℕ) :
    (ofWires first).toList = (List.range' first 32).map .var := by
  rw [ofWires, Vector.toList_ofFn, List.range'_eq_map_range, List.map_map, List.ofFn_eq_map]
  rfl

theorem sumInto_eq (words : List Word) (label : String) (result : ℕ) :
    sumInto words label result = (do
      let carry ← DraftM.allocateBlock (label ++ ".carry") (carryBits words.length)
      DraftM.record (.digits (pack (words.map Vector.toList))
        (sumWires result 32 carry (carryBits words.length)) label)) := by
  unfold sumInto sumOn
  rw [toList_range']
  rfl

/-- Sums on given wires. -/
theorem sum?_digest (words : List Word) (label : String) (result : ℕ) (name : String) :
    sum? (words.map Vector.toList) label (some ⟨result, 32, name⟩)
      = liftM (do sumInto words label result; return (ofWires result).toList) := by
  unfold sum?
  rw [List.length_map, pack?_toList, sumInto_eq, toList_ofWires]
  rfl

/-- Sums on fresh wires. -/
theorem sum?_toList (words : List Word) (label : String) :
    sum? (words.map Vector.toList) label none = liftM (Vector.toList <$> sum words label) := by
  unfold sum? sum
  simp only [sumInto_eq, toList_ofWires, map_bind, map_pure]
  rw [List.length_map, pack?_toList]
  rfl

end Word

end MerkleSnark
