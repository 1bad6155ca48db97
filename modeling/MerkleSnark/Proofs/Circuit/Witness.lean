import Mathlib
import MerkleSnark.Proofs.Circuit.Assign
import MerkleSnark.Proofs.Circuit.Word

/-!
# Drafts whose steps can be carried out

While a circuit is drafted, its steps can be carried out in their order at any time: each reads
wires that are known by then and writes wires that are not.  The wires that a later step is going to
write are reserved until then, so that nothing in between can make them known.  `Builds R R' d m
post` follows one computation from a draft that reserves `R` to one that reserves `R'`; its
postcondition speaks about the result and the steps recorded by then, and stays true when more are
recorded.

## Main definitions

* `Draft.Ready` — the steps can be carried out, and the reserved wires are still free.
* `DraftM.Builds` — a computation keeps a draft ready.
* `Word.Good` — the bits of a word are known, and they are bits.

## Main results

* `Builds.bind`, `Builds.ofFnM`, `Builds.foldlM`, `Builds.forM_zipIdx` — rules for composed drafts.
* `builds_product`, `builds_xor3`, `builds_choice`, `builds_majority` — what is built from products.
* `builds_sumOn`, `builds_sumInto`, `builds_sum` — a packed sum has enough digits.
-/

namespace MerkleSnark

open LinearCombination

/-- Consecutive wires. -/
def block (first count : ℕ) : Set ℕ := {i | first ≤ i ∧ i < first + count}

/-- The steps can be carried out, no wire is known before it is allocated, and the reserved wires
are those that are allocated but not known. -/
structure Draft.Ready (g : Given) (R : Set ℕ) (d : Draft) : Prop where
  /-- Every wire of the draft has a name. -/
  next_eq : d.next = g.start + d.labels.size
  /-- The steps can be carried out. -/
  computable : g.Computable d.steps.toList
  /-- Known wires are allocated. -/
  lt_next : ∀ i ∈ g.known d.steps.toList, i < d.next
  /-- Reserved wires are allocated and not known. -/
  reserved : ∀ i ∈ R, i < d.next ∧ i ∉ g.known d.steps.toList
  /-- The wires of the draft are known or reserved. -/
  covered : ∀ i, g.start ≤ i → i < d.next → i ∈ R ∨ i ∈ g.known d.steps.toList

/-- A draft is ready before anything is drafted. -/
theorem Draft.Ready.start {g : Given} {R : Set ℕ} (hR : ∀ i ∈ R, i < g.start ∧ i ∉ g.wires) :
    Draft.Ready g R { next := g.start } := by
  have hnil : ∀ i, i ∈ g.known [] → i ∈ g.wires := by
    rintro i (hi | ⟨s, hs, -⟩)
    exacts [hi, absurd hs List.not_mem_nil]
  exact ⟨rfl, .nil, fun i hi => g.lt_start (hnil i hi), fun i hi => ⟨(hR i hi).1, fun hknown =>
    (hR i hi).2 (hnil i hknown)⟩, fun i hge hlt => absurd hlt (not_lt.mpr hge)⟩

/-- Wires that are allocated are free. -/
theorem Draft.Ready.allocate {g : Given} {R : Set ℕ} {d d' : Draft} {count : ℕ}
    (hd : d.Ready g R) (hlabels : d'.labels.size = d.labels.size + count)
    (hnext : d'.next = d.next + count) (hsteps : d'.steps = d.steps) :
    d'.Ready g (R ∪ block d.next count) := by
  refine ⟨?_, hsteps ▸ hd.computable, fun i hi => ?_, fun i hi => ?_, fun i hge hlt => ?_⟩
  · rw [hnext, hlabels, hd.next_eq, Nat.add_assoc]
  · rw [hsteps] at hi
    have hlt := hd.lt_next i hi
    omega
  · rw [hsteps, hnext]
    rcases hi with hi | ⟨hge, hlt⟩
    · obtain ⟨hlt, hnot⟩ := hd.reserved i hi
      exact ⟨by omega, hnot⟩
    · exact ⟨hlt, fun hknown => by have := hd.lt_next i hknown; omega⟩
  · rw [hnext] at hlt
    rw [hsteps]
    by_cases hold : i < d.next
    · exact (hd.covered i hge hold).imp_left Or.inl
    · exact Or.inl (Or.inr ⟨not_lt.mp hold, hlt⟩)

namespace DraftM

variable {g : Given} {R R' R'' : Set ℕ} {d : Draft} {α β ι : Type}

/-- From a draft that reserves `R` the computation leads to one that reserves `R'`, with more steps
and a result as described. -/
def Builds (g : Given) (R R' : Set ℕ) (d : Draft) (m : DraftM α) (post : α → List Step → Prop) :
    Prop :=
  d.Ready g R → (m.run d).2.Ready g R' ∧ d.steps.toList ⊆ (m.run d).2.steps.toList ∧
    post (m.run d).1 (m.run d).2.steps.toList

namespace Builds

theorem mono {m : DraftM α} {p q : α → List Step → Prop} (h : Builds g R R' d m p)
    (hpq : ∀ a steps, d.steps.toList ⊆ steps → p a steps → q a steps) : Builds g R R' d m q := by
  intro hd
  obtain ⟨hready, hsub, hp⟩ := h hd
  exact ⟨hready, hsub, hpq _ _ hsub hp⟩

/-- The draft may be assumed to be ready. -/
theorem of_ready {m : DraftM α} {p : α → List Step → Prop}
    (h : d.Ready g R → Builds g R R' d m p) : Builds g R R' d m p := fun hd => h hd hd

theorem pure {a : α} {p : α → List Step → Prop} (h : p a d.steps.toList) :
    Builds g R R d (pure a) p := by
  intro hd
  exact ⟨hd, List.Subset.refl _, h⟩

theorem bind {m : DraftM α} {f : α → DraftM β} {p : α → List Step → Prop}
    {q : β → List Step → Prop} (hm : Builds g R R' d m p)
    (hf : ∀ a d', d.steps.toList ⊆ d'.steps.toList → p a d'.steps.toList →
      Builds g R' R'' d' (f a) q) : Builds g R R'' d (m >>= f) q := by
  intro hd
  obtain ⟨hready, hsub, hp⟩ := hm hd
  obtain ⟨hready', hsub', hq⟩ := hf _ _ hsub hp hready
  exact ⟨hready', fun s hs => hsub' (hsub hs), hq⟩

/-- What the steps force, they force about the result of a computation that builds them. -/
theorem ensures {m : DraftM α} {p : α → List Step → Prop} {q : (ℕ → Fr) → α → Prop}
    (h : Builds g R R' d m p) (hm : ∀ w, g.Meets w → Ensures w m (q w)) :
    Builds g R R' d m fun a steps => p a steps ∧
      ∀ w, g.Meets w → (∀ s ∈ steps, s.Holds w) → q w a := by
  intro hd
  obtain ⟨hready, hsub, hp⟩ := h hd
  exact ⟨hready, hsub, hp, fun w hw hholds => (hm w hw d).2 hholds⟩

/-- Entries that are drafted one after another. -/
theorem ofFnM {n : ℕ} {f : Fin n → DraftM α} {p : α → List Step → Prop}
    (hp : ∀ {a steps steps'}, steps ⊆ steps' → p a steps → p a steps')
    (h : ∀ i d', d.steps.toList ⊆ d'.steps.toList → Builds g R R d' (f i) p) :
    Builds g R R d (Vector.ofFnM f) fun v steps => ∀ a ∈ v, p a steps := by
  induction n with
  | zero =>
    rw [Vector.ofFnM_zero]
    exact pure fun a ha => absurd ha (Vector.not_mem_empty a)
  | succ n ih =>
    rw [Vector.ofFnM_succ]
    refine (ih fun i => h i.castSucc).bind fun v d₁ hsub hv => ?_
    refine (h (Fin.last n) d₁ hsub).bind fun a d₂ hsub' ha => ?_
    refine pure fun b hb => ?_
    rcases Vector.mem_push.mp hb with hb | rfl
    · exact hp hsub' (hv b hb)
    · exact ha

/-- A fold keeps what every step keeps. -/
theorem foldlM {f : β → ι → DraftM β} {I : β → List Step → Prop} {l : List ι} {b : β}
    (h : ∀ b, ∀ i ∈ l, ∀ d', d.steps.toList ⊆ d'.steps.toList → I b d'.steps.toList →
      Builds g R R d' (f b i) I) (hb : I b d.steps.toList) :
    Builds g R R d (l.foldlM f b) I := by
  induction l generalizing b d with
  | nil =>
    rw [List.foldlM_nil]
    exact pure hb
  | cons i l ih =>
    rw [List.foldlM_cons]
    refine (h b i List.mem_cons_self d (List.Subset.refl _) hb).bind fun b' d₁ hsub hb' => ?_
    refine ih (fun b j hj d' hsub' => ?_) hb'
    exact h b j (List.mem_cons_of_mem i hj) d' (List.Subset.trans hsub hsub')

/-- Numbered computations that use up what is reserved. -/
theorem forM_zipIdx {f : α × ℕ → DraftM PUnit} {R : ℕ → Set ℕ} {l : List α} {k : ℕ}
    (h : ∀ p ∈ l.zipIdx k, ∀ d', d.steps.toList ⊆ d'.steps.toList →
      Builds g (R p.2) (R (p.2 + 1)) d' (f p) fun _ _ => True) :
    Builds g (R k) (R (k + l.length)) d ((l.zipIdx k).forM f) fun _ _ => True := by
  induction l generalizing k d with
  | nil => exact pure trivial
  | cons a l ih =>
    rw [List.zipIdx_cons, List.length_cons, Nat.add_comm l.length, ← Nat.add_assoc]
    show Builds g (R k) _ d (f (a, k) >>= fun _ => (l.zipIdx (k + 1)).forM f) _
    rw [List.zipIdx_cons] at h
    refine (h (a, k) List.mem_cons_self d (List.Subset.refl _)).bind fun _ d₁ hsub _ => ?_
    refine ih fun p hp d' hsub' => ?_
    exact h p (List.mem_cons_of_mem _ hp) d' (List.Subset.trans hsub hsub')

end Builds

/-! ### Wires and steps -/

theorem size_foldl_push (name : ι → String) (l : List ι) (labels : Array String) :
    (l.foldl (fun ls i => ls.push (name i)) labels).size = labels.size + l.length := by
  induction l generalizing labels with
  | nil => rfl
  | cons i l ih =>
    rw [List.foldl_cons, ih, Array.size_push, List.length_cons]
    omega

theorem builds_allocate (label : String) :
    Builds g R (R ∪ block d.next 1) d (allocate label)
      fun out _ => out = d.next := by
  intro hd
  exact ⟨hd.allocate (Array.size_push label) rfl rfl, List.Subset.refl _, rfl⟩

theorem builds_allocateBlock (label : String) (count : ℕ) :
    Builds g R (R ∪ block d.next count) d (allocateBlock label count)
      fun first _ => first = d.next := by
  intro hd
  refine ⟨hd.allocate ?_ rfl rfl, List.Subset.refl _, rfl⟩
  exact (size_foldl_push _ _ _).trans (by rw [List.length_range])

/-- A step may be recorded whose wires are reserved. -/
theorem builds_record {s : Step} (hreads : s.Reads (g.known d.steps.toList))
    (hnodup : s.writes.Nodup) (hshort : s.Short) (hwrites : ∀ i ∈ s.writes, i ∈ R)
    (hR : ∀ i, i ∈ R' ↔ i ∈ R ∧ i ∉ s.writes)
    (hfits : ∀ w, g.Meets w → (∀ p ∈ d.steps.toList, p.Holds w) → s.Fits w) :
    Builds g R R' d (record s) fun _ steps => ∀ i ∈ s.writes, i ∈ g.known steps := by
  intro hd
  have hsteps : ((record s).run d).2.steps.toList = d.steps.toList ++ [s] := Array.toList_push
  have hknown : ∀ i, i ∈ g.known ((record s).run d).2.steps.toList ↔
      i ∈ g.known d.steps.toList ∨ i ∈ s.writes := by
    intro i
    rw [hsteps]
    exact Given.mem_known_snoc
  refine ⟨⟨hd.next_eq, ?_, fun i hi => ?_, fun i hi => ?_, fun i hge hlt => ?_⟩, ?_, fun i hi => ?_⟩
  · rw [hsteps]
    exact hd.computable.snoc
      ⟨hreads, hnodup, fun i hi => (hd.reserved i (hwrites i hi)).2, hshort⟩ hfits
  · rcases (hknown i).mp hi with hi | hi
    · exact hd.lt_next i hi
    · exact (hd.reserved i (hwrites i hi)).1
  · obtain ⟨hreserved, hnot⟩ := (hR i).mp hi
    obtain ⟨hlt, hfresh⟩ := hd.reserved i hreserved
    exact ⟨hlt, fun h => ((hknown i).mp h).elim hfresh hnot⟩
  · rcases hd.covered i hge hlt with hi | hi
    · by_cases hwritten : i ∈ s.writes
      · exact Or.inr ((hknown i).mpr (Or.inr hwritten))
      · exact Or.inl ((hR i).mpr ⟨hi, hwritten⟩)
    · exact Or.inr ((hknown i).mpr (Or.inl hi))
  · rw [hsteps]
    exact List.subset_append_left _ _
  · exact (hknown i).mpr (Or.inr hi)

/-- A computation that uses up all reserved wires records steps that can be carried out. -/
theorem Builds.computable {m : DraftM α} {p : List Step → Prop}
    (h : Builds g R ∅ { next := g.start } m fun _ steps => p steps)
    (hR : ∀ i ∈ R, i < g.start ∧ i ∉ g.wires) :
    (m.run { next := g.start }).2.Ready g ∅ ∧ p (m.run { next := g.start }).2.steps.toList := by
  obtain ⟨hready, -, hp⟩ := h (.start hR)
  exact ⟨hready, hp⟩

/-- A computation that uses up all reserved wires, run on a board. -/
theorem Builds.exists_run {m : DraftM α} {p : List Step → Prop}
    (h : Builds g R ∅ { next := g.start } m fun _ steps => p steps)
    (hR : ∀ i ∈ R, i < g.start ∧ i ∉ g.wires) (f : List Step → β) {board : Board}
    (hstart : board.values.size = g.start) :
    ∃ steps board',
      (BoardM.draft (liftM m : ExceptT BoardError DraftM α) >>= fun q => return f q.2).run board
        = (.ok (f steps), board') ∧
      g.Computable steps ∧ (∀ i ∈ g.known steps, i < board'.values.size) ∧ p steps := by
  obtain ⟨hready, hp⟩ := h.computable hR
  obtain ⟨labels, hrun⟩ := BoardM.run_draft m f board
  rw [hstart] at hrun
  refine ⟨_, _, hrun, hready.computable, fun i hi => ?_, hp⟩
  rw [Array.size_append, Array.size_replicate, hstart, ← hready.next_eq]
  exact hready.lt_next i hi

/-! ### Products -/

/-- A product is known as soon as its parts are. -/
theorem builds_product {offset x y : LinearCombination} {label : String}
    (hoffset : offset.Within (g.known d.steps.toList)) (hx : x.Within (g.known d.steps.toList))
    (hy : y.Within (g.known d.steps.toList)) :
    Builds g R R d (product offset x y label) fun z steps => z.Within (g.known steps) := by
  unfold product
  split
  · exact .pure (hoffset.add (hy.scale _))
  · split
    · exact .pure (hoffset.add (hx.scale _))
    · refine .of_ready fun hd => (builds_allocate label).bind fun out d' hsub hout => ?_
      have hknown := Given.known_mono (g := g) hsub
      have hreads : (Step.product out offset x y label).Reads (g.known d'.steps.toList) :=
        ⟨hoffset.mono hknown, hx.mono hknown, hy.mono hknown⟩
      have hrecord : Builds g (R ∪ block d.next 1) R d' (record (.product out offset x y label))
          fun _ steps => ∀ i ∈ [out], i ∈ g.known steps := by
        refine builds_record hreads (List.nodup_singleton out) trivial (fun i hi => ?_)
          (fun i => ⟨fun hi => ⟨Or.inl hi, fun h => (hd.reserved i hi).1.ne ?_⟩, ?_⟩)
          fun _ _ _ => trivial
        · rw [List.mem_singleton.mp hi, hout]
          exact Or.inr ⟨le_rfl, Nat.lt_succ_self _⟩
        · rw [List.mem_singleton.mp h, hout]
        · rintro ⟨hi | ⟨hge, hlt⟩, hne⟩
          · exact hi
          · refine absurd (List.mem_singleton.mpr ?_) hne
            omega
      refine hrecord.bind fun _ d'' _ hwrites => ?_
      exact .pure (Within.var (hwrites out (List.mem_singleton_self out)))

theorem builds_xor {x y : LinearCombination} {label : String}
    (hx : x.Within (g.known d.steps.toList)) (hy : y.Within (g.known d.steps.toList)) :
    Builds g R R d (xor x y label) fun z steps => z.Within (g.known steps) :=
  builds_product (hx.add hy) (hx.scale _) hy

end DraftM

/-! ### Words -/

namespace Word

open DraftM

variable {g : Given} {R R' : Set ℕ} {d : Draft} {steps steps' : List Step} {x y z : Word}

/-- The bits of the word are known, and they are the digits of a number whenever the steps hold. -/
structure Good (g : Given) (x : Word) (steps : List Step) : Prop where
  /-- The bits are known. -/
  within : ∀ a ∈ x, a.Within (g.known steps)
  /-- They are digits. -/
  carries : ∀ w, g.Meets w → (∀ s ∈ steps, s.Holds w) → ∃ n, Carries w x n

namespace Good

theorem mono (h : x.Good g steps) (hsub : steps ⊆ steps') : x.Good g steps' :=
  ⟨fun a ha => (h.within a ha).mono (Given.known_mono hsub),
    fun w hw hholds => h.carries w hw fun s hs => hholds s (hsub hs)⟩

theorem default : Good g default steps := by
  refine ⟨fun a ha => ?_, fun w _ _ => ⟨0, carries_default⟩⟩
  rw [(Vector.mem_replicate.mp ha).2]
  exact Within.zero

theorem const (n : ℕ) : Good g (const n) steps := by
  refine ⟨fun a ha => ?_, fun w hw _ => ⟨_, carries_const (g.one_eq hw) n⟩⟩
  obtain ⟨j, rfl⟩ := Vector.mem_ofFn.mp ha
  exact Within.const (Or.inl g.one_mem) _

theorem rotateRight (h : x.Good g steps) {k : ℕ} (hk : k ≤ 32) : (x.rotateRight k).Good g steps := by
  refine ⟨fun a ha => ?_, fun w hw hholds => ?_⟩
  · obtain ⟨j, rfl⟩ := Vector.mem_ofFn.mp ha
    exact h.within _ (Vector.getElem_mem _)
  · obtain ⟨n, hn⟩ := h.carries w hw hholds
    exact ⟨_, hn.rotateRight hk⟩

theorem shiftRight (h : x.Good g steps) (k : ℕ) : (x.shiftRight k).Good g steps := by
  refine ⟨fun a ha => ?_, fun w hw hholds => ?_⟩
  · obtain ⟨j, rfl⟩ := Vector.mem_ofFn.mp ha
    split
    · exact h.within _ (Vector.getElem_mem _)
    · exact Within.zero
  · obtain ⟨n, hn⟩ := h.carries w hw hholds
    exact ⟨_, hn.shiftRight k⟩

/-- Consecutive wires that are known and carry bits. -/
theorem ofWires {first : ℕ} (hknown : ∀ j < 32, first + j ∈ g.known steps)
    (h : ∀ w, g.Meets w → (∀ s ∈ steps, s.Holds w) → ∃ n, Carries w (ofWires first) n) :
    (ofWires first).Good g steps := by
  refine ⟨fun a ha => ?_, h⟩
  obtain ⟨j, rfl⟩ := Vector.mem_ofFn.mp ha
  exact Within.var (hknown j j.isLt)

end Good

/-! ### Bitwise functions -/

/-- A function that gives known bits for good words gives a good word when it computes a function of
their numbers. -/
theorem builds_bitwise {m : DraftM Word} {op : ℕ → ℕ → ℕ → ℕ}
    (hbits : Builds g R R d m fun r steps => ∀ a ∈ r, a.Within (g.known steps))
    (hvalue : ∀ w, g.Meets w → Ensures w m fun r =>
      ∀ a b c, Carries w x a → Carries w y b → Carries w z c → Carries w r (op a b c))
    (hx : x.Good g d.steps.toList) (hy : y.Good g d.steps.toList) (hz : z.Good g d.steps.toList) :
    Builds g R R d m fun r steps => Good g r steps := by
  refine (hbits.ensures hvalue).mono fun r steps hsub hr => ?_
  refine ⟨hr.1, fun w hw hholds => ?_⟩
  obtain ⟨a, ha⟩ := (hx.mono hsub).carries w hw hholds
  obtain ⟨b, hb⟩ := (hy.mono hsub).carries w hw hholds
  obtain ⟨c, hc⟩ := (hz.mono hsub).carries w hw hholds
  exact ⟨_, hr.2 w hw hholds a b c ha hb hc⟩

/-- Known bits stay known. -/
theorem within_known_mono {a : LinearCombination} (hsub : steps ⊆ steps')
    (ha : a.Within (g.known steps)) : a.Within (g.known steps') :=
  ha.mono (Given.known_mono hsub)

theorem builds_xor3 (label : String) (hx : x.Good g d.steps.toList) (hy : y.Good g d.steps.toList)
    (hz : z.Good g d.steps.toList) :
    Builds g R R d (xor3 x y z label) fun r steps => Good g r steps := by
  refine builds_bitwise ?_ (fun w hw => ensures_xor3 (g.one_eq hw) x y z label) hx hy hz
  refine .ofFnM within_known_mono fun j d' hsub => ?_
  have hx := (hx.mono hsub).within _ (Vector.getElem_mem j.isLt)
  have hy := (hy.mono hsub).within _ (Vector.getElem_mem j.isLt)
  have hz := (hz.mono hsub).within _ (Vector.getElem_mem j.isLt)
  unfold xor3Bit
  refine (builds_xor hx hy).bind fun t d₁ hsub₁ ht => ?_
  exact builds_xor ht (within_known_mono hsub₁ hz)

theorem builds_choice (label : String) (hx : x.Good g d.steps.toList)
    (hy : y.Good g d.steps.toList) (hz : z.Good g d.steps.toList) :
    Builds g R R d (choice x y z label) fun r steps => Good g r steps := by
  refine builds_bitwise ?_ (fun w hw => ensures_choice (g.one_eq hw) x y z label) hx hy hz
  refine .ofFnM within_known_mono fun j d' hsub => ?_
  have hx := (hx.mono hsub).within _ (Vector.getElem_mem j.isLt)
  have hy := (hy.mono hsub).within _ (Vector.getElem_mem j.isLt)
  have hz := (hz.mono hsub).within _ (Vector.getElem_mem j.isLt)
  exact builds_product hz hx (hy.sub hz)

theorem builds_majority (label : String) (hx : x.Good g d.steps.toList)
    (hy : y.Good g d.steps.toList) (hz : z.Good g d.steps.toList) :
    Builds g R R d (majority x y z label) fun r steps => Good g r steps := by
  refine builds_bitwise ?_ (fun w hw => ensures_majority (g.one_eq hw) x y z label) hx hy hz
  refine .ofFnM within_known_mono fun j d' hsub => ?_
  have hx := (hx.mono hsub).within _ (Vector.getElem_mem j.isLt)
  have hy := (hy.mono hsub).within _ (Vector.getElem_mem j.isLt)
  have hz := (hz.mono hsub).within _ (Vector.getElem_mem j.isLt)
  unfold majorityBit
  refine (builds_product Within.zero hy hz).bind fun t d₁ hsub₁ ht => ?_
  have hknown := Given.known_mono (g := g) hsub₁
  exact builds_product ht (hx.mono hknown) (((hy.add hz).mono hknown).sub (ht.scale _))

/-! ### Sums -/

theorem within_pack {S : Set ℕ} {words : List (List LinearCombination)}
    (h : ∀ word ∈ words, ∀ x ∈ word, x.Within S) : (pack words).Within S := by
  unfold pack
  refine Within.foldl (fun total word hword htotal => ?_) Within.zero
  refine Within.foldl (fun x p hp hx => ?_) htotal
  have hentry := h word hword p.1 (List.fst_mem_of_mem_zipIdx hp)
  unfold addMultiple
  exact Within.foldl (fun y t ht hy => hy.addTerm (hentry t ht) _) hx

theorem mem_digitWires {wires : List ℕ} {carry count i : ℕ} :
    i ∈ digitWires wires carry count ↔ i ∈ wires ∨ i ∈ block carry count := by
  rw [digitWires, List.mem_append, List.mem_reverse, List.mem_range'_1]
  rfl

theorem nodup_digitWires {wires : List ℕ} {carry : ℕ} (hwires : wires.Nodup)
    (h : ∀ i ∈ wires, i < carry) (count : ℕ) : (digitWires wires carry count).Nodup := by
  refine List.nodup_append.mpr ⟨List.nodup_reverse.mpr hwires, List.nodup_range', ?_⟩
  intro i hi j hj
  have hlt := h i (List.mem_reverse.mp hi)
  have hge := (List.mem_range'_1.mp hj).1
  omega

theorem mem_range'_iff {first i : ℕ} : i ∈ Vector.range' first 32 ↔ i ∈ block first 32 := by
  rw [← Vector.mem_toList_iff, toList_range', List.mem_range'_1]
  rfl

/-- There are enough digits for a sum of words that carry numbers. -/
theorem fits_digits {words : List Word} {result : Vector ℕ 32} {carry : ℕ} {label : String}
    {w : ℕ → Fr} {ns : List ℕ} (hns : List.Forall₂ (Carries w) words ns) :
    (Step.digits (pack (words.map Vector.toList))
      (digitWires result.toList carry (carryBits words.length)) label).Fits w := by
  show ((pack (words.map Vector.toList)).eval w).val < 2 ^ (digitWires _ _ _).length
  rw [eval_pack hns, Residue.val_natCast, length_digitWires, Vector.length_toList]
  exact (Nat.mod_le _ _).trans_lt (sum_lt_of_carries hns)

/-- Good words carry numbers, all together. -/
theorem exists_forall₂_carries {words : List Word} (h : ∀ x ∈ words, Good g x steps) {w : ℕ → Fr}
    (hw : g.Meets w) (hholds : ∀ s ∈ steps, s.Holds w) :
    ∃ ns, List.Forall₂ (Carries w) words ns := by
  induction words with
  | nil => exact ⟨[], .nil⟩
  | cons x words ih =>
    obtain ⟨n, hn⟩ := (h x List.mem_cons_self).carries w hw hholds
    obtain ⟨ns, hns⟩ := ih fun y hy => h y (List.mem_cons_of_mem x hy)
    exact ⟨n :: ns, .cons hn hns⟩

/-- **A sum on given wires.**  The wires that it is given are reserved before it and used by it, and
with the carry they are enough for every sum of good words. -/
theorem builds_sumOn {words : List Word} (label : String) {result : Vector ℕ 32}
    (hwords : ∀ x ∈ words, Good g x d.steps.toList)
    (hmany : words.length * (2 ^ 32 - 1) < 2 ^ 253) (hnodup : result.toList.Nodup)
    (hresult : ∀ i ∈ result, i ∈ R) (hR : ∀ i, i ∈ R' ↔ i ∈ R ∧ i ∉ result) :
    Builds g R R' d (sumOn words label result) fun _ steps => ∀ i ∈ result, i ∈ g.known steps := by
  refine .of_ready fun hd => ?_
  unfold sumOn
  refine (builds_allocateBlock _ _).bind fun carry d' hsub hcarry => ?_
  subst hcarry
  -- the wires of the result are older than those of the carry
  have hlt : ∀ i ∈ result.toList, i < d.next := fun i hi =>
    (hd.reserved i (hresult i (Vector.mem_toList_iff.mp hi))).1
  refine (builds_record (s := .digits _ _ label) ?_
    (nodup_digitWires hnodup hlt (carryBits words.length)) ?_ (fun i hi => ?_)
    (fun i => ⟨fun hi => ?_, ?_⟩) fun w hw hholds => ?_).mono fun _ steps _ hwrites i hi => ?_
  · refine within_pack fun word hword x hx => ?_
    obtain ⟨y, hy, rfl⟩ := List.mem_map.mp hword
    exact ((hwords y hy).mono hsub).within x (Vector.mem_toList_iff.mp hx)
  · show 2 ^ (digitWires _ _ _).length ≤ scalarOrder
    rw [length_digitWires, Vector.length_toList]
    exact two_pow_le_scalarOrder hmany
  · exact (mem_digitWires.mp hi).imp (fun h => hresult i (Vector.mem_toList_iff.mp h)) id
  · obtain ⟨hreserved, hblock⟩ := (hR i).mp hi
    refine ⟨Or.inl hreserved, fun h => ?_⟩
    rcases mem_digitWires.mp h with h | h
    · exact hblock (Vector.mem_toList_iff.mp h)
    · exact absurd h.1 (hd.reserved i hreserved).1.not_ge
  · rintro ⟨hi | hi, hnot⟩
    · exact (hR i).mpr ⟨hi, fun h => hnot (mem_digitWires.mpr (Or.inl (Vector.mem_toList_iff.mpr h)))⟩
    · exact absurd (mem_digitWires.mpr (Or.inr hi)) hnot
  · obtain ⟨ns, hns⟩ := exists_forall₂_carries (fun x hx => (hwords x hx).mono hsub) hw hholds
    exact fits_digits hns
  · exact hwrites i (mem_digitWires.mpr (Or.inl (Vector.mem_toList_iff.mpr hi)))

/-- A sum on consecutive wires that are given. -/
theorem builds_sumInto {words : List Word} (label : String) {result : ℕ}
    (hwords : ∀ x ∈ words, Good g x d.steps.toList)
    (hmany : words.length * (2 ^ 32 - 1) < 2 ^ 253)
    (hresult : block result 32 ⊆ R) (hR : ∀ i, i ∈ R' ↔ i ∈ R ∧ i ∉ block result 32) :
    Builds g R R' d (sumInto words label result) fun _ steps => (ofWires result).Good g steps := by
  have hbuilds : Builds g R R' d (sumInto words label result) fun _ steps =>
      ∀ i ∈ Vector.range' result 32, i ∈ g.known steps :=
    builds_sumOn label hwords hmany (by rw [toList_range']; exact List.nodup_range')
      (fun i hi => hresult (mem_range'_iff.mp hi))
      fun i => (hR i).trans (and_congr_right fun _ => not_congr mem_range'_iff.symm)
  refine (hbuilds.ensures fun w hw => ensures_sumInto (g.one_eq hw) words label result hmany).mono ?_
  rintro _ steps hsub ⟨hknown, hcarries⟩
  refine .ofWires (fun j hj => hknown _ (mem_range'_iff.mpr ⟨by omega, by omega⟩)) fun w hw hholds => ?_
  obtain ⟨ns, hns⟩ := exists_forall₂_carries (fun x hx => (hwords x hx).mono hsub) hw hholds
  exact ⟨_, hcarries w hw hholds ns hns⟩

/-- A sum on fresh wires. -/
theorem builds_sum {words : List Word} (label : String)
    (hwords : ∀ x ∈ words, Good g x d.steps.toList)
    (hmany : words.length * (2 ^ 32 - 1) < 2 ^ 253) :
    Builds g R R d (sum words label) fun z steps => Good g z steps := by
  refine .of_ready fun hd => ?_
  unfold sum
  refine (builds_allocateBlock _ _).bind fun result d' hsub hfirst => ?_
  subst hfirst
  have hinto : Builds g (R ∪ block d.next 32) R d' (sumInto words label d.next) fun _ steps =>
      (ofWires d.next).Good g steps := by
    refine builds_sumInto label (fun x hx => (hwords x hx).mono hsub) hmany Set.subset_union_right
      fun i => ⟨fun hi => ⟨Or.inl hi, fun hblock => ?_⟩, fun hi => hi.1.resolve_right hi.2⟩
    exact absurd hblock.1 (hd.reserved i hi).1.not_ge
  refine hinto.bind fun _ d'' _ hgood => ?_
  exact .pure hgood

end Word

end MerkleSnark
