import Mathlib
import MerkleSnark.Codec.Encoder
import MerkleSnark.Proofs.Codec.Bits

/-!
# Reading back what was written

A decoder reads a value from some bytes when it consumes just these, whatever follows them.  Reads
compose like the decoders themselves, so every encoder of a part has one lemma that its decoder
reads it back, and an artifact is put together from these.

## Main definitions

* `Decoder.Reads` — a decoder consumes some bytes and gives a value.
* `Decoder.Finishes` — the same for the last bytes there are.

## Main results

* `Reads.bind`, `Reads.finish` — one part after another.
* `Reads.times`, `reads_counted` — lists.
* `reads_count`, `reads_scalar`, `reads_header` — the parts that all artifacts share.
-/

namespace MerkleSnark

/-- Both halves of a computation that gives a result give one. -/
theorem exists_of_bind_eq_ok {ε α β : Type} {x : Except ε α} {f : α → Except ε β} {b : β}
    (h : (x >>= f) = .ok b) : ∃ a, x = .ok a ∧ f a = .ok b := by
  cases x with
  | error e => cases h
  | ok a => exact ⟨a, rfl, h⟩

namespace Decoder

variable {α β : Type} {d : Decoder α} {f : α → Decoder β} {bs bs' : Bytes} {a : α} {b : β}

/-- The decoder consumes the bytes and gives the value, whatever follows. -/
def Reads (d : Decoder α) (bs : Bytes) (a : α) : Prop :=
  ∀ rest offset, ExceptT.run d ⟨bs ++ rest, offset⟩ = (.ok a, ⟨rest, offset + bs.length⟩)

/-- The decoder consumes all there is and gives the value. -/
def Finishes (d : Decoder α) (bs : Bytes) (a : α) : Prop :=
  ∀ offset, ExceptT.run d ⟨bs, offset⟩ = (.ok a, ⟨[], offset + bs.length⟩)

theorem run_bind_ok {s s' : ByteReader} (h : ExceptT.run d s = (.ok a, s')) (f : α → Decoder β) :
    ExceptT.run (d >>= f) s = ExceptT.run (f a) s' := by
  change (match ExceptT.run d s with
    | (x, t) => ExceptT.bindCont f x t) = _
  rw [h]
  rfl

theorem Reads.pure (a : α) : Reads (pure a) [] a := fun _ _ => rfl

theorem Reads.bind (h : Reads d bs a) (h' : Reads (f a) bs' b) :
    Reads (d >>= f) (bs ++ bs') b := by
  intro rest offset
  rw [List.append_assoc, run_bind_ok (h _ _), h', List.length_append, Nat.add_assoc]

/-- The last part that consumes anything. -/
theorem Reads.last (h : Reads d bs a) (h' : Reads (f a) [] b) : Reads (d >>= f) bs b := by
  have hboth := h.bind h'
  rwa [List.append_nil] at hboth

theorem Reads.map (h : Reads d bs a) (g : α → β) :
    Reads (d >>= fun a => Pure.pure (g a)) bs (g a) := h.last (.pure (g a))

theorem Finishes.pure (a : α) : Finishes (Pure.pure a) [] a := fun _ => rfl

theorem Reads.finish (h : Reads d bs a) (h' : Finishes (f a) bs' b) :
    Finishes (d >>= f) (bs ++ bs') b := by
  intro offset
  rw [run_bind_ok (h _ _), h', List.length_append, Nat.add_assoc]

/-- The last part that consumes anything, of the whole input. -/
theorem Reads.finishLast (h : Reads d bs a) (h' : Finishes (f a) [] b) :
    Finishes (d >>= f) bs b := by
  have hboth := h.finish h'
  rwa [List.append_nil] at hboth

theorem Finishes.atEnd {f : Unit → Decoder β} (h : Finishes (f ()) [] b) :
    Finishes (atEnd >>= f) [] b := fun offset => h offset

theorem Finishes.run_eq (h : Finishes d bs a) : d.run bs = .ok a := congrArg Prod.fst (h 0)

/-! ### Bytes and numbers -/

theorem reads_bytes (bs : Bytes) : Reads (bytes bs.length) bs bs := by
  intro rest offset
  have htake : (bs ++ rest).take bs.length = bs := List.take_left
  have hdrop : (bs ++ rest).drop bs.length = rest := List.drop_left
  change ExceptT.run (if ((bs ++ rest).take bs.length).length < bs.length then _ else _ :
    Decoder Bytes) ⟨bs ++ rest, offset⟩ = _
  rw [htake, if_neg (lt_irrefl _)]
  change ((Except.ok bs : Except DecodeError Bytes),
    (⟨(bs ++ rest).drop bs.length, offset + bs.length⟩ : ByteReader)) = _
  rw [hdrop]

theorem reads_uint {size n : ℕ} (h : n < 256 ^ size) :
    Reads (uint size) (Bytes.ofNat size n) n := by
  have hread := (reads_bytes (Bytes.ofNat size n)).map Bytes.toNat
  rw [Bytes.length_ofNat, Bytes.toNat_ofNat, Nat.mod_eq_of_lt h] at hread
  exact hread

theorem reads_count {n : ℕ} (h : Encode.count n = .ok bs) : Reads count bs n := by
  unfold Encode.count at h
  split at h
  · next hn =>
    obtain rfl := Except.ok.inj h
    exact reads_uint hn
  · cases h

theorem reads_scalar (x : Fr) : Reads scalar (Encode.scalar x) x := by
  have hlt : x.val < 256 ^ 32 := x.val_lt.trans (by decide)
  refine (reads_uint hlt).last ?_
  rw [dif_pos x.val_lt]
  exact .pure x

/-! ### Lists -/

/-- Values that are read from their encodings one after another. -/
theorem Reads.times {bss : List Bytes} {as : List α}
    (h : List.Forall₂ (fun bs a => Reads d bs a) bss as) :
    Reads (times d bss.length) bss.flatten as := by
  induction h with
  | nil => exact .pure []
  | @cons bs a bss as hhead htail ih =>
    rw [List.length_cons, List.flatten_cons]
    exact hhead.bind (ih.map (a :: ·))

/-- Values that are read from encodings that were made one after another. -/
theorem reads_of_mapM {encode : β → Except EncodeError Bytes} {g : β → α} {values : List β}
    {bss : List Bytes} (hitem : ∀ x ∈ values, ∀ bs, encode x = .ok bs → Reads d bs (g x))
    (h : values.mapM encode = .ok bss) :
    Reads (times d values.length) bss.flatten (values.map g) := by
  induction values generalizing bss with
  | nil =>
    cases h
    exact .pure []
  | cons x values ih =>
    rw [List.mapM_cons] at h
    obtain ⟨bs, hhead, h⟩ := exists_of_bind_eq_ok h
    obtain ⟨rest, htail, h⟩ := exists_of_bind_eq_ok h
    cases h
    have hrest := ih (fun y hy => hitem y (List.mem_cons_of_mem x hy)) htail
    rw [List.length_cons, List.flatten_cons, List.map_cons]
    exact (hitem x List.mem_cons_self bs hhead).bind (hrest.map (g x :: ·))

/-- A counted list, when something that is said of every value stays true of what is read back. -/
theorem reads_counted {κ : Type} {item : β → Bytes} {R : α → κ → Prop} {values : List β}
    {ks : List κ} (hitem : List.Forall₂ (fun x k => ∃ a, Reads d (item x) a ∧ R a k) values ks)
    (h : Encode.counted item values = .ok bs) :
    ∃ as, Reads (counted d) bs as ∧ List.Forall₂ R as ks := by
  have hread : ∃ as, List.Forall₂ (fun bs a => Reads d bs a) (values.map item) as
      ∧ List.Forall₂ R as ks := by
    clear h
    induction hitem with
    | nil => exact ⟨[], .nil, .nil⟩
    | cons hhead _ ih =>
      obtain ⟨a, ha, hR⟩ := hhead
      obtain ⟨as, has, hRs⟩ := ih
      exact ⟨a :: as, .cons ha has, .cons hR hRs⟩
  obtain ⟨as, has, hR⟩ := hread
  refine ⟨as, ?_, hR⟩
  unfold Encode.counted at h
  obtain ⟨front, hcount, h⟩ := exists_of_bind_eq_ok h
  obtain rfl := Except.ok.inj h
  have htimes := Reads.times has
  rw [List.length_map, ← List.flatMap_def] at htimes
  exact (reads_count hcount).bind htimes

/-! ### Headers -/

theorem reads_header {kind : ArtifactKind} (h : Encode.header kind = .ok bs) :
    Reads (header kind) bs () := by
  unfold Encode.header at h
  split at h
  · next hcode =>
    obtain rfl := Except.ok.inj h
    obtain ⟨hpos, hlt⟩ := hcode
    have hkind : (kind.code.toNat.toUInt8.toNat : ℤ) = kind.code := by
      rw [Bytes.toNat_toUInt8, Nat.mod_eq_of_lt (by omega), Int.toNat_of_nonneg hpos]
    have htail : Reads (bytes 2) [kind.code.toNat.toUInt8, formatVersion.toUInt8]
        [kind.code.toNat.toUInt8, formatVersion.toUInt8] := reads_bytes _
    have hmagic : Reads (bytes 4) artifactMagic artifactMagic := reads_bytes _
    refine hmagic.bind (?_ : Reads _ _ ())
    rw [if_pos rfl]
    refine htail.last ?_
    have hread : (⟨(kind.code.toNat.toUInt8.toNat : ℤ)⟩ : ArtifactKind) = kind :=
      congrArg ArtifactKind.mk hkind
    have hversion : formatVersion.toUInt8.toNat = formatVersion := by decide
    simp only [List.getD_cons_zero, List.getD_cons_succ, hread, hversion, ne_eq,
      not_true_eq_false, if_false]
    exact .pure ()
  · cases h

end Decoder

end MerkleSnark
