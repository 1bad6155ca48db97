import Mathlib
import MerkleSnark.Proofs.Codec.Decoder
import MerkleSnark.Proofs.Codec.Format

/-!
# What decoders accept

A decoder recognizes a relation between bytes and values when it gives a value just from the bytes
that stand for it.  One half is that it reads these bytes, whatever follows; the other that whatever
it consumed stands for the value it gave.

## Main definitions

* `Decoder.Recognizes` — a decoder accepts just the bytes that stand for a value.
* `Decoder.Proper` — a decoder blames the bytes for a failure, never its caller.

## Main results

* `Recognizes.spelled_bind`, `Proper.bind` — one part after another.
* `recognizes_uint`, `recognizes_scalar`, `recognizes_counted`, `recognizes_header` — the parts that
  all artifacts share.
-/

namespace MerkleSnark.Decoder

variable {α β : Type} {d : Decoder α} {f : α → Decoder β} {s s' : ByteReader} {a : α} {b : β}

/-- Both halves of a reader that gives a value give one. -/
theorem exists_of_run_bind_eq_ok (h : ExceptT.run (d >>= f) s = (.ok b, s')) :
    ∃ a t, ExceptT.run d s = (.ok a, t) ∧ ExceptT.run (f a) t = (.ok b, s') := by
  change (match ExceptT.run d s with
    | (x, t) => ExceptT.bindCont f x t) = _ at h
  match hd : ExceptT.run d s, h with
  | (.ok a, t), h => exact ⟨a, t, rfl, h⟩
  | (.error e, t), h => cases h

theorem eq_of_run_pure {a a' : α} (h : ExceptT.run (pure a : Decoder α) s = (.ok a', s')) :
    a = a' ∧ s = s' := by
  cases h
  exact ⟨rfl, rfl⟩

theorem run_throw_ne_ok (e : DecodeError) : ExceptT.run (throw e : Decoder α) s ≠ (.ok a, s') :=
  fun h => nomatch h

theorem run_throw_bind_ne_ok (e : DecodeError) :
    ExceptT.run (throw e >>= f) s ≠ (.ok b, s') := fun h => nomatch h

/-- The decoder accepts just the bytes that stand for a value. -/
structure Recognizes (d : Decoder α) (F : Bytes → α → Prop) : Prop where
  /-- Bytes that stand for a value are read as that value. -/
  reads : ∀ {bs a}, F bs a → Reads d bs a
  /-- What was consumed stands for the value. -/
  spelled : ∀ {s s' a}, ExceptT.run d s = (.ok a, s') → ∃ bs, F bs a ∧ s.rest = bs ++ s'.rest

/-- What the first part of a reader consumed stands for the value it hands on. -/
theorem Recognizes.spelled_bind {F : Bytes → α → Prop} (hd : Recognizes d F)
    (h : ExceptT.run (d >>= f) s = (.ok b, s')) :
    ∃ bs a t, F bs a ∧ s.rest = bs ++ t.rest ∧ ExceptT.run (f a) t = (.ok b, s') := by
  obtain ⟨a, t, hfirst, h⟩ := exists_of_run_bind_eq_ok h
  obtain ⟨bs, hbs, hrest⟩ := hd.spelled hfirst
  exact ⟨bs, a, t, hbs, hrest, h⟩

/-- A reader of the whole input accepts just the bytes that stand for a value. -/
theorem run_eq_ok_iff {bs : Bytes} {F : Bytes → α → Prop} (hreads : F bs a → Finishes d bs a)
    (hspelled : ∀ s', ExceptT.run d ⟨bs, 0⟩ = (.ok a, s') → F bs a) :
    d.run bs = .ok a ↔ F bs a :=
  ⟨fun h => hspelled (ExceptT.run d ⟨bs, 0⟩).2 (Prod.ext h rfl), fun h => (hreads h).run_eq⟩

/-! ### Bytes and numbers -/

theorem recognizes_bytes (size : ℕ) :
    Recognizes (bytes size) (fun bs chunk => bs.length = size ∧ bs = chunk) where
  reads := by
    rintro bs _ ⟨rfl, rfl⟩
    exact reads_bytes bs
  spelled := by
    intro s s' chunk h
    obtain ⟨rest, offset⟩ := s
    change ExceptT.run (if (rest.take size).length < size then _ else _ : Decoder Bytes) _ = _ at h
    split at h
    · exact absurd h (run_throw_ne_ok _)
    · next hsize =>
      cases h
      have hlength : (rest.take size).length = size :=
        le_antisymm (List.length_take_le size rest) (not_lt.mp hsize)
      exact ⟨rest.take size, ⟨hlength, rfl⟩, (List.take_append_drop size rest).symm⟩

theorem recognizes_uint (size : ℕ) : Recognizes (uint size) (Spells.uint size) where
  reads := by
    rintro bs n ⟨rfl, rfl⟩
    exact (reads_bytes bs).map Bytes.toNat
  spelled := by
    intro s s' n h
    obtain ⟨bs, chunk, t, ⟨hlength, rfl⟩, hrest, h⟩ := (recognizes_bytes size).spelled_bind h
    obtain ⟨rfl, rfl⟩ := eq_of_run_pure h
    exact ⟨bs, ⟨hlength, rfl⟩, hrest⟩

theorem recognizes_scalar : Recognizes scalar Spells.scalar where
  reads := by
    intro bs x h
    refine ((recognizes_uint 32).reads h).last ?_
    rw [dif_pos x.val_lt]
    exact .pure x
  spelled := by
    intro s s' x h
    obtain ⟨bs, value, t, hvalue, hrest, h⟩ := (recognizes_uint 32).spelled_bind h
    split at h
    · obtain ⟨rfl, rfl⟩ := eq_of_run_pure h
      exact ⟨bs, hvalue, hrest⟩
    · exact absurd h (run_throw_ne_ok _)

/-! ### Lists -/

/-- A number of values, by induction on that number. -/
theorem spelled_times {F : Bytes → α → Prop} (hd : Recognizes d F) {n : ℕ} {as : List α}
    (h : ExceptT.run (times d n) s = (.ok as, s')) :
    ∃ bss, List.Forall₂ F bss as ∧ as.length = n ∧ s.rest = bss.flatten ++ s'.rest := by
  induction n generalizing s as with
  | zero =>
    obtain ⟨rfl, rfl⟩ := eq_of_run_pure h
    exact ⟨[], .nil, rfl, rfl⟩
  | succ n ih =>
    obtain ⟨bs, a, t, ha, hrest, h⟩ := hd.spelled_bind h
    obtain ⟨as, t', htail, h⟩ := exists_of_run_bind_eq_ok h
    obtain ⟨rfl, rfl⟩ := eq_of_run_pure h
    obtain ⟨bss, has, hlength, htailrest⟩ := ih htail
    refine ⟨bs :: bss, .cons ha has, congrArg Nat.succ hlength, ?_⟩
    rw [hrest, htailrest, List.flatten_cons, List.append_assoc]

theorem recognizes_counted {F : Bytes → α → Prop} (hd : Recognizes d F) :
    Recognizes (counted d) (Spells.counted F) where
  reads := by
    rintro _ as ⟨hcount, bss, rfl, has⟩
    refine ((recognizes_uint 4).reads hcount).bind ?_
    rw [← has.length_eq]
    exact Reads.times (has.imp fun _ _ => hd.reads)
  spelled := by
    intro s s' as h
    obtain ⟨front, n, t, hcount, hrest, h⟩ := (recognizes_uint 4).spelled_bind h
    obtain ⟨bss, has, rfl, htimes⟩ := spelled_times hd h
    refine ⟨front ++ bss.flatten, .mk hcount ⟨bss, rfl, has⟩, ?_⟩
    rw [hrest, htimes, List.append_assoc]

/-! ### Headers -/

/-- The header of a kind that is a byte. -/
theorem recognizes_header (kind : ArtifactKind) (code : UInt8) (hcode : kind.code = code.toNat) :
    Recognizes (header kind) (fun bs _ => bs = Spells.header code) where
  reads := by
    rintro _ _ rfl
    refine reads_header ?_
    have hlt : (code.toNat : ℤ) < 256 := by exact_mod_cast code.toNat_lt
    rw [Encode.header, hcode, if_pos ⟨Int.natCast_nonneg _, hlt⟩, Int.toNat_natCast,
      show code.toNat.toUInt8 = code from UInt8.ofNat_toNat]
    rfl
  spelled := by
    intro s s' u h
    obtain ⟨magic, chunk, t, ⟨-, rfl⟩, hrest, h⟩ := (recognizes_bytes 4).spelled_bind h
    dsimp only at h
    split at h
    · next hmagic =>
      obtain ⟨tail, chunk, t', ⟨hlength, rfl⟩, htail, h⟩ := (recognizes_bytes 2).spelled_bind h
      obtain ⟨found, version, rfl⟩ := List.length_eq_two.mp hlength
      split at h
      · split at h
        · exact absurd h (run_throw_bind_ne_ok _)
        · exact absurd h (run_throw_bind_ne_ok _)
      · next hkind =>
        split at h
        · exact absurd h (run_throw_ne_ok _)
        · next hversion =>
          obtain ⟨-, rfl⟩ := eq_of_run_pure h
          have hfound : (found.toNat : ℤ) = code.toNat :=
            (congrArg ArtifactKind.code (not_not.mp hkind)).trans hcode
          obtain rfl : found = code := UInt8.toNat_inj.mp (Int.ofNat_inj.mp hfound)
          obtain rfl : version = 1 := UInt8.toNat_inj.mp (not_not.mp hversion)
          refine ⟨Spells.header found, rfl, ?_⟩
          rw [hrest, htail, hmagic, Spells.header, List.append_assoc]
    · exact absurd h (run_throw_bind_ne_ok _)

theorem reads_spells_header (kind : ArtifactKind) (code : UInt8) (hcode : kind.code = code.toNat) :
    Reads (header kind) (Spells.header code) () := (recognizes_header kind code hcode).reads rfl

/-! ### Failures -/

/-- A failure is one of the bytes: the decoder never says that its caller expects a kind without a
name. -/
def Proper (d : Decoder α) : Prop := ∀ s s', ExceptT.run d s ≠ (.error .unnamedKind, s')

namespace Proper

theorem pure (a : α) : Proper (Pure.pure a) := fun _ _ h => nomatch h

theorem throw {e : DecodeError} (he : e ≠ .unnamedKind) :
    Proper (MonadExcept.throw e : Decoder α) := by
  rintro s s' h
  exact he (Except.error.inj (congrArg Prod.fst h))

theorem throw_bind {e : DecodeError} (he : e ≠ .unnamedKind) :
    Proper (MonadExcept.throw e >>= f) := by
  rintro s s' h
  exact he (Except.error.inj (congrArg Prod.fst h))

theorem bind (hd : Proper d) (hf : ∀ a, Proper (f a)) : Proper (d >>= f) := by
  intro s s' h
  change (match ExceptT.run d s with
    | (x, t) => ExceptT.bindCont f x t) = _ at h
  match hrun : ExceptT.run d s, h with
  | (.ok a, t), h => exact hf a t s' h
  | (.error e, t), h =>
    cases h
    exact hd s s' hrun

theorem run_ne (hd : Proper d) {bs : Bytes} : d.run bs ≠ .error .unnamedKind := fun h =>
  hd ⟨bs, 0⟩ (ExceptT.run d ⟨bs, 0⟩).2 (Prod.ext h rfl)

theorem ite {p : Prop} [Decidable p] {d' : Decoder α} (hd : Proper d) (hd' : Proper d') :
    Proper (if p then d else d') := by
  split
  · exact hd
  · exact hd'

theorem bytes (size : ℕ) : Proper (Decoder.bytes size) := by
  intro s s' h
  change ExceptT.run (if (s.rest.take size).length < size then _ else _ : Decoder Bytes) s = _ at h
  split at h
  · cases h
  · cases h

theorem uint (size : ℕ) : Proper (Decoder.uint size) := (bytes size).bind fun _ => pure _

theorem scalar : Proper Decoder.scalar := by
  refine (uint 32).bind fun value => ?_
  split
  · exact pure _
  · exact throw nofun

theorem times (hd : Proper d) (n : ℕ) : Proper (Decoder.times d n) := by
  induction n with
  | zero => exact pure []
  | succ n ih => exact hd.bind fun _ => ih.bind fun _ => pure _

theorem counted (hd : Proper d) : Proper (Decoder.counted d) := (uint 4).bind hd.times

theorem atEnd : Proper Decoder.atEnd := by
  intro s s' h
  change ExceptT.run (if s.rest.isEmpty then _ else _ : Decoder Unit) s = _ at h
  split at h
  · cases h
  · cases h

/-- The kinds that are expected have names. -/
theorem header {kind : ArtifactKind} (hkind : kind.name?.isNone = false) :
    Proper (Decoder.header kind) := by
  have hnamed : ¬ kind.name?.isNone = true := by rw [hkind]; exact Bool.false_ne_true
  refine (bytes 4).bind fun magic => ?_
  dsimp only
  refine ite ((bytes 2).bind fun tail => ?_) (throw_bind nofun)
  rw [if_neg hnamed]
  refine ite (throw_bind nofun) ?_
  exact ite (throw nofun) (pure ())

end Proper

end MerkleSnark.Decoder
