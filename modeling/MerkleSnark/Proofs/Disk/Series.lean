import Mathlib
import MerkleSnark.Proofs.Disk.Atomicity

/-!
# Replacements one after another

A replacement leaves a volume on which all files can be replaced that could be before, its own
targets among them, and files that are none of its targets keep their bytes.  So replacements of
several groups of files can follow one another in any order, whether they succeed or not.

## Main definitions

* `Volume.Updates` — nothing changes but the targets and directories on the way to them.
* `Volume.KeepsFiles` — no file is lost.

## Main results

* `Replacement.Replaceable.of_updates` — the same files can be replaced afterwards.
* `Volume.Updates.read_eq_ok`, `Volume.Restored.keepsFiles` — files that keep their bytes.
-/

namespace MerkleSnark

open Replacement

namespace Volume

variable {u v : Volume} {p : Path} {data : Bytes} {targets paths : List Path}
  {files : List (Path × Bytes)}

theorem read_eq_ok_iff :
    v.read p = .ok data ↔ p.Fits ∧ v.Open p ∧ v.entry? (v.place p) = some (.file data) := by
  constructor
  · intro h
    rw [read] at h
    cases hfind : v.find p with
    | error e =>
      rw [hfind] at h
      cases h
    | ok found =>
      obtain ⟨loc, entry⟩ := found
      obtain ⟨hlocate, hentry⟩ := find_eq_ok_iff.mp hfind
      obtain ⟨hfits, hopen, rfl⟩ := locate_eq_ok_iff.mp hlocate
      rw [hfind] at h
      cases entry with
      | directory => cases h
      | file bytes =>
        cases h
        exact ⟨hfits, hopen, hentry⟩
  · rintro ⟨hfits, hopen, hentry⟩
    exact Volume.read_eq_ok hfits hopen hentry

/-- Nothing changes but the targets, none of which becomes a directory, and directories that are
made on the way to them. -/
structure Updates (u v : Volume) (targets : List Path) : Prop where
  keeps : u.Keeps v
  notDirectory : ∀ p ∈ targets, v.entry? (u.place p) ≠ some .directory
  spared : ∀ loc, (∀ p ∈ targets, loc ≠ u.place p) → u.SparedAt v (waysTo u targets) loc

theorem Replaced.updates (h : u.Replaced v files) : u.Updates v (files.map Prod.fst) where
  keeps := h.keeps
  notDirectory := by
    intro p hp hdir
    obtain ⟨f, hf, rfl⟩ := List.mem_map.mp hp
    obtain ⟨-, -, hentry⟩ := read_eq_ok_iff.mp (h.content f hf)
    rw [h.keeps.place, hdir] at hentry
    cases hentry
  spared loc hloc := h.spared loc fun f hf => hloc f.1 (List.mem_map_of_mem hf)

theorem Restored.updates (h : u.Restored v targets)
    (hfile : ∀ p ∈ targets, u.entry? (u.place p) ≠ some .directory) : u.Updates v targets where
  keeps := h.keeps
  notDirectory p hp := by
    rw [h.content p hp]
    exact hfile p hp
  spared loc _ := h.spared loc

/-- An entry that stays in its place is read as before. -/
theorem Keeps.read_eq_ok (h : u.Keeps v) (hread : u.read p = .ok data)
    (hentry : v.entry? (u.place p) = u.entry? (u.place p)) : v.read p = .ok data := by
  obtain ⟨hfits, hopen, hfile⟩ := read_eq_ok_iff.mp hread
  rw [read_eq_ok_iff, h.place]
  exact ⟨hfits, h.isOpen hopen, hentry.trans hfile⟩

theorem SparedAt.eq_of_read {ways : Set Location} (h : u.SparedAt v ways (u.place p))
    (hread : u.read p = .ok data) : v.entry? (u.place p) = u.entry? (u.place p) := by
  apply h.eq_of_ne_none
  rw [(read_eq_ok_iff.mp hread).2.2]
  exact Option.some_ne_none _

/-- A file that is none of the targets keeps its bytes. -/
theorem Updates.read_eq_ok (h : u.Updates v targets) (hne : ∀ q ∈ targets, u.place p ≠ u.place q)
    (hread : u.read p = .ok data) : v.read p = .ok data :=
  h.keeps.read_eq_ok hread ((h.spared _ hne).eq_of_read hread)

/-- Files that can be read keep their bytes. -/
def KeepsFiles (u v : Volume) : Prop := ∀ p data, u.read p = .ok data → v.read p = .ok data

/-- Every file keeps its bytes when the targets are put back. -/
theorem Restored.keepsFiles (h : u.Restored v targets) : u.KeepsFiles v := fun _ _ hread =>
  h.keeps.read_eq_ok hread ((h.spared _).eq_of_read hread)

end Volume

namespace Replacement

variable {u v : Volume} {targets paths : List Path}

theorem Replaceable.sublist (h : Replaceable u paths) (hsub : targets.Sublist paths) :
    Replaceable u targets where
  wellFormed := h.wellFormed
  usable p hp := h.usable p (hsub.subset hp)
  named p hp := h.named p (hsub.subset hp)
  distinct := h.distinct.sublist (hsub.map u.place)
  notDirectory p hp := h.notDirectory p (hsub.subset hp)
  noBackup p hp := h.noBackup p (hsub.subset hp)
  notBackup p hp q hq := h.notBackup p (hsub.subset hp) q (hsub.subset hq)
  notTemporary p hp q hq := h.notTemporary p (hsub.subset hp) q (hsub.subset hq)
  notPassed p hp q hq := h.notPassed p (hsub.subset hp) q (hsub.subset hq)

/-- **What could be replaced can be replaced again**, after some of it was. -/
theorem Replaceable.of_updates (hR : Replaceable u paths) (hsub : targets ⊆ paths)
    (h : u.Updates v targets) : Replaceable v paths := by
  have hplace : ∀ p, v.place p = u.place p := h.keeps.place
  have hway : ∀ p, v.way p = u.way p := Volume.way_congr h.keeps.here
  -- no target and no backup is on the way to a target
  have hkept : ∀ loc, (∀ q ∈ targets, loc ≠ u.place q) → (∀ q ∈ paths, loc ∉ u.way q) →
      v.entry? loc = u.entry? loc := fun loc htargets hways =>
    (h.spared loc htargets).eq_of_notMem fun ⟨q, hq, hmem⟩ => hways q (hsub hq) hmem
  refine
    { wellFormed := h.keeps.wellFormed
      usable := hR.usable
      named := hR.named
      distinct := ?_
      notDirectory := fun p hp => ?_
      noBackup := fun p hp => ?_
      notBackup := fun p hp q hq => ?_
      notTemporary := fun p hp q hq k => ?_
      notPassed := fun p hp q hq => ?_ }
  · rw [funext hplace]
    exact hR.distinct
  · rw [hplace]
    by_cases htarget : ∃ q ∈ targets, u.place p = u.place q
    · obtain ⟨q, hq, heq⟩ := htarget
      rw [heq]
      exact h.notDirectory q hq
    · push Not at htarget
      rw [hkept _ htarget fun q hq => (hR.notPassed p hp q hq).1]
      exact hR.notDirectory p hp
  · rw [hplace, hkept _ (fun q hq => Ne.symm (hR.notBackup q (hsub hq) p hp)) fun q hq =>
      (hR.notPassed p hp q hq).2]
    exact hR.noBackup p hp
  · rw [hplace, hplace]
    exact hR.notBackup p hp q hq
  · rw [hplace, hplace]
    exact hR.notTemporary p hp q hq k
  · rw [hplace, hplace, hway]
    exact hR.notPassed p hp q hq

end Replacement

end MerkleSnark
