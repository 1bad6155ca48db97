import Mathlib
import MerkleSnark.Proofs.Disk.Series
import MerkleSnark.Workflow.Phase

/-!
# Runs of the workflow

What a run of the workflow ends in, on a volume that may fail once, is described by a condition on
its result, the state of its backend and the volume with the fault to come.  Only the replacement of
files changes the volume; everything before it may fail and leaves the volume as it is.

## Main definitions

* `WorkflowM.Ends` — a condition on the end of a run.
* `Volume.Stores` — a file from which a value can be read.

## Main results

* `WorkflowM.Ends.ofExcept_bind`, `WorkflowM.Ends.onState_bind`, `WorkflowM.Ends.readArtifact_bind`
  — the rules for what comes before a replacement.
* `WorkflowM.Ends.writeFiles_bind`, `WorkflowM.Ends.replace_bind` — the rules for a replacement.
-/

namespace MerkleSnark

open Replacement

/-- A file holds bytes from which the value can be read. -/
def Volume.Stores {α : Type} (v : Volume) (p : Path) (decode : Bytes → Except DecodeError α)
    (a : α) : Prop := ∃ bytes, v.read p = .ok bytes ∧ decode bytes = .ok a

namespace Volume.Stores

variable {α : Type} {u v : Volume} {p : Path} {decode : Bytes → Except DecodeError α} {a b : α}

theorem eq (ha : v.Stores p decode a) (hb : v.Stores p decode b) : a = b := by
  obtain ⟨bytes, hread, hdecode⟩ := ha
  obtain ⟨bytes', hread', hdecode'⟩ := hb
  obtain rfl : bytes = bytes' := Except.ok.inj (hread.symm.trans hread')
  exact Except.ok.inj (hdecode.symm.trans hdecode')

theorem of_read (h : u.Stores p decode a)
    (hread : ∀ data, u.read p = .ok data → v.read p = .ok data) : v.Stores p decode a := by
  obtain ⟨bytes, hbytes, hdecode⟩ := h
  exact ⟨bytes, hread bytes hbytes, hdecode⟩

end Volume.Stores

namespace WorkflowM

variable {σ α β ε : Type} {s : σ} {w : World} {post : Except WorkflowError β → σ → World → Prop}

/-- The end of a run meets a condition. -/
def Ends (x : WorkflowM σ (Faulty (StateM Volume)) α) (s : σ) (w : World)
    (post : Except WorkflowError α → σ → World → Prop) : Prop :=
  Faulty.Ends (x.run.run s) w fun p w' => post p.1 p.2 w'

namespace Ends

theorem mono {x : WorkflowM σ (Faulty (StateM Volume)) α}
    {post post' : Except WorkflowError α → σ → World → Prop} (h : Ends x s w post)
    (himp : ∀ result s' w', post result s' w' → post' result s' w') : Ends x s w post' :=
  himp _ _ _ h

theorem pure {b : β} (h : post (.ok b) s w) :
    Ends (Pure.pure b : WorkflowM σ (Faulty (StateM Volume)) β) s w post := h

theorem throw_bind {e : WorkflowError} {f : α → WorkflowM σ (Faulty (StateM Volume)) β}
    (h : post (.error e) s w) :
    Ends ((throw e : WorkflowM σ (Faulty (StateM Volume)) α) >>= f) s w post := h

theorem bind {x : WorkflowM σ (Faulty (StateM Volume)) α}
    {f : α → WorkflowM σ (Faulty (StateM Volume)) β}
    (h : Ends x s w fun result s' w' =>
      match result with
      | .ok a => Ends (f a) s' w' post
      | .error e => post (.error e) s' w') :
    Ends (x >>= f) s w post := by
  change Faulty.Ends ((x.run.run s) >>= fun p => (ExceptT.bindCont f p.1).run p.2) w _
  refine Faulty.Ends.bind (Faulty.Ends.mono h fun p w' => ?_)
  rcases p with ⟨_ | a, s'⟩
  · exact id
  · exact id

theorem ofExcept_bind {f : ε → WorkflowError} {result : Except ε α}
    {g : α → WorkflowM σ (Faulty (StateM Volume)) β}
    (herror : ∀ e, result = .error e → post (.error (f e)) s w)
    (hok : ∀ a, result = .ok a → Ends (g a) s w post) :
    Ends (ofExcept f result >>= g) s w post := by
  apply Ends.bind
  cases result with
  | error e => exact herror e rfl
  | ok a => exact hok a rfl

theorem unless_bind {c : Prop} [Decidable c] {e : WorkflowError}
    {f : PUnit → WorkflowM σ (Faulty (StateM Volume)) β} (herror : ¬c → post (.error e) s w)
    (hok : c → Ends (f ⟨⟩) s w post) :
    Ends (if c then f ⟨⟩ else throw e >>= f) s w post := by
  split
  · next hc => exact hok hc
  · next hc => exact throw_bind (herror hc)

theorem if_bind {c : Prop} [Decidable c] {e : WorkflowError}
    {f : PUnit → WorkflowM σ (Faulty (StateM Volume)) β} (herror : c → post (.error e) s w)
    (hok : ¬c → Ends (f ⟨⟩) s w post) :
    Ends (if c then throw e >>= f else f ⟨⟩) s w post := by
  split
  · next hc => exact throw_bind (herror hc)
  · next hc => exact hok hc

theorem located_bind {p : Path} {path : Option Path} (hpath : path = some p)
    {g : Path → WorkflowM σ (Faulty (StateM Volume)) β} (h : Ends (g p) s w post) :
    Ends (located path >>= g) s w post := by
  subst hpath
  exact h

theorem onState_bind {f : ε → WorkflowError} {x : StateM σ (Except ε α)}
    {g : α → WorkflowM σ (Faulty (StateM Volume)) β}
    (herror : ∀ e s', x.run s = (.error e, s') → post (.error (f e)) s' w)
    (hok : ∀ a s', x.run s = (.ok a, s') → Ends (g a) s' w post) :
    Ends (onState f x >>= g) s w post := by
  apply Ends.bind
  have hends : Ends (onState f x) s w fun result s' w' =>
      result = (x.run s).1.mapError f ∧ s' = (x.run s).2 ∧ w' = w := ⟨rfl, rfl, rfl⟩
  refine hends.mono fun result s' w' ⟨hresult, hs, hw⟩ => ?_
  subst hresult hs hw
  rcases hrun : x.run s with ⟨e | a, s'⟩
  · exact herror e s' hrun
  · exact hok a s' hrun

theorem readBytes_bind {p : Path} {g : Bytes → WorkflowM σ (Faulty (StateM Volume)) β}
    (hpath : p.checked? = .ok p)
    (herror : ∀ e, (∀ bytes, w.2.read p ≠ .ok bytes) → post (.error e) s w)
    (hok : ∀ bytes, w.2.read p = .ok bytes → Ends (g bytes) s w post) :
    Ends (readBytes p >>= g) s w post := by
  apply Ends.bind
  rw [readBytes]
  refine ofExcept_bind (fun e he => ?_) fun p' hp' => ?_
  · rw [hpath] at he
    cases he
  · obtain rfl : p = p' := Except.ok.inj (hpath.symm.trans hp')
    have hends : Ends (onDisk (readFailure p) (Disk.read p)) s w fun result s' w' =>
        result = (w.2.read p).mapError (readFailure p) ∧ s' = s ∧ w' = w := ⟨rfl, rfl, rfl⟩
    refine hends.mono fun result s' w' ⟨hresult, hs, hw⟩ => ?_
    subst hresult hs hw
    cases hread : w'.2.read p with
    | error e => exact herror _ fun bytes hbytes => nomatch hread.symm.trans hbytes
    | ok bytes => exact hok _ hread

theorem readArtifact_bind {p : Path} {decode : Bytes → Except DecodeError α}
    {g : α → WorkflowM σ (Faulty (StateM Volume)) β} (hpath : p.checked? = .ok p)
    (herror : ∀ e, (∀ a, ¬ w.2.Stores p decode a) → post (.error e) s w)
    (hok : ∀ a, w.2.Stores p decode a → Ends (g a) s w post) :
    Ends (readArtifact p decode >>= g) s w post := by
  apply Ends.bind
  rw [readArtifact]
  refine readBytes_bind hpath (fun e he => ?_) fun bytes hread => ?_
  · exact herror e fun a ⟨bytes, hbytes, _⟩ => he bytes hbytes
  · cases hdecode : decode bytes with
    | error e =>
      refine herror _ fun a ⟨bytes', hread', ha⟩ => ?_
      obtain rfl : bytes = bytes' := Except.ok.inj (hread.symm.trans hread')
      cases hdecode.symm.trans ha
    | ok a => exact hok a ⟨bytes, hread, hdecode⟩

theorem writeFiles_bind {files : List (Path × Bytes)}
    {g : Unit → WorkflowM σ (Faulty (StateM Volume)) β} (hR : Replaceable w.2 (files.map Prod.fst))
    (herror : ∀ e w', w.2.Restored w'.2 (files.map Prod.fst) → post (.error e) s w')
    (hok : ∀ w', w.2.Replaced w'.2 files → Ends (g ()) s w' post) :
    Ends (writeFiles files >>= g) s w post := by
  apply Ends.bind
  refine ends_writeFiles ((ends_replaceFiles hR w.1).mono fun result w' hends => ?_)
  cases result with
  | error e => exact herror _ w' hends.2
  | ok _ => exact hok w' hends.1

/-- After a replacement of some of the files that can be replaced, all of them still can, and a
failure keeps the bytes of every file. -/
theorem replace_bind {paths : List Path} {files : List (Path × Bytes)}
    {g : Unit → WorkflowM σ (Faulty (StateM Volume)) β} (hR : Replaceable w.2 paths)
    (hsub : (files.map Prod.fst).Sublist paths)
    (herror : ∀ e w', Replaceable w'.2 paths → w.2.KeepsFiles w'.2 → post (.error e) s w')
    (hok : ∀ w', Replaceable w'.2 paths → w.2.Replaced w'.2 files → Ends (g ()) s w' post) :
    Ends (writeFiles files >>= g) s w post := by
  refine writeFiles_bind (hR.sublist hsub) (fun e w' hrestored => ?_) fun w' hreplaced => ?_
  · have hupdates := hrestored.updates fun p hp => hR.notDirectory p (hsub.subset hp)
    exact herror e w' (hR.of_updates hsub.subset hupdates) hrestored.keepsFiles
  · exact hok w' (hR.of_updates hsub.subset hreplaced.updates) hreplaced

end Ends

end WorkflowM

end MerkleSnark
