import Mathlib
import MerkleSnark.Proofs.Disk.Passes
import MerkleSnark.Workflow.Artifact

/-!
# All files are replaced or none

On a volume that fails at most once, the replacement of files either ends with every target holding
its bytes, or is refused for the target at which an operation failed and leaves every target as it
was.  A fault that strikes without a refusal has struck the making of a directory which was there.

## Main definitions

* `Replacement.FailsAt` — the target at which an operation is refused.
* `Replacement.Absorbed` — a fault that does no harm.
* `Replacement.Heeds` — a computation that does not succeed when the fault strikes.
* `Volume.Replaced`, `Volume.Restored` — how a volume is left.

## Main results

* `Replacement.ends_replaceFiles` — the end of a replacement.
* `WorkflowM.writeFiles_all_or_none` — the same in the workflow.
-/

namespace MerkleSnark

namespace Volume

/-- The files hold their bytes, and nothing else is new but directories on the way to them. -/
structure Replaced (u v : Volume) (files : List (Path × Bytes)) : Prop where
  keeps : u.Keeps v
  content : ∀ f ∈ files, v.read f.1 = .ok f.2
  spared : ∀ loc, (∀ f ∈ files, loc ≠ u.place f.1) →
    u.SparedAt v (Replacement.waysTo u (files.map Prod.fst)) loc

/-- The targets are as they were, and nothing else is new but directories on the way to them. -/
structure Restored (u v : Volume) (targets : List Path) : Prop where
  keeps : u.Keeps v
  content : ∀ p ∈ targets, v.entry? (u.place p) = u.entry? (u.place p)
  spared : ∀ loc, u.SparedAt v (Replacement.waysTo u targets) loc

/-- Neither a temporary file nor a backup is left. -/
def NoneLeft (u v : Volume) (targets : List Path) : Prop :=
  ∀ p ∈ targets, v.entry? (u.place (Replacement.backupOf p)) = none ∧
    ∀ k data, v.entry? (u.place (Replacement.temporaryOf p k)) = some (.file data) →
      u.entry? (u.place (Replacement.temporaryOf p k)) = some (.file data)

end Volume

namespace Replacement

variable {α β ι : Type} {r r' : Replacement} {w w' : World} {u v : Volume}
  {files : List (Path × Bytes)}

/-! ### The target of a failure -/

theorem exec_bind_ok {x : M (Faulty (StateM Volume)) α} {a : α} (h : exec x r w = (.ok a, r', w'))
    (f : α → M (Faulty (StateM Volume)) β) : exec (x >>= f) r w = exec (f a) r' w' := by
  show exec (ExceptT.mk (ExceptT.bindCont f (exec x r w).1) : M (Faulty (StateM Volume)) β)
    (exec x r w).2.1 (exec x r w).2.2 = _
  rw [h]
  rfl

theorem exec_bind_error {x : M (Faulty (StateM Volume)) α} {e : ReplacementError}
    (h : exec x r w = (.error e, r', w')) (f : α → M (Faulty (StateM Volume)) β) :
    exec (x >>= f) r w = (.error e, r', w') := by
  show exec (ExceptT.mk (ExceptT.bindCont f (exec x r w).1) : M (Faulty (StateM Volume)) β)
    (exec x r w).2.1 (exec x r w).2.2 = _
  rw [h]
  rfl

/-- A pass that fails has succeeded up to an element at which it fails. -/
theorem exists_of_exec_forM_error {l : List ι} {f : ι → M (Faulty (StateM Volume)) PUnit}
    {e : ReplacementError} (h : exec (l.forM f) r w = (.error e, r', w')) :
    ∃ before a after r₁ w₁, l = before ++ a :: after ∧
      exec (before.forM f) r w = (.ok ⟨⟩, r₁, w₁) ∧ exec (f a) r₁ w₁ = (.error e, r', w') := by
  induction l generalizing r w with
  | nil => exact absurd h nofun
  | cons a l ih =>
    rcases hhead : exec (f a) r w with ⟨e' | _, r₁, w₁⟩
    · have hrun : exec ((a :: l).forM f) r w = (.error e', r₁, w₁) := exec_bind_error hhead _
      exact ⟨[], a, l, r, w, rfl, rfl, hhead.trans (hrun.symm.trans h)⟩
    · have hrun : exec ((a :: l).forM f) r w = exec (l.forM f) r₁ w₁ := exec_bind_ok hhead _
      obtain ⟨before, b, after, r₂, w₂, rfl, hbefore, hb⟩ := ih (hrun.symm.trans h)
      exact ⟨a :: before, b, after, r₂, w₂, rfl, (exec_bind_ok hhead _).trans hbefore, hb⟩

/-- One of the passes comes as far as the target, and there an operation is refused. -/
inductive FailsAt (files : List (Path × Bytes)) (w : World) (target : Path) (cause : OsError) : Prop
  /-- The bytes of the target cannot be staged. -/
  | stage {before after : List (Path × Bytes)} {data : Bytes} {r₁ r₂ : Replacement} {w₁ w₂ : World}
      (split : files = before ++ (target, data) :: after)
      (reached : exec (stageAll before) {} w = (.ok ⟨⟩, r₁, w₁))
      (refused : exec (Replacement.stage target data) r₁ w₁
        = (.error (.refused target cause), r₂, w₂))
  /-- All bytes are staged, and those of the target cannot be put in its place. -/
  | install {before after : List (Path × Path)} {temporary : Path} {r₀ r₁ r₂ : Replacement}
      {w₀ w₁ w₂ : World} (staged : exec (stageAll files) {} w = (.ok ⟨⟩, r₀, w₀))
      (split : r₀.pending = before ++ (temporary, target) :: after)
      (reached : exec (installAll before) r₀ w₀ = (.ok ⟨⟩, r₁, w₁))
      (refused : exec (Replacement.install temporary target) r₁ w₁
        = (.error (.refused target cause), r₂, w₂))

/-! ### Faults and refusals -/

/-- An operation that does not succeed when the fault strikes. -/
def Heeds (x : ExceptT OsError (Faulty (StateM Volume)) α) : Prop :=
  ∀ w, x.run.Ends w fun result w' => ∀ a, result = .ok a → w'.1.isSome = w.1.isSome

theorem heeds_fragile (f : Volume → Except OsError (α × Volume)) :
    Heeds (Faulty.fragile (Volume.change f)) := fun _ =>
  Faulty.Ends.fragile (fun _ hfault => Faulty.Ends.change nofun fun _ _ _ _ _ => hfault)
    fun _ _ => nofun

theorem heeds_exists? (p : Path) :
    Heeds (Disk.exists? p : ExceptT OsError (Faulty (StateM Volume)) Bool) := fun _ =>
  Faulty.Ends.except_bind (Faulty.ends_kind? (fun _ _ _ _ => rfl) (fun _ _ _ _ _ => rfl)
    fun _ _ _ _ => nofun)

/-- What succeeds has not been struck, and what is refused is refused for the target. -/
def Faithful (target : Path) (x : M (Faulty (StateM Volume)) α) : Prop :=
  ∀ r w, Ends x r w fun result _ w' =>
    match result with
    | .ok _ => w'.1.isSome = w.1.isSome
    | .error e => ∀ t cause, e = .refused t cause → t = target

namespace Faithful

variable {target : Path}

theorem bind {x : M (Faulty (StateM Volume)) α} {f : α → M (Faulty (StateM Volume)) β}
    (hx : Faithful target x) (hf : ∀ a, Faithful target (f a)) : Faithful target (x >>= f) := by
  intro r w
  refine Ends.bind ((hx r w).mono fun result r₁ w₁ hfault => ?_)
  cases result with
  | error e => exact hfault
  | ok a =>
    refine (hf a r₁ w₁).mono fun result r₂ w₂ hfault' => ?_
    cases result with
    | error e => exact hfault'
    | ok b => exact hfault'.trans hfault

theorem attempt {x : ExceptT OsError (Faulty (StateM Volume)) α} (hx : Heeds x) :
    Faithful target (Replacement.attempt target x) := by
  intro r w
  refine Ends.attempt ((hx w).mono fun result w' hfault => ?_)
  cases result with
  | ok a => exact hfault a rfl
  | error e =>
    intro t cause he
    exact (ReplacementError.refused.inj he).1.symm

theorem pure (a : α) : Faithful target (Pure.pure a : M (Faulty (StateM Volume)) α) :=
  fun _ _ => Ends.pure rfl

theorem throw {e : ReplacementError} (he : ∀ t cause, e ≠ .refused t cause) :
    Faithful target (MonadExcept.throw e : M (Faulty (StateM Volume)) α) :=
  fun _ _ => Ends.throw fun t cause heq => absurd heq (he t cause)

theorem update_bind {g : Replacement → Replacement} {f : PUnit → M (Faulty (StateM Volume)) α}
    (hf : Faithful target (f ⟨⟩)) : Faithful target (modify g >>= f) :=
  fun r w => Ends.update_bind (hf (g r) w)

theorem usable_bind {p : Path} {f : Path → M (Faulty (StateM Volume)) α}
    (hf : Faithful target (f p)) : Faithful target (usable p >>= f) :=
  fun r w => Ends.usable_bind (hf r w) fun _ _ => nofun

end Faithful

theorem faithful_setAside (target : Path) : Faithful target (setAside target) := by
  refine .bind (.attempt (heeds_exists? target)) fun found => ?_
  have hmove : Faithful target (Replacement.attempt target (Disk.rename target (backupOf target))
      >>= fun _ => pure (some (backupOf target))) :=
    .bind (.attempt (heeds_fragile _)) fun _ => .pure _
  cases found with
  | false => exact .pure none
  | true =>
    cases hname : target.name.isEmpty with
    | false => simpa [hname] using hmove
    | true =>
      have hthrow : Faithful target (do
          (throw (.nameless target) : M (Faulty (StateM Volume)) Unit)
          Replacement.attempt target (Disk.rename target (backupOf target))
          pure (some (backupOf target))) := .bind (.throw nofun) fun _ => hmove
      simpa [hname] using hthrow

theorem faithful_install (temporary target : Path) :
    Faithful target (Replacement.install temporary target) :=
  .bind (faithful_setAside target) fun _ => .update_bind (.attempt (heeds_fragile _))

/-- The fault strikes and the directory for a target is there all the same. -/
def AbsorbedAt (w : World) (target : Path) : Prop :=
  w.1.isSome ∧ ∃ v, (Disk.ensureDirectory target.parent :
    ExceptT OsError (Faulty (StateM Volume)) Unit).run.exec w = (.ok (), none, v)

/-- Staging succeeds under a fault only when it strikes the making of a directory that is there. -/
theorem ends_stage_faithful (target : Path) (data : Bytes) (r : Replacement) (w : World) :
    Ends (Replacement.stage target data) r w fun result _ w' =>
      match result with
      | .ok _ => (w.1.isSome → w'.1.isSome) ∨ AbsorbedAt w target
      | .error e => ∀ t cause, e = .refused t cause → t = target := by
  have htail (directory : Path) : Faithful target (do
      let target ← usable target
      let temporary ← Replacement.attempt target
        (Disk.makeTemporary directory (temporaryBeginning target) ".tmp")
      modify fun r => { r with pending := r.pending ++ [(temporary, target)] }
      Replacement.attempt target (Disk.write temporary data)) :=
    .usable_bind (.bind (.attempt (heeds_fragile _)) fun _ =>
      .update_bind (.attempt (heeds_fragile _)))
  refine Ends.usable_bind (Ends.attempt_bind ?_) fun _ _ => nofun
  rw [Faulty.Ends]
  rcases hmade : (Disk.ensureDirectory target.parent :
    ExceptT OsError (Faulty (StateM Volume)) Unit).run.exec w with ⟨e | _, fault, v⟩
  · exact fun t cause he => (ReplacementError.refused.inj he).1.symm
  · refine (htail target.parent r (fault, v)).mono fun result r' w' hfault => ?_
    cases result with
    | error e => exact hfault
    | ok _ =>
      cases fault with
      | none =>
        by_cases hsome : w.1.isSome
        · exact Or.inr ⟨hsome, v, hmade⟩
        · exact Or.inl fun h => absurd h hsome
      | some fault => exact Or.inl fun _ => hfault

/-- The first pass comes as far as a target whose directory is there although the fault strikes
when it is made. -/
def Absorbed (files : List (Path × Bytes)) (r : Replacement) (w : World) : Prop :=
  ∃ before f after r₁ w₁, files = before ++ f :: after ∧
    exec (stageAll before) r w = (.ok ⟨⟩, r₁, w₁) ∧ AbsorbedAt w₁ f.1

theorem stageAll_faithful (h : exec (stageAll files) r w = (.ok ⟨⟩, r', w')) :
    (w.1.isSome → w'.1.isSome) ∨ Absorbed files r w := by
  induction files generalizing r w with
  | nil =>
    obtain ⟨-, h⟩ := Prod.mk.inj h
    obtain ⟨-, rfl⟩ := Prod.mk.inj h
    exact Or.inl id
  | cons f files ih =>
    have hstage := ends_stage_faithful f.1 f.2 r w
    rw [Ends] at hstage
    rcases hf : exec (Replacement.stage f.1 f.2) r w with ⟨e | _, r₁, w₁⟩
    · have hrun : exec (stageAll (f :: files)) r w = (.error e, r₁, w₁) := exec_bind_error hf _
      cases hrun.symm.trans h
    · have hrun : exec (stageAll (f :: files)) r w = exec (stageAll files) r₁ w₁ :=
        exec_bind_ok hf _
      rw [hf] at hstage
      rcases hstage with hsome | habsorbed
      · rcases ih (hrun.symm.trans h) with hsome' | ⟨before, g, after, r₂, w₂, rfl, hbefore, hg⟩
        · exact Or.inl fun hw => hsome' (hsome hw)
        · exact Or.inr ⟨f :: before, g, after, r₂, w₂, rfl, (exec_bind_ok hf _).trans hbefore, hg⟩
      · exact Or.inr ⟨[], f, files, r, w, rfl, rfl, habsorbed⟩

theorem installAll_faithful (pending : List (Path × Path)) (r : Replacement) (w : World) :
    Ends (installAll pending) r w fun result _ w' =>
      result = .ok ⟨⟩ → w'.1.isSome = w.1.isSome := by
  induction pending generalizing r w with
  | nil => exact fun _ => rfl
  | cons e pending ih =>
    refine Ends.bind ((faithful_install e.1 e.2 r w).mono fun result r' w' hfault => ?_)
    cases result with
    | error e => exact nofun
    | ok _ => exact (ih r' w').mono fun result r'' w'' h hok => (h hok).trans hfault

/-- Both passes come to their end under a fault only where it does no harm. -/
theorem passes_faithful {a : PUnit} (h : exec (passes files) r w = (.ok a, r', w'))
    (hw : w.1.isSome) (hw' : w'.1 = none) : Absorbed files r w := by
  rcases hstage : exec (stageAll files) r w with ⟨e | _, r₀, w₀⟩
  · have hrun : exec (passes files) r w = (.error e, r₀, w₀) := exec_bind_error hstage _
    cases hrun.symm.trans h
  · have hrun : exec (passes files) r w = exec (installAll r₀.pending) r₀ w₀ :=
      exec_bind_ok hstage _
    have hinstall := installAll_faithful r₀.pending r₀ w₀
    rw [Ends, hrun.symm.trans h] at hinstall
    rcases stageAll_faithful hstage with hsome | habsorbed
    · have hsome' := (hinstall rfl).trans (hsome hw)
      rw [hw'] at hsome'
      cases hsome'
    · exact habsorbed

theorem failsAt_of_exec_passes {target : Path} {cause : OsError}
    (h : exec (passes files) {} w = (.error (.refused target cause), r', w')) :
    FailsAt files w target cause := by
  rcases hstage : exec (stageAll files) {} w with ⟨e | _, r₀, w₀⟩
  · have hrun : exec (passes files) {} w = (.error e, r₀, w₀) := exec_bind_error hstage _
    obtain rfl : e = .refused target cause := Except.error.inj (Prod.mk.inj (hrun.symm.trans h)).1
    obtain ⟨before, ⟨p, data⟩, after, r₁, w₁, hsplit, hbefore, hp⟩ :=
      exists_of_exec_forM_error hstage
    have hnames := ends_stage_faithful p data r₁ w₁
    rw [Ends, hp] at hnames
    obtain rfl := hnames target cause rfl
    exact .stage hsplit hbefore hp
  · have hrun : exec (passes files) {} w = exec (installAll r₀.pending) r₀ w₀ :=
      exec_bind_ok hstage _
    obtain ⟨before, ⟨temporary, p⟩, after, r₁, w₁, hsplit, hbefore, hp⟩ :=
      exists_of_exec_forM_error (hrun.symm.trans h)
    have hnames := faithful_install temporary p r₁ w₁
    rw [Ends, hp] at hnames
    obtain rfl := hnames target cause rfl
    exact .install hstage hsplit hbefore hp

/-! ### The whole -/

theorem Finished.replaced (hR : Replaceable u (files.map Prod.fst))
    (h : Finished u files [] v) : u.Replaced v files where
  keeps := h.keeps
  content f hf := by
    have hentry := h.installed f hf
    rw [← h.keeps.place f.1] at hentry
    exact Volume.read_eq_ok (h.ready f hf).1 (h.ready f hf).2 hentry
  spared loc hloc := by
    by_cases hback : ∀ p ∈ files.map Prod.fst, loc ≠ u.place (backupOf p)
    · refine h.others loc fun p hp => ⟨?_, hback p hp⟩
      obtain ⟨f, hf, rfl⟩ := List.mem_map.mp hp
      exact hloc f hf
    · push Not at hback
      obtain ⟨p, hp, rfl⟩ := hback
      exact Or.inl ((h.noBackup p hp List.not_mem_nil).trans (hR.noBackup p hp).symm)

theorem Replaceable.restored {paths : List Path} (hR : Replaceable u paths)
    (h : u.Grows v (waysTo u paths)) : u.Restored v paths where
  keeps := h.keeps
  content p hp :=
    (h.spared _).eq_of_notMem fun ⟨q, hq, hway⟩ => (hR.notPassed p hp q hq).1 hway
  spared := h.spared

/-- What is spared at the names beside the targets is not left there. -/
theorem Replaceable.noneLeft {paths : List Path} (hR : Replaceable u paths)
    (h : ∀ loc, (∀ p ∈ paths, loc ≠ u.place p) → u.SparedAt v (waysTo u paths) loc) :
    u.NoneLeft v paths := by
  intro p hp
  refine ⟨?_, fun k data hfile => ?_⟩
  · have hspared := h (u.place (backupOf p)) fun q hq => Ne.symm (hR.notBackup q hq p hp)
    rw [hspared.eq_of_notMem fun ⟨q, hq, hway⟩ => (hR.notPassed p hp q hq).2 hway]
    exact hR.noBackup p hp
  · have hspared := h (u.place (temporaryOf p k)) fun q hq => Ne.symm (hR.notTemporary q hq p hp k)
    rcases hspared with hsame | ⟨-, -, hdir⟩
    · exact hsame ▸ hfile
    · rw [hdir] at hfile
      exact absurd hfile nofun

/-- What follows the passes. -/
def conclude (r : Replacement) :
    Except ReplacementError Unit → ExceptT ReplacementError (Faulty (StateM Volume)) Unit
  | .ok () => r.finish.adapt .stuck
  | .error (.refused target cause) => do
    r.undo.adapt .stuck
    throw (.refused target cause)
  | .error e => throw e

theorem ends_of_passes {post : Except ReplacementError Unit → World → Prop}
    (h : Ends (passes files) {} w fun result r w' => (conclude r result).run.Ends w' post) :
    (replaceFiles files : ExceptT ReplacementError (Faulty (StateM Volume)) Unit).run.Ends w post :=
  h

theorem ends_replaceFiles (hR : Replaceable u (files.map Prod.fst)) (fault : Option Fault) :
    (replaceFiles files : ExceptT ReplacementError (Faulty (StateM Volume)) Unit).run.Ends
      (fault, u) fun result w =>
        match result with
        | .ok _ => u.Replaced w.2 files ∧
            (fault.isSome → w.1 = none → Absorbed files {} (fault, u))
        | .error e => (∃ f ∈ files, ∃ cause, e = .refused f.1 cause ∧
              FailsAt files (fault, u) f.1 cause) ∧
            u.Restored w.2 (files.map Prod.fst) := by
  have hpasses := ends_passes hR fault
  refine ends_of_passes ?_
  rw [Ends] at hpasses ⊢
  rcases hrun : exec (passes files) {} (fault, u) with ⟨result, r, w⟩
  rw [hrun] at hpasses
  cases result with
  | ok _ =>
    refine Faulty.Ends.except_adapt ((ends_finish hR hpasses).mono fun result w' hfinish => ?_)
    obtain ⟨rfl, hfault, hfinished⟩ := hfinish
    exact ⟨hfinished.replaced hR, fun hw hw' => passes_faithful hrun hw (hfault ▸ hw')⟩
  | error e =>
    obtain ⟨⟨f, hf, cause, rfl⟩, hprogress, hnone⟩ := hpasses
    refine Faulty.Ends.except_bind (Faulty.Ends.except_adapt
      ((ends_undo hR hprogress hnone).mono fun result w' hundo => ?_))
    obtain ⟨rfl, hgrows⟩ := hundo
    exact ⟨⟨f, hf, cause, rfl, failsAt_of_exec_passes hrun⟩, hR.restored hgrows⟩

end Replacement

namespace WorkflowM

open Replacement

variable {σ : Type} {v : Volume} {files : List (Path × Bytes)}

theorem ends_writeFiles {s : σ} {w : World} {post : Except WorkflowError Unit × σ → World → Prop}
    (h : (replaceFiles files : ExceptT ReplacementError (Faulty (StateM Volume)) Unit).run.Ends w
      fun result w' => post (result.mapError writeFailure, s) w') :
    Faulty.Ends ((writeFiles files : WorkflowM σ (Faulty (StateM Volume)) Unit).run.run s) w post :=
  h

/-- Files of which none gets in the way of another are replaced all or none, whatever operation
fails: a refusal names the target at which it happened and leaves every target as it was. -/
theorem writeFiles_all_or_none (hR : Replaceable v (files.map Prod.fst)) (fault : Option Fault)
    (s : σ) :
    Faulty.Ends ((writeFiles files : WorkflowM σ (Faulty (StateM Volume)) Unit).run.run s) (fault, v)
      fun (result, s') (fault', v') => s' = s ∧ v.NoneLeft v' (files.map Prod.fst) ∧
        match result with
        | .ok _ => v.Replaced v' files ∧
            (fault.isSome → fault' = none → Absorbed files {} (fault, v))
        | .error e => v.Restored v' (files.map Prod.fst) ∧
            ∃ f ∈ files, ∃ cause, e = .artifact f.1 (.refused cause) ∧
              FailsAt files (fault, v) f.1 cause := by
  refine ends_writeFiles ((ends_replaceFiles hR fault).mono fun result w hends => ?_)
  cases result with
  | error e =>
    obtain ⟨⟨f, hf, cause, rfl, hfails⟩, hrestored⟩ := hends
    exact ⟨rfl, hR.noneLeft fun loc _ => hrestored.spared loc, hrestored, f, hf, cause, rfl, hfails⟩
  | ok _ =>
    refine ⟨rfl, hR.noneLeft fun loc hloc => hends.1.spared loc fun f hf => ?_, hends⟩
    exact hloc f.1 (List.mem_map_of_mem hf)

/-- A directory with one file. -/
def oneFile : Volume := { entries := [(["a"], .file [9])] }

/-- New bytes for that file and for another one. -/
def twoFiles : List (Path × Bytes) := [(⟨.here, ["a"]⟩, [1]), (⟨.here, ["b"]⟩, [2])]

theorem replaceable_twoFiles : Replaceable oneFile (twoFiles.map Prod.fst) := by
  have hsiblings : Replaceable oneFile (["a", "b"].map (Path.child ⟨.here, []⟩)) :=
    .of_siblings (.of_forall_mem (by decide) (by decide)) (fun _ h => absurd h List.not_mem_nil)
      (by decide) (by decide) (by decide) (by decide)
  exact hsiblings

/-- The rename of the second file fails, and the first one is put back. -/
theorem writeFiles_all_or_none_twoFiles :
    ∃ fault v, Faulty.exec ((writeFiles twoFiles :
        WorkflowM Unit (Faulty (StateM Volume)) Unit).run.run ()) (some ⟨8, .notEmpty⟩, oneFile)
      = ((.error (.artifact ⟨.here, ["b"]⟩ (.refused .notEmpty)), ()), fault, v) ∧
      oneFile.Restored v (twoFiles.map Prod.fst) ∧ oneFile.NoneLeft v (twoFiles.map Prod.fst) := by
  have hends := writeFiles_all_or_none replaceable_twoFiles (some ⟨8, .notEmpty⟩) ()
  have hresult : (Faulty.exec ((writeFiles twoFiles :
      WorkflowM Unit (Faulty (StateM Volume)) Unit).run.run ()) (some ⟨8, .notEmpty⟩, oneFile)).1
      = (.error (.artifact ⟨.here, ["b"]⟩ (.refused .notEmpty)), ()) := by decide +kernel
  rw [Faulty.Ends] at hends
  rcases hrun : Faulty.exec ((writeFiles twoFiles :
    WorkflowM Unit (Faulty (StateM Volume)) Unit).run.run ()) (some ⟨8, .notEmpty⟩, oneFile)
    with ⟨result, fault, v⟩
  rw [hrun] at hends hresult
  obtain rfl : result = _ := hresult
  obtain ⟨-, hnone, hrestored, -⟩ := hends
  exact ⟨fault, v, rfl, hrestored, hnone⟩

/-- A target on the way to another one: the directory made for the second target is there in the
end, where the first target was absent. -/
def nestedFiles : List (Path × Bytes) :=
  [(⟨.here, ["d", "b"]⟩, [1]), (⟨.here, ["d"]⟩, [2]), (⟨.here, ["a", "c"]⟩, [3])]

theorem nested_target_becomes_directory :
    (nestedFiles.map Prod.fst).Nodup ∧
    (∀ p ∈ nestedFiles.map Prod.fst, ∀ q ∈ nestedFiles.map Prod.fst, p ≠ backupOf q) ∧
    (∀ p ∈ nestedFiles.map Prod.fst,
      oneFile.entry? (oneFile.place p) = none ∧ oneFile.entry? (oneFile.place (backupOf p)) = none) ∧
    ∃ fault v, Faulty.exec ((writeFiles nestedFiles :
        WorkflowM Unit (Faulty (StateM Volume)) Unit).run.run ()) (none, oneFile)
      = ((.error (.artifact ⟨.here, ["a", "c"]⟩ (.refused .entryExists)), ()), fault, v) ∧
      v.entry? (oneFile.place ⟨.here, ["d"]⟩) = some .directory := by
  refine ⟨by decide, by decide, by decide, ?_⟩
  have hrun : (fun ended => ended.1 = (.error (.artifact ⟨.here, ["a", "c"]⟩ (.refused .entryExists)), ()) ∧
      Volume.entry? ended.2.2 (oneFile.place ⟨.here, ["d"]⟩) = some .directory)
      (Faulty.exec ((writeFiles nestedFiles :
        WorkflowM Unit (Faulty (StateM Volume)) Unit).run.run ()) (none, oneFile)) := by
    decide +kernel
  exact ⟨_, _, Prod.ext hrun.1 rfl, hrun.2⟩

/-- On a volume that does not fail, either all files are written or a reported refusal leaves them as
they were.  The targets have to be replaceable.  Left out are a target that is a directory, that has
an unusable path or no name, that is given twice, that lies below another one or its backup, that has
the place of a backup or of a temporary file, and one whose backup name is taken. -/
theorem writeFiles_reports (hR : Replaceable v (files.map Prod.fst)) (s : σ) :
    Faulty.Ends ((writeFiles files : WorkflowM σ (Faulty (StateM Volume)) Unit).run.run s) (none, v)
      fun (result, _) (_, v') => v.NoneLeft v' (files.map Prod.fst) ∧
        match result with
        | .ok _ => v.Replaced v' files
        | .error e => e.isReported = true ∧ v.Restored v' (files.map Prod.fst) := by
  refine ends_writeFiles ((ends_replaceFiles hR none).mono fun result w hends => ?_)
  cases result with
  | error e =>
    obtain ⟨⟨f, hf, cause, rfl, -⟩, hrestored⟩ := hends
    exact ⟨hR.noneLeft fun loc _ => hrestored.spared loc, rfl, hrestored⟩
  | ok _ =>
    refine ⟨hR.noneLeft fun loc hloc => hends.1.spared loc fun f hf => ?_, hends.1⟩
    exact hloc f.1 (List.mem_map_of_mem hf)

/-- Both files are written where nothing fails. -/
theorem writeFiles_reports_twoFiles :
    ∃ fault v, Faulty.exec ((writeFiles twoFiles :
        WorkflowM Unit (Faulty (StateM Volume)) Unit).run.run ()) (none, oneFile)
      = ((.ok (), ()), fault, v) ∧ oneFile.Replaced v twoFiles ∧
      oneFile.NoneLeft v (twoFiles.map Prod.fst) := by
  have hends := writeFiles_reports replaceable_twoFiles ()
  have hresult : (Faulty.exec ((writeFiles twoFiles :
      WorkflowM Unit (Faulty (StateM Volume)) Unit).run.run ()) (none, oneFile)).1
      = (.ok (), ()) := by decide +kernel
  rw [Faulty.Ends] at hends
  rcases hrun : Faulty.exec ((writeFiles twoFiles :
    WorkflowM Unit (Faulty (StateM Volume)) Unit).run.run ()) (none, oneFile)
    with ⟨result, fault, v⟩
  rw [hrun] at hends hresult
  obtain rfl : result = _ := hresult
  exact ⟨fault, v, rfl, hends.2, hends.1⟩

/-- A directory where a file is to be written. -/
def oneDirectory : Volume := { entries := [(["a"], .directory)] }

/-- A directory is set aside like a file, but cannot be removed in the end. -/
theorem writeFiles_stuck_on_directory :
    ∃ fault v, Faulty.exec ((writeFiles [(⟨.here, ["a"]⟩, [1])] :
        WorkflowM Unit (Faulty (StateM Volume)) Unit).run.run ()) (none, oneDirectory)
      = ((.error (.disk .isDirectory), ()), fault, v) ∧
      v.entry? ["a"] = some (.file [1]) ∧ v.entry? [".a.bak"] = some .directory := by
  have hrun : (fun ended => ended.1 = (.error (.disk .isDirectory), ()) ∧
      Volume.entry? ended.2.2 ["a"] = some (.file [1]) ∧ Volume.entry? ended.2.2 [".a.bak"] = some .directory)
      (Faulty.exec ((writeFiles [(⟨.here, ["a"]⟩, [1])] :
        WorkflowM Unit (Faulty (StateM Volume)) Unit).run.run ()) (none, oneDirectory)) := by
    decide +kernel
  exact ⟨_, _, Prod.ext hrun.1 rfl, hrun.2⟩

end WorkflowM

end MerkleSnark
