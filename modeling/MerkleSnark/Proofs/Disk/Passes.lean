import Mathlib
import MerkleSnark.Proofs.Disk.Fault
import MerkleSnark.Proofs.Disk.Replacement

/-!
# The passes of a replacement

Every step of a replacement on a volume that fails at most once leads from one moment of the
replacement to another one.  A step of the first pass may be refused for any reason; by the second
pass only the fault is left as a reason.  The way back is made of operations that can always be
done, once the fault has struck or as long as no target was set aside.

## Main definitions

* `Replacement.exec`, `Replacement.Ends` — runs of a part of a replacement.
* `Replacement.Staged`, `Replacement.Installed`, `Replacement.Finished` — how far each part has come.

## Main results

* `Replacement.ends_stage`, `Replacement.ends_install` — one file in each of the passes.
* `Replacement.ends_passes` — both passes over all files.
* `Replacement.ends_undo`, `Replacement.ends_finish` — the two ways in which a run ends.
-/

namespace MerkleSnark

namespace Replacement

variable {α β : Type} {r : Replacement} {w : World}

/-- Runs a part of a replacement on a volume. -/
def exec (x : M (Faulty (StateM Volume)) α) (r : Replacement) (w : World) :
    Except ReplacementError α × Replacement × World :=
  let ((a, r'), w') := Faulty.exec (x.run.run r) w
  (a, r', w')

/-- The end of a part of a replacement meets a condition. -/
def Ends (x : M (Faulty (StateM Volume)) α) (r : Replacement) (w : World)
    (post : Except ReplacementError α → Replacement → World → Prop) : Prop :=
  post (exec x r w).1 (exec x r w).2.1 (exec x r w).2.2

namespace Ends

variable {post : Except ReplacementError α → Replacement → World → Prop}

theorem mono {post' : Except ReplacementError α → Replacement → World → Prop}
    {x : M (Faulty (StateM Volume)) α} (h : Ends x r w post)
    (himp : ∀ a r' w', post a r' w' → post' a r' w') : Ends x r w post' := himp _ _ _ h

theorem pure {a : α} (h : post (.ok a) r w) :
    Ends (Pure.pure a : M (Faulty (StateM Volume)) α) r w post := h

theorem throw {e : ReplacementError} (h : post (.error e) r w) :
    Ends (MonadExcept.throw e : M (Faulty (StateM Volume)) α) r w post := h

theorem bind {x : M (Faulty (StateM Volume)) α} {f : α → M (Faulty (StateM Volume)) β}
    {post : Except ReplacementError β → Replacement → World → Prop}
    (h : Ends x r w fun a r' w' =>
      match a with
      | .ok a => Ends (f a) r' w' post
      | .error e => post (.error e) r' w') :
    Ends (x >>= f) r w post := by
  show Ends (ExceptT.mk (ExceptT.bindCont f (exec x r w).1) : M (Faulty (StateM Volume)) β)
    (exec x r w).2.1 (exec x r w).2.2 post
  revert h
  rw [Ends]
  rcases exec x r w with ⟨e | a, r', w'⟩
  · exact id
  · exact id

theorem update_bind {g : Replacement → Replacement} {f : PUnit → M (Faulty (StateM Volume)) α}
    (h : Ends (f ⟨⟩) (g r) w post) : Ends (modify g >>= f) r w post := bind h

theorem get_bind {f : Replacement → M (Faulty (StateM Volume)) α}
    (h : Ends (f r) r w post) : Ends (get >>= f) r w post := bind h

theorem usable_bind {p : Path} {f : Path → M (Faulty (StateM Volume)) α}
    (hok : Ends (f p) r w post) (hbad : p.checked? ≠ .ok p → ∀ e, post (.error (.badPath e)) r w) :
    Ends (usable p >>= f) r w post := by
  rw [usable]
  by_cases hnul : p.names.any hasNul
  · have hp : p.checked? = .error .nulCharacter := if_pos hnul
    rw [hp] at hbad ⊢
    exact bind (hbad nofun _)
  · have hp : p.checked? = .ok p := if_neg hnul
    rw [hp]
    exact bind hok

theorem attempt {target : Path} {x : ExceptT OsError (Faulty (StateM Volume)) α}
    (h : x.run.Ends w fun a w' =>
      match a with
      | .ok a => post (.ok a) r w'
      | .error e => post (.error (.refused target e)) r w') :
    Ends (Replacement.attempt target x) r w post := by
  show Ends (ExceptT.mk (match (x.run.exec w).1 with
    | .ok a => Pure.pure (.ok a)
    | .error e => Pure.pure (.error (.refused target e))) : M (Faulty (StateM Volume)) α)
    r (x.run.exec w).2 post
  revert h
  rw [Faulty.Ends]
  rcases x.run.exec w with ⟨e | a, w'⟩
  · exact id
  · exact id

theorem attempt_bind {target : Path} {x : ExceptT OsError (Faulty (StateM Volume)) β}
    {f : β → M (Faulty (StateM Volume)) α}
    (h : x.run.Ends w fun a w' =>
      match a with
      | .ok a => Ends (f a) r w' post
      | .error e => post (.error (.refused target e)) r w') :
    Ends (Replacement.attempt target x >>= f) r w post := by
  refine bind (attempt (h.mono fun a w' => ?_))
  cases a with
  | ok a => exact id
  | error e => exact id

end Ends

/-! ### The first pass -/

variable {u v v' : Volume} {files done rest : List (Path × Bytes)} {todo : List (Path × Path)}
  {p t : Path} {data : Bytes}

/-- A temporary file holds the bytes of a file. -/
def Loaded (u v : Volume) (e : Path × Path) (f : Path × Bytes) : Prop :=
  e.2 = f.1 ∧ v.entry? (u.place e.1) = some (.file f.2)

theorem Loaded.of_eq {e : Path × Path} {f : Path × Bytes} (h : Loaded u v e f)
    (hsame : v'.entry? (u.place e.1) = v.entry? (u.place e.1)) : Loaded u v' e f :=
  ⟨h.1, hsame.trans h.2⟩

theorem ne_none_of_loaded (h : List.Forall₂ (Loaded u v) todo done) :
    ∀ e ∈ todo, v.entry? (u.place e.1) ≠ none := by
  induction h with
  | nil => exact nofun
  | cons hloaded _ ih =>
    intro e he
    rcases List.mem_cons.mp he with rfl | he
    · rw [hloaded.2]
      exact nofun
    · exact ih e he

/-- The first pass has come as far as the files `done`. -/
structure Staged (u : Volume) (files done : List (Path × Bytes)) (r : Replacement) (v : Volume) :
    Prop where
  progress : Progress u (files.map Prod.fst) r v
  nothing : r.replaced = []
  loaded : List.Forall₂ (Loaded u v) r.pending done
  fresh : (r.pending.map fun e => u.place e.1).Nodup

/-- What a refused step of the first pass leaves. -/
def Unstaged (u : Volume) (files : List (Path × Bytes)) (target : Path) (e : ReplacementError)
    (r : Replacement) (v : Volume) : Prop :=
  (∃ cause, e = .refused target cause) ∧ Progress u (files.map Prod.fst) r v ∧ r.replaced = []

theorem Staged.grow (h : Staged u files done r v) (hR : Replaceable u (files.map Prod.fst))
    (hgrows : v.Grows v' (waysTo u (files.map Prod.fst))) : Staged u files done r v' where
  progress := h.progress.grow hR (ne_none_of_loaded h.loaded) hgrows
  nothing := h.nothing
  loaded := h.loaded.imp fun e f hloaded =>
    hloaded.of_eq ((hgrows.spared _).eq_of_ne_none (by rw [hloaded.2]; exact nofun))
  fresh := h.fresh

theorem Staged.unstaged (h : Staged u files done r v) (target : Path) (cause : OsError) :
    Unstaged u files target (.refused target cause) r v :=
  ⟨⟨cause, rfl⟩, h.progress, h.nothing⟩

theorem checked?_parent (h : p.checked? = .ok p) : p.parent.checked? = .ok p.parent := by
  have hp : ¬ p.names.any hasNul = true := by
    intro hany
    rw [Path.checked?, if_pos hany] at h
    cases h
  rw [Path.checked?, if_neg]
  simp only [List.any_eq_true, not_exists, not_and] at hp ⊢
  exact fun name hname => hp name (List.mem_of_mem_dropLast hname)

theorem Staged.ends_write (h : Staged u files done r v)
    (hR : Replaceable u (files.map Prod.fst)) (hp : p ∈ files.map Prod.fst) {k : ℕ}
    {fault : Option Fault} (hfits : (temporaryOf p k).Fits) (hopen : v.Open (temporaryOf p k))
    (hfree : v.entry? (v.place (temporaryOf p k)) = none) (hkeeps : v.Keeps v')
    (hentries : ∀ loc, v'.entry? loc
      = if loc = v.place (temporaryOf p k) then some (.file []) else v.entry? loc) :
    Ends (do
      modify fun r => { r with pending := r.pending ++ [(temporaryOf p k, p)] }
      Replacement.attempt p (Disk.write (temporaryOf p k) data)) r (fault, v')
      fun result r' w' =>
        match result with
        | .ok _ => Staged u files (done ++ [(p, data)]) r' w'.2
        | .error e => Unstaged u files p e r' w'.2 := by
  set t := temporaryOf p k
  rw [h.progress.keeps.place] at hfree hentries
  have hnames := (hR.named p hp).1
  have hpending : ∀ e ∈ r.pending, u.place t ≠ u.place e.1 := fun e he heq =>
    ne_none_of_loaded h.loaded e he (heq ▸ hfree)
  have hnone : u.entry? (u.place t) = none := by
    -- the place is none of those that have changed
    rcases h.progress.others _ (fun q hq => ⟨Ne.symm (hR.notTemporary q hq p hp k),
      Ne.symm (Replaceable.backup_ne_temporary q p k)⟩) hpending with hsame | ⟨-, hnone, -⟩
    · exact hsame ▸ hfree
    · exact hnone
  have htemporary {v'' : Volume} (hkeeps' : v.Keeps v'')
      (hentry : v''.entry? (u.place t) ≠ some .directory) :
      Temporary u (files.map Prod.fst) v'' (t, p) :=
    ⟨hp, ⟨k, rfl⟩, hfits, hkeeps'.isOpen hopen, hnone, hentry⟩
  -- the file is recorded before it is written, so that a failed write is undone as well
  have hfile : v'.entry? (u.place t) ≠ some .directory := by
    rw [hentries, if_pos rfl]
    exact nofun
  have hprogress : Progress u (files.map Prod.fst)
      { r with pending := r.pending ++ [(t, p)] } v' := by
    refine h.progress.touch hR (fun e => ?_) (htemporary hkeeps hfile) hkeeps fun loc hloc => ?_
    · rw [List.mem_append, List.mem_singleton]
    · rw [hentries, if_neg hloc]
  refine Ends.update_bind (Ends.attempt ?_)
  have hplace : v'.place t = u.place t := by rw [hkeeps.place, h.progress.keeps.place]
  refine Faulty.ends_write hprogress.keeps.wellFormed hfits (hkeeps.isOpen hopen)
    (by rw [hplace]; exact hfile) (fun fault' v'' _ hkeeps' hentries' => ?_) fun cause _ => ?_
  · -- written
    have hsame (loc : Location) (hloc : loc ≠ u.place t) : v''.entry? loc = v.entry? loc := by
      rw [hentries', hplace, if_neg hloc, hentries, if_neg hloc]
    have hwritten : v''.entry? (u.place t) = some (.file data) := by
      rw [hentries', hplace, if_pos rfl]
    refine ⟨?_, h.nothing, ?_, ?_⟩
    · refine hprogress.touch hR (fun e => ?_) (htemporary (hkeeps.trans hkeeps') ?_) hkeeps'
        fun loc hloc => ?_
      · simp
      · rw [hwritten]
        exact nofun
      · rw [hentries', hplace, if_neg hloc]
    · have hothers := (List.forall₂_and_left _ _).mpr ⟨hpending, h.loaded⟩
      refine List.rel_append (hothers.imp fun e f ⟨hne, hloaded⟩ => ?_) (.cons ⟨rfl, hwritten⟩ .nil)
      exact hloaded.of_eq (hsame _ (Ne.symm hne))
    · rw [List.map_append, List.map_singleton]
      refine List.nodup_append.mpr ⟨h.fresh, List.nodup_singleton _, fun loc hloc loc' hloc' => ?_⟩
      obtain ⟨e, he, rfl⟩ := List.mem_map.mp hloc
      rw [List.mem_singleton.mp hloc']
      exact Ne.symm (hpending e he)
  · exact ⟨⟨cause, rfl⟩, hprogress, h.nothing⟩

theorem ends_stage (hR : Replaceable u (files.map Prod.fst))
    (hp : p ∈ files.map Prod.fst) (h : Staged u files done r w.2) :
    Ends (stage p data) r w fun result r' w' =>
      match result with
      | .ok _ => Staged u files (done ++ [(p, data)]) r' w'.2
      | .error e => Unstaged u files p e r' w'.2 := by
  have hchecked := hR.usable p hp
  refine Ends.usable_bind (Ends.attempt_bind
    ((Faulty.ends_ensureDirectory h.progress.keeps.wellFormed p.parent).mono
      fun result w₁ hmade => ?_)) fun hne => absurd (checked?_parent hchecked) hne
  obtain ⟨hgrows, -⟩ := hmade
  have hways : Faulty.waysTo w.2 p.parent ⊆ waysTo u (files.map Prod.fst) := by
    intro loc hloc
    rw [Faulty.waysTo_eq_way_child w.2 p.parent p.name,
      Path.child_parent_name (hR.named p hp).1] at hloc
    exact ⟨p, hp, Volume.way_congr h.progress.keeps.here p ▸ hloc⟩
  have h₁ := h.grow hR (hgrows.mono hways)
  cases result with
  | error e => exact h₁.unstaged p e
  | ok _ =>
    refine Ends.usable_bind (Ends.attempt_bind
      (Faulty.ends_makeTemporary h₁.progress.keeps.wellFormed (temporaryName_ne_up p)
        (fun k fault v₂ _ hfits hopen hfree hkeeps hentries => ?_) fun e fault => ?_))
      fun hne => absurd hchecked hne
    · exact h₁.ends_write hR hp hfits hopen hfree hkeeps hentries
    · exact h₁.unstaged p e

/-! ### The second pass -/

/-- The second pass has come as far as the files `done`; the temporary files `todo` for the files
`rest` are still there. -/
structure Installed (u : Volume) (files done rest : List (Path × Bytes))
    (todo : List (Path × Path)) (r : Replacement) (v : Volume) : Prop where
  progress : Progress u (files.map Prod.fst) r v
  order : r.replaced.map Prod.fst = done.map Prod.fst
  installed : ∀ f ∈ done, v.entry? (u.place f.1) = some (.file f.2)
  pending : ∀ e ∈ todo, e ∈ r.pending
  loaded : List.Forall₂ (Loaded u v) todo rest
  fresh : (todo.map fun e => u.place e.1).Nodup
  spent : ∀ e ∈ r.pending, e ∈ todo ∨ v.entry? (u.place e.1) = none

/-- What a step of the second pass leaves when it is refused: the fault has struck. -/
def Uninstalled (u : Volume) (files : List (Path × Bytes)) (target : Path) (e : ReplacementError)
    (r : Replacement) (w : World) : Prop :=
  (∃ cause, e = .refused target cause) ∧ Progress u (files.map Prod.fst) r w.2 ∧ w.1 = none

theorem Staged.installed (h : Staged u files files r v) :
    Installed u files [] files r.pending r v where
  progress := h.progress
  order := by rw [h.nothing]; rfl
  installed := nofun
  pending _ he := he
  loaded := h.loaded
  fresh := h.fresh
  spent _ he := Or.inl he

theorem ends_setAside (hR : Replaceable u (files.map Prod.fst)) (hp : p ∈ files.map Prod.fst)
    (hkeeps : u.Keeps w.2) (hfits : p.Fits) (hfits' : (backupOf p).Fits) (hopen : w.2.Open p)
    (htarget : Volume.entry? w.2 (u.place p) = u.entry? (u.place p))
    (hbackup : Volume.entry? w.2 (u.place (backupOf p)) = none)
    {post : Except ReplacementError (Option Path) → Replacement → World → Prop}
    (hok : ∀ fault v, w.2.Keeps v → v.entry? (u.place p) = none →
      v.entry? (u.place (backupOf p)) = u.entry? (u.place p) →
      (∀ loc, loc ≠ u.place p → loc ≠ u.place (backupOf p) → v.entry? loc = Volume.entry? w.2 loc) →
      post (.ok ((u.entry? (u.place p)).map fun _ => backupOf p)) r (fault, v))
    (hstruck : ∀ cause, post (.error (.refused p cause)) r (none, w.2)) :
    Ends (setAside p) r w post := by
  refine Ends.attempt_bind (Faulty.ends_exists? hfits hopen ?_)
  rw [hkeeps.place, htarget]
  cases hentry : u.entry? (u.place p) with
  | none =>
    rw [hentry] at htarget hok
    exact hok w.1 w.2 (.refl hkeeps.wellFormed) htarget hbackup fun _ _ _ => rfl
  | some e =>
    cases e with
    | directory => exact absurd hentry (hR.notDirectory p hp)
    | file data =>
      rw [hentry] at htarget hok
      -- the name is not empty, so the target has a backup name
      have hname : p.name.isEmpty = false := by
        simpa using (hR.named p hp).2.1
      have hplace := hkeeps.place p
      have hplace' := hkeeps.place (backupOf p)
      have hmoved : Ends (Replacement.attempt p (Disk.rename p (backupOf p)) >>= fun _ =>
          pure (some (backupOf p))) r w post := by
        refine Ends.attempt_bind (Faulty.ends_rename hkeeps.wellFormed hfits hopen hfits'
          (hopen.withName (hR.named p hp).1 _) (hplace ▸ htarget) ?_ ?_
          (fun fault v _ hkeeps' hentries => ?_) fun cause _ => hstruck cause)
        · rw [hplace', hbackup]
          exact nofun
        · rw [hplace, hplace']
          exact hR.notBackup p hp p hp
        · rw [hplace, hplace'] at hentries
          refine hok fault v hkeeps' ?_ ?_ fun loc hloc hloc' => ?_
          · rw [hentries, if_neg (hR.notBackup p hp p hp), if_pos rfl]
          · rw [hentries, if_pos rfl]
          · rw [hentries, if_neg hloc', if_neg hloc]
      simpa [hname] using hmoved

theorem Installed.next {e : Path × Path} {f : Path × Bytes} {backup : Option Path}
    (hR : Replaceable u (files.map Prod.fst)) (hdone : ∀ f' ∈ done, f' ∈ files)
    (h : Installed u files done (f :: rest) (e :: todo) r v)
    (hnot : e.2 ∉ r.replaced.map Prod.fst)
    (hprogress : Progress u (files.map Prod.fst)
      { r with replaced := r.replaced ++ [(e.2, backup)] } v')
    (htarget : v'.entry? (u.place e.2) = some (.file f.2))
    (htemporary : v'.entry? (u.place e.1) = none)
    (hsame : ∀ loc, loc ≠ u.place e.2 → loc ≠ u.place (backupOf e.2) → loc ≠ u.place e.1 →
      v'.entry? loc = v.entry? loc) :
    Installed u files (done ++ [f]) rest todo
      { r with replaced := r.replaced ++ [(e.2, backup)] } v' := by
  obtain ⟨hloaded, hrest⟩ := List.forall₂_cons.mp h.loaded
  have hpending := h.progress.pending
  have hp := (hpending e (h.pending e List.mem_cons_self)).target
  -- what is at a temporary name other than that of `e` stays
  have hstays (e' : Path × Path) (he' : e' ∈ r.pending) (hne : u.place e'.1 ≠ u.place e.1) :
      v'.entry? (u.place e'.1) = v.entry? (u.place e'.1) :=
    have hnames := (hpending e' he').ne hR hp
    hsame _ (Ne.symm hnames.1) (Ne.symm hnames.2) hne
  exact {
    progress := hprogress
    order := by rw [List.map_append, List.map_append, h.order, List.map_singleton, hloaded.1]; rfl
    installed := by
      intro f' hf'
      rcases List.mem_append.mp hf' with hf' | hf'
      · have hmem : f'.1 ∈ files.map Prod.fst := List.mem_map_of_mem (hdone f' hf')
        have hne : f'.1 ≠ e.2 := by
          rw [h.order] at hnot
          exact fun heq => hnot (heq ▸ List.mem_map_of_mem hf')
        rw [hsame _ (fun heq => hne (hR.eq_of_place_eq hmem hp heq)) (hR.notBackup _ hmem _ hp)
          ((hpending e (h.pending e List.mem_cons_self)).ne hR hmem).1]
        exact h.installed f' hf'
      · rw [List.mem_singleton.mp hf', ← hloaded.1]
        exact htarget
    pending := fun e' he' => h.pending e' (List.mem_cons_of_mem e he')
    loaded := by
      have hne : ∀ e' ∈ todo, e' ∈ r.pending ∧ u.place e'.1 ≠ u.place e.1 := by
        intro e' he'
        refine ⟨h.pending e' (List.mem_cons_of_mem e he'), fun heq => ?_⟩
        exact (List.nodup_cons.mp h.fresh).1 (List.mem_map.mpr ⟨e', he', heq⟩)
      exact ((List.forall₂_and_left _ _).mpr ⟨hne, hrest⟩).imp fun e' f' ⟨⟨he', hne⟩, hloaded⟩ =>
        hloaded.of_eq (hstays e' he' hne)
    fresh := (List.nodup_cons.mp h.fresh).2
    spent := by
      intro e' he'
      by_cases heq : u.place e'.1 = u.place e.1
      · exact Or.inr (heq ▸ htemporary)
      · rcases h.spent e' he' with hmem | hnone
        · rcases List.mem_cons.mp hmem with rfl | hmem
          · exact absurd rfl heq
          · exact Or.inl hmem
        · exact Or.inr ((hstays e' he' heq).trans hnone) }

theorem ends_install {e : Path × Path} {f : Path × Bytes}
    (hR : Replaceable u (files.map Prod.fst)) (hfiles : files = done ++ f :: rest)
    (h : Installed u files done (f :: rest) (e :: todo) r w.2) :
    Ends (install e.1 e.2) r w fun result r' w' =>
      match result with
      | .ok _ => Installed u files (done ++ [f]) rest todo r' w'.2
      | .error cause => Uninstalled u files e.2 cause r' w' := by
  obtain ⟨hloaded, hrest⟩ := List.forall₂_cons.mp h.loaded
  have hpending := h.pending e List.mem_cons_self
  have htemporary := h.progress.pending e hpending
  have hp := htemporary.target
  obtain ⟨k, hk⟩ := htemporary.name
  have hnames := (hR.named e.2 hp).1
  obtain ⟨hfits, hfits'⟩ := fits_of_temporary hnames (hk ▸ htemporary.fits)
  have hopen : w.2.Open e.2 := Volume.Open.of_withName (hk ▸ htemporary.isOpen) hnames
  -- the targets differ, so this one is still as it was
  have hnot : e.2 ∉ r.replaced.map Prod.fst := by
    have hnodup := List.Nodup.of_map _ hR.distinct
    rw [hfiles, List.map_append, List.map_cons] at hnodup
    rw [h.order, hloaded.1]
    exact fun hmem => (List.nodup_append.mp hnodup).2.2 _ hmem _ List.mem_cons_self rfl
  obtain ⟨htarget, hbackup⟩ := h.progress.untouched e.2 hp hnot
  refine Ends.bind (ends_setAside hR hp h.progress.keeps hfits hfits' hopen htarget hbackup
    (fun fault v hkeeps htarget' hbackup' hsame => ?_) fun cause => ?_)
  · have hprogress := h.progress.setAside hR hp hnot hfits hfits' hopen hkeeps htarget' hbackup' hsame
    have hplace := (h.progress.keeps.trans hkeeps).place
    have hne := htemporary.ne hR hp
    have hfile : v.entry? (v.place e.1) = some (.file f.2) := by
      rw [hplace, hsame _ (Ne.symm hne.1) (Ne.symm hne.2)]
      exact hloaded.2
    -- the target has been recorded: whatever happens to the second move, undoing puts it back
    refine Ends.update_bind (Ends.attempt (Faulty.ends_rename hprogress.keeps.wellFormed
      htemporary.fits (hkeeps.isOpen htemporary.isOpen) hfits (hkeeps.isOpen hopen) hfile ?_ ?_
      (fun fault' v' _ hkeeps' hentries => ?_) fun cause _ => ⟨⟨cause, rfl⟩, hprogress, rfl⟩))
    · rw [hplace, htarget']
      exact nofun
    · rw [hplace, hplace]
      exact Ne.symm hne.1
    · rw [hplace, hplace] at hentries
      have htarget'' : v'.entry? (u.place e.2) = some (.file f.2) := by rw [hentries, if_pos rfl]
      have htemporary' : v'.entry? (u.place e.1) = none := by
        rw [hentries, if_neg (Ne.symm hne.1), if_pos rfl]
      have hsame' (loc : Location) (hloc : loc ≠ u.place e.2) (hloc' : loc ≠ u.place e.1) :
          v'.entry? loc = v.entry? loc := by rw [hentries, if_neg hloc, if_neg hloc']
      refine h.next hR (fun f' hf' => hfiles ▸ List.mem_append_left _ hf') hnot ?_ htarget''
        htemporary' fun loc hloc hback hloc' => (hsame' loc hloc hloc').trans (hsame loc hloc hback)
      refine hprogress.install hR hpending hkeeps' ?_ htemporary' ?_ hsame'
      · rw [htarget'']
        exact nofun
      · simp
  · exact ⟨⟨cause, rfl⟩, h.progress, rfl⟩

/-! ### The end of a run -/

theorem ends_removePending {pending : List (Path × Path)}
    {replaced : List (Path × Option Path)} (hR : Replaceable u (files.map Prod.fst))
    (h : Progress u (files.map Prod.fst) ⟨pending, replaced⟩ w.2) :
    (pending.forM fun e => Disk.removeIfPresent e.1 :
      ExceptT OsError (Faulty (StateM Volume)) PUnit).run.Ends w fun result w' =>
        result = .ok ⟨⟩ ∧ w'.1 = w.1 ∧ Progress u (files.map Prod.fst) ⟨[], replaced⟩ w'.2 := by
  induction pending generalizing w with
  | nil => exact ⟨rfl, rfl, h⟩
  | cons e pending ih =>
    have he := h.pending e List.mem_cons_self
    have hplace := h.keeps.place e.1
    refine Faulty.Ends.except_bind (Faulty.ends_removeIfPresent h.keeps.wellFormed he.fits he.isOpen
      (hplace ▸ he.notDirectory) fun v hkeeps hentries => ?_)
    exact ih (h.discard hR hkeeps (hplace ▸ hentries))

theorem ends_restore {e : Path × Option Path} {replaced : List (Path × Option Path)}
    (hR : Replaceable u (files.map Prod.fst)) (hw : w.1 = none)
    (h : Progress u (files.map Prod.fst) ⟨[], replaced ++ [e]⟩ w.2) :
    (restore e : ExceptT OsError (Faulty (StateM Volume)) Unit).run.Ends w fun result w' =>
      result = .ok () ∧ w'.1 = none ∧ Progress u (files.map Prod.fst) ⟨[], replaced⟩ w'.2 := by
  have hlast := h.replaced e (List.mem_append_right _ List.mem_cons_self)
  have hnames := (hR.named e.1 hlast.target).1
  have hplace := h.keeps.place e.1
  have hplace' := h.keeps.place (backupOf e.1)
  have hne : u.place e.1 ≠ u.place (backupOf e.1) :=
    hR.notBackup e.1 hlast.target e.1 hlast.target
  have hbackup := hlast.backup
  have hkept := hlast.kept
  rw [restore]
  cases hentry : u.entry? (u.place e.1) with
  | none =>
    -- there was nothing at first, so what stands there now is taken away
    rw [hentry] at hbackup hkept
    rw [hbackup]
    refine Faulty.ends_removeIfPresent h.keeps.wellFormed hlast.fits hlast.isOpen
      (hplace ▸ hlast.notDirectory) fun v hkeeps hentries => ⟨rfl, hw, ?_⟩
    rw [hplace] at hentries
    refine h.restore hR hkeeps ?_ ?_ fun loc hloc _ => ?_
    · rw [hentries, if_pos rfl, hentry]
    · rw [hentries, if_neg (Ne.symm hne)]
      exact hkept
    · rw [hentries, if_neg hloc]
  | some old =>
    cases old with
    | directory => exact absurd hentry (hR.notDirectory e.1 hlast.target)
    | file data =>
      rw [hentry] at hbackup hkept
      rw [hbackup]
      refine Faulty.ends_rename h.keeps.wellFormed hlast.fitsBackup (hlast.isOpen.withName hnames _)
        hlast.fits hlast.isOpen (hplace' ▸ hkept) (hplace ▸ hlast.notDirectory) ?_
        (fun fault v hfault hkeeps hentries => ⟨rfl, ?_, ?_⟩) fun cause hsome => ?_
      · rw [hplace, hplace']
        exact Ne.symm hne
      · simpa [hw] using hfault
      · rw [hplace, hplace'] at hentries
        refine h.restore hR hkeeps ?_ ?_ fun loc hloc hloc' => ?_
        · rw [hentries, if_pos rfl, hentry]
        · rw [hentries, if_neg (Ne.symm hne), if_pos rfl]
        · rw [hentries, if_neg hloc, if_neg hloc']
      · simp [hw] at hsome

theorem ends_restoreAll {replaced : List (Path × Option Path)}
    (hR : Replaceable u (files.map Prod.fst)) (hw : w.1 = none ∨ replaced = [])
    (h : Progress u (files.map Prod.fst) ⟨[], replaced⟩ w.2) :
    (replaced.reverse.forM restore :
      ExceptT OsError (Faulty (StateM Volume)) PUnit).run.Ends w fun result w' =>
        result = .ok ⟨⟩ ∧ Progress u (files.map Prod.fst) {} w'.2 := by
  induction replaced using List.reverseRecOn generalizing w with
  | nil => exact ⟨rfl, h⟩
  | append_singleton replaced e ih =>
    rw [List.reverse_append, List.reverse_singleton, List.singleton_append]
    have hnone : w.1 = none := hw.resolve_right (by simp)
    refine Faulty.Ends.except_bind ((ends_restore hR hnone h).mono fun result w' hrestored => ?_)
    obtain ⟨rfl, hnone', hprogress⟩ := hrestored
    exact ih (Or.inl hnone') hprogress

/-- From any moment of a replacement the way back leads to the start, if the fault has struck or no
target was set aside. -/
theorem ends_undo (hR : Replaceable u (files.map Prod.fst))
    (h : Progress u (files.map Prod.fst) r w.2) (hw : w.1 = none ∨ r.replaced = []) :
    (undo r : ExceptT OsError (Faulty (StateM Volume)) Unit).run.Ends w fun result w' =>
      result = .ok () ∧ u.Grows w'.2 (waysTo u (files.map Prod.fst)) := by
  refine Faulty.Ends.except_bind ((ends_removePending hR h).mono fun result w₁ hremoved => ?_)
  obtain ⟨rfl, hfault, hprogress⟩ := hremoved
  refine (ends_restoreAll hR (hfault ▸ hw) hprogress).mono fun result w₂ hrestored => ?_
  exact ⟨hrestored.1, hrestored.2.grows hR⟩

/-- All targets are in place, and the backups `todo` are still there. -/
structure Finished (u : Volume) (files : List (Path × Bytes)) (todo : List (Path × Option Path))
    (v : Volume) : Prop where
  keeps : u.Keeps v
  ready : ∀ f ∈ files, f.1.Fits ∧ v.Open f.1
  installed : ∀ f ∈ files, v.entry? (u.place f.1) = some (.file f.2)
  aside : ∀ e ∈ todo, Aside u (files.map Prod.fst) v e
  nodup : (todo.map Prod.fst).Nodup
  noBackup : ∀ p ∈ files.map Prod.fst, p ∉ todo.map Prod.fst →
    v.entry? (u.place (backupOf p)) = none
  others : ∀ loc, (∀ p ∈ files.map Prod.fst, loc ≠ u.place p ∧ loc ≠ u.place (backupOf p)) →
    u.SparedAt v (waysTo u (files.map Prod.fst)) loc

theorem Installed.finished (h : Installed u files files [] [] r v) :
    Finished u files r.replaced v where
  keeps := h.progress.keeps
  ready := by
    intro f hf
    have hmem : f.1 ∈ r.replaced.map Prod.fst := h.order ▸ List.mem_map_of_mem hf
    obtain ⟨e, he, heq⟩ := List.mem_map.mp hmem
    rw [← heq]
    exact ⟨(h.progress.replaced e he).fits, (h.progress.replaced e he).isOpen⟩
  installed := h.installed
  aside := h.progress.replaced
  nodup := h.progress.nodup
  noBackup p hp hnot := (h.progress.untouched p hp hnot).2
  others := by
    intro loc hloc
    by_cases hpending : ∀ e ∈ r.pending, loc ≠ u.place e.1
    · exact h.progress.others loc hloc hpending
    · -- a temporary name: nothing was there, and nothing is
      push Not at hpending
      obtain ⟨e, he, rfl⟩ := hpending
      have hnone := (h.spent e he).resolve_left List.not_mem_nil
      exact Or.inl (hnone.trans (h.progress.pending e he).new.symm)

/-- A backup is removed. -/
theorem Finished.next {e : Path × Option Path} {replaced : List (Path × Option Path)}
    (hR : Replaceable u (files.map Prod.fst)) (h : Finished u files (e :: replaced) v)
    (hkeeps : v.Keeps v') (hentries : ∀ loc, v'.entry? loc
      = if loc = u.place (backupOf e.1) then none else v.entry? loc) :
    Finished u files replaced v' := by
  have hp := (h.aside e List.mem_cons_self).target
  have htarget (p : Path) (hmem : p ∈ files.map Prod.fst) :
      v'.entry? (u.place p) = v.entry? (u.place p) := by
    rw [hentries, if_neg (hR.notBackup p hmem e.1 hp)]
  exact {
    keeps := h.keeps.trans hkeeps
    ready := fun f hf => ⟨(h.ready f hf).1, hkeeps.isOpen (h.ready f hf).2⟩
    installed := fun f hf => (htarget f.1 (List.mem_map_of_mem hf)).trans (h.installed f hf)
    aside := by
      intro e' he'
      have hold := h.aside e' (List.mem_cons_of_mem e he')
      have hne : e'.1 ≠ e.1 := fun heq =>
        (List.nodup_cons.mp h.nodup).1 (heq ▸ List.mem_map_of_mem he')
      refine hold.of_keeps hkeeps (htarget _ hold.target ▸ hold.notDirectory) ?_
      rw [hentries, if_neg fun heq => hne (hR.eq_of_backup_eq hold.target hp heq)]
    nodup := (List.nodup_cons.mp h.nodup).2
    noBackup := by
      intro p hmem hnot
      rw [hentries]
      by_cases heq : p = e.1
      · rw [heq, if_pos rfl]
      · rw [if_neg fun hb => heq (hR.eq_of_backup_eq hmem hp hb)]
        exact h.noBackup p hmem fun hcons => (List.mem_cons.mp hcons).elim heq hnot
    others := by
      intro loc hloc
      rw [Volume.SparedAt, hentries, if_neg (hloc e.1 hp).2]
      exact h.others loc hloc }

/-- Looking at a target succeeds, as it is there. -/
theorem Finished.ends_kind {fault : Option Fault} {e : Path × Option Path}
    {todo : List (Path × Option Path)} (h : Finished u files todo v)
    (he : e.1 ∈ files.map Prod.fst) :
    (discard (Disk.kind e.1) :
      ExceptT OsError (Faulty (StateM Volume)) Unit).run.Ends (fault, v) fun result w' =>
        result = .ok () ∧ w' = (fault, v) := by
  obtain ⟨f, hf, hfe⟩ := List.mem_map.mp he
  have hfind := Volume.find_eq_ok (h.ready f hf).1 (h.ready f hf).2
    (h.keeps.place f.1 ▸ h.installed f hf)
  refine Faulty.Ends.except_map (Faulty.ends_kind ?_)
  rw [← hfe, hfind]
  exact ⟨rfl, rfl⟩

theorem ends_finish (hR : Replaceable u (files.map Prod.fst))
    (h : Finished u files r.replaced w.2) :
    (finish r : ExceptT OsError (Faulty (StateM Volume)) Unit).run.Ends w fun result w' =>
      result = .ok () ∧ w'.1 = w.1 ∧ Finished u files [] w'.2 := by
  rw [finish]
  generalize r.replaced = todo at h ⊢
  induction todo generalizing w with
  | nil => exact ⟨rfl, rfl, h⟩
  | cons e todo ih =>
    obtain ⟨target, backup⟩ := e
    have he := h.aside (target, backup) List.mem_cons_self
    have hplace := h.keeps.place (backupOf target)
    have hkept : Volume.entry? w.2 (u.place (backupOf target)) = u.entry? (u.place target) := he.kept
    have hbackup : backup = (u.entry? (u.place target)).map fun _ => backupOf target := he.backup
    refine Faulty.Ends.except_bind ?_
    cases hentry : u.entry? (u.place target) with
    | none =>
      rw [hentry] at hbackup hkept
      subst hbackup
      have hnext : Finished u files todo w.2 := by
        refine h.next hR (.refl h.keeps.wellFormed) fun loc => ?_
        by_cases hloc : loc = u.place (backupOf target)
        · rw [if_pos hloc, hloc, hkept]
        · rw [if_neg hloc]
      refine (hnext.ends_kind he.target).mono fun result w' hlooked => ?_
      obtain ⟨rfl, rfl⟩ := hlooked
      exact ih hnext
    | some old =>
      cases old with
      | directory => exact absurd hentry (hR.notDirectory target he.target)
      | file data =>
        rw [hentry] at hbackup hkept
        subst hbackup
        refine Faulty.Ends.except_bind (Faulty.ends_unlink h.keeps.wellFormed he.fitsBackup
          (he.isOpen.withName (hR.named target he.target).1 _) (hplace ▸ hkept)
          fun v hkeeps hentries => ?_)
        have hnext := h.next hR hkeeps (hplace ▸ hentries)
        refine (hnext.ends_kind he.target).mono fun result w' hlooked => ?_
        obtain ⟨rfl, rfl⟩ := hlooked
        exact ih hnext

/-! ### Both passes -/

/-- The first pass. -/
def stageAll (files : List (Path × Bytes)) : M (Faulty (StateM Volume)) PUnit :=
  files.forM fun f => stage f.1 f.2

/-- The second pass. -/
def installAll (pending : List (Path × Path)) : M (Faulty (StateM Volume)) PUnit :=
  pending.forM fun e => install e.1 e.2

theorem ends_stageAll (hR : Replaceable u (files.map Prod.fst)) (hfiles : files = done ++ rest)
    (h : Staged u files done r w.2) :
    Ends (stageAll rest) r w fun result r' w' =>
      match result with
      | .ok _ => Staged u files files r' w'.2
      | .error e => ∃ f ∈ files, Unstaged u files f.1 e r' w'.2 := by
  induction rest generalizing done r w with
  | nil =>
    rw [List.append_nil] at hfiles
    exact hfiles ▸ h
  | cons f rest ih =>
    have hf : f ∈ files := hfiles ▸ List.mem_append_right _ List.mem_cons_self
    refine Ends.bind ((ends_stage hR (List.mem_map_of_mem hf) h).mono fun result r' w' hstage => ?_)
    cases result with
    | error e => exact ⟨f, hf, hstage⟩
    | ok _ => exact ih (by rw [hfiles, List.append_assoc, List.singleton_append]) hstage

theorem ends_installAll (hR : Replaceable u (files.map Prod.fst)) (hfiles : files = done ++ rest)
    (h : Installed u files done rest todo r w.2) :
    Ends (installAll todo) r w fun result r' w' =>
      match result with
      | .ok _ => Installed u files files [] [] r' w'.2
      | .error e => ∃ f ∈ files, Uninstalled u files f.1 e r' w' := by
  induction todo generalizing done rest r w with
  | nil =>
    obtain rfl := List.forall₂_nil_left_iff.mp h.loaded
    rw [List.append_nil] at hfiles
    exact hfiles ▸ h
  | cons e todo ih =>
    obtain ⟨f, rest, hloaded, -, rfl⟩ := List.forall₂_cons_left_iff.mp h.loaded
    have hf : f ∈ files := hfiles ▸ List.mem_append_right _ List.mem_cons_self
    refine Ends.bind ((ends_install hR hfiles h).mono fun result r' w' hinstall => ?_)
    cases result with
    | error e' => exact ⟨f, hf, hloaded.1 ▸ hinstall⟩
    | ok _ => exact ih (by rw [hfiles, List.append_assoc, List.singleton_append]) hinstall

/-- Both passes come to their end, or stop at a moment from which there is a way back. -/
theorem ends_passes (hR : Replaceable u (files.map Prod.fst)) (fault : Option Fault) :
    Ends (passes files) {} (fault, u) fun result r w =>
      match result with
      | .ok _ => Finished u files r.replaced w.2
      | .error e => (∃ f ∈ files, ∃ cause, e = .refused f.1 cause) ∧
          Progress u (files.map Prod.fst) r w.2 ∧ (w.1 = none ∨ r.replaced = []) := by
  have hstart : Staged u files [] {} u := ⟨.start hR, rfl, .nil, List.nodup_nil⟩
  refine Ends.bind ((ends_stageAll hR rfl hstart).mono fun result r w hstaged => ?_)
  cases result with
  | error e =>
    obtain ⟨f, hf, ⟨cause, rfl⟩, hprogress, hnothing⟩ := hstaged
    exact ⟨⟨f, hf, cause, rfl⟩, hprogress, Or.inr hnothing⟩
  | ok _ =>
    refine Ends.get_bind ((ends_installAll hR rfl hstaged.installed).mono
      fun result r' w' hinstalled => ?_)
    cases result with
    | error e =>
      obtain ⟨f, hf, ⟨cause, rfl⟩, hprogress, hnone⟩ := hinstalled
      exact ⟨⟨f, hf, cause, rfl⟩, hprogress, Or.inl hnone⟩
    | ok _ => exact hinstalled.finished

end Replacement

end MerkleSnark
