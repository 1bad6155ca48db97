import Mathlib
import MerkleSnark.Proofs.Disk.Volume

/-!
# What a replacement leaves on a volume

At every moment of a replacement each target that was not set aside holds what it held, each target
that was set aside has its old content under its backup name, and apart from the temporary files
there is nothing else.  From any such moment the removal of the temporary files and the return of
the backups lead back to the start.

## Main definitions

* `Replacement.Replaceable` — the targets do not get in the way of each other.
* `Replacement.Progress` — a volume in the course of a replacement.

## Main results

* `Replacement.Replaceable.of_siblings` — files of one directory can be replaced together.
* `Replacement.Progress.grow`, `Progress.touch`, `Progress.setAside`, `Progress.install` — the steps
  of the two passes.
* `Replacement.Progress.discard`, `Progress.restore` — the steps back.
-/

namespace MerkleSnark

namespace Volume

variable {v : Volume} {p : Path}

theorem way_withName_eq (hnames : p.names ≠ []) (name : String) :
    v.way (p.withName name) = v.way p := by
  conv_rhs => rw [← Path.child_parent_name hnames]
  exact way_withName v p name p.name

theorem place_withName {name : String} (hup : name ≠ "..") :
    v.place (p.withName name) = name :: v.place p.parent := by
  rw [Path.withName, place_child, follow_of_ne hup]

theorem Open.withName (hopen : v.Open p) (hnames : p.names ≠ []) (name : String) :
    v.Open (p.withName name) := by
  intro loc hloc
  rw [way_withName_eq hnames] at hloc
  exact hopen loc hloc

theorem Open.of_withName {name : String} (hopen : v.Open (p.withName name))
    (hnames : p.names ≠ []) : v.Open p := by
  intro loc hloc
  rw [← way_withName_eq hnames name] at hloc
  exact hopen loc hloc

end Volume

namespace Replacement

/-! ### The names beside a target -/

/-- The `k`-th path for a temporary file of a target. -/
def temporaryOf (target : Path) (k : ℕ) : Path :=
  target.withName (temporaryBeginning target ++ Volume.temporaryMark k ++ ".tmp")

theorem dot_size : ".".utf8ByteSize = 1 := by decide

theorem bak_size : ".bak".utf8ByteSize = 4 := by decide

theorem tmp_size : ".tmp".utf8ByteSize = 4 := by decide

theorem up_size : "..".utf8ByteSize = 2 := by decide

theorem temporaryName_ne_up (p : Path) (k : ℕ) :
    temporaryBeginning p ++ Volume.temporaryMark k ++ ".tmp" ≠ ".." := by
  intro h
  have hsize := congrArg String.utf8ByteSize h
  simp only [String.utf8ByteSize_append, tmp_size, up_size] at hsize
  omega

theorem backupName_ne_up (name : String) : "." ++ name ++ ".bak" ≠ ".." := by
  intro h
  have hsize := congrArg String.utf8ByteSize h
  simp only [String.utf8ByteSize_append, bak_size, up_size] at hsize
  omega

theorem backupName_ne_temporaryName (name name' : String) : name ++ ".bak" ≠ name' ++ ".tmp" := by
  intro h
  have hlast := congrArg (fun s => s.toList.getLast?) h
  simp at hlast

variable {u v v' : Volume} {paths : List Path} {p q t : Path} {r : Replacement} {loc : Location}
  {k : ℕ}

/-- What is not too long under a temporary name is not too long under the others. -/
theorem fits_of_temporary (hnames : p.names ≠ []) (h : (temporaryOf p k).Fits) :
    p.Fits ∧ (backupOf p).Fits := by
  have hup := temporaryName_ne_up p k
  constructor
  · have hname : (p.parent.child p.name).Fits := Path.fits_child_of_le h hup (by
      simp only [temporaryBeginning, String.utf8ByteSize_append, dot_size, tmp_size]
      omega)
    rwa [Path.child_parent_name hnames] at hname
  · exact Path.fits_child_of_le h hup (by
      simp only [temporaryBeginning, String.utf8ByteSize_append, dot_size, bak_size, tmp_size]
      omega)

/-- Targets that can be replaced together: each is a file or absent, and neither a target nor a
name beside it stands in for, or on the way to, another target. -/
structure Replaceable (v : Volume) (paths : List Path) : Prop where
  wellFormed : v.WellFormed
  usable : ∀ p ∈ paths, p.checked? = .ok p
  named : ∀ p ∈ paths, p.names ≠ [] ∧ p.name ≠ "" ∧ p.name ≠ ".."
  distinct : (paths.map v.place).Nodup
  notDirectory : ∀ p ∈ paths, v.entry? (v.place p) ≠ some .directory
  noBackup : ∀ p ∈ paths, v.entry? (v.place (backupOf p)) = none
  notBackup : ∀ p ∈ paths, ∀ q ∈ paths, v.place p ≠ v.place (backupOf q)
  notTemporary : ∀ p ∈ paths, ∀ q ∈ paths, ∀ k, v.place p ≠ v.place (temporaryOf q k)
  notPassed : ∀ p ∈ paths, ∀ q ∈ paths, v.place p ∉ v.way q ∧ v.place (backupOf p) ∉ v.way q

namespace Replaceable

variable (h : Replaceable u paths)
include h

theorem place_eq_cons (hp : p ∈ paths) : u.place p = p.name :: u.place p.parent :=
  Volume.place_eq_cons (h.named p hp).1 (h.named p hp).2.2

theorem eq_of_place_eq (hp : p ∈ paths) (hq : q ∈ paths) (heq : u.place p = u.place q) : p = q :=
  List.inj_on_of_nodup_map h.distinct hp hq heq

theorem eq_of_backup_eq (hp : p ∈ paths) (hq : q ∈ paths)
    (heq : u.place (backupOf p) = u.place (backupOf q)) : p = q := by
  rw [backupOf, backupOf, Volume.place_withName (backupName_ne_up _),
    Volume.place_withName (backupName_ne_up _)] at heq
  obtain ⟨hname, hparent⟩ := List.cons.inj heq
  have hname : p.name = q.name := by simpa using hname
  refine h.eq_of_place_eq hp hq ?_
  rw [h.place_eq_cons hp, h.place_eq_cons hq, hname, hparent]

/-- What changes only at a target and its backup name leaves the other targets as they are. -/
theorem entry?_eq_of_ne (hp : p ∈ paths) (hq : q ∈ paths) (hne : q ≠ p)
    (hsame : ∀ loc, loc ≠ u.place p → loc ≠ u.place (backupOf p) → v'.entry? loc = v.entry? loc) :
    v'.entry? (u.place q) = v.entry? (u.place q)
      ∧ v'.entry? (u.place (backupOf q)) = v.entry? (u.place (backupOf q)) := by
  constructor
  · exact hsame _ (fun heq => hne (h.eq_of_place_eq hq hp heq)) (h.notBackup q hq p hp)
  · exact hsame _ (Ne.symm (h.notBackup p hp q hq)) fun heq => hne (h.eq_of_backup_eq hq hp heq)

omit h in
theorem backup_ne_temporary (p q : Path) (k : ℕ) :
    u.place (backupOf p) ≠ u.place (temporaryOf q k) := by
  intro heq
  rw [backupOf, temporaryOf, Volume.place_withName (backupName_ne_up _),
    Volume.place_withName (temporaryName_ne_up q k)] at heq
  exact backupName_ne_temporaryName _ _ (List.cons.inj heq).1

end Replaceable

/-- Files of one directory, none of which is hidden, can be replaced together. -/
theorem Replaceable.of_siblings {directory : Path} {names : List String} (hv : v.WellFormed)
    (hup : ∀ n ∈ directory.names, n ≠ ".." ∧ hasNul n = false) (hnodup : names.Nodup)
    (hplain : ∀ n ∈ names, n ≠ "" ∧ n.toList.head? ≠ some '.' ∧ hasNul n = false)
    (hentry : ∀ n ∈ names, v.entry? (n :: v.place directory) ≠ some .directory)
    (hbackup : ∀ n ∈ names, v.entry? (("." ++ n ++ ".bak") :: v.place directory) = none) :
    Replaceable v (names.map directory.child) := by
  -- backup and temporary names start with a dot, and the names themselves do not
  have hdotted (n : String) (hn : n ∈ names) (name : String) : n ≠ "." ++ name := by
    rintro rfl
    exact (hplain _ hn).2.1 (by simp)
  have hplace (n : String) (hn : n ∈ names) :
      v.place (directory.child n) = n :: v.place directory := by
    rw [Volume.place_child, Volume.follow_of_ne]
    exact hdotted n hn "."
  have hplaceBackup (n : String) : v.place (backupOf (directory.child n))
      = ("." ++ n ++ ".bak") :: v.place directory := by
    rw [backupOf, Volume.place_withName (backupName_ne_up _), Path.parent_child, Path.name_child]
  refine ⟨hv, ?_, ?_, ?_, ?_, ?_, ?_, ?_, ?_⟩
  all_goals
    simp only [List.mem_map, forall_exists_index, and_imp, forall_apply_eq_imp_iff₂, List.map_map]
  · intro n hn
    have hnul : (directory.child n).names.any hasNul = false := by
      rw [Path.child, List.any_append, List.any_eq_false.mpr fun m hm => by simp [(hup m hm).2]]
      simp [(hplain n hn).2.2]
    rw [Path.checked?, if_neg (by simp [hnul])]
  · intro n hn
    rw [Path.name_child]
    exact ⟨by simp [Path.child], (hplain n hn).1, hdotted n hn "."⟩
  · refine List.Nodup.map_on (fun n hn m hm heq => ?_) hnodup
    rw [Function.comp_apply, Function.comp_apply, hplace n hn, hplace m hm] at heq
    exact (List.cons.inj heq).1
  · intro n hn
    rw [hplace n hn]
    exact hentry n hn
  · intro n hn
    rw [hplaceBackup]
    exact hbackup n hn
  · intro n hn m hm heq
    rw [hplace n hn, hplaceBackup] at heq
    exact hdotted n hn (m ++ ".bak") (by rw [(List.cons.inj heq).1, String.append_assoc])
  · intro n hn m hm k heq
    rw [hplace n hn, temporaryOf, Volume.place_withName (temporaryName_ne_up _ k)] at heq
    refine hdotted n hn (m ++ "." ++ Volume.temporaryMark k ++ ".tmp") ?_
    rw [(List.cons.inj heq).1, temporaryBeginning, Path.name_child]
    simp only [String.append_assoc]
  · intro n hn m hm
    rw [hplace n hn, hplaceBackup]
    exact ⟨Volume.cons_notMem_way (fun n hn => (hup n hn).1) _ _,
      Volume.cons_notMem_way (fun n hn => (hup n hn).1) _ _⟩

/-! ### Moments of a replacement -/

/-- The places on the way to the targets. -/
def waysTo (v : Volume) (paths : List Path) : Set Location := {loc | ∃ p ∈ paths, loc ∈ v.way p}

/-- A temporary file for a target, written or taken away again. -/
structure Temporary (u : Volume) (paths : List Path) (v : Volume) (e : Path × Path) : Prop where
  target : e.2 ∈ paths
  name : ∃ k, e.1 = temporaryOf e.2 k
  fits : e.1.Fits
  isOpen : v.Open e.1
  new : u.entry? (u.place e.1) = none
  notDirectory : v.entry? (u.place e.1) ≠ some .directory

/-- A target that was set aside, if there was one. -/
structure Aside (u : Volume) (paths : List Path) (v : Volume) (e : Path × Option Path) :
    Prop where
  target : e.1 ∈ paths
  fits : e.1.Fits
  fitsBackup : (backupOf e.1).Fits
  isOpen : v.Open e.1
  backup : e.2 = (u.entry? (u.place e.1)).map fun _ => backupOf e.1
  notDirectory : v.entry? (u.place e.1) ≠ some .directory
  kept : v.entry? (u.place (backupOf e.1)) = u.entry? (u.place e.1)

/-- A volume in the course of the replacement of targets on a volume `u`. -/
structure Progress (u : Volume) (paths : List Path) (r : Replacement) (v : Volume) : Prop where
  keeps : u.Keeps v
  pending : ∀ e ∈ r.pending, Temporary u paths v e
  replaced : ∀ e ∈ r.replaced, Aside u paths v e
  nodup : (r.replaced.map Prod.fst).Nodup
  untouched : ∀ p ∈ paths, p ∉ r.replaced.map Prod.fst →
    v.entry? (u.place p) = u.entry? (u.place p) ∧ v.entry? (u.place (backupOf p)) = none
  others : ∀ loc, (∀ p ∈ paths, loc ≠ u.place p ∧ loc ≠ u.place (backupOf p)) →
    (∀ e ∈ r.pending, loc ≠ u.place e.1) → u.SparedAt v (waysTo u paths) loc

theorem Temporary.of_keeps {e : Path × Path} (he : Temporary u paths v e) (hkeeps : v.Keeps v')
    (hentry : v'.entry? (u.place e.1) ≠ some .directory) : Temporary u paths v' e :=
  { he with isOpen := hkeeps.isOpen he.isOpen, notDirectory := hentry }

theorem Temporary.ne (hR : Replaceable u paths) {e : Path × Path}
    (he : Temporary u paths v e) (hp : p ∈ paths) :
    u.place p ≠ u.place e.1 ∧ u.place (backupOf p) ≠ u.place e.1 := by
  obtain ⟨k, hk⟩ := he.name
  rw [hk]
  exact ⟨hR.notTemporary p hp e.2 he.target k, Replaceable.backup_ne_temporary p e.2 k⟩

theorem Aside.of_keeps {e : Path × Option Path} (he : Aside u paths v e) (hkeeps : v.Keeps v')
    (hentry : v'.entry? (u.place e.1) ≠ some .directory)
    (hkept : v'.entry? (u.place (backupOf e.1)) = v.entry? (u.place (backupOf e.1))) :
    Aside u paths v' e :=
  { he with
    isOpen := hkeeps.isOpen he.isOpen
    notDirectory := hentry
    kept := hkept.trans he.kept }

namespace Progress

theorem start (hR : Replaceable u paths) : Progress u paths {} u where
  keeps := .refl hR.wellFormed
  pending := nofun
  replaced := nofun
  nodup := List.nodup_nil
  untouched p hp _ := ⟨rfl, hR.noBackup p hp⟩
  others _ _ _ := Or.inl rfl

/-- When all is taken back, nothing has changed but for new directories. -/
theorem grows (h : Progress u paths {} v) (hR : Replaceable u paths) :
    u.Grows v (waysTo u paths) := by
  refine ⟨h.keeps, fun loc => ?_⟩
  by_cases hloc : ∀ p ∈ paths, loc ≠ u.place p ∧ loc ≠ u.place (backupOf p)
  · exact h.others loc hloc nofun
  · -- a target or a backup
    push Not at hloc
    obtain ⟨p, hp, hloc⟩ := hloc
    have hp' := h.untouched p hp nofun
    by_cases htarget : loc = u.place p
    · exact Or.inl (htarget ▸ hp'.1)
    · exact Or.inl (by rw [hloc htarget, hp'.2, hR.noBackup p hp])

/-! ### The first pass -/

/-- Directories on the way to the targets are made while all temporary files are there. -/
theorem grow (h : Progress u paths r v) (hR : Replaceable u paths)
    (hfiles : ∀ e ∈ r.pending, v.entry? (u.place e.1) ≠ none)
    (hgrows : v.Grows v' (waysTo u paths)) : Progress u paths r v' := by
  have hout (p : Path) (hp : p ∈ paths) :
      u.place p ∉ waysTo u paths ∧ u.place (backupOf p) ∉ waysTo u paths :=
    ⟨fun ⟨q, hq, hway⟩ => (hR.notPassed p hp q hq).1 hway,
      fun ⟨q, hq, hway⟩ => (hR.notPassed p hp q hq).2 hway⟩
  have htarget (p : Path) (hp : p ∈ paths) :=
    (hgrows.spared (u.place p)).eq_of_notMem (hout p hp).1
  have hbackup (p : Path) (hp : p ∈ paths) :=
    (hgrows.spared (u.place (backupOf p))).eq_of_notMem (hout p hp).2
  exact {
    keeps := h.keeps.trans hgrows.keeps
    pending := by
      intro e he
      have hsame := (hgrows.spared _).eq_of_ne_none (hfiles e he)
      exact (h.pending e he).of_keeps hgrows.keeps (hsame ▸ (h.pending e he).notDirectory)
    replaced := by
      intro e he
      have hmem := (h.replaced e he).target
      exact (h.replaced e he).of_keeps hgrows.keeps
        (htarget e.1 hmem ▸ (h.replaced e he).notDirectory) (hbackup e.1 hmem)
    nodup := h.nodup
    untouched := by
      intro p hp hnot
      rw [htarget p hp, hbackup p hp]
      exact h.untouched p hp hnot
    others := fun loc hloc hpending => (h.others loc hloc hpending).trans (hgrows.spared loc) }

/-- A temporary file is made or written. -/
theorem touch {pending : List (Path × Path)} {e : Path × Path} (h : Progress u paths r v)
    (hR : Replaceable u paths) (hpending : ∀ e', e' ∈ pending ↔ e' ∈ r.pending ∨ e' = e)
    (he : Temporary u paths v' e) (hkeeps : v.Keeps v')
    (hsame : ∀ loc, loc ≠ u.place e.1 → v'.entry? loc = v.entry? loc) :
    Progress u paths { r with pending := pending } v' where
  keeps := h.keeps.trans hkeeps
  pending := by
    intro e' he'
    rcases (hpending e').mp he' with hold | rfl
    · refine (h.pending e' hold).of_keeps hkeeps ?_
      by_cases hloc : u.place e'.1 = u.place e.1
      · rw [hloc]
        exact he.notDirectory
      · rw [hsame _ hloc]
        exact (h.pending e' hold).notDirectory
    · exact he
  replaced := by
    intro e' he'
    have hne := he.ne hR (h.replaced e' he').target
    refine (h.replaced e' he').of_keeps hkeeps ?_ (hsame _ hne.2)
    rw [hsame _ hne.1]
    exact (h.replaced e' he').notDirectory
  nodup := h.nodup
  untouched := by
    intro p hp hnot
    have hne := he.ne hR hp
    rw [hsame _ hne.1, hsame _ hne.2]
    exact h.untouched p hp hnot
  others := by
    intro loc hloc hfree
    have hne : loc ≠ u.place e.1 := hfree e ((hpending e).mpr (Or.inr rfl))
    have hold := h.others loc hloc fun e' he' => hfree e' ((hpending e').mpr (Or.inl he'))
    rwa [Volume.SparedAt, hsame loc hne]

/-! ### The second pass -/

/-- A target is moved to its backup name, or was absent. -/
theorem setAside (h : Progress u paths r v) (hR : Replaceable u paths) (hp : p ∈ paths)
    (hnew : p ∉ r.replaced.map Prod.fst) (hfits : p.Fits) (hfits' : (backupOf p).Fits)
    (hopen : v.Open p) (hkeeps : v.Keeps v') (htarget : v'.entry? (u.place p) = none)
    (hbackup : v'.entry? (u.place (backupOf p)) = u.entry? (u.place p))
    (hsame : ∀ loc, loc ≠ u.place p → loc ≠ u.place (backupOf p) →
      v'.entry? loc = v.entry? loc) :
    Progress u paths { r with replaced := r.replaced ++
      [(p, (u.entry? (u.place p)).map fun _ => backupOf p)] } v' where
  keeps := h.keeps.trans hkeeps
  pending := by
    intro e he
    have hne := (h.pending e he).ne hR hp
    refine (h.pending e he).of_keeps hkeeps ?_
    rw [hsame _ (Ne.symm hne.1) (Ne.symm hne.2)]
    exact (h.pending e he).notDirectory
  replaced := by
    intro e he
    rcases List.mem_append.mp he with hold | hlast
    · have hmem := (h.replaced e hold).target
      have hne : e.1 ≠ p := fun heq => hnew (heq ▸ List.mem_map_of_mem hold)
      obtain ⟨hplace, hplace'⟩ := hR.entry?_eq_of_ne hp hmem hne hsame
      refine (h.replaced e hold).of_keeps hkeeps ?_ hplace'
      rw [hplace]
      exact (h.replaced e hold).notDirectory
    · obtain rfl := List.mem_singleton.mp hlast
      refine ⟨hp, hfits, hfits', hkeeps.isOpen hopen, rfl, ?_, hbackup⟩
      rw [htarget]
      exact nofun
  nodup := by
    rw [List.map_append, List.map_singleton]
    refine List.nodup_append.mpr ⟨h.nodup, List.nodup_singleton _, fun q hq q' hq' => ?_⟩
    rintro rfl
    have heq : q = p := List.mem_singleton.mp hq'
    exact hnew (heq ▸ hq)
  untouched := by
    intro q hq hnot
    rw [List.map_append, List.map_singleton, List.mem_append, List.mem_singleton, not_or] at hnot
    obtain ⟨hplace, hplace'⟩ := hR.entry?_eq_of_ne hp hq hnot.2 hsame
    rw [hplace, hplace']
    exact h.untouched q hq hnot.1
  others := by
    intro loc hloc hpending
    rw [Volume.SparedAt, hsame loc (hloc p hp).1 (hloc p hp).2]
    exact h.others loc hloc hpending

/-- A temporary file takes the place of a target that was set aside. -/
theorem install {e : Path × Path} (h : Progress u paths r v) (hR : Replaceable u paths)
    (he : e ∈ r.pending) (hkeeps : v.Keeps v')
    (htarget : v'.entry? (u.place e.2) ≠ some .directory)
    (htemporary : v'.entry? (u.place e.1) = none) (haside : e.2 ∈ r.replaced.map Prod.fst)
    (hsame : ∀ loc, loc ≠ u.place e.2 → loc ≠ u.place e.1 → v'.entry? loc = v.entry? loc) :
    Progress u paths r v' where
  keeps := h.keeps.trans hkeeps
  pending := by
    intro e' he'
    refine (h.pending e' he').of_keeps hkeeps ?_
    by_cases hloc : u.place e'.1 = u.place e.1
    · rw [hloc, htemporary]
      exact nofun
    · rw [hsame _ (Ne.symm ((h.pending e' he').ne hR (h.pending e he).target).1) hloc]
      exact (h.pending e' he').notDirectory
  replaced := by
    intro e' he'
    have hmem := (h.replaced e' he').target
    have hne := (h.pending e he).ne hR hmem
    refine (h.replaced e' he').of_keeps hkeeps ?_
      (hsame _ (Ne.symm (hR.notBackup _ (h.pending e he).target _ hmem)) hne.2)
    by_cases hloc : u.place e'.1 = u.place e.2
    · rw [hloc]
      exact htarget
    · rw [hsame _ hloc hne.1]
      exact (h.replaced e' he').notDirectory
  nodup := h.nodup
  untouched := by
    intro q hq hnot
    have hne := (h.pending e he).ne hR hq
    have hplace : u.place q ≠ u.place e.2 := fun heq =>
      hnot (hR.eq_of_place_eq hq (h.pending e he).target heq ▸ haside)
    rw [hsame _ hplace hne.1,
      hsame _ (Ne.symm (hR.notBackup _ (h.pending e he).target _ hq)) hne.2]
    exact h.untouched q hq hnot
  others := by
    intro loc hloc hpending
    rw [Volume.SparedAt, hsame loc (hloc _ (h.pending e he).target).1 (hpending e he)]
    exact h.others loc hloc hpending

/-! ### The way back -/

/-- A temporary file is removed. -/
theorem discard {e : Path × Path} {pending : List (Path × Path)}
    {replaced : List (Path × Option Path)} (h : Progress u paths ⟨e :: pending, replaced⟩ v)
    (hR : Replaceable u paths) (hkeeps : v.Keeps v')
    (hentries : ∀ loc, v'.entry? loc = if loc = u.place e.1 then none else v.entry? loc) :
    Progress u paths ⟨pending, replaced⟩ v' where
  keeps := h.keeps.trans hkeeps
  pending := by
    intro e' he'
    have hold := h.pending e' (List.mem_cons_of_mem e he')
    refine hold.of_keeps hkeeps ?_
    rw [hentries]
    split
    · exact nofun
    · exact hold.notDirectory
  replaced := by
    intro e' he'
    have hne := (h.pending e List.mem_cons_self).ne hR (h.replaced e' he').target
    refine (h.replaced e' he').of_keeps hkeeps ?_ (by rw [hentries, if_neg hne.2])
    rw [hentries, if_neg hne.1]
    exact (h.replaced e' he').notDirectory
  nodup := h.nodup
  untouched := by
    intro p hp hnot
    have hne := (h.pending e List.mem_cons_self).ne hR hp
    rw [hentries, hentries, if_neg hne.1, if_neg hne.2]
    exact h.untouched p hp hnot
  others := by
    intro loc hloc hpending
    rw [Volume.SparedAt, hentries]
    by_cases heq : loc = u.place e.1
    · rw [if_pos heq, heq]
      exact Or.inl (h.pending e List.mem_cons_self).new.symm
    · rw [if_neg heq]
      exact h.others loc hloc fun e' he' =>
        (List.mem_cons.mp he').elim (fun h => h ▸ heq) (hpending e')

/-- The target that was set aside last is put back. -/
theorem restore {e : Path × Option Path} {replaced : List (Path × Option Path)}
    (h : Progress u paths ⟨[], replaced ++ [e]⟩ v) (hR : Replaceable u paths)
    (hkeeps : v.Keeps v') (htarget : v'.entry? (u.place e.1) = u.entry? (u.place e.1))
    (hbackup : v'.entry? (u.place (backupOf e.1)) = none)
    (hsame : ∀ loc, loc ≠ u.place e.1 → loc ≠ u.place (backupOf e.1) →
      v'.entry? loc = v.entry? loc) : Progress u paths ⟨[], replaced⟩ v' := by
  have hlast := h.replaced e (List.mem_append_right _ List.mem_cons_self)
  have hnodup := h.nodup
  rw [List.map_append, List.map_singleton] at hnodup
  have hnot : e.1 ∉ replaced.map Prod.fst := fun hmem =>
    (List.nodup_append.mp hnodup).2.2 _ hmem _ (List.mem_singleton_self _) rfl
  exact {
    keeps := h.keeps.trans hkeeps
    pending := nofun
    replaced := by
      intro e' he'
      have hold := h.replaced e' (List.mem_append_left _ he')
      have hne : e'.1 ≠ e.1 := fun heq => hnot (heq ▸ List.mem_map_of_mem he')
      obtain ⟨hplace, hplace'⟩ := hR.entry?_eq_of_ne hlast.target hold.target hne hsame
      refine hold.of_keeps hkeeps ?_ hplace'
      rw [hplace]
      exact hold.notDirectory
    nodup := (List.nodup_append.mp hnodup).1
    untouched := by
      intro q hq hnotq
      by_cases heq : q = e.1
      · rw [heq]
        exact ⟨htarget, hbackup⟩
      · obtain ⟨hplace, hplace'⟩ := hR.entry?_eq_of_ne hlast.target hq heq hsame
        rw [hplace, hplace']
        refine h.untouched q hq ?_
        rw [List.map_append, List.map_singleton, List.mem_append, List.mem_singleton]
        exact not_or.mpr ⟨hnotq, heq⟩
    others := by
      intro loc hloc hpending
      rw [Volume.SparedAt, hsame loc (hloc _ hlast.target).1 (hloc _ hlast.target).2]
      exact h.others loc hloc hpending }

end Progress

end Replacement

end MerkleSnark
