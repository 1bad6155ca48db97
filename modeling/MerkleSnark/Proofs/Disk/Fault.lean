import Mathlib
import MerkleSnark.Disk.Fault
import MerkleSnark.Proofs.Disk.Volume

/-!
# Runs on a volume that fails

What a run on a faulty volume ends in is described by a condition on its result and on the volume
with the fault that is still to come.  An operation that may fail ends as on the volume alone, or
with a refusal after which there is no fault to come and the volume is as before.

## Main definitions

* `World`, `Faulty.exec` — a volume with a fault to come, and runs on it.
* `Faulty.Ends` — a condition on the end of a run.

## Main results

* `Faulty.Ends.bind`, `Faulty.Ends.tryCatch`, `Faulty.Ends.fragile` — the rules.
* `Faulty.ends_ensureDirectory`, `Faulty.ends_makeTemporary`, `Faulty.ends_write`,
  `Faulty.ends_rename`, `Faulty.ends_removeIfPresent` — the operations.
-/

namespace MerkleSnark

/-- A volume with a fault to come. -/
abbrev World := Option Fault × Volume

namespace Faulty

variable {α β ε : Type} {w : World}

/-- Runs a computation on a volume. -/
def exec (x : Faulty (StateM Volume) α) (w : World) : α × World :=
  let ((a, fault), v) := (Faulty.run x w.1).run w.2
  (a, fault, v)

/-- The end of a run meets a condition. -/
def Ends (x : Faulty (StateM Volume) α) (w : World) (post : α → World → Prop) : Prop :=
  post (x.exec w).1 (x.exec w).2

namespace Ends

theorem mono {x : Faulty (StateM Volume) α} {post post' : α → World → Prop}
    (h : x.Ends w post) (himp : ∀ a w', post a w' → post' a w') : x.Ends w post' :=
  himp _ _ h

theorem pure {a : α} {post : α → World → Prop} (h : post a w) :
    (Pure.pure a : Faulty (StateM Volume) α).Ends w post := h

theorem bind {x : Faulty (StateM Volume) α} {f : α → Faulty (StateM Volume) β}
    {post : β → World → Prop} (h : x.Ends w fun a w' => (f a).Ends w' post) :
    (x >>= f).Ends w post := h

theorem throw {e : ε} {post : Except ε α → World → Prop} (h : post (.error e) w) :
    (MonadExcept.throw e : ExceptT ε (Faulty (StateM Volume)) α).run.Ends w post := h

theorem except_bind {x : ExceptT ε (Faulty (StateM Volume)) α}
    {f : α → ExceptT ε (Faulty (StateM Volume)) β} {post : Except ε β → World → Prop}
    (h : x.run.Ends w fun a w' =>
      match a with
      | .ok a => (f a).run.Ends w' post
      | .error e => post (.error e) w') :
    (x >>= f).run.Ends w post := by
  change (x.run >>= ExceptT.bindCont f : Faulty (StateM Volume) _).Ends w post
  refine Ends.bind (h.mono fun a w' => ?_)
  cases a with
  | ok a => exact id
  | error e => exact id

theorem except_map {x : ExceptT ε (Faulty (StateM Volume)) α} {f : α → β}
    {post : Except ε β → World → Prop} (h : x.run.Ends w fun a w' => post (a.map f) w') :
    (f <$> x).run.Ends w post := by
  change Faulty.Ends (ExceptT.map f x).run w post
  refine Ends.bind (h.mono fun a w' => ?_)
  cases a with
  | ok a => exact id
  | error e => exact id

theorem except_adapt {ε' : Type} {x : ExceptT ε (Faulty (StateM Volume)) α} {f : ε → ε'}
    {post : Except ε' α → World → Prop} (h : x.run.Ends w fun a w' => post (a.mapError f) w') :
    (x.adapt f).run.Ends w post := h

theorem tryCatch {x : ExceptT ε (Faulty (StateM Volume)) α}
    {handler : ε → ExceptT ε (Faulty (StateM Volume)) α} {post : Except ε α → World → Prop}
    (h : x.run.Ends w fun a w' =>
      match a with
      | .ok a => post (.ok a) w'
      | .error e => (handler e).run.Ends w' post) :
    (MonadExcept.tryCatch x handler).run.Ends w post := by
  change Faulty.Ends (ExceptT.tryCatch x handler).run w post
  refine Ends.bind (h.mono fun a w' => ?_)
  cases a with
  | ok a => exact id
  | error e => exact id

/-- An operation of the volume, which changes nothing unless it succeeds. -/
theorem change {f : Volume → Except OsError (α × Volume)} {post : Except OsError α → World → Prop}
    (herror : ∀ e, f w.2 = .error e → post (.error e) w)
    (hok : ∀ a v, f w.2 = .ok (a, v) → post (.ok a) (w.1, v)) :
    (steady (Volume.change f)).run.Ends w post := by
  have hrun : (steady (Volume.change f)).run.exec w
      = (((Volume.change f).run.run w.2).1, w.1, ((Volume.change f).run.run w.2).2) := rfl
  rw [Ends, hrun, Volume.change]
  simp only [ExceptT.run_mk, StateT.run]
  cases hf : f w.2 with
  | error e => exact herror e hf
  | ok a => exact hok a.1 a.2 hf

theorem look {f : Volume → Except OsError α} {post : Except OsError α → World → Prop}
    (h : post (f w.2) w) : (steady (Volume.look f)).run.Ends w post := h

/-- Either the operation is done, and the fault is still to come if there is one, or it is refused
and there is no other fault. -/
theorem fragile {x : ExceptT OsError (StateM Volume) α} {post : Except OsError α → World → Prop}
    (hdone : ∀ fault, fault.isSome = w.1.isSome → (steady x).run.Ends (fault, w.2) post)
    (hstruck : ∀ cause, w.1.isSome → post (.error cause) (none, w.2)) :
    (Faulty.fragile x).run.Ends w post := by
  rcases w with ⟨_ | ⟨_ | delay, cause⟩, v⟩
  · exact hdone none rfl
  · exact hstruck cause rfl
  · exact hdone (some ⟨delay, cause⟩) rfl

end Ends

/-! ### Looking -/

variable {p q : Path} {data : Bytes}

theorem ends_kind {post : Except OsError EntryKind → World → Prop}
    (h : post ((w.2.find p).map fun e => e.2.kind) w) :
    (Disk.kind p : ExceptT OsError (Faulty (StateM Volume)) EntryKind).run.Ends w post := by
  refine Ends.look ?_
  cases hfind : w.2.find p with
  | error e => rw [hfind] at h; exact h
  | ok e => rw [hfind] at h; exact h

theorem ends_kind? {post : Except OsError (Option EntryKind) → World → Prop}
    (hfound : ∀ e, w.2.find p = .ok e → post (.ok (some e.2.kind)) w)
    (habsent : ∀ e, w.2.find p = .error e → e = .noEntry ∨ e = .notDirectory → post (.ok none) w)
    (herror : ∀ e, w.2.find p = .error e → e ≠ .noEntry → e ≠ .notDirectory → post (.error e) w) :
    (Disk.kind? p : ExceptT OsError (Faulty (StateM Volume)) _).run.Ends w post := by
  refine Ends.tryCatch (Ends.except_map (ends_kind ?_))
  cases hfind : w.2.find p with
  | ok e => exact hfound e hfind
  | error e =>
    cases e with
    | noEntry => exact habsent _ hfind (Or.inl rfl)
    | notDirectory => exact habsent _ hfind (Or.inr rfl)
    | _ => exact herror _ hfind nofun nofun

theorem ends_exists? {post : Except OsError Bool → World → Prop} (hfits : p.Fits)
    (hopen : w.2.Open p) (h : post (.ok (Volume.entry? w.2 (w.2.place p)).isSome) w) :
    (Disk.exists? p : ExceptT OsError (Faulty (StateM Volume)) _).run.Ends w post := by
  refine Ends.except_bind ?_
  cases hentry : Volume.entry? w.2 (w.2.place p) with
  | none =>
    rw [hentry] at h
    have hfind := Volume.find_eq_noEntry hfits hopen hentry
    refine ends_kind? (fun e he => ?_) (fun _ _ _ => h) fun e he hne => ?_
    · exact absurd (hfind.symm.trans he) nofun
    · exact absurd (Except.error.inj (he.symm.trans hfind)) hne
  | some e =>
    rw [hentry] at h
    have hfind := Volume.find_eq_ok hfits hopen hentry
    refine ends_kind? (fun _ _ => h) (fun e he => ?_) fun e he => ?_
    · exact absurd (hfind.symm.trans he) nofun
    · exact absurd (hfind.symm.trans he) nofun

theorem ends_unlessDirectory {e : OsError} {post : Except OsError Unit → World → Prop}
    (hok : w.2.Reaches p → post (.ok ()) w) (herror : ∀ e, post (.error e) w) :
    (Disk.unlessDirectory p e : ExceptT OsError (Faulty (StateM Volume)) _).run.Ends w post := by
  refine Ends.except_bind (Ends.except_bind (ends_kind? (fun e he => ?_) (fun e he _ => ?_)
    fun e he _ _ => herror e))
  · obtain ⟨loc, entry⟩ := e
    obtain ⟨hlocate, hentry⟩ := Volume.find_eq_ok_iff.mp he
    obtain ⟨hfits, hopen, rfl⟩ := Volume.locate_eq_ok_iff.mp hlocate
    cases entry with
    | file data => exact herror _
    | directory => exact hok ⟨hfits, hopen, hentry⟩
  · exact herror _

/-! ### Making directories -/

theorem ends_makeDirectory {post : Except OsError Unit → World → Prop} (hv : w.2.WellFormed)
    (hok : ∀ w', w.2.Grows w'.2 {w.2.place p} → w'.2.Reaches p → post (.ok ()) w')
    (herror : ∀ e fault, post (.error e) (fault, w.2)) :
    (Disk.makeDirectory p : ExceptT OsError (Faulty (StateM Volume)) _).run.Ends w post := by
  refine Ends.fragile (fun fault _ => Ends.change (fun e _ => herror e fault) fun _ v hmade => ?_)
    fun cause _ => herror cause none
  cases hmake : w.2.makeDirectory p with
  | error e =>
    rw [hmake] at hmade
    exact absurd hmade nofun
  | ok v' =>
    rw [hmake] at hmade
    obtain ⟨-, rfl⟩ := Prod.mk.inj (Except.ok.inj hmade)
    obtain ⟨hgrows, hreaches⟩ := Volume.makeDirectory_spec hv hmake
    exact hok (fault, v') hgrows hreaches

/-- The places that making a directory may change. -/
def waysTo (v : Volume) (p : Path) : Set Location := {loc | loc ∈ v.way p ∨ loc = v.place p}

theorem waysTo_congr {v v' : Volume} (h : v'.here = v.here) (p : Path) :
    waysTo v' p = waysTo v p := by
  rw [waysTo, waysTo, Volume.way_congr h, Volume.place_congr h]

theorem waysTo_eq_way_child (v : Volume) (p : Path) (name : String) :
    waysTo v p = {loc | loc ∈ v.way (p.child name)} := by
  ext loc
  simp [waysTo, Volume.way_child]

theorem waysTo_subset_child (v : Volume) (p : Path) (name : String) :
    waysTo v p ⊆ waysTo v (p.child name) := by
  rw [waysTo_eq_way_child v p name]
  exact fun loc hloc => Or.inl hloc

/-- What becomes of a world in which directories are made for a path. -/
def DirectoryMade (w : World) (p : Path) (result : Except OsError Unit) (w' : World) : Prop :=
  w.2.Grows w'.2 (waysTo w.2 p) ∧ (result = .ok () → w'.2.Reaches p)

theorem directoryMade_error (hv : w.2.WellFormed) (e : OsError) (fault : Option Fault) :
    DirectoryMade w p (.error e) (fault, w.2) := ⟨.refl hv _, nofun⟩

/-- A directory is made unless it is there. -/
theorem ends_makeDirectory_unless (hv : w.2.WellFormed)
    {handler : OsError → ExceptT OsError (Faulty (StateM Volume)) Unit}
    (hother : ∀ e, e ≠ .noEntry → handler e = Disk.unlessDirectory p e)
    (hmissing : ∀ fault, (handler .noEntry).run.Ends (fault, w.2) (DirectoryMade w p)) :
    (tryCatch (Disk.makeDirectory p) handler).run.Ends w (DirectoryMade w p) := by
  refine Ends.tryCatch (ends_makeDirectory hv (fun w' hgrows hreaches => ?_) fun e fault => ?_)
  · exact ⟨hgrows.mono fun loc hloc => Or.inr hloc, fun _ => hreaches⟩
  · by_cases hmiss : e = .noEntry
    · subst hmiss
      exact hmissing fault
    · show (handler e).run.Ends (fault, w.2) (DirectoryMade w p)
      rw [hother e hmiss]
      exact ends_unlessDirectory (fun hreaches => ⟨.refl hv _, fun _ => hreaches⟩)
        fun e => directoryMade_error hv e fault

theorem ends_ensureNames (start : PathStart) (names : List String) (w : World)
    (hv : w.2.WellFormed) :
    (Disk.ensureNames start names : ExceptT OsError (Faulty (StateM Volume)) _).run.Ends w
      (DirectoryMade w ⟨start, names.reverse⟩) := by
  induction names generalizing w with
  | nil =>
    refine ends_makeDirectory_unless hv (fun e he => ?_) fun fault => ?_
    · cases e <;> first | rfl | exact absurd rfl he
    · exact directoryMade_error hv _ fault
  | cons last outer ih =>
    refine ends_makeDirectory_unless hv (fun e he => ?_) fun fault => ?_
    · cases e <;> first | rfl | exact absurd rfl he
    · -- the directories before the last one are made first, and the last one is tried again
      refine Ends.except_bind ((ih (fault, w.2) hv).mono fun result w' ⟨hgrows, _⟩ => ?_)
      have hways : waysTo w.2 ⟨start, outer.reverse⟩
          ⊆ waysTo w.2 ⟨start, (last :: outer).reverse⟩ := by
        rw [List.reverse_cons]
        exact waysTo_subset_child w.2 ⟨start, outer.reverse⟩ last
      cases result with
      | error e => exact ⟨hgrows.mono hways, nofun⟩
      | ok _ =>
        refine (ends_makeDirectory_unless hgrows.keeps.wellFormed (fun e he => ?_)
          fun fault' => ?_).mono fun result w'' hmade => ?_
        · cases e <;> first | rfl | exact absurd rfl he
        · exact directoryMade_error hgrows.keeps.wellFormed _ fault'
        · obtain ⟨hgrows', hreaches⟩ := hmade
          rw [waysTo_congr hgrows.keeps.here] at hgrows'
          exact ⟨(hgrows.mono hways).trans hgrows', hreaches⟩

theorem ends_ensureDirectory (hv : w.2.WellFormed) (p : Path) :
    (Disk.ensureDirectory p : ExceptT OsError (Faulty (StateM Volume)) _).run.Ends w
      (DirectoryMade w p) := by
  have hnames := ends_ensureNames p.start p.names.reverse w hv
  rwa [List.reverse_reverse] at hnames

/-! ### Files -/

theorem ends_makeTemporary {directory : Path} {beginning ending : String}
    {post : Except OsError Path → World → Prop} (hv : w.2.WellFormed)
    (hup : ∀ k, beginning ++ Volume.temporaryMark k ++ ending ≠ "..")
    (hok : ∀ k fault v, fault.isSome = w.1.isSome →
      let t := directory.child (beginning ++ Volume.temporaryMark k ++ ending)
      t.Fits → w.2.Open t → Volume.entry? w.2 (w.2.place t) = none → w.2.Keeps v →
      (∀ loc, v.entry? loc = if loc = w.2.place t then some (.file []) else Volume.entry? w.2 loc) →
      post (.ok t) (fault, v))
    (herror : ∀ e fault, post (.error e) (fault, w.2)) :
    (Disk.makeTemporary directory beginning ending :
      ExceptT OsError (Faulty (StateM Volume)) _).run.Ends w post := by
  refine Ends.fragile (fun fault hfault => Ends.change (fun e _ => herror e fault)
    fun t v hmade => ?_) fun cause _ => herror cause none
  obtain ⟨⟨k, rfl⟩, hfits, hopen, hfree, hkeeps, hentries⟩ :=
    Volume.makeTemporary_spec hv hup hmade
  exact hok k fault v hfault hfits hopen hfree hkeeps hentries

theorem ends_write {post : Except OsError Unit → World → Prop} (hv : w.2.WellFormed)
    (hfits : p.Fits) (hopen : w.2.Open p) (h : Volume.entry? w.2 (w.2.place p) ≠ some .directory)
    (hok : ∀ fault v, fault.isSome = w.1.isSome → w.2.Keeps v →
      (∀ loc, v.entry? loc = if loc = w.2.place p then some (.file data) else Volume.entry? w.2 loc) →
      post (.ok ()) (fault, v))
    (hstruck : ∀ cause, w.1.isSome → post (.error cause) (none, w.2)) :
    (Disk.write p data : ExceptT OsError (Faulty (StateM Volume)) _).run.Ends w post := by
  obtain ⟨v, hwrite, hkeeps, hentries⟩ := Volume.exists_write hv hfits hopen h data
  refine Ends.fragile (fun fault hfault => Ends.change (fun e he => ?_) fun _ v' hmade => ?_)
    hstruck
  · rw [hwrite] at he
    exact absurd he nofun
  · rw [hwrite] at hmade
    obtain ⟨-, rfl⟩ := Prod.mk.inj (Except.ok.inj hmade)
    exact hok fault v hfault hkeeps hentries

theorem ends_rename {post : Except OsError Unit → World → Prop} (hv : w.2.WellFormed)
    (hp : p.Fits) (hopenp : w.2.Open p) (hq : q.Fits) (hopenq : w.2.Open q)
    (hold : Volume.entry? w.2 (w.2.place p) = some (.file data))
    (hnew : Volume.entry? w.2 (w.2.place q) ≠ some .directory) (hne : w.2.place p ≠ w.2.place q)
    (hok : ∀ fault v, fault.isSome = w.1.isSome → w.2.Keeps v →
      (∀ loc, v.entry? loc = if loc = w.2.place q then some (.file data)
        else if loc = w.2.place p then none else Volume.entry? w.2 loc) → post (.ok ()) (fault, v))
    (hstruck : ∀ cause, w.1.isSome → post (.error cause) (none, w.2)) :
    (Disk.rename p q : ExceptT OsError (Faulty (StateM Volume)) _).run.Ends w post := by
  obtain ⟨v, hrename, hkeeps, hentries⟩ :=
    Volume.exists_rename hv hp hopenp hq hopenq hold hnew hne
  refine Ends.fragile (fun fault hfault => Ends.change (fun e he => ?_) fun _ v' hmade => ?_)
    hstruck
  · rw [hrename] at he
    exact absurd he nofun
  · rw [hrename] at hmade
    obtain ⟨-, rfl⟩ := Prod.mk.inj (Except.ok.inj hmade)
    exact hok fault v hfault hkeeps hentries

theorem ends_unlink {post : Except OsError Unit → World → Prop} (hv : w.2.WellFormed)
    (hfits : p.Fits) (hopen : w.2.Open p) (h : Volume.entry? w.2 (w.2.place p) = some (.file data))
    (hok : ∀ v, w.2.Keeps v →
      (∀ loc, v.entry? loc = if loc = w.2.place p then none else Volume.entry? w.2 loc) →
      post (.ok ()) (w.1, v)) :
    (Disk.unlink p : ExceptT OsError (Faulty (StateM Volume)) _).run.Ends w post := by
  obtain ⟨v, hunlink, hkeeps, hentries⟩ := Volume.exists_unlink hv hfits hopen h
  refine Ends.change (fun e he => ?_) fun _ v' hmade => ?_
  · rw [hunlink] at he
    exact absurd he nofun
  · rw [hunlink] at hmade
    obtain ⟨-, rfl⟩ := Prod.mk.inj (Except.ok.inj hmade)
    exact hok v hkeeps hentries

/-- Removing is not refused where there is no directory, whether there is a file or not. -/
theorem ends_removeIfPresent {post : Except OsError Unit → World → Prop} (hv : w.2.WellFormed)
    (hfits : p.Fits) (hopen : w.2.Open p) (h : Volume.entry? w.2 (w.2.place p) ≠ some .directory)
    (hok : ∀ v, w.2.Keeps v →
      (∀ loc, v.entry? loc = if loc = w.2.place p then none else Volume.entry? w.2 loc) →
      post (.ok ()) (w.1, v)) :
    (Disk.removeIfPresent p : ExceptT OsError (Faulty (StateM Volume)) _).run.Ends w post := by
  refine Ends.tryCatch ?_
  rcases hentry : Volume.entry? w.2 (w.2.place p) with _ | ⟨data⟩ | _
  · have hunlink := Volume.unlink_eq_noEntry hfits hopen hentry
    refine Ends.change (fun e he => ?_) fun _ v hmade => ?_
    · rw [hunlink] at he
      rw [← Except.error.inj he]
      refine hok w.2 (.refl hv) fun loc => ?_
      by_cases hloc : loc = w.2.place p
      · rw [if_pos hloc, hloc, hentry]
      · rw [if_neg hloc]
    · rw [hunlink] at hmade
      exact absurd hmade nofun
  · exact ends_unlink hv hfits hopen hentry hok
  · exact absurd hentry h

end Faulty

end MerkleSnark
