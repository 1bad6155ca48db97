import Mathlib
import MerkleSnark.Proofs.Disk.Place

/-!
# Changes of a volume

What every operation does to the entries of a volume on which each entry lies in a directory.  On
such a volume no path leads through a file, and a file is moved alone.

## Main definitions

* `Volume.WellFormed` — every entry lies in a directory.
* `Volume.Keeps` — a volume stays well-formed and loses no directory.
* `Volume.SparedAt`, `Volume.Grows` — nothing changes but for new directories at given places.

## Main results

* `Volume.entry?_put`, `Volume.entry?_erase`, `Volume.entry?_move` — the entries after a change.
* `Volume.exists_write`, `Volume.exists_rename`, `Volume.exists_unlink` — operations on files that
  can be done.
* `Volume.makeDirectory_spec`, `Volume.makeTemporary_spec` — operations that add an entry.
-/

namespace MerkleSnark.Volume

variable {v v' : Volume} {p q : Path} {loc old new : Location} {data : Bytes}

/-- Every entry lies in a directory, and so does the current place. -/
structure WellFormed (v : Volume) : Prop where
  here : v.entry? v.here = some .directory
  parent : ∀ {name : String} {loc : Location} {e : Entry},
    v.entry? (name :: loc) = some e → v.entry? loc = some .directory

@[simp] theorem entry?_nil (v : Volume) : v.entry? [] = some .directory := if_pos rfl

theorem ne_nil_of_ne_directory (h : v.entry? loc ≠ some .directory) : loc ≠ [] := by
  rintro rfl
  exact h (Volume.entry?_nil v)

theorem mem_entries_of_entry? {e : Entry} (hne : loc ≠ []) (h : v.entry? loc = some e) :
    ∃ e', (loc, e') ∈ v.entries := by
  have hmem := mem_keys_of_ne_none hne (by rw [h]; exact Option.some_ne_none e)
  obtain ⟨⟨loc', e'⟩, he', rfl⟩ := List.mem_map.mp hmem
  exact ⟨e', he'⟩

theorem WellFormed.of_forall_mem (hhere : v.entry? v.here = some .directory)
    (h : ∀ e ∈ v.entries, v.entry? e.1.tail = some .directory) : v.WellFormed where
  here := hhere
  parent := by
    intro name loc e he
    obtain ⟨e', he'⟩ := mem_entries_of_entry? (List.cons_ne_nil name loc) he
    exact h _ he'

/-- All places above an entry are directories. -/
theorem WellFormed.directory_of_suffix (hv : v.WellFormed) {loc' : Location} {e : Entry}
    (h : v.entry? loc = some e) (hs : loc' <:+ loc) (hne : loc' ≠ loc) :
    v.entry? loc' = some .directory := by
  induction loc generalizing e with
  | nil => exact absurd (List.suffix_nil.mp hs) hne
  | cons name loc ih =>
    rcases List.suffix_cons_iff.mp hs with rfl | hs
    · exact absurd rfl hne
    · by_cases heq : loc' = loc
      · exact heq ▸ hv.parent h
      · exact ih (hv.parent h) hs heq

/-! ### Entries after a change -/

theorem lookup_filter_ne (entries : List (Location × Entry)) (loc loc' : Location) :
    (entries.filter fun e => e.1 ≠ loc).lookup loc'
      = if loc' = loc then none else entries.lookup loc' := by
  induction entries with
  | nil => simp
  | cons e entries ih =>
    by_cases he : e.1 = loc
    · rw [List.filter_cons_of_neg (by simpa using he), ih]
      by_cases hloc : loc' = loc
      · rw [if_pos hloc, if_pos hloc]
      · rw [if_neg hloc, if_neg hloc, List.lookup_cons, beq_false_of_ne (by rwa [he])]
    · rw [List.filter_cons_of_pos (by simpa using he), List.lookup_cons, List.lookup_cons, ih]
      by_cases hloc' : loc' = e.1
      · subst hloc'
        simp [he]
      · simp [beq_false_of_ne hloc']

theorem entry?_erase (hne : loc ≠ []) (loc' : Location) :
    Volume.entry? (v.erase loc) loc' = if loc' = loc then none else v.entry? loc' := by
  by_cases hroot : loc' = []
  · subst hroot
    rw [if_neg (Ne.symm hne), entry?_nil, entry?_nil]
  · rw [Volume.entry?, entry?, if_neg hroot, if_neg hroot]
    exact lookup_filter_ne v.entries loc loc'

theorem entry?_put (hne : loc ≠ []) (e : Entry) (loc' : Location) :
    Volume.entry? (v.put loc e) loc' = if loc' = loc then some e else v.entry? loc' := by
  have herase := entry?_erase (v := v) hne loc'
  by_cases hroot : loc' = []
  · subst hroot
    rw [if_neg (Ne.symm hne), entry?_nil, entry?_nil]
  · rw [Volume.entry?, if_neg hroot] at herase ⊢
    show ((loc, e) :: (v.erase loc).entries).lookup loc' = _
    rw [List.lookup_cons, herase]
    by_cases hloc : loc' = loc
    · simp [hloc]
    · simp [hloc, beq_false_of_ne hloc]

/-- On a volume without entries inside a place, only the entry at that place is moved. -/
theorem lookup_map_moved {entries : List (Location × Entry)}
    (hinside : ∀ e ∈ entries, old <:+ e.1 → e.1 = old) (hnew : ∀ e ∈ entries, e.1 ≠ new)
    (loc : Location) :
    (entries.map fun e => (moved old new e.1, e.2)).lookup loc
      = if loc = new then entries.lookup old
        else if loc = old then none else entries.lookup loc := by
  induction entries with
  | nil => simp
  | cons e entries ih =>
    have ih := ih (fun e he => hinside e (List.mem_cons_of_mem _ he))
      fun e he => hnew e (List.mem_cons_of_mem _ he)
    have hfree : e.1 ≠ new := hnew e List.mem_cons_self
    rw [List.map_cons, List.lookup_cons, ih, List.lookup_cons, List.lookup_cons]
    by_cases hold : e.1 = old
    · have hmoved : moved old new e.1 = new := by simp [moved, hold]
      rw [hmoved, hold]
      by_cases hloc : loc = new
      · simp [hloc]
      · by_cases hloc' : loc = old
        · have hne : old ≠ new := hloc' ▸ hloc
          simp [hloc', hne, beq_false_of_ne hne]
        · simp [hloc, hloc', beq_false_of_ne hloc, beq_false_of_ne hloc']
    · have hout : ¬ old <:+ e.1 := fun hs => hold (hinside e List.mem_cons_self hs)
      have hmoved : moved old new e.1 = e.1 := by
        rw [moved, if_neg (by simpa [List.isSuffixOf_iff_suffix] using hout)]
      rw [hmoved, beq_false_of_ne (Ne.symm hold : old ≠ e.1)]
      by_cases hloc : loc = e.1
      · have hloc' : loc ≠ new := hloc ▸ hfree
        have hloc'' : loc ≠ old := hloc ▸ hold
        simp [hloc, hfree, hold]
      · simp [beq_false_of_ne hloc]

theorem lookup_ne_none_of_mem {entries : List (Location × Entry)} {e : Location × Entry}
    (he : e ∈ entries) : entries.lookup e.1 ≠ none := by
  intro h
  have hne := List.lookup_eq_none_iff.mp h e he
  simp at hne

/-- Nothing lies inside a file. -/
theorem WellFormed.eq_of_suffix_of_mem (hv : v.WellFormed) {e : Location × Entry}
    (he : e ∈ v.entries) (hold : v.entry? old = some (.file data)) (hs : old <:+ e.1) :
    e.1 = old := by
  by_contra hne
  have hroot : e.1 ≠ [] := by
    intro h
    rw [h, List.suffix_nil] at hs
    rw [hs, entry?_nil] at hold
    exact absurd hold nofun
  obtain ⟨e', he'⟩ := Option.ne_none_iff_exists'.mp (lookup_ne_none_of_mem he)
  have hentry : v.entry? e.1 = some e' := by rw [Volume.entry?, if_neg hroot, he']
  rw [hv.directory_of_suffix hentry hs (Ne.symm hne)] at hold
  exact absurd hold nofun

theorem entry?_move (hv : v.WellFormed) (hold : v.entry? old = some (.file data))
    (hnew : v.entry? new ≠ some .directory) (hne : old ≠ new) (loc : Location) :
    Volume.entry? (v.move old new) loc
      = if loc = new then some (.file data) else if loc = old then none else v.entry? loc := by
  have hroot : new ≠ [] := ne_nil_of_ne_directory hnew
  have hroot' : old ≠ [] := by
    rintro rfl
    exact absurd hold (by simp)
  by_cases hloc : loc = []
  · subst hloc
    rw [if_neg (Ne.symm hroot), if_neg (Ne.symm hroot'), entry?_nil, entry?_nil]
  · have hlookup : v.entries.lookup old = some (.file data) := by
      rwa [Volume.entry?, if_neg hroot'] at hold
    rw [Volume.entry?, if_neg hloc, entry?, if_neg hloc]
    show ((v.erase new).entries.map _).lookup loc = _
    have hmem {e : Location × Entry} (he : e ∈ (v.erase new).entries) :
        e ∈ v.entries ∧ e.1 ≠ new := by simpa [erase] using he
    rw [lookup_map_moved (fun e he hs => hv.eq_of_suffix_of_mem (hmem he).1 hold hs)
      fun e he => (hmem he).2]
    show (if loc = new then (v.entries.filter _).lookup old
      else if loc = old then none else (v.entries.filter _).lookup loc) = _
    rw [lookup_filter_ne, lookup_filter_ne, if_neg hne, hlookup]
    by_cases hloc' : loc = new
    · rw [if_pos hloc', if_pos hloc']
    · rw [if_neg hloc', if_neg hloc', if_neg hloc']

/-! ### Directories stay -/

/-- The volume stays well-formed and loses no directory. -/
structure Keeps (v v' : Volume) : Prop where
  here : v'.here = v.here
  wellFormed : v'.WellFormed
  directory : ∀ loc, v.entry? loc = some .directory → v'.entry? loc = some .directory

namespace Keeps

theorem refl (hv : v.WellFormed) : v.Keeps v := ⟨rfl, hv, fun _ h => h⟩

theorem trans {v'' : Volume} (h : v.Keeps v') (h' : v'.Keeps v'') : v.Keeps v'' :=
  ⟨h'.here.trans h.here, h'.wellFormed, fun loc hloc => h'.directory loc (h.directory loc hloc)⟩

theorem place (h : v.Keeps v') (p : Path) : v'.place p = v.place p := place_congr h.here p

theorem isOpen (h : v.Keeps v') (hopen : v.Open p) : v'.Open p := by
  intro loc hloc
  rw [way_congr h.here] at hloc
  exact h.directory loc (hopen loc hloc)

/-- What is new has to lie in a directory. -/
theorem of_entries (hv : v.WellFormed) (hhere : v'.here = v.here)
    (hkeep : ∀ loc, v.entry? loc = some .directory → v'.entry? loc = some .directory)
    (hadd : ∀ name loc, v.entry? (name :: loc) = none → v'.entry? (name :: loc) ≠ none →
      v.entry? loc = some .directory) : v.Keeps v' := by
  refine ⟨hhere, ⟨?_, ?_⟩, hkeep⟩
  · rw [hhere]
    exact hkeep _ hv.here
  · intro name loc e he
    refine hkeep loc ?_
    cases hentry : v.entry? (name :: loc) with
    | some e' => exact hv.parent hentry
    | none => exact hadd name loc hentry (by rw [he]; exact Option.some_ne_none e)

end Keeps

theorem keeps_put {name : String} {e : Entry} (hv : v.WellFormed)
    (hloc : v.entry? loc = some .directory) (hentry : v.entry? (name :: loc) ≠ some .directory) :
    v.Keeps (v.put (name :: loc) e) := by
  refine .of_entries hv rfl (fun loc' h => ?_) fun name' loc' hnone hsome => ?_
  · rw [Volume.entry?_put (List.cons_ne_nil _ _), if_neg (by rintro rfl; exact hentry h)]
    exact h
  · rw [Volume.entry?_put (List.cons_ne_nil _ _)] at hsome
    by_cases heq : name' :: loc' = name :: loc
    · exact (List.cons.inj heq).2 ▸ hloc
    · rw [if_neg heq] at hsome
      exact absurd hnone hsome

theorem keeps_erase (hv : v.WellFormed) (hentry : v.entry? loc ≠ some .directory) :
    v.Keeps (v.erase loc) := by
  have hne : loc ≠ [] := ne_nil_of_ne_directory hentry
  refine .of_entries hv rfl (fun loc' h => ?_) fun name' loc' hnone hsome => ?_
  · rw [Volume.entry?_erase hne, if_neg (by rintro rfl; exact hentry h)]
    exact h
  · rw [Volume.entry?_erase hne] at hsome
    by_cases heq : name' :: loc' = loc
    · rw [if_pos heq] at hsome
      exact absurd rfl hsome
    · rw [if_neg heq] at hsome
      exact absurd hnone hsome

theorem keeps_move {name : String} (hv : v.WellFormed)
    (hold : v.entry? old = some (.file data)) (hloc : v.entry? loc = some .directory)
    (hnew : v.entry? (name :: loc) ≠ some .directory) (hne : old ≠ name :: loc) :
    v.Keeps (v.move old (name :: loc)) := by
  refine .of_entries hv rfl (fun loc' h => ?_) fun name' loc' hnone hsome => ?_
  · rw [Volume.entry?_move hv hold hnew hne, if_neg (by rintro rfl; exact hnew h), if_neg]
    · exact h
    · rintro rfl
      rw [hold] at h
      exact absurd h nofun
  · rw [Volume.entry?_move hv hold hnew hne] at hsome
    by_cases heq : name' :: loc' = name :: loc
    · exact (List.cons.inj heq).2 ▸ hloc
    · rw [if_neg heq] at hsome
      by_cases heq' : name' :: loc' = old
      · rw [if_pos heq'] at hsome
        exact absurd rfl hsome
      · rw [if_neg heq'] at hsome
        exact absurd hnone hsome

/-! ### New directories -/

/-- A place holds what it held, unless it is one of the given ones and was made a directory. -/
def SparedAt (v v' : Volume) (ways : Set Location) (loc : Location) : Prop :=
  v'.entry? loc = v.entry? loc ∨
    loc ∈ ways ∧ v.entry? loc = none ∧ v'.entry? loc = some .directory

/-- Nothing changes but for new directories at the given places. -/
structure Grows (v v' : Volume) (ways : Set Location) : Prop where
  keeps : v.Keeps v'
  spared : ∀ loc, v.SparedAt v' ways loc

namespace SparedAt

variable {v'' : Volume} {ways : Set Location}

theorem mono {ways' : Set Location} (h : v.SparedAt v' ways loc) (hsub : ways ⊆ ways') :
    v.SparedAt v' ways' loc := h.imp_right fun ⟨hloc, hdir⟩ => ⟨hsub hloc, hdir⟩

theorem trans (h : v.SparedAt v' ways loc) (h' : v'.SparedAt v'' ways loc) :
    v.SparedAt v'' ways loc := by
  rcases h with h | ⟨hloc, hnone, hdir⟩
  · rcases h' with h' | ⟨hloc, hnone, hdir⟩
    · exact Or.inl (h'.trans h)
    · exact Or.inr ⟨hloc, h ▸ hnone, hdir⟩
  · rcases h' with h' | ⟨-, hnone', -⟩
    · exact Or.inr ⟨hloc, hnone, h' ▸ hdir⟩
    · rw [hdir] at hnone'
      exact absurd hnone' nofun

theorem eq_of_notMem (h : v.SparedAt v' ways loc) (hloc : loc ∉ ways) :
    v'.entry? loc = v.entry? loc := h.resolve_right fun h => hloc h.1

theorem eq_of_ne_none (h : v.SparedAt v' ways loc) (hloc : v.entry? loc ≠ none) :
    v'.entry? loc = v.entry? loc := h.resolve_right fun h => hloc h.2.1

end SparedAt

namespace Grows

variable {v'' : Volume} {ways : Set Location}

theorem refl (hv : v.WellFormed) (ways : Set Location) : v.Grows v ways :=
  ⟨.refl hv, fun _ => Or.inl rfl⟩

theorem mono {ways' : Set Location} (h : v.Grows v' ways) (hsub : ways ⊆ ways') :
    v.Grows v' ways' := ⟨h.keeps, fun loc => (h.spared loc).mono hsub⟩

theorem trans (h : v.Grows v' ways) (h' : v'.Grows v'' ways) : v.Grows v'' ways :=
  ⟨h.keeps.trans h'.keeps, fun loc => (h.spared loc).trans (h'.spared loc)⟩

end Grows

/-! ### The last name of a path -/

/-- The place before the last name is passed. -/
theorem Open.parent (hopen : v.Open p) (hnames : p.names ≠ []) :
    v.entry? (v.place p.parent) = some .directory := by
  refine hopen _ ?_
  conv_lhs => rw [← Path.child_parent_name hnames]
  rw [way_child]
  exact List.mem_append_right _ List.mem_cons_self

/-- The start of a path is a directory, and so is whatever two dots lead to. -/
theorem Open.endsInName (hopen : v.Open p) (hv : v.WellFormed)
    (h : v.entry? (v.place p) ≠ some .directory) : p.names ≠ [] ∧ p.name ≠ ".." := by
  have horigin : v.entry? (v.origin p) = some .directory := by
    by_cases hstart : p.start = .here
    · rw [origin, if_pos hstart]
      exact hv.here
    · rw [origin, if_neg hstart]
      exact entry?_nil v
  have hnames : p.names ≠ [] := by
    intro hnames
    rw [place, hnames] at h
    exact h horigin
  refine ⟨hnames, fun hup => ?_⟩
  have hparent := hopen.parent hnames
  rw [← Path.child_parent_name hnames, place_child, hup, follow, if_pos rfl] at h
  cases hplace : v.place p.parent with
  | nil => exact h (by rw [hplace]; exact entry?_nil v)
  | cons name loc =>
    rw [hplace] at h hparent
    exact h (hv.parent hparent)

theorem Open.parent_of_ne_directory (hopen : v.Open p) (hv : v.WellFormed)
    (h : v.entry? (v.place p) ≠ some .directory) :
    v.entry? (v.place p.parent) = some .directory :=
  hopen.parent (hopen.endsInName hv h).1

theorem Open.place_eq_cons (hopen : v.Open p) (hv : v.WellFormed)
    (h : v.entry? (v.place p) ≠ some .directory) : v.place p = p.name :: v.place p.parent :=
  have hlast := hopen.endsInName hv h
  Volume.place_eq_cons hlast.1 hlast.2

/-! ### Operations on files -/

theorem find_of_locate (h : v.locate p = .ok loc) : v.find p
    = (v.entry? loc).elim (.error .noEntry) fun e => .ok (loc, e) := by
  rw [find, h]
  cases hentry : v.entry? loc with
  | none =>
    simp only [bind, Except.bind, hentry]
    rfl
  | some e =>
    simp only [bind, Except.bind, hentry]
    rfl

theorem find_eq_ok_iff {e : Entry} :
    v.find p = .ok (loc, e) ↔ v.locate p = .ok loc ∧ v.entry? loc = some e := by
  cases hlocate : v.locate p with
  | error e' =>
    have hfind : v.find p = .error e' := by
      rw [find, hlocate]
      rfl
    simp [hfind]
  | ok loc' =>
    rw [find_of_locate hlocate]
    cases hentry : v.entry? loc' with
    | none =>
      simp only [Option.elim_none, reduceCtorEq, Except.ok.injEq, false_iff, not_and]
      rintro rfl
      simp [hentry]
    | some e' =>
      simp only [Option.elim_some, Except.ok.injEq, Prod.mk.injEq]
      constructor
      · rintro ⟨rfl, rfl⟩
        exact ⟨rfl, hentry⟩
      · rintro ⟨rfl, he⟩
        exact ⟨rfl, Option.some.inj (hentry.symm.trans he)⟩

theorem find_eq_ok {e : Entry} (hfits : p.Fits) (hopen : v.Open p)
    (h : v.entry? (v.place p) = some e) : v.find p = .ok (v.place p, e) :=
  find_eq_ok_iff.mpr ⟨locate_eq_ok hfits hopen, h⟩

theorem find_eq_noEntry (hfits : p.Fits) (hopen : v.Open p) (h : v.entry? (v.place p) = none) :
    v.find p = .error .noEntry := by
  rw [find_of_locate (locate_eq_ok hfits hopen), h]
  rfl

theorem read_eq_ok (hfits : p.Fits) (hopen : v.Open p)
    (h : v.entry? (v.place p) = some (.file data)) : v.read p = .ok data := by
  rw [read, find_eq_ok hfits hopen h]
  rfl

theorem keeps_put_place {e : Entry} (hv : v.WellFormed) (hopen : v.Open p)
    (h : v.entry? (v.place p) ≠ some .directory) : v.Keeps (v.put (v.place p) e) := by
  have hparent := hopen.parent_of_ne_directory hv h
  have hplace := hopen.place_eq_cons hv h
  rw [hplace] at h ⊢
  exact keeps_put hv hparent h

theorem exists_write (hv : v.WellFormed) (hfits : p.Fits) (hopen : v.Open p)
    (h : v.entry? (v.place p) ≠ some .directory) (data : Bytes) :
    ∃ v', v.write p data = .ok v' ∧ v.Keeps v' ∧
      ∀ loc, v'.entry? loc = if loc = v.place p then some (.file data) else v.entry? loc := by
  refine ⟨v.put (v.place p) (.file data), ?_, keeps_put_place hv hopen h, ?_⟩
  · rw [write, locate_eq_ok hfits hopen]
    show (if v.entry? (v.place p) = some .directory then Except.error OsError.isDirectory
      else .ok (v.put (v.place p) (.file data))) = _
    rw [if_neg h]
  · exact entry?_put (ne_nil_of_ne_directory h) _

theorem exists_unlink (hv : v.WellFormed) (hfits : p.Fits) (hopen : v.Open p)
    (h : v.entry? (v.place p) = some (.file data)) :
    ∃ v', v.unlink p = .ok v' ∧ v.Keeps v' ∧
      ∀ loc, v'.entry? loc = if loc = v.place p then none else v.entry? loc := by
  have hfile : v.entry? (v.place p) ≠ some .directory := by
    rw [h]
    exact nofun
  refine ⟨v.erase (v.place p), ?_, keeps_erase hv hfile, entry?_erase (ne_nil_of_ne_directory hfile)⟩
  rw [unlink, find_eq_ok hfits hopen h]
  rfl

theorem unlink_eq_noEntry (hfits : p.Fits) (hopen : v.Open p) (h : v.entry? (v.place p) = none) :
    v.unlink p = .error .noEntry := by
  rw [unlink, find_eq_noEntry hfits hopen h]
  rfl

/-- No other place that a path leads to lies inside a file. -/
theorem isSuffixOf_place_eq_false (hv : v.WellFormed) (hold : v.entry? old = some (.file data))
    (hopen : v.Open q) (hnew : v.entry? (v.place q) ≠ some .directory) (hne : old ≠ v.place q) :
    old.isSuffixOf (v.place q) = false := by
  rw [Bool.eq_false_iff]
  intro hs
  have hs := List.isSuffixOf_iff_suffix.mp hs
  rw [hopen.place_eq_cons hv hnew, List.suffix_cons_iff, ← hopen.place_eq_cons hv hnew] at hs
  rcases hs with hs | hs
  · exact hne hs
  · have hparent := hopen.parent (hopen.endsInName hv hnew).1
    have hdir : v.entry? old = some .directory := by
      by_cases heq : old = v.place q.parent
      · rw [heq]
        exact hparent
      · exact hv.directory_of_suffix hparent hs heq
    rw [hold] at hdir
    exact absurd hdir nofun

/-- A file is moved to a place that holds no directory. -/
theorem exists_rename (hv : v.WellFormed) (hp : p.Fits) (hopenp : v.Open p) (hq : q.Fits)
    (hopenq : v.Open q) (hold : v.entry? (v.place p) = some (.file data))
    (hnew : v.entry? (v.place q) ≠ some .directory) (hne : v.place p ≠ v.place q) :
    ∃ v', v.rename p q = .ok v' ∧ v.Keeps v' ∧ ∀ loc, v'.entry? loc
      = if loc = v.place q then some (.file data)
        else if loc = v.place p then none else v.entry? loc := by
  have hkeeps : v.Keeps (v.move (v.place p) (v.place q)) := by
    have hparent := hopenq.parent_of_ne_directory hv hnew
    have hplace := hopenq.place_eq_cons hv hnew
    rw [hplace] at hnew hne ⊢
    exact keeps_move hv hold hparent hnew hne
  refine ⟨v.move (v.place p) (v.place q), ?_, hkeeps, entry?_move hv hold hnew hne⟩
  have hpn := hopenp.endsInName hv (by rw [hold]; exact nofun)
  have hqn := hopenq.endsInName hv hnew
  have hends : (endsInName p && endsInName q) = true := by
    simp [endsInName, hpn.1, hpn.2, hqn.1, hqn.2]
  -- neither place lies inside the other one
  have hinto := isSuffixOf_place_eq_false hv hold hopenq hnew hne
  have hover : (v.place q).isSuffixOf (v.place p) = false := by
    rw [Bool.eq_false_iff]
    intro hs
    exact hnew (hv.directory_of_suffix hold (List.isSuffixOf_iff_suffix.mp hs) (Ne.symm hne))
  rw [rename, locate_eq_ok hp hopenp, locate_eq_ok hq hopenq]
  simp only [bind, Except.bind, hends, hold]
  cases hentry : v.entry? (v.place q) with
  | none =>
    simp [hne, hinto, hover]
    rfl
  | some e =>
    cases e with
    | file _ =>
      simp [hne, hinto, hover]
      rfl
    | directory => exact absurd hentry hnew

/-! ### Operations that add an entry -/

/-- A path leads to a directory. -/
structure Reaches (v : Volume) (p : Path) : Prop where
  fits : p.Fits
  isOpen : v.Open p
  directory : v.entry? (v.place p) = some .directory

theorem makeDirectory_spec (hv : v.WellFormed) (h : v.makeDirectory p = .ok v') :
    v.Grows v' {v.place p} ∧ v'.Reaches p := by
  rw [makeDirectory] at h
  rcases hlocate : v.locate p with e | loc
  · rw [hlocate] at h
    exact absurd h nofun
  · obtain ⟨hfits, hopen, rfl⟩ := locate_eq_ok_iff.mp hlocate
    rw [hlocate] at h
    change (if (v.entry? (v.place p)).isSome then Except.error OsError.entryExists
      else .ok (v.put (v.place p) .directory)) = .ok v' at h
    cases hentry : v.entry? (v.place p) with
    | some e =>
      rw [hentry] at h
      exact absurd h nofun
    | none =>
      rw [hentry] at h
      have hfree : v.entry? (v.place p) ≠ some .directory := by
        rw [hentry]
        exact nofun
      have hkeeps : v.Keeps (v.put (v.place p) .directory) := keeps_put_place hv hopen hfree
      have hentries := entry?_put (v := v) (ne_nil_of_ne_directory hfree) .directory
      rw [← Except.ok.inj h]
      refine ⟨⟨hkeeps, fun loc => ?_⟩, ⟨hfits, hkeeps.isOpen hopen, ?_⟩⟩
      · by_cases hloc : loc = v.place p
        · exact Or.inr ⟨hloc, hloc ▸ hentry, by rw [hentries, if_pos hloc]⟩
        · exact Or.inl (by rw [hentries, if_neg hloc])
      · rw [hkeeps.place, hentries, if_pos rfl]

theorem makeTemporary_spec {directory : Path} {beginning ending : String} (hv : v.WellFormed)
    (hup : ∀ k, beginning ++ temporaryMark k ++ ending ≠ "..")
    (h : v.makeTemporary directory beginning ending = .ok (p, v')) :
    (∃ k, p = directory.child (beginning ++ temporaryMark k ++ ending)) ∧ p.Fits ∧ v.Open p ∧
      v.entry? (v.place p) = none ∧ v.Keeps v' ∧
      ∀ loc, v'.entry? loc = if loc = v.place p then some (.file []) else v.entry? loc := by
  rw [makeTemporary] at h
  rcases hlocate : v.locate directory with e | loc
  · rw [hlocate] at h
    exact absurd h nofun
  · obtain ⟨k, hname, hfree⟩ := freshName_spec v loc beginning ending
    obtain ⟨-, -, rfl⟩ := locate_eq_ok_iff.mp hlocate
    rw [hlocate] at h
    set t := directory.child (v.freshName (v.place directory) beginning ending) with ht
    have hplace : v.entry? (v.place t) = none := by
      rw [ht, place_child, follow_of_ne (by rw [hname]; exact hup k)]
      exact hfree
    have hwrite : (do return (t, ← v.write t []) : Except OsError (Path × Volume))
        = .ok (p, v') := h
    rcases hlocate' : v.locate t with e | loc'
    · rw [write, hlocate'] at hwrite
      exact absurd hwrite nofun
    · obtain ⟨hfits, hopen, rfl⟩ := locate_eq_ok_iff.mp hlocate'
      obtain ⟨w, hw, hkeeps, hentries⟩ :=
        exists_write hv hfits hopen (by rw [hplace]; exact nofun) []
      rw [hw] at hwrite
      obtain ⟨rfl, rfl⟩ := Prod.mk.inj (Except.ok.inj hwrite)
      exact ⟨⟨k, by rw [ht, hname]⟩, hfits, hopen, hplace, hkeeps, hentries⟩

end MerkleSnark.Volume
