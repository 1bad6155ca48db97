import Mathlib
import MerkleSnark.Disk.Replacement
import MerkleSnark.Disk.Volume

/-!
# Places and the ways to them

Where a path leads does not depend on what a volume holds: two dots go up by one name, every other
name goes one name further.  What depends on the volume is whether the path can be followed at all,
and for that every place on the way has to be a directory.

## Main definitions

* `Volume.place`, `Volume.way` — where a path leads, and the places it is followed from.
* `Volume.Open` — all places on the way are directories.
* `Path.Fits` — the names and the text of a path are not too long.

## Main results

* `Volume.locate_eq_ok_iff` — the paths that can be followed.
* `Path.fits_child_of_le` — a path with a shorter last name fits too.
* `Volume.place_eq_cons` — the place of a path that ends in a name.
* `Volume.temporaryMark_injective`, `Volume.freshName_spec` — new names.
-/

namespace MerkleSnark

/-! ### Following names -/

namespace Volume

variable {v v' : Volume} {p : Path}

/-- One name further from a place. -/
def follow (loc : Location) (name : String) : Location :=
  if name = ".." then loc.tail else name :: loc

/-- The places from which the names are followed. -/
def passed : Location → List String → List Location
  | _, [] => []
  | loc, name :: rest => loc :: passed (follow loc name) rest

/-- Where a path starts. -/
def origin (v : Volume) (p : Path) : Location := if p.start = .here then v.here else []

/-- Where a path leads. -/
def place (v : Volume) (p : Path) : Location := p.names.foldl follow (v.origin p)

/-- The places a path is followed from. -/
def way (v : Volume) (p : Path) : List Location := passed (v.origin p) p.names

/-- A path can be followed to its last name. -/
def Open (v : Volume) (p : Path) : Prop := ∀ loc ∈ v.way p, v.entry? loc = some .directory

theorem follow_of_ne {name : String} (h : name ≠ "..") (loc : Location) :
    follow loc name = name :: loc := if_neg h

theorem passed_append (loc : Location) (names names' : List String) :
    passed loc (names ++ names') = passed loc names ++ passed (names.foldl follow loc) names' := by
  induction names generalizing loc with
  | nil => rfl
  | cons name names ih => simp [passed, ih]

/-- Without two dots every name leads further down. -/
theorem length_of_mem_passed {loc start : Location} {names : List String}
    (hup : ∀ n ∈ names, n ≠ "..") (h : loc ∈ passed start names) :
    loc.length < start.length + names.length := by
  induction names generalizing start with
  | nil => exact absurd h List.not_mem_nil
  | cons name rest ih =>
    rw [passed, follow_of_ne (hup name List.mem_cons_self)] at h
    rcases List.mem_cons.mp h with rfl | h
    · simp
    · have hrest := ih (fun n hn => hup n (List.mem_cons_of_mem _ hn)) h
      simp only [List.length_cons] at hrest ⊢
      omega

theorem length_foldl_follow {start : Location} {names : List String}
    (hup : ∀ n ∈ names, n ≠ "..") :
    (names.foldl follow start).length = start.length + names.length := by
  induction names generalizing start with
  | nil => simp
  | cons name rest ih =>
    rw [List.foldl_cons, follow_of_ne (hup name List.mem_cons_self),
      ih fun n hn => hup n (List.mem_cons_of_mem _ hn)]
    simp only [List.length_cons]
    omega

theorem place_congr (h : v'.here = v.here) (p : Path) : v'.place p = v.place p := by
  rw [place, place, origin, origin, h]

theorem way_congr (h : v'.here = v.here) (p : Path) : v'.way p = v.way p := by
  rw [way, way, origin, origin, h]

theorem place_child (v : Volume) (p : Path) (name : String) :
    v.place (p.child name) = follow (v.place p) name := by
  show (p.names ++ [name]).foldl follow (v.origin p) = _
  rw [List.foldl_append]
  rfl

theorem way_child (v : Volume) (p : Path) (name : String) :
    v.way (p.child name) = v.way p ++ [v.place p] := by
  show passed (v.origin p) (p.names ++ [name]) = _
  rw [passed_append]
  rfl

/-- A new name in a directory does not lie on the way to that directory. -/
theorem cons_notMem_way (hup : ∀ n ∈ p.names, n ≠ "..") (name name' : String) :
    name :: v.place p ∉ v.way (p.child name') := by
  intro h
  have hlength : (v.place p).length = (v.origin p).length + p.names.length :=
    length_foldl_follow hup
  rw [way_child, List.mem_append, List.mem_singleton] at h
  rcases h with h | h
  · have hshort := length_of_mem_passed hup h
    rw [List.length_cons] at hshort
    omega
  · exact List.cons_ne_self _ _ h

theorem way_withName (v : Volume) (p : Path) (name name' : String) :
    v.way (p.withName name) = v.way (p.withName name') := by
  rw [Path.withName, Path.withName, way_child, way_child]

theorem walk_eq_ok_iff {loc loc' : Location} {names : List String} :
    v.walk loc names = .ok loc' ↔ (∀ d ∈ passed loc names, v.entry? d = some .directory) ∧
      (∀ n ∈ names, n = ".." ∨ n.utf8ByteSize ≤ maxNameBytes) ∧ names.foldl follow loc = loc' := by
  induction names generalizing loc with
  | nil => simp [walk, passed]
  | cons name rest ih =>
    rcases hentry : v.entry? loc with _ | ⟨data⟩ | _
    · simp [walk, passed, hentry]
    · simp [walk, passed, hentry]
    · by_cases hup : name = ".."
      · simp [walk, passed, hentry, hup, ih, follow]
      · by_cases hlong : name.utf8ByteSize > maxNameBytes
        · have hshort : ¬ name.utf8ByteSize ≤ maxNameBytes := by omega
          simp [walk, passed, hentry, hup, hlong, hshort]
        · have hshort : name.utf8ByteSize ≤ maxNameBytes := by omega
          simp [walk, passed, hentry, hup, hlong, hshort, ih, follow]

end Volume

/-! ### Lengths -/

namespace Path

/-- No name and no text of the path is too long. -/
def Fits (p : Path) : Prop :=
  p.text.utf8ByteSize ≤ Volume.maxPathBytes ∧
    ∀ n ∈ p.names, n = ".." ∨ n.utf8ByteSize ≤ Volume.maxNameBytes

theorem child_parent_name {p : Path} (h : p.names ≠ []) : p.parent.child p.name = p := by
  have hname : p.name = p.names.getLast h := by simp [name, List.getLast?_eq_some_getLast h]
  cases p
  simp only [parent, child, hname, List.dropLast_append_getLast]

theorem text_child (p : Path) (name : String) :
    ((p.child name).text).utf8ByteSize
      = (p.start.text ++ "/".intercalate (p.names ++ [""])).utf8ByteSize + name.utf8ByteSize := by
  have hchild : (p.child name).text = p.start.text ++ "/".intercalate (p.names ++ [name]) := by
    rw [text, if_neg (by simp [child])]
    rfl
  rw [hchild]
  cases hnames : p.names with
  | nil => simp [String.utf8ByteSize_append]
  | cons n rest =>
    rw [String.intercalate_append_of_ne_nil (List.cons_ne_nil _ _) (List.cons_ne_nil _ _),
      String.intercalate_append_of_ne_nil (List.cons_ne_nil _ _) (List.cons_ne_nil _ _)]
    simp only [String.utf8ByteSize_append, String.intercalate_singleton]
    simp
    omega

/-- Beside a path that fits, so does one with a shorter last name. -/
theorem fits_child_of_le {p : Path} {name name' : String} (h : (p.child name).Fits)
    (hup : name ≠ "..") (hle : name'.utf8ByteSize ≤ name.utf8ByteSize) : (p.child name').Fits := by
  obtain ⟨htext, hnames⟩ := h
  refine ⟨?_, ?_⟩
  · rw [text_child] at htext ⊢
    omega
  · intro n hn
    simp only [child, List.mem_append, List.mem_singleton] at hn hnames
    rcases hn with hn | rfl
    · exact hnames n (Or.inl hn)
    · have hlast := (hnames name (Or.inr rfl)).resolve_left hup
      exact Or.inr (by omega)

end Path

namespace Volume

variable {v v' : Volume} {p : Path} {loc : Location}

theorem locate_eq_ok_iff : v.locate p = .ok loc ↔ p.Fits ∧ v.Open p ∧ v.place p = loc := by
  by_cases hlong : p.text.utf8ByteSize > maxPathBytes
  · have hshort : ¬ p.text.utf8ByteSize ≤ maxPathBytes := by omega
    simp [locate, hlong, Path.Fits, hshort]
  · have hshort : p.text.utf8ByteSize ≤ maxPathBytes := by omega
    simp only [locate, if_neg hlong, Path.Fits, hshort, true_and]
    rw [show (if p.start = .here then v.here else []) = v.origin p from rfl, walk_eq_ok_iff]
    exact ⟨fun ⟨ho, hn, hl⟩ => ⟨hn, ho, hl⟩, fun ⟨hn, ho, hl⟩ => ⟨ho, hn, hl⟩⟩

theorem locate_eq_ok (hfits : p.Fits) (hopen : v.Open p) : v.locate p = .ok (v.place p) :=
  locate_eq_ok_iff.mpr ⟨hfits, hopen, rfl⟩

/-! ### The last name -/

theorem place_eq_cons (hnames : p.names ≠ []) (hup : p.name ≠ "..") :
    v.place p = p.name :: v.place p.parent := by
  conv_lhs => rw [← Path.child_parent_name hnames]
  rw [place_child, follow_of_ne hup]

/-! ### New names -/

theorem temporaryMark_injective : Function.Injective temporaryMark := by
  -- read as digits, a mark is the number again
  have hread (k : ℕ) : Nat.ofDigitChars 10 (temporaryMark k).toList 0 = k := by
    have hzeros (n : ℕ) (digits : List Char) :
        Nat.ofDigitChars 10 (List.replicate n '0' ++ digits) 0 = Nat.ofDigitChars 10 digits 0 := by
      induction n with
      | zero => rfl
      | succ n ih => simpa [List.replicate_succ, Nat.ofDigitChars_cons] using ih
    rw [temporaryMark, String.toList_ofList, hzeros, Nat.ofDigitChars_ten_toDigits]
  intro k l h
  rw [← hread k, h, hread l]

theorem temporaryName_injective (beginning ending : String) :
    Function.Injective fun k => beginning ++ temporaryMark k ++ ending := by
  intro k l h
  simpa [String.append_right_inj, temporaryMark_injective.eq_iff] using h

theorem mem_keys_of_ne_none (hne : loc ≠ []) (h : v.entry? loc ≠ none) :
    loc ∈ v.entries.map Prod.fst := by
  rw [Volume.entry?, if_neg hne] at h
  by_contra hmem
  refine h (List.lookup_eq_none_iff.mpr fun e he => ?_)
  rw [bne_iff_ne]
  rintro rfl
  exact hmem (List.mem_map_of_mem he)

/-- There are more names than entries, so one of them is new. -/
theorem freshName_spec (v : Volume) (directory : Location) (beginning ending : String) :
    ∃ k, v.freshName directory beginning ending = beginning ++ temporaryMark k ++ ending ∧
      v.entry? (v.freshName directory beginning ending :: directory) = none := by
  let name (k : ℕ) := beginning ++ temporaryMark k ++ ending
  let free (k : ℕ) : Bool := (v.entry? (name k :: directory)).isNone
  cases hfind : (List.range (v.entries.length + 1)).find? free with
  | some k =>
    have hname : v.freshName directory beginning ending = name k := by
      show name (((List.range (v.entries.length + 1)).find? free).getD 0) = name k
      rw [hfind]
      rfl
    refine ⟨k, hname, ?_⟩
    rw [hname]
    have hfree : free k = true := List.find?_some hfind
    exact Option.isNone_iff_eq_none.mp hfree
  | none =>
    -- all names are taken, by entries at different places
    have htaken : ∀ k ∈ List.range (v.entries.length + 1),
        name k :: directory ∈ v.entries.map Prod.fst := by
      intro k hk
      refine mem_keys_of_ne_none (List.cons_ne_nil _ _) fun h => ?_
      exact List.find?_eq_none.mp hfind k hk (Option.isNone_iff_eq_none.mpr h)
    have hnodup : ((List.range (v.entries.length + 1)).map fun k => name k :: directory).Nodup :=
      List.nodup_range.map fun k l h =>
        temporaryName_injective beginning ending (List.cons.inj h).1
    have hsub : ((List.range (v.entries.length + 1)).map fun k => name k :: directory)
        ⊆ v.entries.map Prod.fst := by
      intro loc hloc
      obtain ⟨k, hk, rfl⟩ := List.mem_map.mp hloc
      exact htaken k hk
    have hle := (hnodup.subperm hsub).length_le
    simp at hle

end Volume

end MerkleSnark
