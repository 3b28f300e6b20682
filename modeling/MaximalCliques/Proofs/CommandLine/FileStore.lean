import Mathlib.Data.List.Basic
import Mathlib.Data.Set.Basic
import MaximalCliques.CommandLine.FileStore
import MaximalCliques.Proofs.Checks

/-!
# What happens to files

An operation on a store changes one entry and leaves the others alone: files stay files and
directories stay directories, so a path name leads to the same place before and after. So a file that
was written is opened as it was written as long as nothing else is put into its place.
-/

namespace MaximalCliques

/-! ## Trees -/

namespace Entry

def isDirectory : Entry → Bool
  | file _ => false
  | directory _ => true

theorem get?_append (path rest : Path) (e : Entry) :
    get? (path ++ rest) e = (get? path e).bind (get? rest) := by
  induction path generalizing e with
  | nil => simp [get?]
  | cons name path ih =>
    cases e with
    | file bytes => simp [get?]
    | directory entries =>
      simp only [List.cons_append, get?]
      cases named? name entries with
      | none => rfl
      | some sub => exact ih sub

theorem exists_directory_of_get?_append {path : Path} {name : List Char} {e x : Entry}
    (h : get? (path ++ [name]) e = some x) : ∃ entries, get? path e = some (directory entries) := by
  rw [get?_append, Option.bind_eq_some_iff] at h
  obtain ⟨sub, hsub, hname⟩ := h
  cases sub with
  | file bytes => cases hname
  | directory entries => exact ⟨entries, hsub⟩

theorem get?_put_of_get? (new : Entry) {path : Path} {e old : Entry} (h : get? path e = some old) :
    get? path (put new path e) = some new := by
  induction path generalizing e with
  | nil => rfl
  | cons name path ih =>
    cases e with
    | file bytes => cases h
    | directory entries =>
      obtain ⟨sub, hsub, hpath⟩ := Option.bind_eq_some_iff.mp h
      simp only [put, get?, named?_setEntry, if_true, hsub, Option.getD_some, Option.bind_some]
      exact ih hpath

/-- Where a new entry takes the place of no directory, all others stay: files as they are, and
directories as directories. -/
theorem get?_put_of_ne (new : Entry) {path other : Path} {e x : Entry}
    (hplace : ∀ old ∈ get? path e, old.isDirectory = false) (hne : other ≠ path)
    (h : get? other e = some x) :
    ∃ y, get? other (put new path e) = some y ∧ y.isDirectory = x.isDirectory ∧
      (x.isDirectory = false → y = x) := by
  induction path generalizing e other with
  | nil =>
    obtain ⟨name, rest, rfl⟩ := List.exists_cons_of_ne_nil hne
    cases e with
    | file bytes => cases h
    | directory entries => cases hplace _ rfl
  | cons name path ih =>
    cases e with
    | file bytes => exact ⟨x, h, rfl, fun _ => rfl⟩
    | directory entries =>
      cases other with
      | nil =>
        cases h
        exact ⟨_, rfl, rfl, by simp [isDirectory]⟩
      | cons n rest =>
        simp only [put, get?, named?_setEntry]
        by_cases hname : name = n
        · subst hname
          obtain ⟨sub, hsub, hrest⟩ := Option.bind_eq_some_iff.mp h
          have hbelow : ∀ old ∈ get? path sub, old.isDirectory = false := by
            intro old hold
            apply hplace
            simpa [get?, hsub] using hold
          have hother : rest ≠ path := fun heq => hne (heq ▸ rfl)
          simpa [hsub] using ih hbelow hother hrest
        · simp only [if_neg hname]
          exact ⟨x, h, rfl, fun _ => rfl⟩

end Entry

namespace FileStore

variable {s t u : FileStore} {spared fewer : Set Path} {path next : Path}
  {text last part : List Char} {bytes : List UInt8}

/-! ## Stores that change -/

def IsDirectory (s : FileStore) (path : Path) : Prop :=
  ∃ entries, s.root.get? path = some (.directory entries)

/-- From the first store to the second, no file and no directory becomes the other or is lost, and
files at spared places keep their contents. -/
structure Spares (spared : Set Path) (s t : FileStore) : Prop where
  kind : ∀ path x, s.root.get? path = some x →
    ∃ y, t.root.get? path = some y ∧ y.isDirectory = x.isDirectory
  contents : ∀ path ∈ spared, ∀ bytes, s.root.get? path = some (.file bytes) →
    t.root.get? path = some (.file bytes)

theorem Spares.refl (spared : Set Path) (s : FileStore) : s.Spares spared s :=
  ⟨fun _ x h => ⟨x, h, rfl⟩, fun _ _ _ h => h⟩

theorem Spares.trans (hst : s.Spares spared t) (htu : t.Spares spared u) : s.Spares spared u where
  kind path x hx := by
    obtain ⟨y, hy, hxy⟩ := hst.kind path x hx
    obtain ⟨z, hz, hyz⟩ := htu.kind path y hy
    exact ⟨z, hz, hyz.trans hxy⟩
  contents path hpath bytes h := htu.contents path hpath bytes (hst.contents path hpath bytes h)

theorem Spares.mono (h : s.Spares spared t) (hsub : fewer ⊆ spared) : s.Spares fewer t :=
  ⟨h.kind, fun path hpath => h.contents path (hsub hpath)⟩

theorem Spares.isDirectory (h : s.Spares spared t) (hpath : s.IsDirectory path) :
    t.IsDirectory path := by
  obtain ⟨entries, hentries⟩ := hpath
  obtain ⟨y, hy, hkind⟩ := h.kind path _ hentries
  cases y with
  | file bytes => cases hkind
  | directory entries => exact ⟨entries, hy⟩

theorem Spares.not_isDirectory (h : s.Spares spared t)
    (hpath : s.root.get? path = some (.file bytes)) : ¬ t.IsDirectory path := by
  rintro ⟨entries, hentries⟩
  obtain ⟨y, hy, hkind⟩ := h.kind path _ hpath
  cases hy.symm.trans hentries
  cases hkind

theorem spares_put {new : Entry}
    (hold : ∀ old ∈ s.root.get? path, old.isDirectory = false ∧ new.isDirectory = false) :
    s.Spares {path}ᶜ ⟨Entry.put new path s.root⟩ where
  kind other x hx := by
    by_cases heq : other = path
    · subst heq
      obtain ⟨hx', hnew⟩ := hold x hx
      exact ⟨new, Entry.get?_put_of_get? new hx, hnew.trans hx'.symm⟩
    · obtain ⟨y, hy, hkind, -⟩ := Entry.get?_put_of_ne new (fun old h => (hold old h).1) heq hx
      exact ⟨y, hy, hkind⟩
  contents other hother bytes h := by
    obtain ⟨y, hy, -, hfile⟩ := Entry.get?_put_of_ne new (fun old h => (hold old h).1) hother h
    rwa [hfile rfl] at hy

/-! ## Walking path names -/

def Standing (s : FileStore) : Prop := s.IsDirectory home

theorem Spares.standing (h : s.Spares spared t) (hs : s.Standing) : t.Standing := h.isDirectory hs

theorem IsDirectory.dropLast (h : s.IsDirectory path) : s.IsDirectory path.dropLast := by
  rcases List.eq_nil_or_concat' path with rfl | ⟨path, name, rfl⟩
  · exact h
  · obtain ⟨entries, hentries⟩ := h
    rw [List.dropLast_concat]
    exact Entry.exists_directory_of_get?_append hentries

theorem Standing.start (h : s.Standing) (p : PathName) : s.IsDirectory (FileStore.start p) := by
  unfold FileStore.start
  split_ifs
  · exact h.dropLast
  · exact h

theorem lookUp_eq_ok_iff {found : Option Entry} :
    s.lookUp path part = .ok found ↔
      byteLength part ≤ PathName.longestName ∧ s.root.get? (path ++ [part]) = found := by
  unfold lookUp
  split_ifs with h
  · simp [Nat.not_le.mpr h]
  · simp [Nat.not_lt.mp h]

theorem enter_eq_ok (h : s.enter path part = .ok next) :
    (part = PathName.here ∧ next = path) ∨ (part = PathName.back ∧ next = path.dropLast) ∨
      (part ≠ PathName.here ∧ part ≠ PathName.back ∧ byteLength part ≤ PathName.longestName ∧
        s.IsDirectory (path ++ [part]) ∧ next = path ++ [part]) := by
  unfold enter at h
  split_ifs at h with hhere hback
  · cases h
    exact .inl ⟨hhere, rfl⟩
  · cases h
    exact .inr (.inl ⟨hback, rfl⟩)
  · split at h <;> cases h
    rename_i entries hfound
    obtain ⟨hlength, hentries⟩ := lookUp_eq_ok_iff.mp hfound
    exact .inr (.inr ⟨hhere, hback, hlength, ⟨entries, hentries⟩, rfl⟩)

theorem enter_isDirectory (hpath : s.IsDirectory path)
    (h : s.enter path part = .ok next) : s.IsDirectory next := by
  rcases enter_eq_ok h with ⟨-, rfl⟩ | ⟨-, rfl⟩ | ⟨-, -, -, hnext, rfl⟩
  · exact hpath
  · exact hpath.dropLast
  · exact hnext

theorem Spares.enter_eq (hst : s.Spares spared t) (h : s.enter path part = .ok next) :
    t.enter path part = .ok next := by
  rcases enter_eq_ok h with ⟨rfl, rfl⟩ | ⟨rfl, rfl⟩ | ⟨hhere, hback, hlength, hnext, rfl⟩
  · rfl
  · rfl
  · obtain ⟨entries, hentries⟩ := hst.isDirectory hnext
    have hfound := lookUp_eq_ok_iff.mpr ⟨hlength, hentries⟩
    simp [enter, hhere, hback, hfound]

theorem foldlM_enter_isDirectory {parts : List (List Char)}
    (hpath : s.IsDirectory path) (h : parts.foldlM s.enter path = .ok next) :
    s.IsDirectory next := by
  induction parts generalizing path with
  | nil =>
    cases h
    exact hpath
  | cons part parts ih =>
    rw [List.foldlM_cons, bind_eq_ok_iff] at h
    obtain ⟨middle, hmiddle, hrest⟩ := h
    exact ih (enter_isDirectory hpath hmiddle) hrest

theorem Spares.foldlM_enter_eq {parts : List (List Char)} (hst : s.Spares spared t)
    (h : parts.foldlM s.enter path = .ok next) : parts.foldlM t.enter path = .ok next := by
  induction parts generalizing path with
  | nil => exact h
  | cons part parts ih =>
    rw [List.foldlM_cons, bind_eq_ok_iff] at h ⊢
    obtain ⟨middle, hmiddle, hrest⟩ := h
    exact ⟨middle, hst.enter_eq hmiddle, ih hrest⟩

/-- A walk that ends at a name has come to a directory, and the name is the last component. -/
theorem walk_eq_name_iff {p : PathName} :
    s.walk p = .ok (.name path last) ↔
      p.parts.getLast? = some last ∧ last ≠ PathName.here ∧ last ≠ PathName.back ∧
        p.parts.dropLast.foldlM s.enter (start p) = .ok path := by
  unfold walk
  cases hlast : p.parts.getLast? with
  | none => simp
  | some name =>
    simp only [bind_eq_ok_iff]
    constructor
    · rintro ⟨middle, hmiddle, h⟩
      split_ifs at h with hhere hback
      · cases h
      · cases h
      · cases h
        exact ⟨rfl, hhere, hback, hmiddle⟩
    · rintro ⟨hname, hhere, hback, hpath⟩
      cases hname
      exact ⟨path, hpath, by simp [hhere, hback]; rfl⟩

/-! ## Files that are written and opened -/

theorem isDirectory_iff_exists_isDirectory :
    s.IsDirectory path ↔ ∃ old ∈ s.root.get? path, old.isDirectory = true := by
  constructor
  · rintro ⟨entries, hentries⟩
    exact ⟨_, hentries, rfl⟩
  · rintro ⟨old, hold, hkind⟩
    cases old with
    | file bytes => cases hkind
    | directory entries => exact ⟨entries, hold⟩

theorem not_isDirectory_iff :
    ¬ s.IsDirectory path ↔ ∀ old ∈ s.root.get? path, old.isDirectory = false := by
  simp [isDirectory_iff_exists_isDirectory]

/-- The place of a file is a name in a directory, and not that of another directory. -/
theorem filePlace_eq_ok_iff :
    s.filePlace text = .ok (path, last) ↔
      ∃ p, pathName text = .ok p ∧ s.walk p = .ok (.name path last) ∧ p.slashed = false ∧
        byteLength last ≤ PathName.longestName ∧ ¬ s.IsDirectory (path ++ [last]) := by
  simp only [filePlace, bind_eq_ok_iff]
  refine exists_congr fun p => and_congr_right fun _ => ?_
  constructor
  · rintro ⟨destination, hwalk, h⟩
    cases destination with
    | directory path => cases h
    | name path' last' =>
      split_ifs at h with hslashed
      · cases h
      · obtain ⟨found, hfound, h⟩ := bind_eq_ok_iff.mp h
        obtain ⟨hlength, hget⟩ := lookUp_eq_ok_iff.mp hfound
        split at h
        · cases h
        · rename_i hnot
          cases h
          refine ⟨hwalk, by simpa using hslashed, hlength, ?_⟩
          rintro ⟨entries, hentries⟩
          exact hnot entries (hget.symm.trans hentries)
  · rintro ⟨hwalk, hslashed, hlength, hnot⟩
    refine ⟨_, hwalk, ?_⟩
    simp only [hslashed, Bool.false_eq_true, if_false]
    refine bind_eq_ok_iff.mpr ⟨_, lookUp_eq_ok_iff.mpr ⟨hlength, rfl⟩, ?_⟩
    split
    · rename_i entries hentries
      exact absurd ⟨entries, hentries⟩ hnot
    · rfl

theorem filePlace_isDirectory (hs : s.Standing) (h : s.filePlace text = .ok (path, last)) :
    s.IsDirectory path := by
  obtain ⟨p, -, hwalk, -⟩ := filePlace_eq_ok_iff.mp h
  obtain ⟨-, -, -, hpath⟩ := walk_eq_name_iff.mp hwalk
  exact foldlM_enter_isDirectory (hs.start p) hpath

/-- A file keeps its place as long as no directory is made there. -/
theorem Spares.filePlace_eq (hst : s.Spares spared t) (h : s.filePlace text = .ok (path, last))
    (hnot : ¬ t.IsDirectory (path ++ [last])) : t.filePlace text = .ok (path, last) := by
  obtain ⟨p, htext, hwalk, hslashed, hlength, -⟩ := filePlace_eq_ok_iff.mp h
  obtain ⟨hlast, hhere, hback, hpath⟩ := walk_eq_name_iff.mp hwalk
  have hwalk' := walk_eq_name_iff.mpr ⟨hlast, hhere, hback, hst.foldlM_enter_eq hpath⟩
  exact filePlace_eq_ok_iff.mpr ⟨p, htext, hwalk', hslashed, hlength, hnot⟩

theorem openEntry_of_filePlace (h : s.filePlace text = .ok (path, last))
    (hfile : s.root.get? (path ++ [last]) = some (.file bytes)) :
    s.openEntry text = .ok (.file bytes) := by
  obtain ⟨p, htext, hwalk, hslashed, hlength, -⟩ := filePlace_eq_ok_iff.mp h
  have hfound := lookUp_eq_ok_iff.mpr ⟨hlength, hfile⟩
  simp only [openEntry, find, bind, Except.bind, htext, hwalk, hfound, hslashed]
  rfl

theorem write_eq_ok_iff :
    s.write text bytes = .ok t ↔
      ∃ path last, s.filePlace text = .ok (path, last) ∧ t = s.put path last (.file bytes) := by
  simp only [write, bind_eq_ok_iff]
  constructor
  · rintro ⟨⟨path, last⟩, hplace, h⟩
    cases h
    exact ⟨path, last, hplace, rfl⟩
  · rintro ⟨path, last, hplace, rfl⟩
    exact ⟨(path, last), hplace, rfl⟩

theorem get?_put_file (hs : s.Standing) (h : s.filePlace text = .ok (path, last))
    (bytes : List UInt8) :
    (s.put path last (.file bytes)).root.get? (path ++ [last]) = some (.file bytes) := by
  obtain ⟨entries, hentries⟩ := filePlace_isDirectory hs h
  exact Entry.get?_put_self (.file bytes) path last s.root hentries

theorem spares_put_file (h : s.filePlace text = .ok (path, last)) (bytes : List UInt8) :
    s.Spares {path ++ [last]}ᶜ (s.put path last (.file bytes)) := by
  obtain ⟨-, -, -, -, -, hnot⟩ := filePlace_eq_ok_iff.mp h
  rw [not_isDirectory_iff] at hnot
  exact spares_put fun old hold => ⟨hnot old hold, rfl⟩

/-! ## Files that stay open -/

theorem create_eq_ok_iff {file : OpenFile} :
    s.create text = .ok (t, file) ↔
      ∃ path last, s.filePlace text = .ok (path, last) ∧ t = s.put path last (.file []) ∧
        file = ⟨path ++ [last], 0⟩ := by
  simp only [create, bind_eq_ok_iff]
  constructor
  · rintro ⟨⟨path, last⟩, hplace, h⟩
    cases h
    exact ⟨path, last, hplace, rfl, rfl⟩
  · rintro ⟨path, last, hplace, rfl, rfl⟩
    exact ⟨(path, last), hplace, rfl⟩

theorem path_writeTo (s : FileStore) (file : OpenFile) (bytes : List UInt8) :
    (s.writeTo file bytes).2.path = file.path := by
  unfold writeTo
  split <;> rfl

theorem spares_writeTo (s : FileStore) (file : OpenFile) (bytes : List UInt8) :
    s.Spares {file.path}ᶜ (s.writeTo file bytes).1 := by
  unfold writeTo
  split
  · rename_i contents hfile
    have hold : ∀ old ∈ s.root.get? file.path, old.isDirectory = false := by
      intro old hold
      cases hfile.symm.trans hold
      rfl
    exact spares_put fun old h => ⟨hold old h, rfl⟩
  · exact .refl _ s

/-! ## Directories that are made -/

theorem spares_put_directory (h : s.root.get? (path ++ [last]) = none) :
    s.Spares Set.univ (s.put path last (.directory [])) := by
  have hspares : s.Spares {path ++ [last]}ᶜ (s.put path last (.directory [])) :=
    spares_put (by simp [h])
  refine ⟨hspares.kind, fun other _ bytes hother => hspares.contents other ?_ bytes hother⟩
  rintro rfl
  cases h.symm.trans hother

theorem makeDirectory_spares {p : PathName} (h : s.makeDirectory p = .ok t) :
    s.Spares Set.univ t := by
  obtain ⟨destination, -, h⟩ := bind_eq_ok_iff.mp h
  cases destination with
  | directory path => cases h
  | name path last =>
    obtain ⟨found, hfound, h⟩ := bind_eq_ok_iff.mp h
    cases found with
    | some e => cases h
    | none =>
      cases h
      exact spares_put_directory (lookUp_eq_ok_iff.mp hfound).2

theorem ensureDirectory_spares {p : PathName} (h : s.ensureDirectory p = .ok t) :
    s.Spares Set.univ t := by
  unfold ensureDirectory at h
  split at h
  · rename_i u hmade
    cases h
    exact makeDirectory_spares hmade
  · split at h
    · cases h
      exact .refl _ s
    · cases h

theorem enterOrMake_spares (h : enterOrMake (s, path) part = .ok (t, next)) :
    s.Spares Set.univ t := by
  unfold enterOrMake at h
  dsimp only at h
  split_ifs at h
  · cases h
    exact .refl _ s
  · cases h
    exact .refl _ s
  · split at h
    · cases h
    · rename_i hfound
      cases h
      exact spares_put_directory (lookUp_eq_ok_iff.mp hfound).2
    · cases h
    · cases h
      exact .refl _ s

theorem foldlM_enterOrMake_spares {parts : List (List Char)}
    (h : parts.foldlM enterOrMake (s, path) = .ok (t, next)) : s.Spares Set.univ t := by
  induction parts generalizing s path with
  | nil =>
    cases h
    exact .refl _ _
  | cons part parts ih =>
    rw [List.foldlM_cons, bind_eq_ok_iff] at h
    obtain ⟨⟨u, middle⟩, hmiddle, hrest⟩ := h
    exact (enterOrMake_spares hmiddle).trans (ih hrest)

theorem makeOuter_spares {p : PathName} (h : s.makeOuter p = .ok t) :
    s.Spares Set.univ t := by
  obtain ⟨⟨u, next⟩, hsteps, h⟩ := bind_eq_ok_iff.mp h
  cases h
  exact foldlM_enterOrMake_spares hsteps

theorem makeDirectories_spares (h : s.makeDirectories text = .ok t) :
    s.Spares Set.univ t := by
  unfold makeDirectories at h
  split_ifs at h
  · cases h
    exact .refl _ s
  · obtain ⟨p, -, h⟩ := bind_eq_ok_iff.mp h
    split at h
    · obtain ⟨u, houter, hinner⟩ := bind_eq_ok_iff.mp h
      exact (makeOuter_spares houter).trans (ensureDirectory_spares hinner)
    · exact ensureDirectory_spares h

/-! ## Stores with given files -/

theorem Standing.write (hs : s.Standing) (h : s.write text bytes = .ok t) : t.Standing := by
  obtain ⟨path, last, hplace, rfl⟩ := write_eq_ok_iff.mp h
  exact (spares_put_file hplace bytes).standing hs

theorem standing_ofFiles (files : List (List Char × List UInt8)) : (ofFiles files).Standing := by
  unfold ofFiles
  apply List.foldlRecOn (motive := Standing)
  · exact ⟨[], rfl⟩
  · rintro s hs ⟨text, bytes⟩ -
    dsimp only
    split
    · rename_i t hwritten
      obtain ⟨u, houter, hfile⟩ := bind_eq_ok_iff.mp hwritten
      exact ((makeOuter_spares houter).standing hs).write hfile
    · exact hs

end FileStore
end MaximalCliques
