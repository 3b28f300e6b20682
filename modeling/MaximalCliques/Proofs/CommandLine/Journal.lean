import MaximalCliques.Proofs.CommandLine.FileStore

/-!
# Journals of written files

A journal lists the files that were written to a store, in order, with their contents. In between, a
file that stays open may have been written to. Main statement: a file has the contents of its last
entry in the journal, unless it is the one that stays open.
-/

namespace MaximalCliques
namespace FileStore

variable {s t u : FileStore} {path : Path} {text last : List Char} {bytes : List UInt8}

def lastName? (text : List Char) : Option (List Char) := (PathName.ofText text).parts.getLast?

theorem lastName?_append_slash {directory name : List Char} (hname : name ≠ [])
    (hslash : '/' ∉ name) : lastName? (directory ++ '/' :: name) = some name := by
  have hsplit : (directory ++ '/' :: name).splitOn '/' = directory.splitOn '/' ++ [name] := by
    rw [List.splitOn_append_cons_self, List.splitOn_eq_singleton hslash]
  simp [lastName?, PathName.ofText, hsplit, hname]

theorem lastName?_of_filePlace (h : s.filePlace text = .ok (path, last)) :
    lastName? text = some last := by
  obtain ⟨p, htext, hwalk, -⟩ := filePlace_eq_ok_iff.mp h
  have hp : p = PathName.ofText text := by
    unfold pathName at htext
    split_ifs at htext
    exact (Except.ok.inj htext).symm
  subst hp
  exact (walk_eq_name_iff.mp hwalk).1

/-- The first store becomes the second by writing the listed files one after another, while the file
at the open place may change at any time. -/
inductive Journal (openPlace : Option Path) :
    FileStore → List (List Char × List UInt8) → FileStore → Prop
  | done (s : FileStore) : Journal openPlace s [] s
  | written {s t u : FileStore} {text : List Char} {bytes : List UInt8}
      {rest : List (List Char × List UInt8)} (hwrite : s.write text bytes = .ok t)
      (hrest : Journal openPlace t rest u) : Journal openPlace s ((text, bytes) :: rest) u
  | meanwhile {s t u : FileStore} {rest : List (List Char × List UInt8)}
      (hspares : s.Spares {place | openPlace ≠ some place} t) (hrest : Journal openPlace t rest u) :
      Journal openPlace s rest u

namespace Journal

variable {openPlace : Option Path} {entries before after : List (List Char × List UInt8)}

theorem spares (h : Journal openPlace s entries u) :
    s.Spares {place | openPlace ≠ some place ∧ ∀ e ∈ entries, lastName? e.1 ≠ place.getLast?} u := by
  induction h with
  | done s => exact .refl _ s
  | written hwrite hrest ih =>
    obtain ⟨path, last, hplace, rfl⟩ := write_eq_ok_iff.mp hwrite
    refine ((spares_put_file hplace _).mono fun place hspared => ?_).trans
      (ih.mono fun place hspared => ⟨hspared.1, (List.forall_mem_cons.mp hspared.2).2⟩)
    rintro rfl
    have hname := (List.forall_mem_cons.mp hspared.2).1
    simp [lastName?_of_filePlace hplace] at hname
  | meanwhile hspares hrest ih =>
    exact (hspares.mono fun place hspared => hspared.1).trans ih

/-- A file keeps its place, and it is opened with the contents of its last entry unless another file
stays open there. -/
theorem exists_openEntry (h : Journal openPlace s (before ++ (text, bytes) :: after) u)
    (hs : s.Standing) (hafter : ∀ e ∈ after, lastName? e.1 ≠ lastName? text) :
    ∃ path last, u.filePlace text = .ok (path, last) ∧
      (openPlace ≠ some (path ++ [last]) → u.openEntry text = .ok (.file bytes)) := by
  generalize hentries : before ++ (text, bytes) :: after = entries at h
  induction h generalizing before with
  | done s => simp at hentries
  | written hwrite hrest ih =>
    obtain ⟨path, last, hplace, rfl⟩ := write_eq_ok_iff.mp hwrite
    have hput := spares_put_file hplace
    cases before with
    | cons e before => exact ih ((hput _).standing hs) (List.cons.inj hentries).2
    | nil =>
      obtain ⟨hfirst, rfl⟩ := List.cons.inj hentries
      cases hfirst
      have hfile := get?_put_file hs hplace bytes
      have hkind := ((hput bytes).mono (Set.empty_subset _)).trans
        (hrest.spares.mono (Set.empty_subset _))
      have hplace' := hkind.filePlace_eq hplace (hrest.spares.not_isDirectory hfile)
      -- From here on nothing is written to a path with this last component.
      refine ⟨path, last, hplace', fun hopen => openEntry_of_filePlace hplace' ?_⟩
      refine hrest.spares.contents _ ⟨hopen, fun e he => ?_⟩ bytes hfile
      simpa [lastName?_of_filePlace hplace] using hafter e he
  | meanwhile hspares hrest ih => exact ih (hspares.standing hs) hentries

end Journal
end FileStore
end MaximalCliques
