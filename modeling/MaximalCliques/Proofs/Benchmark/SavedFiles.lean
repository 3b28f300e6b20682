import MaximalCliques.Benchmark.Run
import MaximalCliques.Proofs.CommandLine.Journal
import MaximalCliques.Proofs.Numeral
import MaximalCliques.Proofs.Random.Picking

/-!
# Files of random graphs

The graphs of a benchmark come from one random source in turn. Each is written to two files whose
names tell its order, its size and the seed, so the files of different sizes have different names.
Main statement: when all files are written, those of the last graph of a size are left as they were
written.
-/

namespace MaximalCliques
namespace Benchmark

/-! ## Graphs drawn in turn -/

section Drawing

variable {S σ : Type} [VertexSet S] [LawfulVertexSet S] [WordSource σ]

/-- The graphs that come from a source one after another, one of each size. -/
def drawnInTurn (order : ℕ) : List ℕ → σ → Option (List (Graph S))
  | [], _ => some []
  | size :: sizes, source =>
    match (Graph.random ampleFuel order size source : Option (Except Error (Graph S) × σ)) with
    | some (.ok g, next) => (drawnInTurn order sizes next).map (g :: ·)
    | _ => none

variable {order size : ℕ} {sizes : List ℕ} {source : σ} {gs : List (Graph S)}

theorem drawnInTurn_cons_eq_some_iff :
    drawnInTurn order (size :: sizes) source = some gs ↔
      ∃ g next rest, Graph.random ampleFuel order size source = some (.ok g, next) ∧
        drawnInTurn order sizes next = some rest ∧ gs = g :: rest := by
  rw [drawnInTurn]
  constructor
  · intro h
    split at h
    · rename_i g next hdraw
      obtain ⟨rest, hrest, rfl⟩ := Option.map_eq_some_iff.mp h
      exact ⟨g, next, rest, hdraw, hrest, rfl⟩
    · cases h
  · rintro ⟨g, next, rest, hdraw, hrest, rfl⟩
    rw [hdraw]
    simp only [hrest, Option.map_some]

theorem length_of_drawnInTurn (h : drawnInTurn order sizes source = some gs) :
    gs.length = sizes.length := by
  induction sizes generalizing source gs with
  | nil =>
    cases h
    rfl
  | cons size sizes ih =>
    obtain ⟨g, next, rest, -, hrest, rfl⟩ := drawnInTurn_cons_eq_some_iff.mp h
    exact congrArg Nat.succ (ih hrest)

theorem order_of_random {fuel : ℕ} {next : σ} {g : Graph S}
    (h : Graph.random fuel order size source = some (.ok g, next)) : g.order = order := by
  have hfrom : Graph.randomFrom ((wordSampler order).draw fuel) fuel order size source =
      some (.ok g, next) := h
  have hsize : size ≤ mostEdges order := by
    by_contra hmore
    rw [Graph.randomFrom_of_lt (not_le.mp hmore)] at hfrom
    cases hfrom
  obtain ⟨picked, g', -, -, hg, horder, -⟩ := Graph.exists_reaches_of_randomFrom hsize hfrom
  rwa [Except.ok.inj hg]

theorem order_of_drawnInTurn (h : drawnInTurn order sizes source = some gs) :
    ∀ g ∈ gs, g.order = order := by
  induction sizes generalizing source gs with
  | nil =>
    cases h
    simp
  | cons size sizes ih =>
    obtain ⟨g, next, rest, hdraw, hrest, rfl⟩ := drawnInTurn_cons_eq_some_iff.mp h
    exact List.forall_mem_cons.mpr ⟨order_of_random hdraw, ih hrest⟩

end Drawing

/-! ## Names of files -/

section Names

variable {directory ending ending' : List Char} {order size size' : ℕ} {seed : UInt64}

def fileName (order size : ℕ) (seed : UInt64) (ending : List Char) : List Char :=
  "random-".toList ++ Numeral.write order ++ '-' :: Numeral.write size ++
    '-' :: Numeral.write seed.toNat ++ ending

def endings : List (List Char) := [".txt".toList, ".bin".toList]

theorem savedName_append :
    savedName directory order size seed ++ ending =
      directory ++ '/' :: fileName order size seed ending := by
  have hslash : "/random-".toList = '/' :: "random-".toList := rfl
  unfold savedName fileName
  rw [hslash]
  simp

theorem slash_not_mem_write (n : ℕ) : '/' ∉ Numeral.write n := by
  intro h
  exact absurd (Numeral.isSome_digit?_of_mem_write h) (by decide)

theorem slash_not_mem_fileName (hending : ending ∈ endings) :
    '/' ∉ fileName order size seed ending := by
  have hrandom : '/' ∉ "random-".toList := by decide
  have hendings : ∀ e ∈ endings, '/' ∉ e := by decide
  have hdash : '/' ≠ '-' := by decide
  unfold fileName
  simp only [List.mem_append, List.mem_cons, hrandom, hdash, slash_not_mem_write,
    hendings ending hending, or_false, not_false_eq_true]

theorem lastName?_savedName (hending : ending ∈ endings) :
    FileStore.lastName? (savedName directory order size seed ++ ending) =
      some (fileName order size seed ending) := by
  rw [savedName_append]
  apply FileStore.lastName?_append_slash
  · unfold fileName
    simp
  · exact slash_not_mem_fileName hending

theorem fileName_inj (hending : ending ∈ endings) (hending' : ending' ∈ endings)
    (h : fileName order size seed ending = fileName order size' seed ending') :
    size = size' ∧ ending = ending' := by
  have hlength : ∀ e ∈ endings, e.length = 4 := by decide
  obtain ⟨hstem, heq⟩ := List.append_inj' h ((hlength _ hending).trans (hlength _ hending').symm)
  refine ⟨?_, heq⟩
  apply Numeral.write_injective
  simpa using hstem

end Names

/-! ## Files -/

section Files

open FileStore

variable {S : Type} [VertexSet S] {o : Options} {directory : List Char} {size : ℕ} {sizes : List ℕ}
variable {g : Graph S} {gs : List (Graph S)}

def savedFiles (o : Options) (directory : List Char) (size : ℕ) (g : Graph S) :
    List (List Char × List UInt8) :=
  [(savedName directory o.order size o.seed ++ ".txt".toList, EdgeList.encode g.toEdgeList),
    (savedName directory o.order size o.seed ++ ".bin".toList, g.toRecord)]

def filesInTurn (o : Options) (directory : List Char) (sizes : List ℕ) (gs : List (Graph S)) :
    List (List Char × List UInt8) :=
  (sizes.zip gs).flatMap fun (size, g) => savedFiles o directory size g

variable (o directory) in
theorem exists_filesInTurn_eq {i : ℕ} (hsize : sizes[i]? = some size) (hg : gs[i]? = some g) :
    ∃ before, filesInTurn o directory sizes gs =
      before ++ (savedFiles o directory size g ++
        filesInTurn o directory (sizes.drop (i + 1)) (gs.drop (i + 1))) := by
  have hzip : (sizes.zip gs)[i]? = some (size, g) :=
    List.getElem?_zip_eq_some.mpr ⟨hsize, hg⟩
  obtain ⟨hi, hget⟩ := List.getElem?_eq_some_iff.mp hzip
  obtain ⟨before, hsplit⟩ : ∃ before, sizes.zip gs =
      before ++ (size, g) :: (sizes.drop (i + 1)).zip (gs.drop (i + 1)) := by
    have hrest : (sizes.zip gs).drop (i + 1) = (sizes.drop (i + 1)).zip (gs.drop (i + 1)) :=
      List.drop_zipWith
    refine ⟨(sizes.zip gs).take i, ?_⟩
    rw [← hrest, ← hget, ← List.drop_eq_getElem_cons hi, List.take_append_drop]
  refine ⟨before.flatMap fun (size, g) => savedFiles o directory size g, ?_⟩
  rw [filesInTurn, hsplit, List.flatMap_append, List.flatMap_cons]
  rfl

theorem lastName?_of_mem_filesInTurn {e : List Char × List UInt8}
    (he : e ∈ filesInTurn o directory sizes gs) :
    ∃ size ∈ sizes, ∃ ending ∈ endings,
      lastName? e.1 = some (fileName o.order size o.seed ending) := by
  obtain ⟨⟨size, g⟩, hmem, he⟩ := List.mem_flatMap.mp he
  refine ⟨size, (List.of_mem_zip hmem).1, ?_⟩
  simp only [savedFiles, List.mem_cons, List.not_mem_nil, or_false] at he
  rcases he with rfl | rfl
  · exact ⟨".txt".toList, by decide, lastName?_savedName (by decide)⟩
  · exact ⟨".bin".toList, by decide, lastName?_savedName (by decide)⟩

/-- The files of the last graph of a size keep their places, and they are opened as they were written
unless another file stays open there. -/
theorem exists_openEntry_of_journal {s u : FileStore} {openPlace : Option Path} (hs : s.Standing)
    (hjournal : Journal openPlace s (filesInTurn o directory sizes gs) u) {i : ℕ}
    (hsize : sizes[i]? = some size) (hg : gs[i]? = some g) (hlast : size ∉ sizes.drop (i + 1)) :
    ∀ e ∈ savedFiles o directory size g, ∃ path last, u.filePlace e.1 = .ok (path, last) ∧
      (openPlace ≠ some (path ++ [last]) → u.openEntry e.1 = .ok (.file e.2)) := by
  obtain ⟨before, hentries⟩ := exists_filesInTurn_eq o directory hsize hg
  rw [hentries] at hjournal
  have hlater : ∀ ending ∈ endings,
      ∀ e ∈ filesInTurn o directory (sizes.drop (i + 1)) (gs.drop (i + 1)),
        lastName? e.1 ≠ lastName? (savedName directory o.order size o.seed ++ ending) := by
    intro ending hending e he heq
    obtain ⟨size', hsize', ending', hending', hname⟩ := lastName?_of_mem_filesInTurn he
    rw [hname, lastName?_savedName hending] at heq
    obtain ⟨rfl, -⟩ := fileName_inj hending' hending (Option.some.inj heq)
    exact hlast hsize'
  have hother : lastName? (savedName directory o.order size o.seed ++ ".bin".toList) ≠
      lastName? (savedName directory o.order size o.seed ++ ".txt".toList) := by
    rw [lastName?_savedName (by decide), lastName?_savedName (by decide)]
    intro heq
    obtain ⟨-, hending⟩ := fileName_inj (by decide) (by decide) (Option.some.inj heq)
    revert hending
    decide
  intro e he
  simp only [savedFiles, List.mem_cons, List.not_mem_nil, or_false] at he
  rcases he with rfl | rfl
  · exact hjournal.exists_openEntry hs
      (List.forall_mem_cons.mpr ⟨hother, hlater _ (by decide)⟩)
  · rw [savedFiles, List.cons_append, List.append_cons] at hjournal
    exact hjournal.exists_openEntry hs (hlater _ (by decide))

end Files

end Benchmark
end MaximalCliques
