import MaximalCliques.Proofs.Benchmark.Comparing
import MaximalCliques.Proofs.Benchmark.SavedFiles
import MaximalCliques.Proofs.Graph.Reloading

/-!
# Graphs that a benchmark saves

The graphs of a benchmark come from one random source in turn, and each is saved under a name made of
its order, its size and the seed. Main statement: after a successful run the last graph of each size
is loaded again from both its files, unless the table is written to one of them. An earlier graph of
the same size is lost.
-/

namespace MaximalCliques
namespace Benchmark

open VertexSet LawfulVertexSet

/-! ## Successful runs -/

section Runs

open Recording FileStore

variable {S : Type} [VertexSet S] {schedule : Pool.Schedule} {o : Options} {directory : List Char}
variable {size : ℕ} {sizes : List ℕ} {g : Graph S} {gs : List (Graph S)} {r r' : Recording}
variable {u : FileStore} {openPlace : Option Path} {table : Option (Table OpenFile)}

def writeAll (s : FileStore) (files : List (List Char × List UInt8)) :
    Except FileFault FileStore :=
  files.foldlM (fun s (name, bytes) => s.write name bytes) s

theorem run_save_of_writeAll (hdirectory : o.directory = some directory)
    (h : writeAll r.store (savedFiles o directory size g) = .ok u) :
    (save host o size g).run r = (.ok (), { r with store := u }) := by
  obtain ⟨s, htext, hrest⟩ := bind_eq_ok_iff.mp h
  obtain ⟨s', hrecord, hdone⟩ := bind_eq_ok_iff.mp hrest
  cases hdone
  unfold save
  rw [hdirectory]
  exact run_bind_eq_ok_iff.mpr
    ⟨(), _, run_write_eq_ok_iff.mpr ⟨s, htext, rfl⟩, run_write_eq_ok_iff.mpr ⟨u, hrecord, rfl⟩⟩

theorem journal_of_save (hdirectory : o.directory = some directory)
    (h : (save host o size g).run r = (.ok (), r')) {rest : List (List Char × List UInt8)}
    (hrest : Journal openPlace r'.store rest u) :
    Journal openPlace r.store (savedFiles o directory size g ++ rest) u := by
  unfold save at h
  rw [hdirectory] at h
  obtain ⟨⟨⟩, r₁, htext, hrecord⟩ := run_bind_eq_ok_iff.mp h
  obtain ⟨s, hs, rfl⟩ := run_write_eq_ok_iff.mp htext
  obtain ⟨s', hs', rfl⟩ := run_write_eq_ok_iff.mp hrecord
  exact .written hs (.written hs' hrest)

variable [LawfulVertexSet S] {σ : Type} [WordSource σ] {source next : σ} {rows : List Row}

theorem exists_save_of_overSize
    (h : (overSize host S schedule o size source).run r = (.ok (rows, next), r')) :
    ∃ g : Graph S, Graph.random ampleFuel o.order size source = some (.ok g, next) ∧
      ∃ r₁, (save host o size g).run r = (.ok (), r₁) ∧ r'.store = r₁.store := by
  unfold overSize at h
  split at h
  · cases h
  · cases h
  · rename_i g next' hdraw
    obtain ⟨⟨⟩, r₁, hsave, hcompare⟩ := run_bind_eq_ok_iff.mp h
    obtain ⟨rows', r₂, hrows, hpure⟩ := run_bind_eq_ok_iff.mp hcompare
    cases hpure
    have hstore := keepsStore_compare schedule g o size r₁
    rw [hrows] at hstore
    exact ⟨g, hdraw, r₁, hsave, hstore⟩

theorem exists_journal_of_overSizes (hdirectory : o.directory = some directory)
    (h : (overSizes host S schedule o sizes source table).run r = (.ok (), r')) :
    ∃ gs : List (Graph S), drawnInTurn o.order sizes source = some gs ∧
      Journal (tablePlace? table) r.store (filesInTurn o directory sizes gs) r'.store := by
  induction sizes generalizing source table r with
  | nil =>
    unfold overSizes at h
    obtain ⟨table', hflush⟩ := discard_eq_ok h
    obtain ⟨-, hspares⟩ := spares_of_mapM spares_of_flush hflush
    exact ⟨[], rfl, .meanwhile hspares (.done _)⟩
  | cons size sizes ih =>
    unfold overSizes at h
    obtain ⟨⟨rows, next⟩, r₁, hone, h⟩ := run_bind_eq_ok_iff.mp h
    obtain ⟨table', r₂, htable, h⟩ := run_bind_eq_ok_iff.mp h
    obtain ⟨g, hdraw, r₃, hsave, hstore⟩ :=
      exists_save_of_overSize (run_guarding_eq_ok_iff.mp hone)
    obtain ⟨gs, hgs, hjournal⟩ := ih h
    obtain ⟨hplace, hspares⟩ := spares_of_mapM spares_of_add_flush htable
    rw [hplace] at hjournal
    rw [hstore] at hspares
    exact ⟨g :: gs, drawnInTurn_cons_eq_some_iff.mpr ⟨g, next, gs, hdraw, hgs, rfl⟩,
      journal_of_save hdirectory hsave (.meanwhile hspares hjournal)⟩

/-- A successful run makes the directories, starts the table and then writes the files in turn. -/
theorem exists_journal_of_run {store : FileStore} (hs : store.Standing)
    (hdirectory : o.directory = some directory)
    (hrun : Recording.run schedule o store = (.ok (), r)) :
    ∃ (gs : List (Graph o.representation.Carrier)) (s : FileStore) (openPlace : Option Path),
      drawnInTurn o.order o.sizes (Xoshiro.ofSeed o.seed) = some gs ∧ s.Standing ∧
        Journal openPlace s (filesInTurn o directory o.sizes gs) r.store ∧
        ∀ place, openPlace = some place → ∃ name ∈ o.table, ∃ path last, place = path ++ [last] ∧
          r.store.filePlace name = .ok (path, last) := by
  unfold Recording.run Benchmark.run at hrun
  simp only [hdirectory] at hrun
  split_ifs at hrun with hsamples
  · obtain ⟨u, r₁, hthrow, hrest⟩ := run_bind_eq_ok_iff.mp hrun
    cases hthrow
  · obtain ⟨⟨⟩, r₁, hmake, hrest⟩ := run_bind_eq_ok_iff.mp hrun
    obtain ⟨table, r₂, htable, hsizes⟩ := run_bind_eq_ok_iff.mp hrest
    obtain ⟨s, hmade, rfl⟩ := run_makeDirectories_eq_ok_iff.mp hmake
    obtain ⟨hs₂, hplace⟩ := filePlace_of_start ((makeDirectories_spares hmade).standing hs) htable
    obtain ⟨gs, hgs, hjournal⟩ := exists_journal_of_overSizes hdirectory hsizes
    refine ⟨gs, r₂.store, tablePlace? table, hgs, hs₂, hjournal, fun place hopen => ?_⟩
    obtain ⟨name, hname, path, last, rfl, hkept⟩ := hplace place hopen
    have hspares := hjournal.spares.mono (Set.empty_subset _)
    exact ⟨name, hname, path, last, rfl, hkept r.store hspares⟩

/-! ## Runs without a table -/

theorem exists_overSize_of_writeAll (hdirectory : o.directory = some directory)
    (hstart : ∀ a ∈ o.compared, a.CanStart S)
    (hdraw : Graph.random ampleFuel o.order size source = some (.ok g, next))
    (hwritten : writeAll r.store (savedFiles o directory size g) = .ok u) :
    ∃ rows r', (overSize host S schedule o size source).run r = (.ok (rows, next), r') ∧
      r'.store = u := by
  have hsave := run_save_of_writeAll hdirectory hwritten
  obtain ⟨rows, r', hcompare, -⟩ :=
    returns_compare schedule g hstart size { r with store := u }
  have hstore := keepsStore_compare schedule g o size { r with store := u }
  rw [hcompare] at hstore
  have hrun : (overSize host S schedule o size source).run r = (.ok (rows, next), r') := by
    unfold overSize
    rw [hdraw]
    dsimp only
    rw [run_bind_of_ok _ hsave, run_bind_of_ok _ hcompare]
    rfl
  exact ⟨rows, r', hrun, hstore⟩

theorem exists_overSizes_of_writeAll (hdirectory : o.directory = some directory)
    (hstart : ∀ a ∈ o.compared, a.CanStart S)
    (hgs : drawnInTurn o.order sizes source = some gs)
    (hwritten : writeAll r.store (filesInTurn o directory sizes gs) = .ok u) :
    ∃ r', (overSizes host S schedule o sizes source none).run r = (.ok (), r') ∧ r'.store = u := by
  induction sizes generalizing source gs r with
  | nil =>
    cases hgs
    cases hwritten
    exact ⟨r, rfl, rfl⟩
  | cons size sizes ih =>
    obtain ⟨g, next, rest, hdraw, hrest, rfl⟩ := drawnInTurn_cons_eq_some_iff.mp hgs
    have hsplit : filesInTurn o directory (size :: sizes) (g :: rest) =
        savedFiles o directory size g ++ filesInTurn o directory sizes rest := rfl
    rw [hsplit, writeAll, List.foldlM_append, bind_eq_ok_iff] at hwritten
    obtain ⟨s, hone, hothers⟩ := hwritten
    obtain ⟨rows, r₁, hsize, rfl⟩ := exists_overSize_of_writeAll hdirectory hstart hdraw hone
    obtain ⟨r', hsizes, hstore⟩ := ih hrest hothers
    have hrun : (overSizes host S schedule o (size :: sizes) source none).run r = (.ok (), r') := by
      unfold overSizes
      rw [run_bind_of_ok _ (run_guarding_eq_ok_iff.mpr hsize)]
      exact hsizes
    exact ⟨r', hrun, hstore⟩

/-- Without a table, a run succeeds if the graphs can be drawn, the files can be written and every
algorithm can start. It leaves just these files behind. -/
theorem exists_run_of_writeAll {store s : FileStore}
    {gs : List (Graph o.representation.Carrier)} (hsamples : o.samples ≠ 0)
    (hdirectory : o.directory = some directory) (htable : o.table = none)
    (hstart : ∀ a ∈ o.compared, a.CanStart o.representation.Carrier)
    (hmade : store.makeDirectories directory = .ok s)
    (hgs : drawnInTurn o.order o.sizes (Xoshiro.ofSeed o.seed) = some gs)
    (hwritten : writeAll s (filesInTurn o directory o.sizes gs) = .ok u) :
    ∃ r, Recording.run schedule o store = (.ok (), r) ∧ r.store = u := by
  obtain ⟨r, hsizes, hstore⟩ :
      ∃ r, (overSizes host o.representation.Carrier schedule o o.sizes (Xoshiro.ofSeed o.seed)
        none).run ⟨s, [], []⟩ = (.ok (), r) ∧ r.store = u :=
    exists_overSizes_of_writeAll hdirectory hstart hgs hwritten
  have hmake : (host.makeDirectories directory).run ⟨store, [], []⟩ = (.ok (), ⟨s, [], []⟩) :=
    run_makeDirectories_eq_ok_iff.mpr ⟨s, hmade, rfl⟩
  have hrun : Recording.run schedule o store = (.ok (), r) := by
    unfold Recording.run Benchmark.run
    simp only [hsamples, hdirectory, htable, if_false]
    rw [run_bind_of_ok _ hmake]
    exact hsizes
  exact ⟨r, hrun, hstore⟩

/-! ## What is kept -/

/-- After a successful run, the last graph of each size is loaded again from both its files, in any
representation: with the same order and the same neighbours of every vertex. The graphs are those
drawn in turn from the source with the seed, one for each size. Only the table may have taken the
place of a file. -/
theorem exists_loaded_of_run {store : FileStore} (hs : store.Standing)
    (horder : o.order < vertexBound) (hdirectory : o.directory = some directory)
    (hrun : Recording.run schedule o store = (.ok (), r)) :
    ∃ gs : List (Graph o.representation.Carrier),
      drawnInTurn o.order o.sizes (Xoshiro.ofSeed o.seed) = some gs ∧ gs.length = o.sizes.length ∧
      ∀ i size g, o.sizes[i]? = some size → gs[i]? = some g → size ∉ o.sizes.drop (i + 1) →
        let name := savedName directory o.order size o.seed
        (∀ table ∈ o.table, ∀ ending ∈ endings,
          r.store.filePlace table ≠ r.store.filePlace (name ++ ending)) →
        ∃ text record, r.store.openEntry (name ++ ".txt".toList) = .ok (.file text) ∧
          r.store.openEntry (name ++ ".bin".toList) = .ok (.file record) ∧
          ∀ t : Representation, ∃ h : Graph t.Carrier,
            Graph.ofEdgeList text = .ok h ∧ Graph.ofRecord record = .ok h ∧ h.order = g.order ∧
              ∀ v w, w ∈ toList (h.neighbours v) ↔ w ∈ toList (g.neighbours v) := by
  obtain ⟨gs, s, openPlace, hgs, hs', hjournal, hplace⟩ :=
    exists_journal_of_run hs hdirectory hrun
  refine ⟨gs, hgs, length_of_drawnInTurn hgs, ?_⟩
  intro i size g hsize hg hlast name htable
  have hopen : ∀ e ∈ savedFiles o directory size g, ∀ ending ∈ endings, e.1 = name ++ ending →
      r.store.openEntry e.1 = .ok (.file e.2) := by
    intro e he ending hending hname
    obtain ⟨path, last, hfile, hkept⟩ :=
      exists_openEntry_of_journal hs' hjournal hsize hg hlast e he
    apply hkept
    -- Only the table stays open, and its place is another one.
    rintro rfl
    obtain ⟨table, htable', path', last', heq, htablePlace⟩ := hplace _ rfl
    obtain ⟨rfl, rfl⟩ := by simpa using heq
    apply htable table htable' ending hending
    rw [htablePlace, ← hname, hfile]
  refine ⟨_, _, hopen _ List.mem_cons_self ".txt".toList (by decide) rfl,
    hopen _ (List.mem_cons_of_mem _ List.mem_cons_self) ".bin".toList (by decide) rfl, fun t => ?_⟩
  have hg' : g.order < vertexBound := by
    rwa [order_of_drawnInTurn hgs g (List.mem_of_getElem? hg)]
  obtain ⟨h, htext, hrecord, hsize', hrows⟩ :=
    g.exists_reloaded hg' (t.fits_of_lt_vertexBound hg')
  refine ⟨h, htext, hrecord, hsize', fun v w => ?_⟩
  rw [hrows, mem_ofList, Graph.mem_partners_edges]

def oneEdgeTwice : Options where
  order := 3
  sizes := [1, 1]
  samples := 1
  algorithms := [.naive]
  threads := []
  seed := 1
  representation := .dense
  table := none
  directory := some ['d']

/-- The run succeeds, and of the two graphs only the second is in the files. -/
theorem exists_run_oneEdgeTwice (schedule : Pool.Schedule) :
    ∃ (g g' : Graph oneEdgeTwice.representation.Carrier) (r : Recording),
      drawnInTurn 3 [1, 1] (Xoshiro.ofSeed 1) = some [g, g'] ∧ g.edges = [(2, 1)] ∧
        g'.edges = [(2, 0)] ∧
        Recording.run schedule oneEdgeTwice (FileStore.ofFiles []) = (.ok (), r) ∧
        r.store.listing =
          [(["d".toList, "random-3-1-1.txt".toList], EdgeList.encode "# order 3\n0 2\n".toList),
            (["d".toList, "random-3-1-1.bin".toList], BinaryRecord.encode 3 [(2, 0)])] := by
  have hleft :
      ((drawnInTurn 3 [1, 1] (Xoshiro.ofSeed 1) :
          Option (List (Graph oneEdgeTwice.representation.Carrier))).bind fun gs =>
        ((FileStore.ofFiles []).makeDirectories ['d']).toOption.bind fun s =>
          (writeAll s (filesInTurn oneEdgeTwice ['d'] [1, 1] gs)).toOption.map fun u =>
            (gs.map Graph.edges, u.listing)) =
        some ([[(2, 1)], [(2, 0)]],
          [(["d".toList, "random-3-1-1.txt".toList], EdgeList.encode "# order 3\n0 2\n".toList),
            (["d".toList, "random-3-1-1.bin".toList], BinaryRecord.encode 3 [(2, 0)])]) := by
    decide +kernel
  simp only [Option.bind_eq_some_iff, Option.map_eq_some_iff, toOption_eq_some_iff] at hleft
  obtain ⟨gs, hgs, s, hmade, u, hwritten, hleft⟩ := hleft
  obtain ⟨hedges, hlisting⟩ := Prod.mk.inj hleft
  obtain ⟨g, rest, rfl, hg, hrest⟩ := List.map_eq_cons_iff.mp hedges
  obtain ⟨g', rest', rfl, hg', hnil⟩ := List.map_eq_cons_iff.mp hrest
  obtain rfl := List.map_eq_nil_iff.mp hnil
  have hnaive : ∀ a ∈ oneEdgeTwice.compared, a.CanStart oneEdgeTwice.representation.Carrier := by
    intro a ha
    obtain rfl := List.mem_singleton.mp ha
    exact ⟨trivial, trivial⟩
  obtain ⟨r, hrun, rfl⟩ :
      ∃ r, Recording.run schedule oneEdgeTwice (FileStore.ofFiles []) = (.ok (), r) ∧ r.store = u :=
    exists_run_of_writeAll (by decide) rfl rfl hnaive hmade hgs hwritten
  exact ⟨g, g', r, hgs, hg, hg', hrun, hlisting⟩

theorem exists_loaded_of_run_oneEdgeTwice :
    (FileStore.ofFiles []).Standing ∧ oneEdgeTwice.order < vertexBound ∧
      ∃ r, Recording.run Pool.Schedule.first oneEdgeTwice (FileStore.ofFiles []) = (.ok (), r) ∧
        ∃ g : Graph oneEdgeTwice.representation.Carrier, g.edges = [(2, 0)] ∧
          ∃ text record,
            r.store.openEntry "d/random-3-1-1.txt".toList = .ok (.file text) ∧
            r.store.openEntry "d/random-3-1-1.bin".toList = .ok (.file record) ∧
            ∃ h : Graph (Representation.indexed.Carrier), Graph.ofEdgeList text = .ok h ∧
              Graph.ofRecord record = .ok h ∧ h.order = g.order ∧
              ∀ v w, w ∈ toList (h.neighbours v) ↔ w ∈ toList (g.neighbours v) := by
  obtain ⟨g, g', r, hgs, -, hedges, hrun, -⟩ := exists_run_oneEdgeTwice Pool.Schedule.first
  have hs := standing_ofFiles []
  have horder : oneEdgeTwice.order < vertexBound := by decide
  obtain ⟨gs, hgs', -, hloaded⟩ := exists_loaded_of_run hs horder rfl hrun
  obtain rfl := Option.some.inj (hgs.symm.trans hgs')
  obtain ⟨text, record, htext, hrecord, hgraphs⟩ :=
    hloaded 1 1 g' rfl rfl (by decide) (by simp [oneEdgeTwice])
  exact ⟨hs, horder, r, hrun, g', hedges, text, record, htext, hrecord, hgraphs .indexed⟩

/-- No file that the run leaves is loaded as the first of its graphs. -/
theorem not_loaded_of_run_oneEdgeTwice :
    ∃ (r : Recording) (g g' : Graph oneEdgeTwice.representation.Carrier),
      Recording.run Pool.Schedule.first oneEdgeTwice (FileStore.ofFiles []) = (.ok (), r) ∧
      drawnInTurn 3 [1, 1] (Xoshiro.ofSeed 1) = some [g, g'] ∧
      ∀ file ∈ r.store.listing, ∀ (t : Representation) (h : Graph t.Carrier),
        Graph.ofEdgeList file.2 = .ok h ∨ Graph.ofRecord file.2 = .ok h →
          ¬ ∀ v w, w ∈ toList (h.neighbours v) ↔ w ∈ toList (g.neighbours v) := by
  obtain ⟨g, g', r, hgs, hedges, -, hrun, hlisting⟩ :=
    exists_run_oneEdgeTwice Pool.Schedule.first
  refine ⟨r, g, g', hrun, hgs, ?_⟩
  have hmem : 1 ∈ toList (g.neighbours 2) := by
    rw [← Graph.mem_partners_edges, hedges]
    decide
  have hread : ∀ file ∈ [
      (["d".toList, "random-3-1-1.txt".toList], EdgeList.encode "# order 3\n0 2\n".toList),
      (["d".toList, "random-3-1-1.bin".toList], BinaryRecord.encode 3 [(2, 0)])],
      ∀ t ∈ [Representation.dense, Representation.indexed],
        (∀ h ∈ (Graph.ofEdgeList file.2 : Except Error (Graph t.Carrier)).toOption,
          1 ∉ toList (h.neighbours 2)) ∧
        ∀ h ∈ (Graph.ofRecord file.2 : Except Error (Graph t.Carrier)).toOption,
          1 ∉ toList (h.neighbours 2) := by
    decide +kernel
  rw [hlisting]
  intro file hfile t h hloaded hsame
  have hnot : 1 ∉ toList (h.neighbours 2) := by
    obtain ⟨hlist, hrecord⟩ := hread file hfile t (by cases t <;> decide)
    rcases hloaded with hok | hok
    · exact hlist h (toOption_eq_some_iff.mpr hok)
    · exact hrecord h (toOption_eq_some_iff.mpr hok)
  exact hnot ((hsame 2 1).mpr hmem)

end Runs

end Benchmark
end MaximalCliques
