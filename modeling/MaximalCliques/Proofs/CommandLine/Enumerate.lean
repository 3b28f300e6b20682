import Mathlib.Data.List.Permutation
import MaximalCliques.CommandLine.Enumerate
import MaximalCliques.Proofs.Clique.Catalogue
import MaximalCliques.Proofs.EdgeList.Meaning
import MaximalCliques.Proofs.Graph.Agreement
import MaximalCliques.Proofs.Numeral
import MaximalCliques.Proofs.Search.Algorithms

/-!
# How the program ends

The output of the program is the catalogue of the maximal cliques in the graph of its file, or the
number of its entries. Neither the algorithm nor the representation of vertex sets nor the turns
that workers take have a part in it: they only decide in which order the cliques are found. That holds
as far as there are arrays for what the program makes, which both its input file and its algorithm
can ask too much of.
-/

namespace MaximalCliques
namespace Enumerate

open CommandLine Pool MaximalCliques.Graph

theorem eq_of_cliqueLine_eq {c d : Clique} (hc : c ≠ []) (hd : d ≠ [])
    (h : cliqueLine c = cliqueLine d) : c = d := by
  have hblank : ∀ b : Clique, ∀ field ∈ b.map Numeral.write, ' ' ∉ field := by
    intro b field hfield hmem
    obtain ⟨v, -, rfl⟩ := List.mem_map.mp hfield
    exact absurd (Numeral.isSome_digit?_of_mem_write hmem) (by decide)
  have hsplit := congrArg (List.splitOn ' ') h
  rw [cliqueLine, cliqueLine, List.splitOn_intercalate _ (hblank c) (by simpa using hc),
    List.splitOn_intercalate _ (hblank d) (by simpa using hd)] at hsplit
  exact List.map_injective_iff.mpr Numeral.write_injective hsplit

/-- The output for the cliques of a catalogue: a line for each, or a line with their number. -/
def report (print : Bool) (cs : List Clique) : List (List Char) :=
  if print then cs.map cliqueLine else [Numeral.write cs.length]

section Describe

variable {S : Type} [VertexSet S]

theorem nodup_map_cliqueLine {g : Graph S} {cs : List Clique}
    (h : Catalogues cs g.IsMaximalClique) : (cs.map cliqueLine).Nodup := by
  have hne : ∀ c ∈ cs, c ≠ [] := by
    rintro c hc rfl
    have hcard : 2 ≤ ([] : List ℕ).toFinset.card := ((h.mem_iff_ascending []).mp hc).2.1
    simp at hcard
  have hnodup : cs.Nodup := h.sorted.imp fun hlt => ne_of_lt hlt
  exact hnodup.map_on fun c hc d hd => eq_of_cliqueLine_eq (hne c hc) (hne d hd)

variable [LawfulVertexSet S]

/-- Any algorithm describes a graph by the catalogue of its maximal cliques. -/
theorem exists_describe_eq_ok (g : Graph S) {a : Algorithm} (ha : a.CanStart S)
    (schedule : Schedule) (print : Bool) :
    ∃ cs, Catalogues cs g.IsMaximalClique ∧
      describe schedule a print g = .ok (report print cs) := by
  obtain ⟨cs, hcs, henumerates⟩ := Algorithm.exists_cliques_eq_ok g ha schedule
  refine ⟨Clique.canonical cs, henumerates.catalogues_canonical, ?_⟩
  unfold describe Algorithm.explore report
  rw [hcs]
  cases print with
  | true =>
    simp only [if_true, Except.map, Reporter.toList_recordAll_collecting, List.nil_append]
  | false =>
    simp only [Bool.false_eq_true, if_false, Except.map, Reporter.count_recordAll_counting,
      Nat.zero_add, Clique.length_canonical]

variable {T : Type} [VertexSet T] [LawfulVertexSet T]

theorem describe_eq_describe {g : Graph S} {g' : Graph T} {a a' : Algorithm} (ha : a.CanStart S)
    (ha' : a'.CanStart T) (hadj : g.adjacency = g'.adjacency) (schedule schedule' : Schedule)
    (print : Bool) : describe schedule a print g = describe schedule' a' print g' := by
  obtain ⟨cs, hcs, hdescribe⟩ := exists_describe_eq_ok g ha schedule print
  obtain ⟨cs', hcs', hdescribe'⟩ := exists_describe_eq_ok g' ha' schedule' print
  rw [hdescribe, hdescribe', (hcs.congr (isMaximalClique_congr hadj)).unique hcs']

end Describe

/-! ## Reading the input file -/

/-- The order that the contents of an input file state, if they can be decoded. -/
def statedOrder? (name : List Char) (bytes : List UInt8) : Option ℕ :=
  if isRecordName name then (BinaryRecord.decode bytes).toOption.map Prod.fst
  else (EdgeList.read bytes).toOption.map EdgeList.order

section Reading

variable {name : List Char} {bytes : List UInt8} {e : Error}

theorem readGraph_file (S : Type) [VertexSet S] [LawfulVertexSet S] (name : List Char)
    (bytes : List UInt8) :
    readGraph S name (.file bytes) =
      if ".bin".toList <:+ name then ofRecord bytes else ofEdgeList bytes := by
  simp only [readGraph, isRecordName, List.isSuffixOf_iff_suffix]

theorem fits_of_statedOrder (r : Representation)
    (horder : ∀ order ∈ statedOrder? name bytes, order < vertexBound)
    (hname : ¬ ".bin".toList <:+ name) {lines : List EdgeList.Line}
    (hread : EdgeList.read bytes = .ok lines) : Table.Fits r.Carrier (EdgeList.order lines) := by
  apply r.fits_of_lt_vertexBound
  apply horder
  rw [statedOrder?, isRecordName, if_neg (by rwa [List.isSuffixOf_iff_suffix]), hread]
  rfl

theorem alike_readGraph (r r' : Representation) {entry : Entry}
    (horder : ∀ bytes, entry = .file bytes →
      ∀ order ∈ statedOrder? name bytes, order < vertexBound) :
    Alike (readGraph r.Carrier name entry) (readGraph r'.Carrier name entry) := by
  cases entry with
  | directory entries => exact .error _
  | file bytes =>
    rw [readGraph_file, readGraph_file]
    split_ifs with hname
    · exact alike_ofRecord r.Carrier r'.Carrier bytes
    · have hbytes := horder bytes rfl
      exact alike_ofEdgeList r.Carrier r'.Carrier fun lines hread =>
        ⟨fits_of_statedOrder r hbytes hname hread, fits_of_statedOrder r' hbytes hname hread⟩

variable {S : Type} [VertexSet S] [LawfulVertexSet S]

theorem status_of_ofEdges_eq_error {order : ℕ} {edges : List Edge}
    (h : (ofEdges order edges : Except Error (Graph S)) = .error e) : e.status = 1 := by
  cases hfault : edges.findSome? (edgeFault? order) with
  | none =>
    obtain ⟨g, hg, -⟩ := exists_ofEdges (S := S) hfault
    cases hg.symm.trans h
  | some fault =>
    rw [ofEdges_of_fault hfault] at h
    cases h
    obtain ⟨edge, -, hedge⟩ := List.exists_of_findSome?_eq_some hfault
    unfold edgeFault? at hedge
    split_ifs at hedge <;> cases hedge <;> rfl

theorem eq_truncatedRecord_of_decode_eq_error (h : BinaryRecord.decode bytes = .error e) :
    e = .truncatedRecord := by
  unfold BinaryRecord.decode at h
  dsimp only at h
  split_ifs at h
  cases h
  rfl

theorem status_of_ofRecord_eq_error (h : (ofRecord bytes : Except Error (Graph S)) = .error e) :
    e.status = 1 := by
  unfold ofRecord at h
  cases hdecode : BinaryRecord.decode bytes with
  | error e' =>
    obtain rfl := eq_truncatedRecord_of_decode_eq_error hdecode
    rw [hdecode] at h
    cases h
    rfl
  | ok record =>
    rw [hdecode] at h
    exact status_of_ofEdges_eq_error h

theorem status_of_ofEdgeList_eq_error
    (hfits : ∀ lines, EdgeList.read bytes = .ok lines → Table.Fits S (EdgeList.order lines))
    (h : (ofEdgeList bytes : Except Error (Graph S)) = .error e) : e.status = 1 := by
  cases hread : EdgeList.read bytes with
  | error e' =>
    rw [EdgeList.ofEdgeList_of_read_eq_error hread] at h
    cases h
    obtain ⟨before, raw, after, lines, -, -, hraw⟩ := EdgeList.readFrom_eq_error_iff.mp hread
    rcases EdgeList.readLine_eq_error_iff.mp hraw with ⟨-, rfl⟩ | ⟨text, fault, -, -, rfl⟩ <;> rfl
  | ok lines =>
    rw [EdgeList.ofEdgeList_of_read hread, EdgeList.ofLines_of_fits (hfits lines hread)] at h
    exact status_of_ofEdges_eq_error h

theorem status_of_readGraph_eq_error (r : Representation)
    (horder : ∀ order ∈ statedOrder? name bytes, order < vertexBound)
    (h : readGraph r.Carrier name (.file bytes) = .error e) : e.status = 1 := by
  rw [readGraph_file] at h
  split_ifs at h with hname
  · exact status_of_ofRecord_eq_error h
  · exact status_of_ofEdgeList_eq_error (fun _ => fits_of_statedOrder r horder hname) h

end Reading

/-! ## Running the program -/

section Running

variable {o o' : Options} {schedule schedule' : Schedule} {input : Except FileFault Entry}
  {entry : Entry}

theorem run_ok (schedule : Schedule) (o : Options) (entry : Entry) :
    run schedule o (.ok entry) =
      readGraph o.representation.Carrier o.input entry >>=
        describe schedule o.algorithm o.print := rfl

theorem run_of_readGraph_eq_error {e : Error} (schedule : Schedule)
    (h : readGraph o.representation.Carrier o.input entry = .error e) :
    run schedule o (.ok entry) = .error e := by
  rw [run_ok, h]
  rfl

theorem run_of_readGraph_eq_ok {g : Graph o.representation.Carrier} (schedule : Schedule)
    (h : readGraph o.representation.Carrier o.input entry = .ok g) :
    run schedule o (.ok entry) = describe schedule o.algorithm o.print g := by
  rw [run_ok, h]
  rfl

theorem run_eq_run (ho : o.algorithm.CanStart o.representation.Carrier)
    (ho' : o'.algorithm.CanStart o'.representation.Carrier)
    (hinput : o.input = o'.input) (hprint : o.print = o'.print)
    (horder : ∀ bytes, input = .ok (.file bytes) →
      ∀ order ∈ statedOrder? o.input bytes, order < vertexBound) :
    run schedule o input = run schedule' o' input := by
  cases input with
  | error fault => rfl
  | ok entry =>
    have halike : Alike (readGraph o.representation.Carrier o.input entry)
        (readGraph o'.representation.Carrier o'.input entry) := by
      rw [← hinput]
      exact alike_readGraph _ _ fun bytes hbytes => horder bytes (congrArg _ hbytes)
    refine halike.bind_eq fun g g' hadj => ?_
    rw [hprint]
    exact describe_eq_describe ho ho' hadj schedule schedule' o'.print

theorem outcome_of_run_eq_error {e : Error} (h : run schedule o input = .error e) :
    outcome schedule o input = ⟨e.status, [], some e.message⟩ := by
  rw [outcome, h]
  rfl

theorem outcome_of_run_eq_report {cs : List Clique}
    (h : run schedule o input = .ok (report o.print cs)) :
    outcome schedule o input =
      ⟨0, if o.print then cs.flatMap fun c => [' '].intercalate (c.map Numeral.write) ++ ['\n']
        else Numeral.write cs.length ++ ['\n'], none⟩ := by
  rw [outcome, h, Outcome.ofLines, report]
  cases o.print with
  | true => simp only [if_true, List.flatMap_map, cliqueLine]
  | false => simp

end Running

/-- Any two algorithms that have a name, with arrays for the queues of their pools, any two
representations of vertex sets and any turns of the workers lead to the same exit status, the same
output and the same message, as long as the order that the file states has an id for every vertex. A
file whose name ends in `.bin` is read as a record, any other as an edge list. If it can be read, the
status is 0, and the output has the maximal cliques of two or more vertices, each once and in
lexicographic order on a line with its vertices in ascending order, or the number of these lines. If
not, the status is 1, and nothing is printed but the message. What the caller of a pool has received
when it returns is what the search gives under some schedule, so the schedules stand for all turns
that workers can take. -/
theorem outcome_agrees (o o' : Options) {name name' : List Char}
    (hname : Algorithm.ofName name = .ok o.algorithm)
    (hname' : Algorithm.ofName name' = .ok o'.algorithm)
    (hroom : ∀ choice threads, o.algorithm = .parallel choice threads →
      threads * (16 + 2 * VertexSet.bytes o.representation.Carrier) < 2 ^ 63)
    (hroom' : ∀ choice threads, o'.algorithm = .parallel choice threads →
      threads * (16 + 2 * VertexSet.bytes o'.representation.Carrier) < 2 ^ 63)
    (hinput : o.input = o'.input) (hprint : o.print = o'.print)
    {input : Except FileFault Entry}
    (horder : ∀ bytes, input = .ok (.file bytes) →
      ∀ order ∈ statedOrder? o.input bytes, order < vertexBound) :
    (∀ schedule schedule', outcome schedule o input = outcome schedule' o' input) ∧
    (∀ fault, input = .error fault →
      ∀ schedule, outcome schedule o input = ⟨1, [], some fault.message⟩) ∧
    (∀ bytes, input = .ok (.file bytes) →
      let loaded : Except Error (Graph o.representation.Carrier) :=
        if ".bin".toList <:+ o.input then ofRecord bytes else ofEdgeList bytes
      (∀ e, loaded = .error e →
        ∀ schedule, outcome schedule o input = ⟨1, [], some e.message⟩) ∧
      ∀ g, loaded = .ok g →
        ∃ cs, Catalogues cs g.IsMaximalClique ∧ (cs.map cliqueLine).Nodup ∧
          ∀ schedule, outcome schedule o input =
            ⟨0, if o.print then
                cs.flatMap fun c => [' '].intercalate (c.map Numeral.write) ++ ['\n']
              else Numeral.write cs.length ++ ['\n'], none⟩) ∧
    ∀ choice threads, o.algorithm = .parallel choice threads →
      ∀ (g : Graph o.representation.Carrier) s,
        Reachable (Root.search g choice) threads (.start g.roots threads) s →
        s.caller = .returned →
          ∃ schedule, g.searchParallel choice threads schedule = .ok s.received := by
  have hstart := Algorithm.canStart_of_ofName hname hroom
  have hstart' := Algorithm.canStart_of_ofName hname' hroom'
  refine ⟨fun schedule schedule' => ?_, ?_, ?_, ?_⟩
  · exact congrArg Outcome.ofLines (run_eq_run hstart hstart' hinput hprint horder)
  · rintro fault rfl schedule
    rfl
  · rintro bytes rfl loaded
    have hbytes := horder bytes rfl
    have hloaded : readGraph o.representation.Carrier o.input (.file bytes) = loaded :=
      readGraph_file _ _ _
    refine ⟨fun e he schedule => ?_, fun g hg => ?_⟩
    · rw [he] at hloaded
      rw [outcome_of_run_eq_error (run_of_readGraph_eq_error schedule hloaded),
        status_of_readGraph_eq_error _ hbytes hloaded]
    · rw [hg] at hloaded
      obtain ⟨cs, hcs, hdescribe⟩ := exists_describe_eq_ok g hstart .first o.print
      refine ⟨cs, hcs, nodup_map_cliqueLine hcs, fun schedule => outcome_of_run_eq_report ?_⟩
      have hfirst : run schedule o (.ok (.file bytes)) = run .first o (.ok (.file bytes)) :=
        run_eq_run hstart hstart rfl rfl horder
      rw [hfirst, run_of_readGraph_eq_ok .first hloaded, hdescribe]
  · intro choice threads halgorithm g s hreach hcaller
    rw [halgorithm] at hstart
    obtain ⟨schedule, hprocess⟩ := hreach.exists_process_eq_received hstart.workers hcaller
    refine ⟨schedule, ?_⟩
    rw [g.searchParallel_of_fits choice hstart.workers hstart.room, hprocess]

def twoTriangles : List UInt8 := EdgeList.encode "1 2\n0 1\n2 0\n3 1\n2 3\n".toList

/-- Two workers on dense sets print two triangles, whatever their turns, as the simplest search on
indexed sets prints them. -/
theorem outcome_agrees_twoTriangles :
    Algorithm.ofName "parallel-gp@2".toList = .ok (.parallel .amongCandidates 2) ∧
    Algorithm.ofName "naive".toList = .ok .naive ∧
    2 * (16 + 2 * VertexSet.bytes DenseSet) < 2 ^ 63 ∧
    (∀ schedule,
      outcome schedule ⟨"edges".toList, .parallel .amongCandidates 2, .dense, true⟩
          (.ok (.file twoTriangles)) = ⟨0, "0 1 2\n1 2 3\n".toList, none⟩) ∧
    ∀ schedule,
      outcome schedule ⟨"edges".toList, .parallel .amongCandidates 2, .dense, false⟩
          (.ok (.file twoTriangles)) = ⟨0, "2\n".toList, none⟩ := by
  have hparallel : Algorithm.ofName "parallel-gp@2".toList =
      .ok (.parallel .amongCandidates 2) := rfl
  have hnaive : Algorithm.ofName "naive".toList = .ok .naive := rfl
  have hroom : 2 * (16 + 2 * VertexSet.bytes DenseSet) < 2 ^ 63 := by decide
  have horder : ∀ bytes, (Except.ok (.file twoTriangles) : Except FileFault Entry) =
      .ok (.file bytes) → ∀ order ∈ statedOrder? "edges".toList bytes, order < vertexBound := by
    rintro bytes ⟨⟩ order horder
    have hstated : statedOrder? "edges".toList twoTriangles = some 4 := rfl
    obtain rfl : 4 = order := Option.some.inj (hstated.symm.trans horder)
    decide
  have hagrees : ∀ print schedule,
      outcome schedule ⟨"edges".toList, .parallel .amongCandidates 2, .dense, print⟩
          (.ok (.file twoTriangles)) =
        outcome .first ⟨"edges".toList, .naive, .indexed, print⟩ (.ok (.file twoTriangles)) := by
    intro print schedule
    have hboth := outcome_agrees ⟨"edges".toList, .parallel .amongCandidates 2, .dense, print⟩
      ⟨"edges".toList, .naive, .indexed, print⟩ hparallel hnaive
      (by rintro _ _ ⟨⟩; exact hroom) nofun rfl rfl horder
    exact hboth.1 schedule .first
  have hread : EdgeList.read twoTriangles =
      .ok [.edge 1 2, .edge 0 1, .edge 2 0, .edge 3 1, .edge 2 3, .blank] := rfl
  have hloaded : readGraph IndexedSet "edges".toList (.file twoTriangles) =
      ofLines [.edge 1 2, .edge 0 1, .edge 2 0, .edge 3 1, .edge 2 3, .blank] := by
    rw [readGraph_file, if_neg (by decide), EdgeList.ofEdgeList_of_read hread]
  have hdescribe : ∀ print,
      (ofLines [.edge 1 2, .edge 0 1, .edge 2 0, .edge 3 1, .edge 2 3, .blank] :
          Except Error (Graph IndexedSet)) >>= describe .first .naive print =
        .ok (report print [[0, 1, 2], [1, 2, 3]]) := by
    intro print
    cases print <;> cbv
  have hrun : ∀ print,
      run .first ⟨"edges".toList, .naive, .indexed, print⟩ (.ok (.file twoTriangles)) =
        .ok (report print [[0, 1, 2], [1, 2, 3]]) := by
    intro print
    calc run .first ⟨"edges".toList, .naive, .indexed, print⟩ (.ok (.file twoTriangles))
      _ = readGraph IndexedSet "edges".toList (.file twoTriangles) >>=
            describe .first .naive print := run_ok _ _ _
      _ = .ok (report print [[0, 1, 2], [1, 2, 3]]) := by rw [hloaded, hdescribe]
  refine ⟨hparallel, hnaive, hroom, fun schedule => ?_, fun schedule => ?_⟩
  · rw [hagrees, outcome_of_run_eq_report (hrun true)]
    rfl
  · rw [hagrees, outcome_of_run_eq_report (hrun false)]
    rfl

/-- More workers have a name than there are arrays for their queues. With them the program is aborted
on an edge that the simplest search finds. -/
theorem outcome_tooManyThreads :
    Algorithm.ofName "parallel-gp@1152921504606846976".toList =
      .ok (.parallel .amongCandidates 1152921504606846976) ∧
    Algorithm.ofName "naive".toList = .ok .naive ∧
    outcome .first ⟨"edges".toList, .parallel .amongCandidates 1152921504606846976, .dense, false⟩
        (.ok (.file (EdgeList.encode "0 1\n".toList))) =
      ⟨101, [], some "capacity overflow"⟩ ∧
    outcome .first ⟨"edges".toList, .naive, .dense, false⟩
        (.ok (.file (EdgeList.encode "0 1\n".toList))) =
      ⟨0, "1\n".toList, none⟩ := by
  refine ⟨rfl, rfl, ?_, ?_⟩
  · decide +kernel
  · decide +kernel

end Enumerate
end MaximalCliques
