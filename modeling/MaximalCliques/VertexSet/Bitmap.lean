import MaximalCliques.VertexSet
import MaximalCliques.VertexSet.Chunk

/-!
# Bitmaps

A bitmap holds one bit for every vertex up to the highest member, in chunks of 64, and stores its
size. In a well-formed bitmap the last chunk is not zero, so two well-formed bitmaps with the same
members are equal, whatever happened to them before.
-/

namespace MaximalCliques

open VertexSet

/-- Chunks of membership bits, lowest vertices first, and the number of members. -/
structure Bitmap where
  chunks : List Chunk
  size : Nat
  deriving DecidableEq, Repr

namespace Bitmap

def testIn (cs : List Chunk) (v : Nat) : Bool := (cs.getD (v / 64) 0).test (v % 64)

/-- The vertices whose bits are set, if the first chunk is the one with index `i`. -/
def verticesFrom : Nat → List Chunk → List Nat
  | _, [] => []
  | i, c :: cs => c.places.map (64 * i + ·) ++ verticesFrom (i + 1) cs

/-- Drop the zero chunks at the end. -/
def trim : List Chunk → List Chunk
  | [] => []
  | c :: cs =>
    match trim cs with
    | [] => if c = 0 then [] else [c]
    | d :: ds => c :: d :: ds

def pad (n : Nat) (cs : List Chunk) : List Chunk := cs ++ List.replicate (n - cs.length) 0

def setBit (cs : List Chunk) (v : Nat) : List Chunk :=
  (pad (v / 64 + 1) cs).modify (v / 64) (· ||| Chunk.single (v % 64))

def clearBit (cs : List Chunk) (v : Nat) : List Chunk :=
  cs.modify (v / 64) (· &&& ~~~Chunk.single (v % 64))

/-- Chunk by chunk, the bits of the first list that are not in the second. -/
def without : List Chunk → List Chunk → List Chunk
  | [], _ => []
  | cs, [] => cs
  | c :: cs, d :: ds => (c &&& ~~~d) :: without cs ds

/-- Count the bits and drop the zero chunks at the end. -/
def ofChunks (cs : List Chunk) : Bitmap := ⟨trim cs, total (cs.map Chunk.count)⟩

def empty : Bitmap := ⟨[], 0⟩

def toList (b : Bitmap) : List Nat := verticesFrom 0 b.chunks

def contains (b : Bitmap) (v : Nat) : Bool := testIn b.chunks v

def insert (b : Bitmap) (v : Nat) : Change Bitmap :=
  if b.contains v then ⟨b, false⟩ else ⟨⟨setBit b.chunks v, b.size + 1⟩, true⟩

def remove (b : Bitmap) (v : Nat) : Change Bitmap :=
  if b.contains v then ⟨⟨trim (clearBit b.chunks v), b.size - 1⟩, true⟩ else ⟨b, false⟩

def pop (b : Bitmap) : Except Error (Nat × Bitmap) :=
  match b.chunks.getLast? with
  | none => .error .emptySet
  | some c =>
    let v := 64 * (b.chunks.length - 1) + c.highest
    .ok (v, ⟨trim (clearBit b.chunks v), b.size - 1⟩)

def intersection (a b : Bitmap) : Bitmap := ofChunks (List.zipWith (· &&& ·) a.chunks b.chunks)

def difference (a b : Bitmap) : Bitmap := ofChunks (without a.chunks b.chunks)

def intersectionSize (a b : Bitmap) : Nat :=
  total ((List.zipWith (· &&& ·) a.chunks b.chunks).map Chunk.count)

def isDisjoint (a b : Bitmap) : Bool :=
  (List.zipWith (· &&& ·) a.chunks b.chunks).all (· == 0)

/-- The last chunk is not zero and the stored size is the number of bits set. -/
structure WellFormed (b : Bitmap) : Prop where
  last_ne_zero : b.chunks.getLast? ≠ some 0
  size_eq : b.size = total (b.chunks.map Chunk.count)

/-! ## Bits of a list of chunks -/

theorem testIn_def (cs : List Chunk) (v : Nat) :
    testIn cs v = (cs[v / 64]?.getD 0).test (v % 64) := by
  simp [testIn, List.getD_eq_getElem?_getD]

@[simp] theorem testIn_nil (v : Nat) : testIn [] v = false := by simp [testIn_def]

theorem testIn_append_replicate (cs : List Chunk) (n : Nat) (v : Nat) :
    testIn (cs ++ List.replicate n 0) v = testIn cs v := by
  simp only [testIn_def, List.getElem?_append, List.getElem?_replicate]
  split
  · rfl
  · rename_i h
    rw [List.getElem?_eq_none (Nat.le_of_not_lt h)]
    split <;> simp

theorem testIn_setBit (cs : List Chunk) (v w : Nat) :
    testIn (setBit cs v) w = (decide (w = v) || testIn cs w) := by
  rw [← testIn_append_replicate cs (v / 64 + 1 - cs.length) w]
  simp only [testIn_def, setBit, pad, List.getElem?_modify]
  by_cases h : v / 64 = w / 64
  · have hlt : w / 64 < (cs ++ List.replicate (v / 64 + 1 - cs.length) 0).length := by simp; omega
    simp only [h] at hlt ⊢
    simp only [List.getElem?_eq_getElem hlt, Option.map_eq_map, Option.map_some, Option.getD_some,
      if_true, Chunk.test_or, Chunk.test_single]
    have : (decide (v % 64 < 64) && decide (v % 64 = w % 64)) = decide (w = v) := by
      have := Nat.mod_lt v (show 0 < 64 by decide)
      simp only [this, decide_true, Bool.true_and]
      congr 1
      exact propext ⟨fun hm => by omega, fun hw => by rw [hw]⟩
    rw [this, Bool.or_comm]
  · have : w ≠ v := fun hw => h (by rw [hw])
    simp [h, this]

theorem testIn_clearBit (cs : List Chunk) (v w : Nat) :
    testIn (clearBit cs v) w = (decide (w ≠ v) && testIn cs w) := by
  simp only [testIn_def, clearBit, List.getElem?_modify]
  by_cases h : v / 64 = w / 64
  · rw [h]
    cases hc : cs[w / 64]? with
    | none => simp
    | some c =>
      have hw := Nat.mod_lt w (show 0 < 64 by decide)
      have hv := Nat.mod_lt v (show 0 < 64 by decide)
      have : decide (v % 64 = w % 64) = decide (w = v) := by
        congr 1
        exact propext ⟨fun hm => by omega, fun hw => by rw [hw]⟩
      simp [Chunk.test_and, Chunk.test_not, Chunk.test_single, hw, hv, this, Bool.and_comm]
  · have : w ≠ v := fun hw => h (by rw [hw])
    simp [h, this]

theorem testIn_cons (c : Chunk) (cs : List Chunk) (v : Nat) :
    testIn (c :: cs) v = if v < 64 then c.test v else testIn cs (v - 64) := by
  by_cases h : v < 64
  · simp [testIn_def, h, Nat.div_eq_of_lt h, Nat.mod_eq_of_lt h]
  · have hd : v / 64 = (v - 64) / 64 + 1 := by omega
    have hm : v % 64 = (v - 64) % 64 := by omega
    simp [testIn_def, h, hd, hm]

theorem testIn_trim (cs : List Chunk) (v : Nat) : testIn (trim cs) v = testIn cs v := by
  induction cs generalizing v with
  | nil => rfl
  | cons c cs ih =>
    rw [trim]
    split
    · rename_i h
      have hz : ∀ w, testIn cs w = false := fun w => by rw [← ih w, h, testIn_nil]
      split
      · rename_i hc
        simp [testIn_cons, hz, hc]
      · simp [testIn_cons, hz]
    · rename_i d ds h
      rw [← h, testIn_cons, testIn_cons, ih]

theorem getLast?_trim (cs : List Chunk) : (trim cs).getLast? ≠ some 0 := by
  induction cs with
  | nil => simp [trim]
  | cons c cs ih =>
    rw [trim]
    split
    · split
      · simp
      · simpa using ‹c ≠ 0›
    · rename_i d ds h
      rw [h] at ih
      simpa [List.getLast?_cons] using ih

theorem testIn_zipWith_and (cs ds : List Chunk) (v : Nat) :
    testIn (List.zipWith (· &&& ·) cs ds) v = (testIn cs v && testIn ds v) := by
  simp only [testIn_def, List.getElem?_zipWith]
  cases cs[v / 64]? <;> cases ds[v / 64]? <;> simp [Chunk.test_and]

theorem testIn_without (cs ds : List Chunk) (v : Nat) :
    testIn (without cs ds) v = (testIn cs v && !testIn ds v) := by
  fun_induction without cs ds generalizing v with
  | case1 => simp
  | case2 => simp
  | case3 c cs d ds ih =>
    simp only [testIn_cons, ih]
    by_cases h : v < 64 <;> simp [h, Chunk.test_and, Chunk.test_not]

/-! ## The vertices of a list of chunks -/

theorem mem_verticesFrom (i : Nat) (cs : List Chunk) (v : Nat) :
    v ∈ verticesFrom i cs ↔ 64 * i ≤ v ∧ testIn cs (v - 64 * i) = true := by
  induction cs generalizing i with
  | nil => simp [verticesFrom]
  | cons c cs ih =>
    simp only [verticesFrom, List.mem_append, List.mem_map, Chunk.mem_places, ih, testIn_cons]
    constructor
    · rintro (⟨k, hk, rfl⟩ | ⟨hle, ht⟩)
      · simp [Chunk.lt_of_test hk, hk]
      · refine ⟨by omega, ?_⟩
        rw [if_neg (by omega)]
        rwa [show v - 64 * i - 64 = v - 64 * (i + 1) by omega]
    · rintro ⟨hle, ht⟩
      split at ht
      · exact .inl ⟨v - 64 * i, ht, by omega⟩
      · refine .inr ⟨by omega, ?_⟩
        rwa [show v - 64 * (i + 1) = v - 64 * i - 64 by omega]

theorem pairwise_verticesFrom (i : Nat) (cs : List Chunk) :
    (verticesFrom i cs).Pairwise (· < ·) := by
  induction cs generalizing i with
  | nil => simp [verticesFrom]
  | cons c cs ih =>
    refine List.pairwise_append.2 ⟨?_, ih _, ?_⟩
    · exact List.pairwise_map.2 (c.pairwise_places.imp (by intro a b h; omega))
    · intro v hv w hw
      obtain ⟨k, hk, rfl⟩ := List.mem_map.1 hv
      have hlt := Chunk.lt_of_test ((Chunk.mem_places c k).1 hk)
      have := ((mem_verticesFrom _ _ _).1 hw).1
      omega

theorem length_verticesFrom (i : Nat) (cs : List Chunk) :
    (verticesFrom i cs).length = total (cs.map Chunk.count) := by
  induction cs generalizing i with
  | nil => rfl
  | cons c cs ih => simp [verticesFrom, ih, Chunk.length_places, total]

theorem mem_toList (b : Bitmap) (v : Nat) : v ∈ b.toList ↔ b.contains v = true := by
  simp [toList, mem_verticesFrom, contains]

theorem pairwise_toList (b : Bitmap) : b.toList.Pairwise (· < ·) := pairwise_verticesFrom 0 b.chunks

theorem nodup_toList (b : Bitmap) : b.toList.Nodup :=
  b.pairwise_toList.imp (by intro v w h; exact Nat.ne_of_lt h)

theorem length_toList (b : Bitmap) : b.toList.length = total (b.chunks.map Chunk.count) :=
  length_verticesFrom 0 b.chunks

theorem WellFormed.size_eq_length {b : Bitmap} (h : b.WellFormed) : b.size = b.toList.length := by
  rw [h.size_eq, length_toList]

/-! ## What the operations do to the members -/

theorem contains_insert (b : Bitmap) (v w : Nat) :
    (b.insert v).set.contains w = (decide (w = v) || b.contains w) := by
  rw [insert]
  split
  · rename_i h
    by_cases hw : w = v
    · simp [hw, h]
    · simp [hw]
  · exact testIn_setBit _ _ _

theorem contains_remove (b : Bitmap) (v w : Nat) :
    (b.remove v).set.contains w = (decide (w ≠ v) && b.contains w) := by
  rw [remove]
  split
  · simp only [contains, testIn_trim, testIn_clearBit]
  · rename_i h
    by_cases hw : w = v
    · simpa [hw] using h
    · simp [hw]

theorem contains_intersection (a b : Bitmap) (v : Nat) :
    (a.intersection b).contains v = (a.contains v && b.contains v) := by
  simp [intersection, ofChunks, contains, testIn_trim, testIn_zipWith_and]

theorem contains_difference (a b : Bitmap) (v : Nat) :
    (a.difference b).contains v = (a.contains v && !b.contains v) := by
  simp [difference, ofChunks, contains, testIn_trim, testIn_without]

theorem insert_changed (b : Bitmap) (v : Nat) : (b.insert v).changed = !b.contains v := by
  rw [insert]; split <;> simp_all

theorem remove_changed (b : Bitmap) (v : Nat) : (b.remove v).changed = b.contains v := by
  rw [remove]; split <;> simp_all

/-! ## Well-formedness is kept -/

theorem wellFormed_empty : empty.WellFormed := ⟨by simp [empty], rfl⟩

theorem total_count_trim (cs : List Chunk) :
    total ((trim cs).map Chunk.count) = total (cs.map Chunk.count) := by
  rw [← length_verticesFrom 0, ← length_verticesFrom 0]
  refine ((List.perm_ext_iff_of_nodup ?_ ?_).2 fun v => ?_).length_eq
  · exact (pairwise_verticesFrom _ _).imp (by intro v w h; exact Nat.ne_of_lt h)
  · exact (pairwise_verticesFrom _ _).imp (by intro v w h; exact Nat.ne_of_lt h)
  · simp [mem_verticesFrom, testIn_trim]

theorem wellFormed_ofChunks (cs : List Chunk) : (ofChunks cs).WellFormed :=
  ⟨getLast?_trim cs, (total_count_trim cs).symm⟩

theorem length_toList_of_insert {b c : Bitmap} {v : Nat} (h : b.contains v = false)
    (hc : ∀ w, c.contains w = (decide (w = v) || b.contains w)) :
    c.toList.length = b.toList.length + 1 := by
  have hp : c.toList.Perm (v :: b.toList) := by
    refine (List.perm_ext_iff_of_nodup c.nodup_toList ?_).2 fun w => ?_
    · exact List.nodup_cons.2 ⟨by simp [mem_toList, h], b.nodup_toList⟩
    · simp [mem_toList, hc]
  simpa using hp.length_eq

theorem length_toList_of_remove {b c : Bitmap} {v : Nat} (h : b.contains v = true)
    (hc : ∀ w, c.contains w = (decide (w ≠ v) && b.contains w)) :
    c.toList.length = b.toList.length - 1 := by
  have hp : b.toList.Perm (v :: c.toList) := by
    refine (List.perm_ext_iff_of_nodup b.nodup_toList ?_).2 fun w => ?_
    · exact List.nodup_cons.2 ⟨by simp [mem_toList, hc], c.nodup_toList⟩
    · by_cases hw : w = v <;> simp [mem_toList, hc, hw, h]
  simp [hp.length_eq]

theorem getLast?_modify_or {cs : List Chunk} (h : cs.getLast? ≠ some 0) (i : Nat) (d : Chunk) :
    (cs.modify i (· ||| d)).getLast? ≠ some 0 := by
  rw [List.getLast?_eq_getElem?, List.length_modify, List.getElem?_modify]
  rw [List.getLast?_eq_getElem?] at h
  cases hc : cs[cs.length - 1]? with
  | none => simp
  | some c =>
    rw [hc] at h
    split
    · simp only [Option.map_eq_map, Option.map_some, ne_eq, Option.some.injEq]
      intro h0
      apply h
      congr 1
      refine (Chunk.eq_zero_iff c).2 fun j hj => ?_
      have := (Chunk.eq_zero_iff _).1 h0 j hj
      rw [Chunk.test_or, Bool.or_eq_false_iff] at this
      exact this.1
    · simpa using h

theorem getLast?_setBit {cs : List Chunk} (h : cs.getLast? ≠ some 0) (v : Nat) :
    (setBit cs v).getLast? ≠ some 0 := by
  by_cases hlt : v / 64 < cs.length
  · have : pad (v / 64 + 1) cs = cs := by simp [pad, show v / 64 + 1 - cs.length = 0 by omega]
    rw [setBit, this]
    exact getLast?_modify_or h _ _
  · rw [setBit, List.getLast?_eq_getElem?, List.length_modify, List.getElem?_modify]
    have hl : (pad (v / 64 + 1) cs).length - 1 = v / 64 := by simp [pad]; omega
    have hg : (pad (v / 64 + 1) cs)[v / 64]? = some 0 := by
      rw [pad, List.getElem?_append_right (Nat.le_of_not_lt hlt)]
      exact List.getElem?_replicate_of_lt (by omega)
    rw [hl, hg]
    simp only [Option.map_eq_map, Option.map_some, if_true, ne_eq, Option.some.injEq]
    intro h0
    have := (Chunk.eq_zero_iff _).1 h0 (v % 64) (Nat.mod_lt _ (by decide))
    rw [Chunk.test_or, Chunk.test_single] at this
    simp [Nat.mod_lt] at this

theorem WellFormed.insert {b : Bitmap} (h : b.WellFormed) (v : Nat) :
    (b.insert v).set.WellFormed := by
  have hc := contains_insert b v
  by_cases hv : b.contains v = true
  · simpa [Bitmap.insert, hv] using h
  · simp only [Bitmap.insert, if_neg hv] at hc ⊢
    refine ⟨getLast?_setBit h.last_ne_zero v, ?_⟩
    have := length_toList_of_insert (by simpa using hv) hc
    rw [← length_toList, this, h.size_eq_length]

theorem WellFormed.remove {b : Bitmap} (h : b.WellFormed) (v : Nat) :
    (b.remove v).set.WellFormed := by
  have hc := contains_remove b v
  by_cases hv : b.contains v = true
  · simp only [Bitmap.remove, if_pos hv] at hc ⊢
    refine ⟨getLast?_trim _, ?_⟩
    have := length_toList_of_remove hv hc
    rw [← length_toList, this, h.size_eq_length]
  · simpa [Bitmap.remove, hv] using h

theorem wellFormed_intersection (a b : Bitmap) : (a.intersection b).WellFormed :=
  wellFormed_ofChunks _

theorem wellFormed_difference (a b : Bitmap) : (a.difference b).WellFormed :=
  wellFormed_ofChunks _

theorem isDisjoint_iff (a b : Bitmap) :
    a.isDisjoint b = true ↔ ∀ v ∈ a.toList, v ∉ b.toList := by
  have hz : ∀ cs : List Chunk, cs.all (· == 0) = true ↔ ∀ v, testIn cs v = false := by
    intro cs
    induction cs with
    | nil => simp
    | cons c cs ih =>
      simp only [List.all_cons, Bool.and_eq_true, ih, beq_iff_eq, testIn_cons, Chunk.eq_zero_iff]
      constructor
      · rintro ⟨h1, h2⟩ v
        split
        · exact h1 v ‹_›
        · exact h2 _
      · intro h
        refine ⟨fun i hi => by simpa [hi] using h i, fun v => ?_⟩
        have := h (v + 64)
        rwa [if_neg (by omega), Nat.add_sub_cancel] at this
  rw [isDisjoint, hz]
  simp [testIn_zipWith_and, mem_toList, contains]

/-! ## The highest vertex -/

theorem pop_nil {b : Bitmap} (h : b.chunks = []) : b.pop = .error .emptySet := by simp [pop, h]

theorem contains_highest {b : Bitmap} {c : Chunk} (hg : b.chunks.getLast? = some c) (hc : c ≠ 0) :
    b.contains (64 * (b.chunks.length - 1) + c.highest) = true := by
  have hlt := Chunk.highest_lt hc
  rw [contains, testIn_def, show (64 * (b.chunks.length - 1) + c.highest) / 64 =
    b.chunks.length - 1 by omega, ← List.getLast?_eq_getElem?, hg,
    show (64 * (b.chunks.length - 1) + c.highest) % 64 = c.highest by omega]
  exact Chunk.test_highest hc

theorem WellFormed.chunks_eq_nil_iff {b : Bitmap} (h : b.WellFormed) :
    b.chunks = [] ↔ b.toList = [] := by
  constructor
  · intro hc; simp [toList, hc, verticesFrom]
  · intro hl
    cases hg : b.chunks.getLast? with
    | none => simpa using hg
    | some c =>
      have hc : c ≠ 0 := fun h0 => h.last_ne_zero (by rw [hg, h0])
      have := (mem_toList _ _).2 (contains_highest hg hc)
      rw [hl] at this
      cases this

theorem WellFormed.pop_of_nonempty {b : Bitmap} (h : b.WellFormed) (hne : b.toList ≠ []) :
    ∃ v c, b.pop = .ok (v, c) ∧ c.WellFormed ∧ v ∈ b.toList ∧ (∀ w ∈ b.toList, w ≤ v) ∧
      ∀ w, w ∈ c.toList ↔ w ∈ b.toList ∧ w ≠ v := by
  cases hg : b.chunks.getLast? with
  | none =>
    rw [List.getLast?_eq_none_iff, h.chunks_eq_nil_iff] at hg
    exact absurd hg hne
  | some c =>
    have hc : c ≠ 0 := fun h0 => h.last_ne_zero (by rw [hg, h0])
    have hcn := contains_highest hg hc
    refine ⟨_, _, by rw [pop, hg], ⟨getLast?_trim _, ?_⟩, (mem_toList _ _).2 hcn, ?_, ?_⟩
    · have := @length_toList_of_remove b
        ⟨trim (clearBit b.chunks (64 * (b.chunks.length - 1) + c.highest)), b.size - 1⟩ _ hcn
        (fun w => by simp only [contains, testIn_trim, testIn_clearBit])
      rw [← length_toList, this, h.size_eq_length]
    · intro w hw
      rw [mem_toList, contains, testIn_def] at hw
      rcases Nat.lt_trichotomy (w / 64) (b.chunks.length - 1) with hl | he | hgt
      · omega
      · rw [he, ← List.getLast?_eq_getElem?, hg, Option.getD_some] at hw
        have := Chunk.le_highest hw
        omega
      · rw [List.getElem?_eq_none (by omega)] at hw
        simp at hw
    · intro w
      simp only [mem_toList, contains, testIn_trim, testIn_clearBit]
      simp [and_comm]

theorem WellFormed.pop {b c : Bitmap} {v : Nat} (h : b.WellFormed) (hp : b.pop = .ok (v, c)) :
    c.WellFormed := by
  by_cases hl : b.toList = []
  · rw [pop_nil (h.chunks_eq_nil_iff.2 hl)] at hp
    cases hp
  · obtain ⟨w, d, hd, hwf, -⟩ := h.pop_of_nonempty hl
    rw [hp] at hd
    cases hd
    exact hwf

/-! ## Equality -/

theorem length_chunks_le {a b : Bitmap} (ha : a.WellFormed)
    (h : ∀ v, v ∈ a.toList ↔ v ∈ b.toList) : a.chunks.length ≤ b.chunks.length := by
  rcases Nat.lt_or_ge b.chunks.length a.chunks.length with hlt | hge
  · cases hg : a.chunks.getLast? with
    | none =>
      rw [List.getLast?_eq_none_iff] at hg
      simp [hg] at hlt
    | some c =>
      have hc : c ≠ 0 := fun h0 => ha.last_ne_zero (by rw [hg, h0])
      have hm := (h _).1 ((mem_toList _ _).2 (contains_highest hg hc))
      rw [mem_toList, contains, testIn_def, List.getElem?_eq_none (by omega)] at hm
      simp at hm
  · exact hge

theorem WellFormed.eq_iff {a b : Bitmap} (ha : a.WellFormed) (hb : b.WellFormed) :
    a = b ↔ ∀ v, v ∈ a.toList ↔ v ∈ b.toList := by
  refine ⟨fun h v => by rw [h], fun h => ?_⟩
  have hl : a.chunks.length = b.chunks.length :=
    Nat.le_antisymm (length_chunks_le ha h) (length_chunks_le hb fun v => (h v).symm)
  have hc : a.chunks = b.chunks := by
    refine List.ext_getElem hl fun i hi hj => Chunk.ext fun k hk => ?_
    have := h (64 * i + k)
    rw [mem_toList, mem_toList, contains, contains, ← Bool.eq_iff_iff, testIn_def, testIn_def,
      show (64 * i + k) / 64 = i by omega, show (64 * i + k) % 64 = k by omega,
      List.getElem?_eq_getElem hi, List.getElem?_eq_getElem hj] at this
    simpa using this
  cases a; cases b
  simp only at hc
  subst hc
  have h1 := ha.size_eq
  have h2 := hb.size_eq
  simp only at h1 h2
  rw [h1, h2]

end Bitmap
end MaximalCliques
