import MaximalCliques.Benchmark.Recording
import MaximalCliques.Proofs.CommandLine.Journal

/-!
# Steps on a recording

On a recording a step of the program gives a value or fails, and leaves other files behind. A
sequence of steps gives a value when each of them does. A table under way only changes its own file.
-/

namespace MaximalCliques
namespace Benchmark
namespace Recording

abbrev Program (α : Type) := ExceptT Error (StateM Recording) α

section Steps

variable {α β : Type} {r r' : Recording}

theorem run_bind (x : Program α) (f : α → Program β) (r : Recording) :
    (x >>= f).run r =
      match x.run r with
      | (.ok a, r') => (f a).run r'
      | (.error e, r') => (.error e, r') := by
  change (match x.run r with | (c, r') => ExceptT.bindCont f c r') = _
  rcases x.run r with ⟨_ | _, _⟩ <;> rfl

theorem run_bind_of_ok {x : Program α} {a : α} (f : α → Program β) (h : x.run r = (.ok a, r')) :
    (x >>= f).run r = (f a).run r' := by
  rw [run_bind, h]

theorem run_bind_eq_ok_iff {x : Program α} {f : α → Program β} {b : β} :
    (x >>= f).run r = (.ok b, r') ↔
      ∃ a r₁, x.run r = (.ok a, r₁) ∧ (f a).run r₁ = (.ok b, r') := by
  constructor
  · intro h
    rw [run_bind] at h
    rcases hx : x.run r with ⟨e | a, r₁⟩
    · rw [hx] at h
      cases h
    · rw [hx] at h
      exact ⟨a, r₁, rfl, h⟩
  · rintro ⟨a, r₁, hx, hf⟩
    rw [run_bind_of_ok f hx, hf]

theorem discard_eq_ok {x : Program α} (h : (discard x).run r = (.ok (), r')) :
    ∃ a, x.run r = (.ok a, r') := by
  have hbind : discard x = x >>= fun _ => pure () := rfl
  rw [hbind] at h
  obtain ⟨a, r₁, hx, hpure⟩ := run_bind_eq_ok_iff.mp h
  cases hpure
  exact ⟨a, hx⟩

theorem run_guarding_eq_ok_iff {table : Option (Table OpenFile)} {x : Program α} {a : α} :
    (Table.guarding host table x).run r = (.ok a, r') ↔ x.run r = (.ok a, r') := by
  have hbind (f : Except Error α → StateM Recording (Except Error α)) :
      (x.run >>= f) r = f (x.run r).1 (x.run r).2 := rfl
  rw [Table.guarding, ExceptT.run_mk, hbind]
  rcases x.run r with ⟨e | b, r₁⟩
  · constructor
    · intro h
      cases h
    · intro h
      cases h
  · exact Iff.rfl

end Steps

/-! ## Files -/

section Files

variable {α : Type} {r r' : Recording} {name : List Char} {bytes : List UInt8}

theorem run_onStore_eq_ok_iff (change : FileStore → Except FileFault (FileStore × α)) {a : α} :
    (onStore change).run r = (.ok a, r') ↔
      ∃ s, change r.store = .ok (s, a) ∧ r' = { r with store := s } := by
  unfold onStore
  dsimp only [ExceptT.run_mk]
  constructor
  · intro h
    split at h
    · rename_i s a' hchange
      cases h
      exact ⟨s, hchange, rfl⟩
    · cases h
  · rintro ⟨s, hchange, rfl⟩
    rw [hchange]

theorem run_onStore_map_eq_ok_iff (change : FileStore → Except FileFault FileStore) :
    (onStore fun s => (change s).map (·, ())).run r = (.ok (), r') ↔
      ∃ s, change r.store = .ok s ∧ r' = { r with store := s } := by
  rw [run_onStore_eq_ok_iff]
  cases change r.store with
  | error fault => simp [Except.map]
  | ok s => simp [Except.map]

theorem run_makeDirectories_eq_ok_iff :
    (host.makeDirectories name).run r = (.ok (), r') ↔
      ∃ s, r.store.makeDirectories name = .ok s ∧ r' = { r with store := s } :=
  run_onStore_map_eq_ok_iff (·.makeDirectories name)

theorem run_write_eq_ok_iff :
    (host.write name bytes).run r = (.ok (), r') ↔
      ∃ s, r.store.write name bytes = .ok s ∧ r' = { r with store := s } :=
  run_onStore_map_eq_ok_iff (·.write name bytes)

theorem run_create_eq_ok_iff {file : OpenFile} :
    (host.create name).run r = (.ok file, r') ↔
      ∃ s, r.store.create name = .ok (s, file) ∧ r' = { r with store := s } :=
  run_onStore_eq_ok_iff (·.create name)

theorem spares_of_writeTo {file file' : OpenFile}
    (h : (host.writeTo file bytes).run r = (.ok file', r')) :
    file'.path = file.path ∧ r.store.Spares {file.path}ᶜ r'.store := by
  cases h
  exact ⟨FileStore.path_writeTo _ _ _, FileStore.spares_writeTo _ _ _⟩

end Files

/-! ## Tables -/

section Tables

variable {r r' : Recording} {t t' : Table OpenFile} {table table' : Option (Table OpenFile)}
variable {line : List Char}

def tablePlace? (table : Option (Table OpenFile)) : Option Path := table.map (·.file.path)

theorem spares_of_add (h : (t.add host line).run r = (.ok t', r')) :
    t'.file.path = t.file.path ∧ r.store.Spares {t.file.path}ᶜ r'.store := by
  obtain ⟨file, r₁, hwrite, hpure⟩ := run_bind_eq_ok_iff.mp h
  cases hpure
  exact spares_of_writeTo hwrite

theorem spares_of_flush (h : (t.flush host).run r = (.ok t', r')) :
    t'.file.path = t.file.path ∧ r.store.Spares {t.file.path}ᶜ r'.store := by
  obtain ⟨file, r₁, hwrite, hpure⟩ := run_bind_eq_ok_iff.mp h
  cases hpure
  exact spares_of_writeTo hwrite

theorem spares_of_add_flush (h : (t.add host line >>= fun t => t.flush host).run r = (.ok t', r')) :
    t'.file.path = t.file.path ∧ r.store.Spares {t.file.path}ᶜ r'.store := by
  obtain ⟨t₁, r₁, hadd, hflush⟩ := run_bind_eq_ok_iff.mp h
  obtain ⟨hpath, hspares⟩ := spares_of_add hadd
  obtain ⟨hpath', hspares'⟩ := spares_of_flush hflush
  rw [hpath] at hpath' hspares'
  exact ⟨hpath', hspares.trans hspares'⟩

/-- If there is a table, what is done with it changes its file at most. -/
theorem spares_of_mapM {action : Table OpenFile → Program (Table OpenFile)}
    (haction : ∀ {t t' : Table OpenFile} {r r' : Recording}, (action t).run r = (.ok t', r') →
      t'.file.path = t.file.path ∧ r.store.Spares {t.file.path}ᶜ r'.store)
    (h : (table.mapM action).run r = (.ok table', r')) :
    tablePlace? table' = tablePlace? table ∧
      r.store.Spares {place | tablePlace? table ≠ some place} r'.store := by
  cases table with
  | none =>
    cases h
    exact ⟨rfl, .refl _ _⟩
  | some t =>
    obtain ⟨t', r₁, ht, hpure⟩ := run_bind_eq_ok_iff.mp h
    cases hpure
    obtain ⟨hpath, hspares⟩ := haction ht
    refine ⟨congrArg some hpath, hspares.mono fun place hne => ?_⟩
    rintro rfl
    exact hne rfl

theorem filePlace_of_start {names : Option (List Char)} (hs : r.store.Standing)
    (h : (names.mapM fun name => do (← Table.create host name).add host line).run r =
      (.ok table, r')) :
    r'.store.Standing ∧ ∀ place, tablePlace? table = some place →
      ∃ name ∈ names, ∃ path last, place = path ++ [last] ∧
        ∀ u, r'.store.Spares ∅ u → u.filePlace name = .ok (path, last) := by
  cases names with
  | none =>
    cases h
    exact ⟨hs, by simp [tablePlace?]⟩
  | some name =>
    obtain ⟨t, r₂, hstart, hpure⟩ := run_bind_eq_ok_iff.mp h
    cases hpure
    obtain ⟨t₁, r₁, hcreate, hadd⟩ := run_bind_eq_ok_iff.mp hstart
    obtain ⟨file, r₁', hfile, hpure⟩ := run_bind_eq_ok_iff.mp hcreate
    cases hpure
    obtain ⟨s, hs₁, rfl⟩ := run_create_eq_ok_iff.mp hfile
    obtain ⟨path, last, hplace, rfl, rfl⟩ := FileStore.create_eq_ok_iff.mp hs₁
    obtain ⟨hpath, hadded⟩ := spares_of_add hadd
    have hempty := FileStore.get?_put_file hs hplace []
    have hput := (FileStore.spares_put_file hplace []).mono (Set.empty_subset _)
    have hline := hadded.mono (Set.empty_subset _)
    refine ⟨(hput.trans hline).standing hs, fun place hopen => ?_⟩
    refine ⟨name, rfl, path, last, (Option.some.inj hopen).symm.trans hpath, fun u hu => ?_⟩
    have hlater := hline.trans hu
    exact (hput.trans hlater).filePlace_eq hplace (hlater.not_isDirectory hempty)

end Tables

end Recording
end Benchmark
end MaximalCliques
