import Graphite.CompactionVersions

/-! The output of one merge as a partition of the keys of its input: sorted, in tables that
are not empty and not larger than a chunk, with nothing else moved. -/

namespace Graphite
open KeyedRows

/-- No chunk is empty or too long. -/
theorem length_of_mem_chunks {α : Type} {size : Nat} (hsize : 0 < size) {xs chunk : List α}
    (h : chunk ∈ chunks size xs) : chunk ≠ [] ∧ chunk.length ≤ size := by
  obtain ⟨i, hi, rfl⟩ := List.mem_map.mp h
  have hstart : i * size < xs.length := by
    have hlt := (Nat.lt_div_iff_mul_lt hsize).mp (List.mem_range.mp hi)
    omega
  refine ⟨List.ne_nil_of_length_pos ?_, List.length_take_le _ _⟩
  rw [List.length_take, List.length_drop]
  omega

/-- A merge keeps every key. -/
theorem mem_keys_mergeRows {α κ : Type} [LinearOrder κ] (key : α → κ) (rows : List α) (k : κ) :
    k ∈ (mergeRows key rows).map key ↔ k ∈ rows.map key := by
  have hkey (xs : List α) : k ∈ xs.map key ↔ firstAt key xs k ≠ none := by
    rw [Ne, firstAt_eq_none_iff, List.mem_map]
    push Not
    exact Iff.rfl
  rw [hkey, hkey, firstAt_mergeRows]

namespace CompactionManager

/-- The tables a merge adds. -/
structure Partition (rows : List Tick) (added : List Table) : Prop where
  filled : ∀ t ∈ added, t.rows ≠ [] ∧ t.rows.length ≤ 10000
  increasing : Increasing Tick.key (added.flatMap Table.rows)
  keys : ∀ key, key ∈ (added.flatMap Table.rows).map Tick.key ↔ key ∈ rows.map Tick.key

theorem partition_of_chunks {rows : List Tick} {added : List Table}
    (h : added.map Table.rows = chunks CHUNK_SIZE (mergeRows Tick.key rows)) :
    Partition rows added := by
  have hflat : added.flatMap Table.rows = mergeRows Tick.key rows := by
    rw [List.flatMap_def, h, flatten_chunks (by decide)]
  constructor
  · intro t ht
    have hmem : t.rows ∈ chunks CHUNK_SIZE (mergeRows Tick.key rows) :=
      h ▸ List.mem_map_of_mem ht
    exact length_of_mem_chunks (show 0 < CHUNK_SIZE by decide) hmem
  · rw [hflat]
    exact increasing_mergeRows Tick.key rows
  · intro key
    rw [hflat]
    exact mem_keys_mergeRows Tick.key rows key

theorem unchanged_of_empty {p : Platform} {env : Env} {i : Nat} {m m' : CompactionManager}
    {time time' : Nat} (hnil : m.tablesAt i = [])
    (h : compactLevel p env i (m, time) = (.ok (), (m', time'))) : m' = m := by
  unfold compactLevel at h
  rw [DiskM.current_bind] at h
  cases hlevel : m.levels[i]? with
  | none =>
    rw [hlevel] at h
    cases h
  | some level =>
    have htables : level.tables = [] := by
      rw [← hnil, tablesAt, hlevel]
      rfl
    simp only [hlevel, if_pos htables] at h
    cases h
    rfl

/-- A merge of a level that returns normally empties the level, adds a sorted partition of
its keys to the next one and leaves all other tables where they were. -/
theorem compaction_output_partition {p : Platform} {env : Env} {i : Nat} {m m' : CompactionManager}
    {time time' : Nat} (h : compactLevel p env i (m, time) = (.ok (), (m', time'))) :
    m'.tablesAt i = [] ∧
      (∃ added, m'.tablesAt (i + 1) = m.tablesAt (i + 1) ++ added ∧
        Partition ((m.tablesAt i).flatMap Table.rows) added) ∧
      ∀ n, n ≠ i → n ≠ i + 1 → m'.tablesAt n = m.tablesAt n := by
  by_cases hnil : m.tablesAt i = []
  · obtain rfl := unchanged_of_empty hnil h
    refine ⟨hnil, ⟨[], (List.append_nil _).symm, ?_⟩, fun _ _ _ => rfl⟩
    rw [hnil]
    exact partition_of_chunks rfl
  · obtain ⟨hempty, ⟨added, hnext, hrows, -⟩, hothers, -, -⟩ := compactLevel_eq_ok hnil h
    exact ⟨hempty, ⟨added, hnext, partition_of_chunks hrows⟩, hothers⟩

theorem compaction_output_partition_fourVersions :
    (compactLevel .simple .calm 0 (fourVersions, 0)).2.1.tablesAt 0 = [] ∧
      (∃ added, (compactLevel .simple .calm 0 (fourVersions, 0)).2.1.tablesAt 1 =
        fourVersions.tablesAt 1 ++ added ∧
        Partition ((fourVersions.tablesAt 0).flatMap Table.rows) added) ∧
      ∀ n, n ≠ 0 → n ≠ 1 →
        (compactLevel .simple .calm 0 (fourVersions, 0)).2.1.tablesAt n = fourVersions.tablesAt n :=
  compaction_output_partition (DiskM.eq_ok (by decide +kernel))

end CompactionManager

end Graphite
