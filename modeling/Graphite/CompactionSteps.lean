import Graphite.CompactionVersions

/-! What a compaction leaves when it may fail on the way, and an induction over the levels
that it merges. -/

namespace Graphite
open KeyedRows

theorem DiskM.bind_cases {σ ε α β : Type} (x : DiskM σ ε α) (f : α → DiskM σ ε β)
    (st : σ × Nat) :
    (∃ a st₁, x st = (.ok a, st₁) ∧ (x >>= f) st = f a st₁) ∨
      ∃ e st₁, x st = (.error e, st₁) ∧ (x >>= f) st = (.error e, st₁) := by
  cases h : x st with
  | mk r st₁ =>
    cases r with
    | ok a => exact Or.inl ⟨a, st₁, rfl, DiskM.bind_ok h f⟩
    | error e => exact Or.inr ⟨e, st₁, rfl, DiskM.bind_error h f⟩

theorem DiskM.update_bind {σ ε α : Type} (g : σ → σ) (f : Unit → DiskM σ ε α) (s : σ)
    (time : Nat) : (update g >>= f) (s, time) = f () (g s, time) := rfl

theorem DiskM.now_bind {σ ε α : Type} (env : Env) (f : Nat → DiskM σ ε α) (s : σ) (time : Nat) :
    (now env >>= f) (s, time) = f (env.now time) (s, time + 1) := rfl

/-- A table is not written, or it holds what was to be written. -/
theorem writeTable_cases {σ ε : Type} (p : Platform) (env : Env) (wrap : SsTableError → ε)
    (path : String) (ticks : List Tick) (level : Nat) (dict : SymbolDictionary) (s : σ)
    (time : Nat) :
    (∃ t time', writeTable p env wrap path ticks level dict (s, time) = (.ok t, (s, time')) ∧
      t.rows = ticks ∧ ∃ file, SsTable.write p path ticks level dict = some (file, t.sst)) ∨
    ∃ e time', writeTable p env wrap path ticks level dict (s, time) = (.error e, (s, time')) := by
  unfold writeTable
  rcases DiskM.bind_cases (fileOp env (wrap .io)) _ (s, time) with
    ⟨_, st₁, hop, h⟩ | ⟨e, st₁, hop, h⟩
  all_goals
    cases (Prod.mk.inj hop).2
    rw [h]
  · cases hwrite : SsTable.write p path ticks level dict with
    | none => exact Or.inr ⟨_, _, rfl⟩
    | some r => exact Or.inl ⟨⟨r.2, ticks⟩, _, rfl, rfl, r.1, rfl⟩
  · exact Or.inr ⟨e, _, rfl⟩

namespace CompactionManager

variable {p : Platform} {env : Env} {m m' : CompactionManager} {time : Nat}

theorem readTables_leaves (env : Env) (tables : List Table) (m : CompactionManager) (time : Nat) :
    (readTables env tables (m, time)).2.1.levels = m.levels ∧
      (readTables env tables (m, time)).2.1.symbolDict = m.symbolDict := by
  induction tables generalizing m time with
  | nil => exact ⟨rfl, rfl⟩
  | cons t tables ih =>
    unfold readTables
    rcases DiskM.bind_cases (fileOp env (CompactionError.ssTable .io)) _ (m, time) with
      ⟨_, st₁, hopen, h⟩ | ⟨e, st₁, hopen, h⟩
    all_goals
      cases (Prod.mk.inj hopen).2
      rw [h]
    · rw [DiskM.update_bind]
      rcases DiskM.bind_cases (fileOp env (CompactionError.ssTable .io)) _ (_, time + 1) with
        ⟨_, st₁, hagain, h⟩ | ⟨e, st₁, hagain, h⟩
      all_goals
        cases (Prod.mk.inj hagain).2
        rw [h]
      · rcases DiskM.bind_cases (readTables env tables) _ (_, time + 1 + 1) with
          ⟨_, st₁, hrest, h⟩ | ⟨e, st₁, hrest, h⟩
        all_goals
          rw [h]
          have hsame := ih { m with
            bytesRead := m.bytesRead + t.reopen.sst.tableMeta.fileSize } (time + 1 + 1)
          rw [hrest] at hsame
          exact hsame
      · exact ⟨rfl, rfl⟩
    · exact ⟨rfl, rfl⟩

/-- Some tables behind those of a level, with these rows and as they were written. -/
structure Extended (p : Platform) (level : Nat) (parts : List (List Tick))
    (m m' : CompactionManager) : Prop where
  next : ∃ tables, m'.tablesAt level = m.tablesAt level ++ tables ∧
    tables.map Table.rows <+: parts ∧
    ∀ t ∈ tables, ∃ path file, SsTable.write p path t.rows level m.symbolDict = some (file, t.sst)
  others : ∀ n, n ≠ level → m'.tablesAt n = m.tablesAt n
  symbolDict : m'.symbolDict = m.symbolDict
  length : m'.levels.length = m.levels.length

theorem extended_refl (p : Platform) (level : Nat) (parts : List (List Tick))
    (m : CompactionManager) : Extended p level parts m m :=
  ⟨⟨[], (List.append_nil _).symm, List.nil_prefix, List.forall_mem_nil _⟩, fun _ _ => rfl, rfl, rfl⟩

/-- The chunks in front of the one that fails become tables. -/
theorem writeChunks_leaves (p : Platform) (env : Env) {level : Nat} (parts : List (List Tick))
    (hlevel : level < m.levels.length) (time : Nat) :
    Extended p level parts m (writeChunks p env level parts (m, time)).2.1 := by
  induction parts generalizing m time with
  | nil => exact extended_refl p level [] m
  | cons chunk parts ih =>
    unfold writeChunks
    rw [DiskM.now_bind, DiskM.current_bind]
    rcases writeTable_cases p env CompactionError.ssTable (tableName level (env.now time)) chunk
      level m.symbolDict m (time + 1) with ⟨t, time', hwrite, hrows, file, hsst⟩ | ⟨e, time', hwrite⟩
    · rw [DiskM.bind_ok hwrite, DiskM.update_bind]
      have hadded : (m.addTable level t).levels.length = m.levels.length :=
        List.length_modify _ _ _
      obtain ⟨⟨tables, hnext, hprefix, htables⟩, hothers, hdict, hlen⟩ :=
        ih (m := m.addTable level t) (by rwa [hadded]) time'
      refine ⟨⟨t :: tables, ?_, ?_, ?_⟩, fun n hn => ?_, hdict, hlen.trans hadded⟩
      · rw [hnext, tablesAt_addTable m hlevel, if_pos rfl, List.append_assoc]
        rfl
      · rw [List.map_cons, hrows]
        exact (List.prefix_cons_inj chunk).mpr hprefix
      · refine List.forall_mem_cons.mpr ⟨?_, htables⟩
        exact ⟨tableName level (env.now time), file, hrows.symm ▸ hsst⟩
      · rw [hothers n hn, tablesAt_addTable m hlevel, if_neg hn]
    · rw [DiskM.bind_error hwrite]
      exact extended_refl p level _ m

/-- What merging a level does, also when it fails on the way. -/
structure PartlyMerged (p : Platform) (i : Nat) (m m' : CompactionManager) : Prop where
  here : m'.tablesAt i = m.tablesAt i ∨ m'.tablesAt i = []
  next : ∃ tables, m'.tablesAt (i + 1) = m.tablesAt (i + 1) ++ tables ∧
    tables.map Table.rows <+:
      chunks CHUNK_SIZE (mergeRows Tick.key ((m.tablesAt i).flatMap Table.rows)) ∧
    ∀ t ∈ tables, ∃ path file,
      SsTable.write p path t.rows (i + 1) m.symbolDict = some (file, t.sst)
  others : ∀ n, n ≠ i → n ≠ i + 1 → m'.tablesAt n = m.tablesAt n
  symbolDict : m'.symbolDict = m.symbolDict
  length : m.levels.length ≤ m'.levels.length

theorem partlyMerged_of_levels {i : Nat} (hlevels : m'.levels = m.levels)
    (hdict : m'.symbolDict = m.symbolDict) : PartlyMerged p i m m' where
  here := Or.inl (tablesAt_congr hlevels i)
  next := ⟨[], by rw [tablesAt_congr hlevels, List.append_nil], List.nil_prefix,
    List.forall_mem_nil _⟩
  others := fun n _ _ => tablesAt_congr hlevels n
  symbolDict := hdict
  length := hlevels.symm ▸ Nat.le_refl _

theorem length_ensureLevel_clearLevel (m : CompactionManager) (i : Nat) (hi : i < m.levels.length) :
    i + 1 < ((m.clearLevel i).ensureLevel (i + 1)).levels.length ∧
      m.levels.length ≤ ((m.clearLevel i).ensureLevel (i + 1)).levels.length := by
  have hclear : (m.clearLevel i).levels.length = m.levels.length := by
    rw [clearLevel, List.length_modify]
  unfold ensureLevel
  split_ifs with hle
  · rw [List.length_append, hclear, List.length_singleton]
    omega
  · omega

theorem compactLevel_leaves (i : Nat) (m : CompactionManager) (time : Nat) :
    PartlyMerged p i m (compactLevel p env i (m, time)).2.1 := by
  unfold compactLevel
  rw [DiskM.current_bind]
  cases hlevel : m.levels[i]? with
  | none => exact partlyMerged_of_levels rfl rfl
  | some level =>
    have htables : m.tablesAt i = level.tables := by
      rw [tablesAt, hlevel]
      rfl
    by_cases hnil : level.tables = []
    · simp only [hnil, if_true]
      exact partlyMerged_of_levels rfl rfl
    simp only [hnil, if_false]
    obtain ⟨hlevels, hdict⟩ := readTables_leaves env level.tables m time
    rcases DiskM.bind_cases (readTables env level.tables) _ (m, time) with
      ⟨ticks, ⟨m₁, time₁⟩, hread, h⟩ | ⟨e, ⟨m₁, time₁⟩, hread, h⟩
    all_goals
      rw [h]
      rw [hread] at hlevels hdict
    · rw [DiskM.update_bind, DiskM.update_bind]
      have hi : i < m₁.levels.length := by
        rw [hlevels]
        exact (List.getElem?_eq_some_iff.mp hlevel).1
      have hbefore (n : Nat) : ((m₁.clearLevel i).ensureLevel (i + 1)).tablesAt n =
          if n = i then [] else m.tablesAt n := by
        rw [tablesAt_ensureLevel, tablesAt_clearLevel, tablesAt_congr hlevels]
      have hdict' : ((m₁.clearLevel i).ensureLevel (i + 1)).symbolDict = m.symbolDict := by
        unfold ensureLevel
        split_ifs <;> exact hdict
      obtain ⟨hrows, -⟩ := readTables_eq_ok hread
      have hlen := length_ensureLevel_clearLevel m₁ i hi
      obtain ⟨⟨tables, hnext, hprefix, hwritten⟩, hothers, hdict'', hlen'⟩ := writeChunks_leaves p env
        (chunks CHUNK_SIZE (mergeRows Tick.key ticks)) hlen.1 time₁
      refine ⟨Or.inr ?_, ⟨tables, ?_, ?_, ?_⟩, fun n hn hn' => ?_, hdict''.trans hdict', ?_⟩
      · rw [hothers i (by omega), hbefore, if_pos rfl]
      · rw [hnext, hbefore, if_neg (by omega)]
      · rwa [htables, ← hrows]
      · rwa [← hdict']
      · rw [hothers n hn', hbefore, if_neg hn]
      · rw [hlen', ← hlevels]
        exact hlen.2
    · exact partlyMerged_of_levels hlevels hdict

/-- A level that is not over its limit stays as it is. -/
theorem compactDeeper_leaves (env : Env) {m₀ : CompactionManager} {i : Nat} (hi : i + 1 < m₀.checkedLevels)
    (hprogress : Progress p m₀ (i + 1) m) (time : Nat) :
    (compactDeeper p env (i + 1) (m, time)).2.1 = m ∨
      i + 1 ∈ m₀.due p ∧ PartlyMerged p (i + 1) m (compactDeeper p env (i + 1) (m, time)).2.1 := by
  unfold compactDeeper
  rw [DiskM.current_bind]
  cases htarget : targetSize (i + 1) with
  | none =>
    simp only
    exact Or.inl rfl
  | some target =>
    cases hlevel : m.levels[i + 1]? with
    | none =>
      simp only
      exact Or.inl rfl
    | some level =>
      simp only
      split_ifs with hsize
      · refine Or.inr ⟨?_, compactLevel_leaves (i + 1) m time⟩
        rw [targetSize_eq_some htarget, totalSize_eq hlevel] at hsize
        refine List.mem_filter.mpr ⟨List.mem_range.mpr hi, ?_⟩
        rw [← overLimit_congr hprogress.here]
        exact (overLimit_succ_iff hi _).mpr hsize
      · exact Or.inl rfl

/-- What holds before a compaction and is kept by the merge of every level that is due
holds behind it, whether it fails or not. -/
theorem forM_compactDeeper_induct {Q : CompactionManager → Prop} {m₀ : CompactionManager}
    (hstep : ∀ i m m', i ∈ m₀.due p → Progress p m₀ i m → Q m → PartlyMerged p i m m' → Q m')
    {count i : Nat} (hcount : i + 1 + count ≤ m₀.checkedLevels)
    (hprogress : Progress p m₀ (i + 1) m) (hm : Q m) (time : Nat) :
    Q (forM (List.range' (i + 1) count) (compactDeeper p env) (m, time)).2.1 := by
  induction count generalizing i m time with
  | zero => exact hm
  | succ count ih =>
    have hkept : Q (compactDeeper p env (i + 1) (m, time)).2.1 := by
      rcases compactDeeper_leaves env (by omega) hprogress time with h | ⟨hdue, h⟩
      · rwa [h]
      · exact hstep (i + 1) m _ hdue hprogress hm h
    rw [List.range'_succ, List.forM_cons]
    rcases DiskM.bind_cases (compactDeeper p env (i + 1)) _ (m, time) with
      ⟨_, ⟨m₁, time₁⟩, hfirst, h⟩ | ⟨e, ⟨m₁, time₁⟩, hfirst, h⟩
    all_goals
      rw [h]
      rw [hfirst] at hkept
    · exact ih (by omega) (compactDeeper_eq_ok hprogress (by omega) hfirst) hkept time₁
    · exact hkept

theorem compactFirst_leaves (env : Env) (m : CompactionManager) (time : Nat) :
    (compactFirst p env (m, time)).2.1 = m ∨
      0 ∈ m.due p ∧ PartlyMerged p 0 m (compactFirst p env (m, time)).2.1 := by
  unfold compactFirst
  rw [DiskM.current_bind]
  cases hlevels : m.levels with
  | nil => exact Or.inl rfl
  | cons l0 deeper =>
    simp only
    split_ifs with hfull
    · refine Or.inr ⟨?_, compactLevel_leaves 0 m time⟩
      have hzero : m.tablesAt 0 = l0.tables := by
        rw [tablesAt, hlevels]
        rfl
      refine List.mem_filter.mpr ⟨List.mem_range.mpr ?_, ?_⟩
      · unfold checkedLevels
        split_ifs
        · omega
        · rw [hlevels]
          exact Nat.succ_pos _
      · rw [gathered, overLimit, hzero]
        exact decide_eq_true hfull
    · exact Or.inl rfl

theorem compact_induct {Q : CompactionManager → Prop} (hm : Q m)
    (hstep : ∀ i m₁ m₂, i ∈ m.due p → Progress p m i m₁ → Q m₁ → PartlyMerged p i m₁ m₂ → Q m₂)
    (time : Nat) : Q (compact p env (m, time)).2.1 := by
  unfold compact
  rw [DiskM.current_bind]
  cases m.needsCompaction with
  | none => exact hm
  | some needed =>
    cases needed with
    | false => exact hm
    | true =>
      simp only
      have hkept : Q (compactFirst p env (m, time)).2.1 := by
        rcases compactFirst_leaves env m time with h | ⟨hdue, h⟩
        · rwa [h]
        · exact hstep 0 m _ hdue (progress_zero p m) hm h
      rcases DiskM.bind_cases (compactFirst p env) _ (m, time) with
        ⟨_, ⟨m₁, time₁⟩, hfirst, h⟩ | ⟨e, ⟨m₁, time₁⟩, hfirst, h⟩
      all_goals
        rw [h]
        rw [hfirst] at hkept
      · rw [DiskM.current_bind]
        obtain ⟨hprogress, hlen, hpos⟩ := compactFirst_eq_ok hfirst
        have hchecked : 0 < m.checkedLevels := by
          unfold checkedLevels
          split_ifs <;> omega
        exact forM_compactDeeper_induct hstep (by omega) hprogress hkept time₁
      · exact hkept

end CompactionManager

end Graphite
