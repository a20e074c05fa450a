import Graphite.CachedQueries

/-! How often the queries read a data block. The id of every open is new, so nothing in the
cache has it, and each table that a query opens is read from its file. -/

namespace Graphite
open BigEndian KeyedRows LockProgram

/-- A table whose file a query opens, and whether it can be opened. -/
abbrev Opening := Table × Bool

/-- The tables that are scanned. -/
def scanned (openings : List Opening) : List Table := (openings.filter Prod.snd).map Prod.fst

theorem scanned_cons_true (t : Table) (openings : List Opening) :
    scanned ((t, true) :: openings) = t :: scanned openings := rfl

theorem scanned_append (xs ys : List Opening) : scanned (xs ++ ys) = scanned xs ++ scanned ys := by
  rw [scanned, List.filter_append, List.map_append]
  rfl

namespace Blocks

variable {block : Table → Bytes} {first : UInt64} {n : Nat} {b : Blocks}

/-- After `n` opens, and whatever is in the cache has the id of one of them. -/
structure Cold (first : UInt64) (n : Nat) (b : Blocks) : Prop where
  counter : b.counter = first + UInt64.ofNat n
  cached : ∃ es, b.cache.Holds es ∧ ∀ e ∈ es, ∃ i < n, e.1.sstableId = first + UInt64.ofNat i

theorem start_cold (first : UInt64) (capacityMb : Nat) : (start first capacityMb).Cold first 0 :=
  ⟨(UInt64.add_zero first).symm, [], BlockCache.new_holds capacityMb, List.forall_mem_nil _⟩

theorem id_ne (first : UInt64) {i : Nat} (hi : i < n) (hn : n < 2 ^ 64) :
    first + UInt64.ofNat i ≠ first + UInt64.ofNat n := by
  intro h
  have hnat := congrArg UInt64.toNat (UInt64.add_right_inj first |>.mp h)
  rw [UInt64.toNat_ofNat', UInt64.toNat_ofNat', Nat.mod_eq_of_lt (hi.trans hn),
    Nat.mod_eq_of_lt hn] at hnat
  omega

/-- The block of a new id is not in the cache. -/
theorem Cold.fetch_spec (h : b.Cold first n) (hn : n < 2 ^ 64) (block : Table → Bytes) (t : Table)
    (counter : UInt64) : ∃ cache es,
      { b with counter }.fetch block t b.counter = some ⟨counter, cache, b.reads ++ [t]⟩ ∧
        cache.Holds es ∧ ∀ e ∈ es, ∃ i < n + 1, e.1.sstableId = first + UInt64.ofNat i := by
  obtain ⟨es, hholds, hids⟩ := h.cached
  let key : CacheKey := ⟨b.counter, UInt64.ofNat t.sst.footer.dataOffset⟩
  obtain ⟨c, hget, -, hholds'⟩ := b.cache.get_spec hholds key
  have hmiss : es.lookup key = none := by
    cases hlookup : es.lookup key with
    | none => rfl
    | some data =>
      obtain ⟨i, hi, hid⟩ := hids _ (LruMap.mem_of_lookup hlookup)
      exact absurd (hid.symm.trans h.counter) (id_ne first hi hn)
  obtain ⟨c', es', hinsert, hholds'', hsubset⟩ := c.insert_subset hholds' key (block t)
  refine ⟨c', es', ?_, hholds'', fun e he => ?_⟩
  · rw [hmiss] at hget
    simp only [fetch, key] at hget hinsert ⊢
    rw [hget]
    simp [hinsert]
  · rcases hsubset e he with rfl | he
    · exact ⟨n, Nat.lt_succ_self n, h.counter⟩
    · obtain ⟨i, hi, hid⟩ := hids e he
      exact ⟨i, Nat.lt_succ_of_lt hi, hid⟩

/-- A table that passes the bounds is read whenever it is opened. -/
theorem Cold.openScan_spec (h : b.Cold first n) (hn : n < 2 ^ 64) (block : Table → Bytes)
    {t : Table} {symbolId : Option SymbolId} {t1 t2 : TimestampNs}
    (htime : t.sst.overlapsTimeRange t1 t2 = true)
    (hsymbol : symbolId.all t.sst.overlapsSymbol = true) (opens : Bool) :
    ∃ b', b.openScan block t symbolId t1 t2 opens = some b' ∧ b'.Cold first (n + 1) ∧
      b'.reads = b.reads ++ scanned [(t, opens)] := by
  have hcounter : b.counter + 1 = first + UInt64.ofNat (n + 1) := by
    rw [h.counter, UInt64.ofNat_add, UInt64.add_assoc]
    rfl
  obtain ⟨cache, es, hfetch, hholds, hids⟩ := h.fetch_spec hn block t (b.counter + 1)
  cases opens with
  | false =>
    obtain ⟨es, hholds, hids⟩ := h.cached
    refine ⟨{ b with counter := b.counter + 1 }, rfl, ⟨hcounter, es, hholds, fun e he => ?_⟩,
      (List.append_nil _).symm⟩
    obtain ⟨i, hi, hid⟩ := hids e he
    exact ⟨i, Nat.lt_succ_of_lt hi, hid⟩
  | true =>
    refine ⟨⟨b.counter + 1, cache, b.reads ++ [t]⟩, ?_, ⟨hcounter, es, hholds, hids⟩, rfl⟩
    rw [openScan, htime, hsymbol]
    exact hfetch

end Blocks

section Tracing

variable {block : Table → Bytes} {env : Env} {first : UInt64} {α β : Type}

/-- The query with the cache opens these files, reads those of them that it scans, and does
all else as without the cache. -/
def Traces (x' : CachedOp α) (x : LsmOp α) (held : Held Lock) (st : LsmTree × Nat)
    (openings : List Opening) : Prop :=
  ∀ first n b, b.Cold first n → n + openings.length ≤ 2 ^ 64 → ∃ b',
    exec x' held (st, b) = (exec x held st).and b' ∧ b'.Cold first (n + openings.length) ∧
      b'.reads = b.reads ++ scanned openings

variable {held held' : Held Lock} {st st' : LsmTree × Nat} {openings more : List Opening}

theorem traces_nil {x' : CachedOp α} {x : LsmOp α}
    (h : ∀ b, exec x' held (st, b) = (exec x held st).and b) : Traces x' x held st [] :=
  fun _ _ b hcold _ => ⟨b, h b, hcold, (List.append_nil _).symm⟩

theorem traces_pure (a : α) : Traces (pure a) (pure a) held st [] := traces_nil fun _ => rfl

theorem traces_throw (e : Stop LsmError) :
    Traces (throw e : CachedOp α) (throw e) held st [] := traces_nil fun _ => rfl

theorem traces_beside (x : LsmOp α) : Traces (beside x) x held st [] :=
  traces_nil fun b => exec_beside x held st b

theorem Traces.bind_ok {x' : CachedOp α} {x : LsmOp α} {f' : α → CachedOp β} {f : α → LsmOp β}
    {a : α} (hx : Traces x' x held st openings) (hok : exec x held st = .finished (.ok a) held' st')
    (hf : Traces (f' a) (f a) held' st' more) :
    Traces (x' >>= f') (x >>= f) held st (openings ++ more) := by
  intro first n b hcold hn
  rw [List.length_append] at hn
  have hfirst : n + openings.length ≤ 2 ^ 64 := by omega
  obtain ⟨b₁, hexec, hcold₁, hreads₁⟩ := hx first n b hcold hfirst
  have hsecond : n + openings.length + more.length ≤ 2 ^ 64 := by omega
  obtain ⟨b₂, hexec₂, hcold₂, hreads₂⟩ := hf first _ b₁ hcold₁ hsecond
  rw [hok] at hexec
  refine ⟨b₂, ?_, ?_, ?_⟩
  · rw [exec_bind, exec_bind, hexec, hok]
    exact hexec₂
  · rwa [List.length_append, ← Nat.add_assoc]
  · rw [hreads₂, hreads₁, scanned_append, List.append_assoc]

theorem Traces.bind_free {x' : CachedOp α} {x : LsmOp α} {f' : α → CachedOp β} {f : α → LsmOp β}
    {a : α} (hx : Traces x' x held st []) (hok : exec x held st = .finished (.ok a) held' st')
    (hf : Traces (f' a) (f a) held' st' more) : Traces (x' >>= f') (x >>= f) held st more :=
  hx.bind_ok hok hf

theorem Traces.bind_error {x' : CachedOp α} {x : LsmOp α} {f' : α → CachedOp β} {f : α → LsmOp β}
    {e : Stop LsmError} (hx : Traces x' x held st openings)
    (herror : exec x held st = .finished (.error e) held' st') :
    Traces (x' >>= f') (x >>= f) held st openings := by
  intro first n b hcold hn
  obtain ⟨b', hexec, hcold', hreads⟩ := hx first n b hcold hn
  refine ⟨b', ?_, hcold', hreads⟩
  rw [herror] at hexec
  rw [exec_bind, exec_bind, hexec, herror]
  rfl

/-- What comes after the query opens nothing. -/
theorem Traces.bind_quiet {x' : CachedOp α} {x : LsmOp α} {f' : α → CachedOp β} {f : α → LsmOp β}
    (hx : Traces x' x held st openings) (hf : ∀ a held' st', Traces (f' a) (f a) held' st' []) :
    Traces (x' >>= f') (x >>= f) held st openings := by
  cases hexec : exec x held st with
  | blocked l m s =>
    intro first n b hcold hn
    obtain ⟨b', hexec', hcold', hreads⟩ := hx first n b hcold hn
    refine ⟨b', ?_, hcold', hreads⟩
    rw [hexec] at hexec'
    rw [exec_bind, exec_bind, hexec', hexec]
    rfl
  | finished r held' st' =>
    cases r with
    | error e => exact hx.bind_error hexec
    | ok a => exact openings.append_nil ▸ hx.bind_ok hexec (hf a held' st')

theorem Traces.withGuard {x' : CachedOp α} {x : LsmOp α} {l : Lock} {m : Mode}
    (hfree : ¬ Conflicts held l m) (hx : Traces x' x ((l, m) :: held) st openings) :
    Traces (withGuard l m x') (withGuard l m x) held st openings := by
  intro first n b hcold hn
  obtain ⟨b', hexec, hcold', hreads⟩ := hx first n b hcold hn
  refine ⟨b', ?_, hcold', hreads⟩
  rw [exec_withGuard, exec_withGuard, if_neg hfree, if_neg hfree, hexec]
  cases exec x ((l, m) :: held) st with
  | finished r held' s' => rfl
  | blocked l' m' s' => rfl

end Tracing

namespace LsmTree
open Blocks

variable (block : Table → Bytes) (env : Env)

/-- The files that a lookup opens in these tables, from this file operation on. -/
def lookupOpenings (key : Key) : Nat → List Table → List Opening
  | _, [] => []
  | time, table :: tables =>
    if table.sst.mayContainKey key = none then []
    else if !table.admitsKey key then lookupOpenings key time tables
    else (table, env.io time) ::
      if env.io time && (firstAt Tick.key table.rows key).isNone then
        lookupOpenings key (time + 1) tables
      else []

/-- The files that `get` opens. -/
def getOpenings (st : LsmTree × Nat) (symbol : String) (timestamp : TimestampNs) : List Opening :=
  match st.1.symbolDict.getId symbol with
  | none => []
  | some symbolId =>
    match st.1.memtable.get ⟨symbolId, timestamp⟩ with
    | some _ => []
    | none => lookupOpenings env ⟨symbolId, timestamp⟩ st.2 st.1.newestFirst

/-- The files that a scan opens in these tables. -/
def rangeOpenings (dict : SymbolDictionary) (symbolId : Option SymbolId) (t1 t2 : TimestampNs) :
    Nat → List Table → List Opening
  | _, [] => []
  | time, table :: tables =>
    if !table.sst.overlapsTimeRange t1 t2 then rangeOpenings dict symbolId t1 t2 time tables
    else match ScanStream.pushdown dict table symbolId with
      | none => []
      | some false => rangeOpenings dict symbolId t1 t2 time tables
      | some true => (table, env.io time) ::
          if env.io time then rangeOpenings dict symbolId t1 t2 (time + 1) tables else []

/-- The files that `scan` opens. -/
def scanOpenings (st : LsmTree × Nat) (symbol : Option String) (t1 t2 : TimestampNs) :
    List Opening :=
  match st.1.idOf symbol with
  | none => []
  | some symbolId => rangeOpenings env st.1.symbolDict symbolId t1 t2 st.2 st.1.storageOrder

variable {block env} {held : Held Lock} {s : LsmTree} {time : Nat}

theorem lookupOpenings_of_panic {key : Key} {t : Table} (h : t.sst.mayContainKey key = none)
    (tables : List Table) : lookupOpenings env key time (t :: tables) = [] := by
  rw [lookupOpenings, if_pos h]

theorem lookupOpenings_of_skip {key : Key} {t : Table} {bloom : Bool}
    (hbloom : t.sst.mayContainKey key = some bloom) (h : t.admitsKey key = false)
    (tables : List Table) :
    lookupOpenings env key time (t :: tables) = lookupOpenings env key time tables := by
  rw [lookupOpenings, if_neg (hbloom ▸ Option.some_ne_none bloom), h]
  rfl

theorem lookupOpenings_of_admits {key : Key} {t : Table} {bloom : Bool}
    (hbloom : t.sst.mayContainKey key = some bloom) (h : t.admitsKey key = true)
    (tables : List Table) :
    lookupOpenings env key time (t :: tables) = (t, env.io time) :: if env.io time then
      (if (firstAt Tick.key t.rows key).isNone then lookupOpenings env key (time + 1) tables
        else []) else [] := by
  rw [lookupOpenings, if_neg (hbloom ▸ Option.some_ne_none bloom), h]
  cases env.io time <;> rfl

theorem exec_openScan {t : Table} {symbolId : Option SymbolId} {t1 t2 : TimestampNs}
    {b b' : Blocks} (h : b.openScan block t symbolId t1 t2 (env.io time) = some b') :
    exec (openScan block env t symbolId t1 t2) held ((s, time), b) =
      .finished (if env.io time then .ok (t.reopen.scan symbolId t1 t2)
        else .error (.error (.ssTable .io))) held ((s, time + 1), b') := by
  refine exec_attempt_of_eq ?_ held
  dsimp only
  rw [h]

/-- An open and the scan of a table that passes the bounds, and what comes after it. -/
theorem traces_openScan {α : Type} {t : Table} {symbolId : Option SymbolId} {t1 t2 : TimestampNs}
    {f' : List Tick → CachedOp α} {f : Unit → LsmOp α} {more : List Opening}
    (hbounds : t.sst.overlapsTimeRange t1 t2 = true)
    (hsymbol : symbolId.all t.sst.overlapsSymbol = true)
    (hf : Traces (f' (t.reopen.scan symbolId t1 t2)) (f ()) held (s, time + 1) more) :
    Traces (openScan block env t symbolId t1 t2 >>= f')
      (attempt (fileOp env (.ssTable .io)) >>= f) held (s, time)
      ((t, env.io time) :: if env.io time then more else []) := by
  intro first n b hcold hn
  rw [List.length_cons] at hn
  obtain ⟨b₁, hscan, hcold₁, hreads₁⟩ :=
    hcold.openScan_spec (by omega) block hbounds hsymbol (env.io time)
  have hexec : exec (openScan block env t symbolId t1 t2) held ((s, time), b) = _ :=
    exec_openScan hscan
  cases hio : env.io time with
  | false =>
    rw [hio] at hexec hreads₁
    refine ⟨b₁, ?_, hcold₁, hreads₁⟩
    rw [exec_bind, exec_bind, hexec, exec_attempt, fileOp, hio]
    rfl
  | true =>
    rw [hio] at hexec hreads₁ hn
    have hsecond : n + 1 + more.length ≤ 2 ^ 64 := by
      rw [if_pos rfl] at hn
      omega
    obtain ⟨b₂, hexec₂, hcold₂, hreads₂⟩ := hf first (n + 1) b₁ hcold₁ hsecond
    refine ⟨b₂, ?_, ?_, ?_⟩
    · rw [exec_bind, exec_bind, hexec, exec_attempt, fileOp, hio]
      exact hexec₂
    · rw [if_pos rfl, List.length_cons, Nat.add_comm more.length, ← Nat.add_assoc]
      exact hcold₂
    · rw [hreads₂, hreads₁, List.append_assoc, ← scanned_append]
      rfl

theorem traces_probeTables (key : Key) (tables : List Table) :
    Traces (probeTablesCached block env key tables) (probeTables env key tables) held (s, time)
      (lookupOpenings env key time tables) := by
  induction tables generalizing time with
  | nil => exact traces_pure none
  | cons t tables ih =>
    rw [probeTablesCached, probeTables]
    cases hbloom : t.sst.mayContainKey key with
    | none =>
      rw [lookupOpenings_of_panic hbloom]
      exact traces_throw .panic
    | some bloom =>
      cases bloom with
      | false =>
        have hskip : t.admitsKey key = false := by simp [Table.admitsKey, hbloom]
        rw [lookupOpenings_of_skip hbloom hskip]
        exact ih
      | true =>
        dsimp only
        by_cases hbounds : (t.sst.overlapsTimeRange key.timestamp key.timestamp &&
            t.sst.overlapsSymbol key.symbolId) = true
        · have hopened : t.admitsKey key = true := by simp [Table.admitsKey, hbloom, hbounds]
          obtain ⟨hbound, hsymbol⟩ := Bool.and_eq_true_iff.mp hbounds
          rw [lookupOpenings_of_admits hbloom hopened, if_pos hbounds, if_pos hbounds]
          refine traces_openScan hbound hsymbol ?_
          rw [Table.head?_scan_key hbound hsymbol]
          cases firstAt Tick.key t.rows key with
          | some tick => exact traces_pure (some tick)
          | none => exact ih
        · have hskip : t.admitsKey key = false := by
            rw [Table.admitsKey, Bool.eq_false_of_not_eq_true hbounds, Bool.and_false]
          rw [lookupOpenings_of_skip hbloom hskip, if_neg hbounds, if_neg hbounds]
          exact ih

theorem traces_get (symbol : String) (timestamp : TimestampNs) :
    Traces (getCached block env symbol timestamp) (get env symbol timestamp) [] (s, time)
      (getOpenings env (s, time) symbol timestamp) := by
  have hmemtable : ¬ Conflicts [(Lock.symbolDict, Mode.read)] .memtable .read := by decide
  have hcompaction : ¬ Conflicts [(Lock.symbolDict, Mode.read)] .compaction .read := by decide
  refine Traces.withGuard (by decide) ((traces_beside _).bind_free (exec_gets _ _ _) ?_)
  rw [getOpenings]
  dsimp only
  cases s.symbolDict.getId symbol with
  | none => exact traces_throw _
  | some id =>
    refine (traces_beside _).bind_free (exec_withGuard_gets hmemtable _ _) ?_
    dsimp only
    cases s.memtable.get ⟨id, timestamp⟩ with
    | some tick => exact traces_pure _
    | none =>
      refine Traces.withGuard hcompaction ((traces_beside _).bind_free (exec_gets _ _ _) ?_)
      exact traces_probeTables ⟨id, timestamp⟩ s.newestFirst

theorem overlaps_of_pushdown {dict : SymbolDictionary} {t : Table} {symbolId : Option SymbolId}
    (h : ScanStream.pushdown dict t symbolId = some true) :
    symbolId.all t.sst.overlapsSymbol = true := by
  cases symbolId with
  | none => rfl
  | some id =>
    obtain ⟨bloom, -, hboth⟩ := Option.bind_eq_some_iff.mp h
    exact (Bool.and_eq_true_iff.mp (Option.some.inj hboth)).2

theorem exec_mayHold (hfree : ¬ Conflicts held .symbolDict .read) (t : Table)
    (symbolId : Option SymbolId) : exec (mayHold t symbolId) held (s, time) =
      .finished (((ScanStream.pushdown s.symbolDict t symbolId).map Except.ok).getD
        (.error .panic)) held (s, time) := by
  cases symbolId with
  | none => rfl
  | some id =>
    rw [mayHold, exec_bind, exec_withGuard_gets hfree, ScanStream.pushdown]
    dsimp only
    cases t.sst.mayContainSymbol (SsTable.symbolName s.symbolDict id) with
    | none => rfl
    | some bloom => cases bloom <;> rfl

theorem traces_scanTables (hfree : ¬ Conflicts held .symbolDict .read)
    (symbolId : Option SymbolId) (t1 t2 : TimestampNs) (tables : List Table) :
    Traces (scanTablesCached block env symbolId t1 t2 tables) (scanTables env symbolId t1 t2 tables)
      held (s, time) (rangeOpenings env s.symbolDict symbolId t1 t2 time tables) := by
  induction tables generalizing time with
  | nil => exact traces_pure []
  | cons t tables ih =>
    rw [scanTablesCached, scanTables, rangeOpenings]
    cases hbounds : t.sst.overlapsTimeRange t1 t2 with
    | false => exact ih
    | true =>
      have hmay : exec (mayHold t symbolId) held (s, time) = _ := exec_mayHold hfree t symbolId
      simp only [Bool.not_true, Bool.false_eq_true, if_false]
      cases hpushdown : ScanStream.pushdown s.symbolDict t symbolId with
      | none =>
        rw [hpushdown] at hmay
        exact (traces_beside _).bind_error hmay
      | some selected =>
        rw [hpushdown] at hmay
        cases selected with
        | false => exact (traces_beside _).bind_free hmay ih
        | true =>
          refine (traces_beside _).bind_free hmay ?_
          simp only [if_true]
          refine traces_openScan hbounds (overlaps_of_pushdown hpushdown) ?_
          exact ih.bind_quiet fun rest _ _ => traces_pure _

theorem exec_lookUp_of_none {symbol : Option String} (h : s.idOf symbol = none) :
    ∃ e, exec (lookUp symbol) [] (s, time) = .finished (.error e) [] (s, time) := by
  cases symbol with
  | none => cases h
  | some symbol =>
    have hnone : s.symbolDict.getId symbol = none := Option.map_eq_none_iff.mp h
    refine ⟨.error (.symbolNotFound symbol), ?_⟩
    rw [lookUp, exec_withGuard, if_neg (by decide), exec_bind, exec_gets]
    dsimp only
    rw [hnone]
    rfl

theorem exec_lookUp_of_some {symbol : Option String} {symbolId : Option SymbolId}
    (h : s.idOf symbol = some symbolId) :
    exec (lookUp symbol) [] (s, time) = .finished (.ok symbolId) [] (s, time) := by
  cases symbol with
  | none =>
    cases h
    rfl
  | some symbol =>
    obtain ⟨id, hsome, rfl⟩ := Option.map_eq_some_iff.mp h
    rw [lookUp, exec_withGuard, if_neg (by decide), exec_bind, exec_gets]
    dsimp only
    rw [hsome]
    rfl

theorem traces_scan (symbol : Option String) (t1 t2 : TimestampNs) :
    Traces (scanCached block env symbol t1 t2) (scan env symbol t1 t2) [] (s, time)
      (scanOpenings env (s, time) symbol t1 t2) := by
  have hmemtable : ¬ Conflicts ([] : Held Lock) .memtable .read := by decide
  have hcompaction : ¬ Conflicts ([] : Held Lock) .compaction .read := by decide
  rw [scanOpenings]
  dsimp only
  cases hid : s.idOf symbol with
  | none =>
    obtain ⟨e, herror⟩ : ∃ e, exec (lookUp symbol) [] (s, time) =
        .finished (.error e) [] (s, time) := exec_lookUp_of_none hid
    exact (traces_beside _).bind_error herror
  | some symbolId =>
    refine (traces_beside _).bind_free (exec_lookUp_of_some hid) ?_
    refine (traces_beside _).bind_free (exec_withGuard_gets hmemtable _ _) ?_
    refine Traces.withGuard hcompaction ((traces_beside _).bind_free (exec_gets _ _ _) ?_)
    exact (traces_scanTables (by decide) symbolId t1 t2 s.storageOrder).bind_quiet
      fun _ _ _ => traces_pure _

end LsmTree

end Graphite
