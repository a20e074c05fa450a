import Graphite.Interleaving
import Graphite.LsmCalls
import Graphite.LsmFlush

/-! What other threads read while a flush is going on. Between the drain of the memtable
and the registration of the table the rows are in neither, and after a failed write they
stay in neither: a query that looks at that moment gets what the old tables alone say. -/

namespace Graphite
open KeyedRows LockProgram GuardedRuns

/-- A call that reads. -/
inductive Query where
  | get (symbol : String) (timestamp : TimestampNs)
  | scan (symbol : Option String) (t1 t2 : TimestampNs)
  deriving DecidableEq, Repr

namespace LsmTree

/-- The rows that a query returns when nobody else is at work. -/
def answer (s : LsmTree) : Query → List Tick
  | .get symbol timestamp => match s.symbolDict.getId symbol with
    | none => []
    | some id => (s.find ⟨id, timestamp⟩).toList
  | .scan symbol t1 t2 => match s.idOf symbol with
    | none => []
    | some symbolId => s.range symbolId t1 t2

end LsmTree

namespace Query
open LsmTree

def op : Query → LsmOp (List Tick)
  | get symbol timestamp => do
    let found ← LsmTree.get .calm symbol timestamp
    return found.toList
  | scan symbol t1 t2 => LsmTree.scan .calm symbol t1 t2

theorem calm_io (n : Nat) : Env.calm.io n = true := rfl

/-- The query is for a symbol of the dictionary, or for all. -/
def Known (s : LsmTree) : Query → Prop
  | get symbol _ => ∃ id, s.symbolDict.getId symbol = some id
  | scan symbol _ _ => ∃ symbolId, s.idOf symbol = some symbolId

theorem known_of_answer {q : Query} {s : LsmTree} (h : s.answer q ≠ []) : q.Known s := by
  cases q with
  | get symbol ts =>
    cases hid : s.symbolDict.getId symbol with
    | none => exact absurd (by rw [answer, hid]) h
    | some id => exact ⟨id, hid⟩
  | scan symbol t1 t2 =>
    cases hid : s.idOf symbol with
    | none => exact absurd (by rw [answer, hid]) h
    | some symbolId => exact ⟨symbolId, hid⟩

theorem exec_op {q : Query} {s : LsmTree} (hs : s.Askable) (hq : q.Known s) (time : Nat) :
    ∃ time', exec q.op [] (s, time) = .finished (.ok (s.answer q)) [] (s, time') := by
  cases q with
  | get symbol ts =>
    obtain ⟨id, hid⟩ := hq
    obtain ⟨time', hget⟩ := exec_get calm_io hs hid ts time
    rw [answer, hid, op, exec_bind_ok hget]
    exact ⟨time', rfl⟩
  | scan symbol t1 t2 =>
    obtain ⟨symbolId, hid⟩ := hq
    rw [answer, hid]
    exact exec_scan calm_io hs hid t1 t2 time

end Query

namespace LsmTree

variable {p : Platform} {s : LsmTree}

/-- A flush and queries of other threads, about to start. -/
def flushing (p : Platform) (env : Env) (s : LsmTree) (time : Nat) (queries : List Query) :
    Config Lock (LsmTree × Nat) Unit (Except (Stop LsmError) (List Tick)) :=
  Config.start ((do flushMemtable p env; return []) :: queries.map Query.op) (s, time) ()

/-- Whatever the interleaving, and wherever the flush fails, the query gives this tick. -/
def StaysReadable (p : Platform) (s : LsmTree) (q : Query) (x : Tick) : Prop :=
  ∀ env time queries schedule i r, queries[i]? = some q →
    (run (Config.step fun _ _ _ g => g) (flushing p env s time queries) schedule).resultAt (i + 1) =
      some r → ∃ rows, r = .ok rows ∧ firstAt Tick.key rows x.key = some x

/-- A table with the rows of the memtable. -/
def FlushedFrom (p : Platform) (s : LsmTree) (t : Table) : Prop :=
  t.rows = s.memtable.chain ∧ ∃ path file,
    SsTable.write p path s.memtable.chain 0 s.symbolDict = some (file, t.sst)

/-- A state that flushes of this tree lead to. -/
structure During (p : Platform) (s : LsmTree) (st : LsmTree × Nat) : Prop where
  dict : st.1.symbolDict = s.symbolDict
  memtable : st.1.memtable = s.memtable ∨ st.1.memtable = SkipList.new
  levels : ∃ extra, (∀ t ∈ extra, FlushedFrom p s t) ∧ st.1.compaction.levels =
    s.compaction.levels.modify 0 fun l => { l with tables := l.tables ++ extra }

theorem during_start (p : Platform) (s : LsmTree) (time : Nat) : During p s (s, time) := by
  refine ⟨rfl, Or.inl rfl, [], List.forall_mem_nil _, ?_⟩
  cases s.compaction.levels <;> simp

theorem During.tick {st : LsmTree × Nat} (h : During p s st) (time : Nat) :
    During p s (st.1, time) := ⟨h.dict, h.memtable, h.levels⟩

theorem During.idOf {st : LsmTree × Nat} (h : During p s st) {symbol : Option String} :
    st.1.idOf symbol = s.idOf symbol := by
  cases symbol with
  | none => rfl
  | some symbol => rw [LsmTree.idOf, LsmTree.idOf, h.dict]

theorem During.register {st : LsmTree × Nat} (h : During p s st) {t : Table}
    (ht : FlushedFrom p s t) : During p s (st.1.register t, st.2) := by
  obtain ⟨extra, hextra, hlevels⟩ := h.levels
  refine ⟨h.dict, h.memtable, extra ++ [t], ?_, ?_⟩
  · exact List.forall_mem_append.mpr ⟨hextra, List.forall_mem_singleton.mpr ht⟩
  · rw [LsmTree.register]
    dsimp only
    rw [hlevels]
    cases s.compaction.levels with
    | nil => rfl
    | cons l0 deeper => simp [Level.addTable]

theorem sound_writeTable (env : Env) (path : String) :
    Sound (During p s) (fun r => ∀ t, r = .ok t → FlushedFrom p s t)
      (attempt (writeTable p env LsmError.ssTable path s.memtable.chain 0 s.symbolDict) :
        LsmOp Table) := by
  refine sound_attempt fun st hst => ?_
  rw [writeTable, DiskM.bind_apply]
  cases hio : env.io st.2 with
  | false =>
    simp only [fileOp, hio, Bool.false_eq_true, if_false]
    exact ⟨hst.tick _, fun t ht => by cases ht⟩
  | true =>
    simp only [fileOp, hio, if_true]
    cases hwrite : SsTable.write p path s.memtable.chain 0 s.symbolDict with
    | none => exact ⟨hst.tick _, fun t ht => by cases ht⟩
    | some w =>
      obtain ⟨file, sst⟩ := w
      refine ⟨hst.tick _, fun t ht => ?_⟩
      cases ht
      exact ⟨rfl, path, file, hwrite⟩

theorem sound_flushMemtable (p : Platform) (env : Env) (s : LsmTree) :
    Sound (During p s) (fun _ => True) (flushMemtable p env) := by
  refine sound_bind (sound_withGuard (sound_attempt ?_))
  rintro ⟨s₁, time₁⟩ h₁
  rw [drainMemtable_eq]
  refine ⟨⟨h₁.dict, Or.inr rfl, h₁.levels⟩, ?_⟩
  dsimp only
  split_ifs with hchain
  · exact sound_pure trivial
  have hmem : s₁.memtable = s.memtable := by
    refine h₁.memtable.resolve_right fun h => hchain ?_
    rw [(h : s₁.memtable = SkipList.new)]
    rfl
  rw [hmem]
  refine sound_bind (sound_attempt fun st hst => ⟨hst.tick _, ?_⟩)
  refine sound_bind (sound_withGuard (sound_gets fun st hst => ?_))
  dsimp only
  rw [hst.dict]
  refine sound_bind ((sound_writeTable env _).mono fun r hr => ?_)
  cases r with
  | error e => trivial
  | ok t =>
    refine sound_bind (sound_withGuard (sound_attempt ?_))
    rintro ⟨s₂, time₂⟩ h₂
    by_cases hlevels : s₂.compaction.levels = []
    · have hadd : addToLevel0 t (s₂, time₂) = (.error .panic, (s₂, time₂)) := by
        simp only [addToLevel0, hlevels]
      rw [hadd]
      exact ⟨h₂, trivial⟩
    · rw [addToLevel0_eq hlevels]
      exact ⟨h₂.register (hr t rfl), sound_withGuard (sound_attempt fun st hst =>
        ⟨⟨hst.dict, hst.memtable, hst.levels⟩, trivial⟩)⟩

/-- The tables of flushes stand in front of the old ones for `get`. -/
theorem During.newestFirst {st : LsmTree × Nat} (h : During p s st) : ∃ extra,
    (∀ t ∈ extra, FlushedFrom p s t) ∧ st.1.newestFirst = extra ++ s.newestFirst := by
  obtain ⟨extra, hextra, hlevels⟩ := h.levels
  cases hl : s.compaction.levels with
  | nil => exact ⟨[], List.forall_mem_nil _, by simp [LsmTree.newestFirst, hlevels, hl]⟩
  | cons l0 deeper =>
    refine ⟨extra.reverse, fun t ht => hextra t (List.mem_reverse.mp ht), ?_⟩
    simp [LsmTree.newestFirst, hlevels, hl]

/-- For `scan` they stand behind the old ones of level 0. -/
theorem During.storageOrder {st : LsmTree × Nat} (h : During p s st) : ∃ front extra back,
    (∀ t ∈ extra, FlushedFrom p s t) ∧ s.storageOrder = front ++ back ∧
      st.1.storageOrder = front ++ extra ++ back := by
  obtain ⟨extra, hextra, hlevels⟩ := h.levels
  cases hl : s.compaction.levels with
  | nil =>
    exact ⟨[], [], [], List.forall_mem_nil _, by simp [LsmTree.storageOrder, hl],
      by simp [LsmTree.storageOrder, hlevels, hl]⟩
  | cons l0 deeper =>
    refine ⟨l0.tables, extra, deeper.flatMap Level.tables, hextra, ?_, ?_⟩
    · simp [LsmTree.storageOrder, hl]
    · simp [LsmTree.storageOrder, hlevels, hl]

theorem During.askable {st : LsmTree × Nat} (h : During p s st) (hs : s.Askable) :
    st.1.Askable := by
  obtain ⟨front, extra, back, hextra, hold, hnew⟩ := h.storageOrder
  intro t ht
  rw [hnew, List.append_assoc, List.mem_append, List.mem_append] at ht
  rcases ht with ht | ht | ht
  · exact hs t (by rw [hold]; exact List.mem_append_left back ht)
  · obtain ⟨-, path, file, hwrite⟩ := hextra t ht
    exact SsTable.numBits_of_write hwrite
  · exact hs t (by rw [hold]; exact List.mem_append_right front ht)

/-- Tables in between that say the same do not change what is found. -/
theorem findSome?_between {look : Table → Option Tick} {x : Tick} {front extra back : List Table}
    (hextra : ∀ t ∈ extra, ∀ y, look t = some y → y = x)
    (h : (front ++ back).findSome? look = some x) :
    (front ++ extra ++ back).findSome? look = some x := by
  rw [List.findSome?_append] at h
  rw [List.append_assoc, List.findSome?_append, List.findSome?_append]
  cases hfront : front.findSome? look with
  | some y =>
    rw [hfront] at h
    exact h
  | none =>
    rw [hfront, Option.none_or] at h
    rw [h, Option.none_or]
    cases hfind : extra.findSome? look with
    | none => rfl
    | some y =>
      obtain ⟨t, ht, hy⟩ := List.exists_of_findSome?_eq_some hfind
      rw [hextra t ht y hy, Option.some_or]

theorem eq_some_of_firstAt_toList {o : Option Tick} {x : Tick}
    (h : firstAt Tick.key o.toList x.key = some x) : o = some x := by
  cases o with
  | none => cases h
  | some y =>
    rw [Option.toList_some, firstAt_cons] at h
    split_ifs at h
    · exact h
    · cases h

/-- A lookup of a key that the old tables answer alone. -/
theorem sound_get_of_tables (hs : s.Askable) {symbol : String} {ts : TimestampNs} {x : Tick}
    (hbefore : firstAt Tick.key (s.answer (.get symbol ts)) x.key = some x)
    (htables : firstAt Tick.key (s.drained.answer (.get symbol ts)) x.key = some x) :
    Sound (During p s) (fun r => ∃ rows, r = .ok rows ∧ firstAt Tick.key rows x.key = some x)
      (Query.get symbol ts).op := by
  have htime (s' : LsmTree) (time : Nat) (h : During p s (s', time)) :
      During p s (s', time + 1) := h.tick _
  cases hid : s.symbolDict.getId symbol with
  | none => simp [answer, hid] at hbefore
  | some id =>
    have hfind : s.find ⟨id, ts⟩ = some x :=
      eq_some_of_firstAt_toList (by simpa [answer, hid] using hbefore)
    have hold : probeAll s.newestFirst ⟨id, ts⟩ = some x :=
      eq_some_of_firstAt_toList (by simpa [answer, drained, find, newestFirst, hid] using htables)
    have hhit {y : Tick} (hy : s.memtable.get ⟨id, ts⟩ = some y) : y = x := by
      rw [find, hy] at hfind
      exact Option.some.inj hfind
    refine sound_bind ((sound_get Query.calm_io htime ts
      (fun st h => by rw [h.dict, hid]) fun st h => h.askable hs).mono ?_)
    rintro r ⟨a, b, ha, hb, rfl⟩
    refine sound_pure ⟨_, rfl, ?_⟩
    obtain ⟨extra, hextra, hnew⟩ := hb.newestFirst
    have hprobe : probeAll b.1.newestFirst ⟨id, ts⟩ = some x := by
      rw [hnew, probeAll, ← List.nil_append extra]
      refine findSome?_between (fun t ht y hy => ?_) hold
      obtain ⟨hmem, hkey⟩ := Table.mem_of_probe hy
      rw [(hextra t ht).1] at hmem
      exact hhit ((SkipList.get_eq_some_iff _ _ y).mpr ⟨hmem, hkey⟩)
    have hfound : (a.1.memtable.get ⟨id, ts⟩).or (probeAll b.1.newestFirst ⟨id, ts⟩) = some x := by
      rw [hprobe]
      rcases ha.memtable with h | h
      · rw [h]
        cases hget : s.memtable.get ⟨id, ts⟩ with
        | none => rfl
        | some y => rw [hhit hget, Option.some_or]
      · rw [h]
        rfl
    rw [hfound, Option.toList_some, firstAt_cons, if_pos rfl]

/-- A scan, for a key that the old tables answer alone. -/
theorem sound_scan_of_tables (hs : s.Askable) {symbol : Option String} {t1 t2 : TimestampNs}
    {x : Tick} (hbefore : firstAt Tick.key (s.answer (.scan symbol t1 t2)) x.key = some x)
    (htables : firstAt Tick.key (s.drained.answer (.scan symbol t1 t2)) x.key = some x) :
    Sound (During p s) (fun r => ∃ rows, r = .ok rows ∧ firstAt Tick.key rows x.key = some x)
      (Query.scan symbol t1 t2).op := by
  have htime (s' : LsmTree) (time : Nat) (h : During p s (s', time)) :
      During p s (s', time + 1) := h.tick _
  have hdict (st : LsmTree × Nat) (h : During p s st) : st.1.symbolDict = s.symbolDict := h.dict
  have hsome : ∃ st, During p s st := ⟨(s, 0), during_start p s 0⟩
  cases hid : s.idOf symbol with
  | none => simp [answer, hid] at hbefore
  | some symbolId =>
    have hid' : s.drained.idOf symbol = some symbolId := hid
    rw [answer, hid] at hbefore
    rw [answer, hid'] at htables
    dsimp only at hbefore htables
    rw [range, firstAt_mergeRows, collected, firstAt_append, firstAt_flatMap] at hbefore htables
    have hold : s.storageOrder.findSome? (fun t =>
        firstAt Tick.key (t.range s.symbolDict symbolId t1 t2) x.key) = some x := htables
    have hhit {y : Tick} (hy : firstAt Tick.key
        (s.memtable.chain.filter (SsTable.selects symbolId t1 t2)) x.key = some y) : y = x := by
      rw [hy] at hbefore
      exact Option.some.inj hbefore
    refine (sound_scan Query.calm_io htime hdict hsome (fun st h => h.idOf.trans hid)
      t1 t2 fun st h t ht => (h.askable hs t ht).answers _ _ _ _).mono ?_
    rintro r ⟨a, b, ha, hb, rfl⟩
    refine ⟨_, rfl, ?_⟩
    obtain ⟨front, extra, back, hextra, horder, hnew⟩ := hb.storageOrder
    rw [horder] at hold
    have hfind : b.1.storageOrder.findSome? (fun t =>
        firstAt Tick.key (t.range s.symbolDict symbolId t1 t2) x.key) = some x := by
      rw [hnew]
      refine findSome?_between (fun t ht y hy => hhit ?_) hold
      rw [Table.range, (hextra t ht).1] at hy
      split_ifs at hy
      · exact hy
      · cases hy
    rw [firstAt_mergeRows, firstAt_append, firstAt_flatMap, hfind]
    rcases ha.memtable with h | h
    · rw [h]
      cases hget : firstAt Tick.key
        (s.memtable.chain.filter (SsTable.selects symbolId t1 t2)) x.key with
      | none => rfl
      | some y => rw [hhit hget, Option.some_or]
    · rw [h]
      rfl

/-- Queries leave the tree alone. -/
theorem sound_query (hs : s.Askable) (q : Query) :
    Sound (During p s) (fun _ => True) q.op := by
  have htime (s' : LsmTree) (time : Nat) (h : During p s (s', time)) :
      During p s (s', time + 1) := h.tick _
  cases q with
  | get symbol ts =>
    cases hid : s.symbolDict.getId symbol with
    | none =>
      refine sound_bind (sound_withGuard (sound_bind (sound_gets fun st h => ?_)))
      rw [h.dict, hid]
      exact sound_throw trivial
    | some id =>
      refine sound_bind ((sound_get Query.calm_io htime ts
        (fun st h => by rw [h.dict, hid]) fun st h => h.askable hs).mono ?_)
      rintro r ⟨a, b, -, -, rfl⟩
      exact sound_pure trivial
  | scan symbol t1 t2 =>
    cases hid : s.idOf symbol with
    | none =>
      cases symbol with
      | none => cases hid
      | some symbol =>
        have hid' : s.symbolDict.getId symbol = none := Option.map_eq_none_iff.mp hid
        refine sound_bind (sound_withGuard (sound_bind (sound_gets fun st h => ?_)))
        rw [h.dict, hid']
        exact sound_throw trivial
    | some symbolId =>
      have hdict (st : LsmTree × Nat) (h : During p s st) : st.1.symbolDict = s.symbolDict := h.dict
      exact (sound_scan Query.calm_io htime hdict ⟨(s, 0), during_start p s 0⟩
        (fun st h => h.idOf.trans hid) t1 t2
        fun st h t ht => (h.askable hs t ht).answers _ _ _ _).mono fun _ _ => trivial

/-- After three actions the flush has drained the memtable and holds no guard. -/
theorem run_flush_drained (p : Platform) (env : Env) (s : LsmTree) (q : Query) :
    ∃ prog, run (Config.step fun _ _ _ g => g) (flushing p env s 0 [q]) [0, 0, 0] =
      ⟨[⟨[], prog⟩, ⟨[], q.op.run⟩], (s.drained, 0), ()⟩ :=
  ⟨_, rfl⟩

/-- A query may run to its end right after the drain. -/
theorem exists_schedule_drained (p : Platform) (hs : s.Askable) {q : Query} (hq : q.Known s) :
    ∃ schedule, (run (Config.step fun _ _ _ g => g) (flushing p .calm s 0 [q]) schedule).resultAt 1 =
      some (.ok (s.drained.answer q)) := by
  have hq' : q.Known s.drained := by
    cases q with
    | get symbol ts => exact hq
    | scan symbol t1 t2 => exact hq
  obtain ⟨prog, hprog⟩ := run_flush_drained p .calm s q
  obtain ⟨time, hexec⟩ := Query.exec_op (s := s.drained) hs hq' 0
  have hlt : 1 < [Thread.mk [] prog, ⟨[], q.op.run⟩].length := Nat.one_lt_two
  obtain ⟨n, g, hn⟩ := Config.run_alone (fun _ _ _ (g : Unit) => g) hlt rfl hexec ()
  refine ⟨[0, 0, 0] ++ List.replicate n 1, ?_⟩
  rw [run_append, hprog]
  exact congrArg (fun c => Config.resultAt c 1) hn

/-- A flush is invisible to a query for a tick exactly when the old tables alone give the
query this tick. -/
theorem flush_invisible_iff (p : Platform) (s : LsmTree) (hs : s.Askable) (q : Query) (x : Tick)
    (hbefore : firstAt Tick.key (s.answer q) x.key = some x) :
    StaysReadable p s q x ↔ firstAt Tick.key (s.drained.answer q) x.key = some x := by
  constructor
  · intro h
    have hq : q.Known s := Query.known_of_answer fun hnil => by simp [hnil] at hbefore
    obtain ⟨schedule, hresult⟩ := exists_schedule_drained p hs hq
    obtain ⟨rows, hrows, hfirst⟩ := h .calm 0 [q] schedule 0 _ rfl hresult
    cases hrows
    exact hfirst
  · intro htables env time queries schedule i r hq hr
    have hquery : Sound (During p s)
        (fun r => ∃ rows, r = .ok rows ∧ firstAt Tick.key rows x.key = some x) q.op := by
      cases q with
      | get symbol ts => exact sound_get_of_tables hs hbefore htables
      | scan symbol t1 t2 => exact sound_scan_of_tables hs hbefore htables
    have hflush : Sound (During p s) (fun _ => True)
        (do flushMemtable p env; return [] : LsmOp (List Tick)) := by
      refine sound_bind ((sound_flushMemtable p env s).mono fun r _ => ?_)
      cases r with
      | ok _ => exact sound_pure trivial
      | error e => trivial
    have hops (k : Nat) (op : LsmOp (List Tick))
        (hop : ((do flushMemtable p env; return []) :: queries.map Query.op)[k]? = some op) :
        Sound (During p s) (fun r => k = i + 1 →
          ∃ rows, r = .ok rows ∧ firstAt Tick.key rows x.key = some x) op := by
      cases k with
      | zero =>
        obtain rfl := Option.some.inj hop
        exact hflush.mono fun r _ hk => by cases hk
      | succ k =>
        rw [List.getElem?_cons_succ, List.getElem?_map, Option.map_eq_some_iff] at hop
        obtain ⟨q', hq', rfl⟩ := hop
        by_cases hk : k = i
        · rw [hk, hq] at hq'
          obtain rfl := Option.some.inj hq'
          exact hquery.mono fun r hr _ => hr
        · exact (sound_query hs q').mono fun r _ hk' => absurd (Nat.succ.inj hk') hk
    exact (Sound.interleaved hops (during_start p s time) schedule).post hr rfl

/-- A tree with one row in its memtable. -/
def oneRow : LsmTree :=
  ((fresh 10 .primary).take [flatTick 0 5 1]).withDict (SymbolDictionary.new.getOrInsert "A").2

theorem flush_invisible_one_row :
    StaysReadable .simple oneRow (.get "A" 5) (flatTick 0 5 1) ↔
      firstAt Tick.key (oneRow.drained.answer (.get "A" 5)) ⟨0, 5⟩ = some (flatTick 0 5 1) :=
  flush_invisible_iff .simple oneRow (List.forall_mem_nil _) (.get "A" 5) (flatTick 0 5 1)
    (by decide +kernel)

/-- A lookup between the drain and the registration of the table finds nothing. -/
theorem lookup_misses_row_in_flight :
    firstAt Tick.key (oneRow.answer (.get "A" 5)) ⟨0, 5⟩ = some (flatTick 0 5 1) ∧
      ¬ StaysReadable .simple oneRow (.get "A" 5) (flatTick 0 5 1) := by
  refine ⟨by decide +kernel, fun h => ?_⟩
  have hmiss : (run (Config.step fun _ _ _ g => g)
      (flushing .simple .calm oneRow 0 [.get "A" 5]) ([0, 0, 0] ++ List.replicate 10 1)).resultAt 1 =
        some (.ok []) := rfl
  obtain ⟨rows, hrows, hfirst⟩ := h .calm 0 [.get "A" 5] _ 0 _ rfl hmiss
  cases hrows
  cases hfirst

end LsmTree

end Graphite
