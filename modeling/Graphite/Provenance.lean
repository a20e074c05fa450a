import Graphite.CompactionEvents
import Graphite.GrowingState
import Graphite.LsmDurability
import Graphite.NamedStore
import Graphite.ReplicaPulls
import Graphite.ScanOrder

/-! Where the rows of an answer come from, while calls of several threads interleave and any
file operation may fail: every tick that is read was handed in by a call that had begun,
under the very symbol it is read under. -/

namespace Graphite
open KeyedRows LockProgram GuardedRuns

/-- A row that is handed in: the name of its symbol and the tick without an id, or no name and
the tick as it is. -/
abbrev Offer := Option String × Tick

/-- The row is stored as this tick. -/
def Offer.StoredAs (o : Offer) (dict : SymbolDictionary) (x : Tick) : Prop :=
  match o.1 with
  | some name => dict.getId name = some x.symbolId ∧ o.2 = x.withSymbol 0
  | none => o.2 = x

/-- The tick is one of these rows. -/
def Offered (offers : List Offer) (dict : SymbolDictionary) (x : Tick) : Prop :=
  ∃ o ∈ offers, o.StoredAs dict x

theorem Offered.mono {offers : List Offer} {d e : SymbolDictionary} {x : Tick}
    (h : Offered offers d x) (hgrown : d.idToSymbol <+: e.idToSymbol) : Offered offers e x := by
  obtain ⟨⟨name, tick⟩, ho, hstored⟩ := h
  refine ⟨⟨name, tick⟩, ho, ?_⟩
  cases name with
  | none => exact hstored
  | some name => exact ⟨SymbolDictionary.getId_of_grown hgrown hstored.1, hstored.2⟩

theorem Offered.subset {offers more : List Offer} {dict : SymbolDictionary} {x : Tick}
    (h : Offered offers dict x) (hsub : offers ⊆ more) : Offered more dict x := by
  obtain ⟨o, ho, hstored⟩ := h
  exact ⟨o, hsub ho, hstored⟩

/-- The rows of a call; those of a batch up to the end of its shortest column. -/
def InsertCall.offers : InsertCall → List Offer
  | insert symbol tick => [(some symbol, tick.withSymbol 0)]
  | insertBatch symbol batch => (List.range batch.len).filterMap fun i =>
    (batch.tickAt i 0).map fun tick => (some symbol, tick)
  | insertMulti ticks => ticks.map fun tick => (some tick.symbol, tick.toTick 0)

def ReplicationEntry.offer (e : ReplicationEntry) : Option Offer :=
  match e.record, e.symbol with
  | .insert tick, some symbol => some (some symbol, tick.withSymbol 0)
  | .insert tick, none => some (none, tick)
  | _, _ => none

/-- The rows of a call that a node with this role does not refuse. -/
def WriteCall.offers (role : NodeRole) : WriteCall → List Offer
  | insertion call => if call.refused role then [] else call.offers
  | applyReplicationBatch entries =>
    if role = .replica then entries.filterMap ReplicationEntry.offer else []

theorem withSymbol_withSymbol {x : Tick} (h : x.symbolId = 0) (id : SymbolId) :
    (x.withSymbol id).withSymbol 0 = x := by
  cases x
  cases h
  rfl

/-- Rows without ids, stored under the ids of their names. -/
theorem offered_stored {offers : List Offer} {dict : SymbolDictionary} {rows : List (String × Tick)}
    (hids : Deliveries.HasIds dict rows) (hplain : Plain rows)
    (hoffers : ∀ r ∈ rows, (some r.1, r.2) ∈ offers) :
    ∀ x ∈ rows.map (Deliveries.stored dict), Offered offers dict x := by
  refine List.forall_mem_map.mpr fun r hr => ?_
  obtain ⟨id, hid⟩ := hids r hr
  rw [Deliveries.stored, SymbolDictionary.getOrInsert_of_getId hid]
  exact ⟨(some r.1, r.2), hoffers r hr, hid, (withSymbol_withSymbol (hplain r hr) id).symm⟩

/-- A row of a batch. -/
theorem offered_tickAt {symbol : String} {batch : TickBatch} {i : Nat} {id : SymbolId} {x : Tick}
    {dict : SymbolDictionary} (hx : batch.tickAt i id = some x) (hi : i < batch.len)
    (hid : dict.getId symbol = some id) :
    Offered (InsertCall.insertBatch symbol batch).offers dict x := by
  rw [InsertCall.tickAt_eq] at hx
  obtain ⟨y, hy, rfl⟩ := Option.map_eq_some_iff.mp hx
  refine ⟨(some symbol, y), ?_, hid,
    (withSymbol_withSymbol (TickBatch.symbolId_of_tickAt hy) id).symm⟩
  exact List.mem_filterMap.mpr ⟨i, List.mem_range.mpr hi, by rw [hy]; rfl⟩

theorem offered_intern (dict : SymbolDictionary) (ticks : List SymbolTick) :
    ∀ x ∈ (dict.intern ticks).1,
      Offered (InsertCall.insertMulti ticks).offers (dict.intern ticks).2 x := by
  obtain ⟨hrows, hids⟩ := InsertCall.named_intern dict ticks List.prefix_rfl
  rw [hrows]
  refine offered_stored hids (InsertCall.plain_named _) (List.forall_mem_map.mpr fun tick htick => ?_)
  exact List.mem_map_of_mem htick

theorem offered_resolveEntries (dict : SymbolDictionary) (entries : List ReplicationEntry) :
    ∀ x ∈ (dict.resolveEntries entries).1,
      Offered (entries.filterMap ReplicationEntry.offer) (dict.resolveEntries entries).2 x := by
  induction entries generalizing dict with
  | nil => exact List.forall_mem_nil _
  | cons entry entries ih =>
    have hmore : entries.filterMap ReplicationEntry.offer ⊆
        (entry :: entries).filterMap ReplicationEntry.offer :=
      ((List.sublist_cons_self entry entries).filterMap _).subset
    obtain ⟨sequence, record, symbol⟩ := entry
    cases record with
    | delete key => exact fun x hx => (ih dict x hx).subset hmore
    | checkpoint sequence => exact fun x hx => (ih dict x hx).subset hmore
    | insert tick =>
      cases symbol with
      | none =>
        refine List.forall_mem_cons.mpr ⟨?_, fun x hx => (ih dict x hx).subset hmore⟩
        exact ⟨(none, tick), List.mem_cons_self, rfl⟩
      | some symbol =>
        refine List.forall_mem_cons.mpr ⟨?_, fun x hx => (ih _ x hx).subset hmore⟩
        exact ⟨(some symbol, tick.withSymbol 0), List.mem_cons_self,
          SymbolDictionary.getId_of_grown (SymbolDictionary.prefix_resolveEntries _ entries)
            (dict.getId_getOrInsert symbol), rfl⟩

/-- What the loop of a batch has put in when it ends, or meets the end of a column. -/
theorem LsmTree.batchLoop_rows (batch : TickBatch) (id : SymbolId) (count i : Nat) (s : LsmTree)
    (time : Nat) : ∃ rows, (batchLoop batch id count i (s, time)).2 = (s.take rows, time) ∧
      ∀ x ∈ rows, ∃ j, j < i + count ∧ batch.tickAt j id = some x := by
  induction count generalizing i s with
  | zero => exact ⟨[], rfl, List.forall_mem_nil _⟩
  | succ count ih =>
    unfold batchLoop
    cases htick : batch.tickAt i id with
    | none => exact ⟨[], rfl, List.forall_mem_nil _⟩
    | some tick =>
      obtain ⟨rows, hloop, hrows⟩ := ih (i + 1) (s.take [tick])
      rw [LsmTree.take_take] at hloop
      refine ⟨tick :: rows, ?_, List.forall_mem_cons.mpr ⟨⟨i, by omega, htick⟩, fun x hx => ?_⟩⟩
      · refine Eq.trans (congrArg Prod.snd ((DiskM.bind_ok rfl _).trans (DiskM.bind_ok rfl _))) ?_
        rcases DiskM.bind_cases (batchLoop batch id count (i + 1)) (fun rest => pure (tick :: rest))
          (s.take [tick], time) with ⟨a, st, hfirst, h⟩ | ⟨e, st, hfirst, h⟩
        all_goals
          rw [hfirst] at hloop
          exact (congrArg Prod.snd h).trans hloop
      · obtain ⟨j, hj, hx⟩ := hrows x hx
        exact ⟨j, by omega, hx⟩

namespace CompactionManager

variable {P : Tick → Prop} {m m' : CompactionManager}

/-- All rows of the tables have the property. -/
def HasOnly (m : CompactionManager) (P : Tick → Prop) : Prop :=
  ∀ n, ∀ t ∈ m.tablesAt n, ∀ x ∈ t.rows, P x

theorem HasOnly.merge {p : Platform} {i : Nat} (h : m.HasOnly P) (hmerged : PartlyMerged p i m m') :
    m'.HasOnly P := by
  intro n t ht
  by_cases hi : n = i
  · subst hi
    rcases hmerged.here with hsame | hnil
    · exact h n t (hsame ▸ ht)
    · rw [hnil] at ht
      cases ht
  by_cases hnext : n = i + 1
  · subst hnext
    obtain ⟨tables, hlevel, hparts, -⟩ := hmerged.next
    rw [hlevel, List.mem_append] at ht
    rcases ht with ht | ht
    · exact h (i + 1) t ht
    intro x hx
    have hmem := List.mem_flatten_of_mem (hparts.subset (List.mem_map_of_mem ht)) hx
    rw [flatten_chunks (by decide)] at hmem
    obtain ⟨t', ht', hx'⟩ := List.mem_flatMap.mp (mem_mergeRows Tick.key hmem)
    exact h i t' ht' x hx'
  · exact h n t (hmerged.others n hi hnext ▸ ht)

/-- A compaction writes no row that it has not read. -/
theorem HasOnly.compact (h : m.HasOnly P) (p : Platform) (env : Env) (time : Nat) :
    (compact p env (m, time)).2.1.HasOnly P :=
  compact_induct (p := p) (Q := fun m => m.HasOnly P) h (fun _ _ _ _ _ hm => hm.merge) time

end CompactionManager

/-- Every row of the memtable and of a registered table was handed in. -/
structure Sourced (offers : List Offer) (s : LsmTree) : Prop where
  memtable : ∀ x ∈ s.memtable.chain, Offered offers s.symbolDict x
  tables : ∀ t ∈ s.storageOrder, ∀ x ∈ t.rows, Offered offers s.symbolDict x

namespace Sourced
open LsmTree

variable {offers : List Offer} {s s' : LsmTree}

theorem sameStore (h : Sourced offers s) (hsame : SameStore s s') : Sourced offers s' := by
  obtain ⟨hmemtable, hcompaction, hdict⟩ := hsame
  refine ⟨?_, ?_⟩
  · rw [hmemtable, hdict]
    exact h.memtable
  · rw [storageOrder, hcompaction, hdict]
    exact h.tables

theorem withDict (h : Sourced offers s) {dict : SymbolDictionary}
    (hgrown : s.symbolDict.idToSymbol <+: dict.idToSymbol) : Sourced offers (s.withDict dict) where
  memtable x hx := (h.memtable x hx).mono hgrown
  tables t ht x hx := (h.tables t ht x hx).mono hgrown

theorem take (h : Sourced offers s) {rows : List Tick}
    (hrows : ∀ x ∈ rows, Offered offers s.symbolDict x) : Sourced offers (s.take rows) where
  memtable x hx := (SkipList.mem_insertAll hx).elim (hrows x) (h.memtable x)
  tables := h.tables

theorem drained (h : Sourced offers s) : Sourced offers s.drained where
  memtable := List.forall_mem_nil _
  tables := h.tables

theorem register (h : Sourced offers s) (hlevels : s.compaction.levels ≠ []) {t : Table}
    (ht : ∀ x ∈ t.rows, Offered offers s.symbolDict x) : Sourced offers (s.register t) where
  memtable := h.memtable
  tables t' ht' := ((mem_storageOrder_register hlevels).mp ht').elim (h.tables t') (by rintro rfl; exact ht)

theorem compacted (h : Sourced offers s) (p : Platform) (env : Env) (time : Nat) :
    Sourced offers
      { s with compaction := (CompactionManager.compact p env (s.compaction, time)).2.1 } := by
  have hrows : s.compaction.HasOnly (Offered offers s.symbolDict) := fun n t ht =>
    h.tables t ((CompactionManager.mem_registered_iff _ t).mpr ⟨n, ht⟩)
  refine ⟨h.memtable, fun t ht => ?_⟩
  obtain ⟨n, hn⟩ := (CompactionManager.mem_registered_iff _ t).mp ht
  exact hrows.compact p env time n t hn

end Sourced

/-- All rows have been handed in, symbols are only added, and the node keeps its role. -/
def provenance (role : NodeRole) (offers : List Offer) : Growth (LsmTree × Nat) where
  good st := st.1.role = role ∧ Sourced offers st.1
  grows st st' := st.1.symbolDict.idToSymbol <+: st'.1.symbolDict.idToSymbol
  refl _ := List.prefix_rfl
  trans := List.IsPrefix.trans

section Writes
open LsmTree

variable {role : NodeRole} {offers : List Offer} {p : Platform} {c : Codec} {env : Env}
  {st : LsmTree × Nat}

/-- An action on another part of the tree. -/
theorem steady_sameStore {α : Type}
    {f : LsmTree × Nat → Except (Stop LsmError) α × (LsmTree × Nat)}
    {post : Except (Stop LsmError) α → LsmTree × Nat → Prop}
    (hsame : ∀ st : LsmTree × Nat, SameStore st.1 (f st).2.1 ∧ (f st).2.1.role = st.1.role)
    (hpost : ∀ st', (provenance role offers).grows st st' →
      (provenance role offers).grows st (f st').2 → post (f st').1 (f st').2) :
    Steady (provenance role offers) post (attempt f : LsmOp α) st := by
  refine steady_attempt fun st' hgrows hgood => ?_
  have hmore : (provenance role offers).grows st' (f st').2 := by
    change _ <+: (f st').2.1.symbolDict.idToSymbol
    rw [(hsame st').1.symbolDict]
  exact ⟨⟨(hsame st').2.trans hgood.1, hgood.2.sameStore (hsame st').1⟩, hmore,
    hpost st' hgrows (hgrows.trans hmore)⟩

theorem sameStore_onWal {α : Type} (f : Nat → Wal → Except (Stop WalError) α × Wal)
    (st : LsmTree × Nat) : SameStore st.1 (onWal f st).2.1 ∧ (onWal f st).2.1.role = st.1.role :=
  ⟨⟨rfl, rfl, rfl⟩, rfl⟩

/-- Rows that were handed in go to the memtable. -/
theorem steady_take {α : Type} {rows : List Tick} {dict : SymbolDictionary}
    {f : LsmTree × Nat → Except (Stop LsmError) α × (LsmTree × Nat)}
    (hf : ∀ st', SameStore (st'.1.take rows) (f st').2.1 ∧ (f st').2.1.role = st'.1.role)
    (hrows : ∀ x ∈ rows, Offered offers dict x)
    (hgrown : dict.idToSymbol <+: st.1.symbolDict.idToSymbol) :
    Steady (provenance role offers) (fun _ _ => True) (attempt f : LsmOp α) st := by
  refine steady_attempt fun st' hgrows hgood => ?_
  refine ⟨⟨(hf st').2.trans hgood.1, (hgood.2.take fun x hx => ?_).sameStore (hf st').1⟩, ?_, trivial⟩
  · exact (hrows x hx).mono (hgrown.trans hgrows)
  · change _ <+: (f st').2.1.symbolDict.idToSymbol
    rw [(hf st').1.symbolDict]
    exact List.prefix_rfl

theorem steady_flushMemtable :
    Steady (provenance role offers) (fun _ _ => True) (flushMemtable p env) st := by
  refine steady_bind (steady_withGuard (steady_attempt fun st₁ _ hgood₁ => ?_))
  rw [drainMemtable_eq]
  refine ⟨⟨hgood₁.1, hgood₁.2.drained⟩, List.prefix_rfl, ?_⟩
  dsimp only
  split_ifs with hchain
  · exact steady_pure trivial
  refine steady_bind (steady_sameStore (fun _ => ⟨⟨rfl, rfl, rfl⟩, rfl⟩) fun st₂ hgrows₂ _ => ?_)
  refine steady_bind (steady_withGuard (steady_gets fun st₃ hgrows₃ _ => ?_))
  refine steady_bind (steady_sameStore (fun st => ?_) fun st₄ hgrows₄ _ => ?_)
  · rw [(writeTable_spec p env _ _ _ st).1]
    exact ⟨⟨rfl, rfl, rfl⟩, rfl⟩
  obtain ⟨hstate, hrows⟩ := writeTable_spec p env (tableName 0 (env.now st₂.2))
    st₁.1.memtable.chain st₃.1.symbolDict st₄
  rw [hstate]
  cases hwrite : (writeTable p env LsmError.ssTable (tableName 0 (env.now st₂.2))
      st₁.1.memtable.chain 0 st₃.1.symbolDict st₄).1 with
  | error e => trivial
  | ok t =>
    have hgrows : (provenance role offers).grows st₁ st₄ := (hgrows₂.trans hgrows₃).trans hgrows₄
    refine steady_bind (steady_withGuard (steady_attempt fun st₅ hgrows₅ hgood₅ => ?_))
    by_cases hlevels : st₅.1.compaction.levels = []
    · have hadd : addToLevel0 t st₅ = (.error .panic, st₅) := by
        simp only [addToLevel0, hlevels]
      rw [hadd]
      exact ⟨hgood₅, List.prefix_rfl, trivial⟩
    · rw [addToLevel0_eq hlevels]
      refine ⟨⟨hgood₅.1, hgood₅.2.register hlevels fun x hx => ?_⟩, List.prefix_rfl, ?_⟩
      · rw [hrows t hwrite] at hx
        exact (hgood₁.2.memtable x hx).mono (hgrows.trans hgrows₅)
      · exact steady_withGuard (steady_sameStore (fun st => sameStore_onWal _ st)
          fun _ _ _ => trivial)

theorem steady_flushIfFull (len : Nat) :
    Steady (provenance role offers) (fun _ _ => True) (flushIfFull p env len) st := by
  refine steady_bind (steady_gets fun st' _ _ => ?_)
  dsimp only
  split_ifs
  · exact steady_flushMemtable
  · exact steady_pure trivial

theorem steady_getOrInsert (symbol : String) :
    Steady (provenance role offers) (fun r st' => ∀ id, r = .ok id →
      st'.1.symbolDict.getId symbol = some id) (attempt (getOrInsert symbol) : LsmOp SymbolId) st := by
  refine steady_attempt fun st' _ hgood => ?_
  have hgrown := st'.1.symbolDict.prefix_getOrInsert symbol
  refine ⟨⟨hgood.1, hgood.2.withDict hgrown⟩, hgrown, fun id hid => ?_⟩
  cases hid
  exact st'.1.symbolDict.getId_getOrInsert symbol

/-- What the log does is not seen by readers. -/
theorem steady_onWal {α : Type} (f : Nat → Wal → Except (Stop WalError) α × Wal) :
    Steady (provenance role offers) (fun _ _ => True) (attempt (onWal f) : LsmOp α) st :=
  steady_sameStore (sameStore_onWal f) fun _ _ _ => trivial

theorem steady_store {call : InsertCall} (hsub : call.offers ⊆ offers) :
    Steady (provenance role offers) (fun _ _ => True) (call.store c env) st := by
  have hlog (ticks : List Tick) {st : LsmTree × Nat} : Steady (provenance role offers) (fun _ _ => True)
      (do
        let _ ← withGuard .wal .write (attempt (appendWalBatch c env (ticks.map .insert)))
        gets fun st => st.1.memtable.len : LsmOp Nat) st :=
    (steady_withGuard (steady_onWal _)).bind (fun _ _ _ _ => steady_gets fun _ _ _ => trivial)
      fun _ _ _ => trivial
  cases call with
  | insert symbol tick =>
    refine (steady_getOrInsert symbol).bind (fun id st₁ hid _ => ?_) fun _ _ _ => trivial
    refine (steady_withGuard (steady_onWal _)).bind (fun _ st₂ _ hgrows₂ => ?_) fun _ _ _ => trivial
    have hoffered : ∀ x ∈ [tick.withSymbol id], Offered offers st₁.1.symbolDict x := by
      refine List.forall_mem_singleton.mpr ⟨(some symbol, tick.withSymbol 0), ?_, hid id rfl, rfl⟩
      exact hsub List.mem_cons_self
    have htake : Steady (provenance role offers) (fun _ _ => True)
        (withGuard .memtable .write (attempt (insertMemtable (tick.withSymbol id))) : LsmOp Unit)
        st₂ := steady_withGuard (steady_take (fun _ => ⟨⟨rfl, rfl, rfl⟩, rfl⟩) hoffered hgrows₂)
    have hcount {st : LsmTree × Nat} : Steady (provenance role offers) (fun _ _ => True)
        (attempt countRow : LsmOp Unit) st :=
      steady_sameStore (fun _ => ⟨⟨rfl, rfl, rfl⟩, rfl⟩) fun _ _ _ => trivial
    refine htake.bind (fun _ _ _ _ => ?_) fun _ _ _ => trivial
    refine hcount.bind (fun _ _ _ _ => ?_) fun _ _ _ => trivial
    exact steady_withGuard (steady_gets fun _ _ _ => trivial)
  | insertBatch symbol batch =>
    refine (steady_getOrInsert symbol).bind (fun id st₁ hid _ => ?_) fun _ _ _ => trivial
    have hloop : Steady (provenance role offers) (fun _ _ => True)
        (attempt (batchLoop batch id batch.len 0) : LsmOp (List Tick)) st₁ := by
      refine steady_attempt fun st₂ hgrows₂ hgood₂ => ?_
      obtain ⟨rows, hloop, hrows⟩ := batchLoop_rows batch id batch.len 0 st₂.1 st₂.2
      rw [hloop]
      refine ⟨⟨hgood₂.1, hgood₂.2.take fun x hx => ?_⟩, List.prefix_rfl, trivial⟩
      obtain ⟨j, hj, hx⟩ := hrows x hx
      exact (offered_tickAt hx (by omega)
        (SymbolDictionary.getId_of_grown hgrows₂ (hid id rfl))).subset hsub
    exact steady_withGuard (hloop.bind (fun _ _ _ _ => hlog _) fun _ _ _ => trivial)
  | insertMulti ticks =>
    have hloop : Steady (provenance role offers) (fun _ _ => True)
        (attempt (multiLoop ticks) : LsmOp (List Tick)) st := by
      refine steady_attempt fun st₁ _ hgood₁ => ?_
      rw [multiLoop_eq ticks st₁.1 st₁.2]
      have hgrown := (InsertCall.intern_spec st₁.1.symbolDict ticks).1
      refine ⟨⟨hgood₁.1, (hgood₁.2.withDict hgrown).take fun x hx => ?_⟩, hgrown, trivial⟩
      exact (offered_intern st₁.1.symbolDict ticks x hx).subset hsub
    exact steady_withGuard (hloop.bind (fun _ _ _ _ => hlog _) fun _ _ _ => trivial)

theorem steady_insertCall {call : InsertCall} (hsub : (WriteCall.insertion call).offers role ⊆ offers) :
    Steady (provenance role offers) (fun _ _ => True) (call.op p c env) st := by
  have hstore {st : LsmTree × Nat} (haccepted : call.refused role = false) : Steady (provenance role offers) (fun _ _ => True)
      (withGuard .symbolDict .write (call.store c env >>= flushIfFull p env) : LsmOp Unit) st :=
    steady_withGuard ((steady_store (by simpa [WriteCall.offers, haccepted] using hsub)).bind
      (fun len _ _ _ => steady_flushIfFull len) fun _ _ _ => trivial)
  cases call with
  | insert symbol tick =>
    refine steady_bind (steady_gets fun st' _ hgood => ?_)
    dsimp only
    split_ifs with hrole
    · exact steady_throw trivial
    · rw [hgood.1] at hrole
      exact hstore (decide_eq_false hrole)
  | insertBatch symbol batch =>
    rw [InsertCall.op, LsmTree.insertBatch]
    split_ifs
    · exact steady_pure trivial
    · exact hstore rfl
  | insertMulti ticks =>
    rw [InsertCall.op, LsmTree.insertMulti]
    split_ifs
    · exact steady_pure trivial
    · exact hstore rfl

theorem steady_storeReplicated {entries : List ReplicationEntry}
    (hsub : entries.filterMap ReplicationEntry.offer ⊆ offers) :
    Steady (provenance role offers) (fun _ _ => True) (storeReplicated c env entries) st := by
  have hresolve : Steady (provenance role offers) (fun r st' => ∀ ticks, r = .ok ticks → ∀ x ∈ ticks,
      Offered offers st'.1.symbolDict x) (attempt (resolve entries) : LsmOp (List Tick)) st := by
    refine steady_attempt fun st₁ _ hgood₁ => ?_
    rw [resolve_eq entries st₁.1 st₁.2]
    have hgrown := st₁.1.symbolDict.prefix_resolveEntries entries
    refine ⟨⟨hgood₁.1, hgood₁.2.withDict hgrown⟩, hgrown, fun ticks hticks x hx => ?_⟩
    cases hticks
    exact (offered_resolveEntries st₁.1.symbolDict entries x hx).subset hsub
  refine (steady_withGuard hresolve).bind (fun ticks st₂ hticks _ => ?_) fun _ _ _ => trivial
  refine (steady_withGuard (steady_onWal _)).bind (fun _ st₃ _ hgrows₃ => ?_) fun _ _ _ => trivial
  have htake : Steady (provenance role offers) (fun _ _ => True)
      (attempt (insertResolved ticks) : LsmOp Unit) st₃ := by
    refine steady_take (fun st => ?_) (hticks ticks rfl) hgrows₃
    rw [insertResolved_eq ticks st.1 st.2]
    exact ⟨⟨rfl, rfl, rfl⟩, rfl⟩
  exact steady_withGuard (htake.bind (fun _ _ _ _ => steady_gets fun _ _ _ => trivial)
    fun _ _ _ => trivial)

theorem steady_applyReplicationBatch {entries : List ReplicationEntry}
    (hsub : (WriteCall.applyReplicationBatch entries).offers role ⊆ offers) :
    Steady (provenance role offers) (fun _ _ => True) (applyReplicationBatch p c env entries) st := by
  unfold applyReplicationBatch
  split_ifs
  · exact steady_pure trivial
  refine steady_bind (steady_gets fun st' _ hgood => ?_)
  dsimp only
  split_ifs with hrole
  · exact steady_throw trivial
  rw [hgood.1, not_not] at hrole
  rw [WriteCall.offers, if_pos hrole] at hsub
  refine (steady_storeReplicated hsub).bind (fun len _ _ _ => ?_) fun _ _ _ => trivial
  refine (steady_flushIfFull len).bind (fun _ _ _ _ => ?_) fun _ _ _ => trivial
  have hadvance {st : LsmTree × Nat} : Steady (provenance role offers) (fun _ _ => True)
      (attempt (advance env (((entries.map ReplicationEntry.sequence).max?).getD 0)) : LsmOp Unit)
      st := by
    refine steady_sameStore (fun st => ?_) fun _ _ _ => trivial
    obtain ⟨r, last, time', h⟩ := Deliveries.advance_spec env
      (((entries.map ReplicationEntry.sequence).max?).getD 0) st.1 st.2
    rw [h]
    exact ⟨⟨rfl, rfl, rfl⟩, rfl⟩
  exact (steady_withGuard hadvance).bind (fun _ _ _ _ => steady_pure trivial) fun _ _ _ => trivial

theorem steady_compact : Steady (provenance role offers) (fun _ _ => True) (compact p env) st :=
  steady_withGuard (steady_attempt fun st' _ hgood =>
    ⟨⟨hgood.1, hgood.2.compacted p env st'.2⟩, List.prefix_rfl, trivial⟩)

end Writes

/-- The tick is one that a reader asks for: of that symbol, if any is named, and of a time
from `t1` to `t2`. -/
def AskedFor (symbol : Option String) (t1 t2 : TimestampNs) (dict : SymbolDictionary) (x : Tick) :
    Prop :=
  (∀ name ∈ symbol, dict.getId name = some x.symbolId) ∧ t1 ≤ x.timestamp ∧ x.timestamp ≤ t2

theorem Table.mem_scan {t : Table} {symbolId : Option SymbolId} {t1 t2 : TimestampNs} {x : Tick}
    (h : x ∈ t.scan symbolId t1 t2) : x ∈ t.rows ∧ SsTable.selects symbolId t1 t2 x = true := by
  unfold Table.scan at h
  split_ifs at h
  · cases h
  · cases h
  · exact List.mem_filter.mp h

namespace ScanStream

/-- All that a stream has in its hands or will read from its tables has the property. -/
structure Holds (P : Tick → Prop) (s : ScanStream) : Prop where
  memtable : ∀ x ∈ s.memtableTicks, P x
  batch : ∀ x ∈ s.currentBatch, P x
  tables : ∀ t ∈ s.sstables, ∀ x ∈ batchOf s.params t, P x

variable {P : Tick → Prop} {s : ScanStream}

theorem Holds.ensure (h : s.Holds P) (opens : Table → Bool) :
    (s.ensureSstableBatch opens).Holds P := by
  unfold ensureSstableBatch loadNextSstableBatch
  split_ifs with hnext
  · cases htable : s.sstables[s.sstableIdx]? with
    | none => exact h
    | some t =>
      dsimp only
      split_ifs
      · exact ⟨h.memtable, h.tables t (List.mem_of_getElem? htable), h.tables⟩
      · exact ⟨h.memtable, h.batch, h.tables⟩
  · exact h

theorem Holds.advanceMemtable (h : s.Holds P) : s.advanceMemtable.Holds P :=
  ⟨h.memtable, h.batch, h.tables⟩

theorem Holds.advanceSstable (h : s.Holds P) : s.advanceSstable.Holds P := by
  unfold ScanStream.advanceSstable
  split_ifs
  · exact ⟨h.memtable, List.forall_mem_nil _, h.tables⟩
  · exact ⟨h.memtable, h.batch, h.tables⟩

theorem Holds.pick (h : s.Holds P) {x : Tick} {s' : ScanStream} (hpick : s.pick = some (x, s')) :
    P x ∧ s'.Holds P := by
  have hmem {m : Tick} (hm : s.peekMemtable = some m) : P m :=
    h.memtable m (List.mem_of_getElem? hm)
  have hbatch {y : Tick} (hy : s.peekSstable = some y) : P y :=
    h.batch y (List.mem_of_getElem? hy)
  unfold ScanStream.pick at hpick
  split at hpick
  · cases hpick
  · rename_i m hm _
    cases hpick
    exact ⟨hmem hm, h.advanceMemtable⟩
  · rename_i y _ hy
    cases hpick
    exact ⟨hbatch hy, h.advanceSstable⟩
  · rename_i m y hm hy
    split_ifs at hpick
    · cases hpick
      exact ⟨hmem hm, h.advanceMemtable⟩
    · cases hpick
      exact ⟨hmem hm, h.advanceMemtable.advanceSstable⟩
    · cases hpick
      exact ⟨hbatch hy, h.advanceSstable⟩

theorem Holds.nextTickLoop (h : s.Holds P) {opens : Table → Bool} {fuel : Nat} {x : Tick}
    {s' : ScanStream} (hnext : s.nextTickLoop opens fuel = some (some x, s')) :
    P x ∧ s'.Holds P := by
  induction fuel generalizing s with
  | zero => cases hnext
  | succ fuel ih =>
    rw [ScanStream.nextTickLoop] at hnext
    cases hpick : (s.ensureSstableBatch opens).pick with
    | none =>
      rw [hpick] at hnext
      cases hnext
    | some picked =>
      obtain ⟨next, rest⟩ := picked
      obtain ⟨hx, hrest⟩ := (h.ensure opens).pick hpick
      rw [hpick] at hnext
      dsimp only at hnext
      split_ifs at hnext
      · exact ih hrest hnext
      · cases hnext
        exact ⟨hx, hrest.memtable, hrest.batch, hrest.tables⟩

theorem Holds.collectLoop (h : s.Holds P) {opens : Table → Bool} {fuel : Nat} {ticks : List Tick}
    (hcollect : s.collectLoop opens fuel = some ticks) : ∀ x ∈ ticks, P x := by
  induction fuel generalizing s ticks with
  | zero => cases hcollect
  | succ fuel ih =>
    rw [ScanStream.collectLoop] at hcollect
    obtain ⟨⟨found, s'⟩, hnext, hcollect⟩ := Option.bind_eq_some_iff.mp hcollect
    cases found with
    | none =>
      cases hcollect
      exact List.forall_mem_nil _
    | some tick =>
      obtain ⟨rest, hrest, hcollect⟩ := Option.bind_eq_some_iff.mp hcollect
      cases hcollect
      obtain ⟨hx, hs'⟩ := h.nextTickLoop hnext
      exact List.forall_mem_cons.mpr ⟨hx, ih hs' hrest⟩

/-- A stream over the rows of the tree that are asked for. -/
theorem holds_new {memtable : SkipList} {compaction : CompactionManager} {dict : SymbolDictionary}
    {params : ScanParams} {stream : ScanStream} (hnew : new memtable compaction dict params = some stream)
    (hmemtable : ∀ x ∈ memtable.chain, SsTable.selects params.symbolId params.t1 params.t2 x = true → P x)
    (htables : ∀ t ∈ compaction.levels.flatMap Level.tables, ∀ x ∈ t.rows,
      SsTable.selects params.symbolId params.t1 params.t2 x = true → P x) : stream.Holds P := by
  obtain ⟨sstables, hselect, hnew⟩ := Option.bind_eq_some_iff.mp hnew
  cases hnew
  refine ⟨fun x hx => ?_, List.forall_mem_nil _, fun t ht x hx => ?_⟩
  · obtain ⟨hx, hselects⟩ := List.mem_filter.mp ((mem_sortRows Tick.key).mp hx)
    exact hmemtable x hx hselects
  · obtain ⟨hx, hselects⟩ := Table.mem_scan ((mem_sortRows Tick.key).mp hx)
    rw [(selectTables_eq_some hselect).1] at ht
    exact htables t (List.mem_filter.mp ht).1 x hx hselects

end ScanStream

section Reads
open LsmTree

variable {role : NodeRole} {offers : List Offer} {env : Env} {st : LsmTree × Nat}

/-- The rows that a reader returns were handed in, and are among those it asks for. -/
def Returns (offers : List Offer) (symbol : Option String) (t1 t2 : TimestampNs)
    (r : Except (Stop LsmError) (List Tick)) (st : LsmTree × Nat) : Prop :=
  ∀ ticks, r = .ok ticks → ∀ x ∈ ticks,
    Offered offers st.1.symbolDict x ∧ AskedFor symbol t1 t2 st.1.symbolDict x

theorem AskedFor.mono {symbol : Option String} {t1 t2 : TimestampNs} {d e : SymbolDictionary}
    {x : Tick} (h : AskedFor symbol t1 t2 d x) (hgrown : d.idToSymbol <+: e.idToSymbol) :
    AskedFor symbol t1 t2 e x :=
  ⟨fun name hname => SymbolDictionary.getId_of_grown hgrown (h.1 name hname), h.2⟩

theorem askedFor_of_selects {s : LsmTree} {symbol : Option String} {symbolId : Option SymbolId}
    (hid : s.idOf symbol = some symbolId) {t1 t2 : TimestampNs} {x : Tick}
    (h : SsTable.selects symbolId t1 t2 x = true) : AskedFor symbol t1 t2 s.symbolDict x := by
  simp only [SsTable.selects, Bool.and_eq_true, decide_eq_true_eq] at h
  obtain ⟨⟨h1, h2⟩, hsymbol⟩ := h
  refine ⟨fun name hname => ?_, h1, h2⟩
  cases hname
  obtain ⟨id, hget, rfl⟩ := Option.map_eq_some_iff.mp hid
  rw [hget, eq_of_beq hsymbol]

theorem steady_fileOp (e : LsmError) :
    Steady (provenance role offers) (fun _ _ => True) (attempt (fileOp env e) : LsmOp Unit) st :=
  steady_sameStore (fun _ => ⟨⟨rfl, rfl, rfl⟩, rfl⟩) fun _ _ _ => trivial

/-- The name is looked up once. -/
theorem steady_lookUp (symbol : Option String) :
    Steady (provenance role offers) (fun r st' => ∀ symbolId, r = .ok symbolId →
      st'.1.idOf symbol = some symbolId) (lookUp symbol) st := by
  cases symbol with
  | none =>
    refine steady_pure fun symbolId h => ?_
    cases h
    rfl
  | some symbol =>
    refine steady_withGuard (steady_bind (steady_gets fun st' _ _ => ?_))
    dsimp only
    cases hid : st'.1.symbolDict.getId symbol with
    | none => exact steady_throw fun _ h => by cases h
    | some id =>
      refine steady_pure fun symbolId h => ?_
      cases h
      exact idOf_some hid

theorem steady_probeTables {key : Key} {tables : List Table}
    (htables : ∀ t ∈ tables, ∀ x ∈ t.rows, Offered offers st.1.symbolDict x) :
    Steady (provenance role offers) (fun r st' => ∀ x, r = .ok (some x) →
      Offered offers st'.1.symbolDict x ∧ x.key = key) (probeTables env key tables) st := by
  induction tables generalizing st with
  | nil => exact steady_pure fun x h => by cases h
  | cons t tables ih =>
    have hrest {st' : LsmTree × Nat} (hgrows : (provenance role offers).grows st st') :=
      ih fun t' ht' x hx => (htables t' (List.mem_cons_of_mem t ht') x hx).mono hgrows
    rw [probeTables]
    cases t.sst.mayContainKey key with
    | none => exact steady_throw fun x h => by cases h
    | some passes =>
      cases passes with
      | false => exact hrest List.prefix_rfl
      | true =>
        dsimp only
        split_ifs
        · refine (steady_fileOp _).bind (fun _ st' _ hgrows => ?_) fun _ _ _ x h => by cases h
          cases hfound : (t.reopen.scan (some key.symbolId) key.timestamp key.timestamp).head? with
          | none => exact hrest hgrows
          | some y =>
            obtain ⟨hy, hselects⟩ := Table.mem_scan (List.mem_of_head? hfound)
            refine steady_pure fun x h => ?_
            cases h
            refine ⟨(htables t List.mem_cons_self y hy).mono hgrows, ?_⟩
            simp only [SsTable.selects, Bool.and_eq_true, decide_eq_true_eq, Option.all_some,
              beq_iff_eq] at hselects
            exact congrArg₂ Key.mk hselects.2.symm (Int64.le_antisymm hselects.1.2 hselects.1.1)
        · exact hrest List.prefix_rfl

theorem steady_get (symbol : String) (t : TimestampNs) :
    Steady (provenance role offers) (fun r st' => ∀ x, r = .ok (some x) →
      Offered offers st'.1.symbolDict x ∧ AskedFor (some symbol) t t st'.1.symbolDict x)
      (get env symbol t) st := by
  refine steady_withGuard (steady_bind (steady_gets fun st₁ _ _ => ?_))
  dsimp only
  cases hid : st₁.1.symbolDict.getId symbol with
  | none => exact steady_throw fun x h => by cases h
  | some id =>
    have hasked {st' : LsmTree × Nat} (hgrows : (provenance role offers).grows st₁ st') {x : Tick}
        (hkey : x.key = ⟨id, t⟩) : AskedFor (some symbol) t t st'.1.symbolDict x := by
      obtain ⟨rfl, rfl⟩ := Key.mk.inj hkey
      refine ⟨fun name hname => ?_, Int64.le_refl _, Int64.le_refl _⟩
      cases hname
      exact SymbolDictionary.getId_of_grown hgrows hid
    refine steady_bind (steady_withGuard (steady_gets fun st₂ hgrows₂ hgood₂ => ?_))
    dsimp only
    cases hfound : st₂.1.memtable.get ⟨id, t⟩ with
    | some y =>
      obtain ⟨hy, hkey⟩ := (st₂.1.memtable.get_eq_some_iff _ _).mp hfound
      refine steady_pure fun x h => ?_
      cases h
      exact ⟨hgood₂.2.memtable y hy, hasked hgrows₂ hkey⟩
    | none =>
      refine steady_withGuard (steady_bind (steady_gets fun st₃ hgrows₃ hgood₃ => ?_))
      have hgrows : (provenance role offers).grows st₁ st₃ := hgrows₂.trans hgrows₃
      have hprobe : Steady (provenance role offers) (fun r st' => ∀ x, r = .ok (some x) →
          Offered offers st'.1.symbolDict x ∧ x.key = ⟨id, t⟩)
          (probeTables env ⟨id, t⟩ (st₃.1.compaction.levels.flatMap fun l => l.tables.reverse)) st₃ :=
        steady_probeTables fun t' ht' => hgood₃.2.tables t' (mem_newestFirst.mp ht')
      refine hprobe.grown.mono ?_
      rintro r st₄ ⟨hr, hgrows₄⟩ x hx
      exact ⟨(hr x hx).1, hasked (hgrows.trans hgrows₄) (hr x hx).2⟩

/-- The pushdown of a scan only looks at the dictionary. -/
theorem steady_mayHold (t : Table) (symbolId : Option SymbolId) :
    Steady (provenance role offers) (fun _ _ => True) (mayHold t symbolId) st := by
  cases symbolId with
  | none => exact steady_pure trivial
  | some id =>
    refine steady_bind (steady_withGuard (steady_gets fun st' _ _ => ?_))
    dsimp only
    cases t.sst.mayContainSymbol (SsTable.symbolName st'.1.symbolDict id) with
    | none => exact steady_throw trivial
    | some passes =>
      cases passes with
      | false => exact steady_pure trivial
      | true => exact steady_pure trivial

theorem steady_scanTables {symbolId : Option SymbolId} {t1 t2 : TimestampNs} {tables : List Table}
    (htables : ∀ t ∈ tables, ∀ x ∈ t.rows, Offered offers st.1.symbolDict x) :
    Steady (provenance role offers) (fun r st' => ∀ ticks, r = .ok ticks → ∀ x ∈ ticks,
      Offered offers st'.1.symbolDict x ∧ SsTable.selects symbolId t1 t2 x = true)
      (scanTables env symbolId t1 t2 tables) st := by
  induction tables generalizing st with
  | nil =>
    refine steady_pure fun ticks h => ?_
    cases h
    exact List.forall_mem_nil _
  | cons t tables ih =>
    have hrest {st' : LsmTree × Nat} (hgrows : (provenance role offers).grows st st') :=
      ih fun t' ht' x hx => (htables t' (List.mem_cons_of_mem t ht') x hx).mono hgrows
    rw [scanTables]
    split_ifs
    · exact hrest List.prefix_rfl
    refine (steady_mayHold t symbolId).bind (fun held st₁ _ hgrows₁ => ?_)
      fun _ _ _ ticks h => by cases h
    split_ifs
    · refine (steady_fileOp _).bind (fun _ st₂ _ hgrows₂ => ?_) fun _ _ _ ticks h => by cases h
      refine (hrest (hgrows₁.trans hgrows₂)).bind (fun rest st₃ hmore hgrows₃ => ?_)
        fun _ _ _ ticks h => by cases h
      refine steady_pure fun ticks h x hx => ?_
      cases h
      rcases List.mem_append.mp hx with hx | hx
      · obtain ⟨hx, hselects⟩ := Table.mem_scan hx
        exact ⟨(htables t List.mem_cons_self x hx).mono ((hgrows₁.trans hgrows₂).trans hgrows₃),
          hselects⟩
      · exact hmore rest rfl x hx
    · exact hrest hgrows₁

theorem steady_scan (symbol : Option String) (t1 t2 : TimestampNs) :
    Steady (provenance role offers) (Returns offers symbol t1 t2) (scan env symbol t1 t2) st := by
  refine (steady_lookUp symbol).bind (fun symbolId st₁ hid _ => ?_) fun _ _ _ ticks h => by cases h
  refine steady_bind (steady_withGuard (steady_gets fun st₂ hgrows₂ hgood₂ => ?_))
  refine steady_withGuard (steady_bind (steady_gets fun st₃ hgrows₃ hgood₃ => ?_))
  have htables : Steady (provenance role offers) (fun r st' => ∀ ticks, r = .ok ticks → ∀ x ∈ ticks,
      Offered offers st'.1.symbolDict x ∧ SsTable.selects symbolId t1 t2 x = true)
      (scanTables env symbolId t1 t2 (st₃.1.compaction.levels.flatMap Level.tables)) st₃ :=
    steady_scanTables (hgood₃.2.tables)
  refine htables.bind (fun onDisk st₄ hdisk hgrows₄ => ?_) fun _ _ _ ticks h => by cases h
  refine steady_pure fun ticks h x hx => ?_
  cases h
  have hasked (hselects : SsTable.selects symbolId t1 t2 x = true) :
      AskedFor symbol t1 t2 st₄.1.symbolDict x :=
    (askedFor_of_selects (hid symbolId rfl) hselects).mono ((hgrows₂.trans hgrows₃).trans hgrows₄)
  rcases List.mem_append.mp (mem_mergeRows Tick.key hx) with hx | hx
  · obtain ⟨hx, hselects⟩ := List.mem_filter.mp hx
    exact ⟨(hgood₂.2.memtable x hx).mono (hgrows₃.trans hgrows₄), hasked hselects⟩
  · obtain ⟨hoffered, hselects⟩ := hdisk onDisk rfl x hx
    exact ⟨hoffered, hasked hselects⟩

theorem steady_scanStream (symbol : Option String) (t1 t2 : TimestampNs) (opens : Table → Bool) :
    Steady (provenance role offers) (Returns offers symbol t1 t2) (do
      let stream ← scanStream symbol t1 t2
      return (stream.collect opens).getD [] : LsmOp (List Tick)) st := by
  have hstream : Steady (provenance role offers) (fun r st' => ∀ stream, r = .ok stream →
      stream.Holds fun x => Offered offers st'.1.symbolDict x ∧ AskedFor symbol t1 t2 st'.1.symbolDict x)
      (scanStream symbol t1 t2) st := by
    refine (steady_lookUp symbol).bind (fun symbolId st₁ hid _ => ?_) fun _ _ _ stream h => by cases h
    refine steady_withGuard (steady_withGuard (steady_withGuard (steady_bind
      (steady_gets fun st₂ hgrows₂ hgood₂ => ?_))))
    have hasked {x : Tick} (hselects : SsTable.selects symbolId t1 t2 x = true) :
        AskedFor symbol t1 t2 st₂.1.symbolDict x :=
      (askedFor_of_selects (hid symbolId rfl) hselects).mono hgrows₂
    cases hnew : ScanStream.new st₂.1.memtable st₂.1.compaction st₂.1.symbolDict ⟨symbolId, t1, t2⟩ with
    | none => exact steady_throw fun stream h => by cases h
    | some made =>
      refine steady_pure fun stream h => ?_
      cases h
      exact ScanStream.holds_new hnew
        (fun x hx hselects => ⟨hgood₂.2.memtable x hx, hasked hselects⟩)
        fun t ht x hx hselects => ⟨hgood₂.2.tables t ht x hx, hasked hselects⟩
  refine hstream.bind (fun stream st' hholds _ => ?_) fun _ _ _ ticks h => by cases h
  refine steady_pure fun ticks h => ?_
  cases h
  cases hcollect : stream.collect opens with
  | none => exact List.forall_mem_nil _
  | some ticks => exact (hholds stream rfl).collectLoop hcollect

end Reads

/-- A call of a client, with the ticks that it gets back. A stream is read to its end once it is
made; files may have been removed by then. -/
inductive ClientCall where
  | write (call : WriteCall)
  | flushMemtable
  | compact
  | get (symbol : String) (t : TimestampNs)
  | scan (symbol : Option String) (t1 t2 : TimestampNs)
  | scanStream (symbol : Option String) (t1 t2 : TimestampNs) (opens : Table → Bool)

namespace ClientCall
open LsmTree

def op (p : Platform) (c : Codec) (env : Env) : ClientCall → LsmOp (List Tick)
  | write call => do
    call.op p c env
    return []
  | flushMemtable => do
    LsmTree.flushMemtable p env
    return []
  | compact => do
    LsmTree.compact p env
    return []
  | get symbol t => do
    let found ← LsmTree.get env symbol t
    return found.toList
  | scan symbol t1 t2 => LsmTree.scan env symbol t1 t2
  | scanStream symbol t1 t2 opens => do
    let stream ← LsmTree.scanStream symbol t1 t2
    return (stream.collect opens).getD []

/-- The rows that the call hands in at a node with this role. -/
def offers (role : NodeRole) : ClientCall → List Offer
  | write call => call.offers role
  | _ => []

/-- The tick is one that the call asks for. -/
def Asks : ClientCall → SymbolDictionary → Tick → Prop
  | get symbol t, dict, x => AskedFor (some symbol) t t dict x
  | scan symbol t1 t2, dict, x => AskedFor symbol t1 t2 dict x
  | scanStream symbol t1 t2 _, dict, x => AskedFor symbol t1 t2 dict x
  | _, _, _ => False

theorem Asks.mono {call : ClientCall} {d e : SymbolDictionary} {x : Tick} (h : call.Asks d x)
    (hgrown : d.idToSymbol <+: e.idToSymbol) : call.Asks e x := by
  cases call with
  | write call => exact h
  | flushMemtable => exact h
  | compact => exact h
  | get symbol t => exact AskedFor.mono h hgrown
  | scan symbol t1 t2 => exact AskedFor.mono h hgrown
  | scanStream symbol t1 t2 opens => exact AskedFor.mono h hgrown

/-- Who asks for rows hands none in. -/
theorem Asks.offers_eq_nil {call : ClientCall} {dict : SymbolDictionary} {x : Tick}
    (h : call.Asks dict x) (role : NodeRole) : call.offers role = [] := by
  cases call with
  | write call => cases h
  | flushMemtable => cases h
  | compact => cases h
  | get symbol t => rfl
  | scan symbol t1 t2 => rfl
  | scanStream symbol t1 t2 opens => rfl

/-- What the call gives back was handed in and asked for. -/
def Gives (offers : List Offer) (call : ClientCall) (r : Except (Stop LsmError) (List Tick))
    (st : LsmTree × Nat) : Prop :=
  ∀ ticks, r = .ok ticks → ∀ x ∈ ticks,
    Offered offers st.1.symbolDict x ∧ call.Asks st.1.symbolDict x

variable {role : NodeRole} {offers : List Offer} {p : Platform} {c : Codec} {env : Env}
  {st : LsmTree × Nat}

/-- A call that gives no rows back. -/
theorem steady_silent {call : ClientCall} {x : LsmOp Unit}
    (h : Steady (provenance role offers) (fun _ _ => True) x st) :
    Steady (provenance role offers) (Gives offers call) (do x; return [] : LsmOp (List Tick)) st := by
  refine h.bind (fun _ _ _ _ => steady_pure fun ticks hticks => ?_) fun _ _ _ _ h => by cases h
  cases hticks
  exact List.forall_mem_nil _

theorem steady_op {call : ClientCall} (hsub : call.offers role ⊆ offers) :
    Steady (provenance role offers) (Gives offers call) (call.op p c env) st := by
  cases call with
  | write call =>
    cases call with
    | insertion call => exact steady_silent (steady_insertCall hsub)
    | applyReplicationBatch entries =>
      exact steady_silent ((steady_applyReplicationBatch hsub).bind
        (fun _ _ _ _ => steady_pure trivial) fun _ _ _ => trivial)
  | flushMemtable => exact steady_silent steady_flushMemtable
  | compact => exact steady_silent steady_compact
  | get symbol t =>
    refine (steady_get symbol t).bind (fun found st' hfound _ => ?_) fun _ _ _ _ h => by cases h
    refine steady_pure fun ticks hticks x hx => ?_
    cases hticks
    rw [Option.mem_toList] at hx
    cases hx
    exact hfound x rfl
  | scan symbol t1 t2 => exact steady_scan symbol t1 t2
  | scanStream symbol t1 t2 opens => exact steady_scanStream symbol t1 t2 opens

end ClientCall

/-- Clients about to start their calls. -/
def clients (p : Platform) (c : Codec) (env : Env) (calls : List ClientCall) (s : LsmTree)
    (time : Nat) : Config Lock (LsmTree × Nat) Unit (Except (Stop LsmError) (List Tick)) :=
  Config.start (calls.map (ClientCall.op p c env)) (s, time) ()

/-- What the clients have read was there before, or was handed in by a call that has had a turn;
it is what they asked for, under the symbols that it was handed in for. -/
def ReadsOnlyHandedIn (role : NodeRole) (earlier : List Offer) (calls : List ClientCall)
    (turns : List Nat)
    (cfg : Config Lock (LsmTree × Nat) Unit (Except (Stop LsmError) (List Tick))) : Prop :=
  ∀ i ticks, cfg.resultAt i = some (.ok ticks) → ∀ x ∈ ticks,
    (∃ call ∈ calls[i]?, call.Asks cfg.state.1.symbolDict x) ∧
      (Offered earlier cfg.state.1.symbolDict x ∨
        ∃ k ∈ turns, ∃ call ∈ calls[k]?, Offered (call.offers role) cfg.state.1.symbolDict x)

/-- The calls, with other ones that hand nothing in for those that do not begin. -/
def silenced (begun : Nat → Bool) (calls : List ClientCall) : List ClientCall :=
  calls.mapIdx fun k call => if begun k then call else .compact

theorem getElem?_silenced {begun : Nat → Bool} {calls : List ClientCall} {k : Nat} {call : ClientCall}
    (h : (silenced begun calls)[k]? = some call) :
    (begun k = true ∧ calls[k]? = some call) ∨ call = .compact := by
  rw [silenced, List.getElem?_mapIdx, Option.map_eq_some_iff] at h
  obtain ⟨other, hother, hcall⟩ := h
  split_ifs at hcall with hbegun
  · exact Or.inl ⟨hbegun, hcall ▸ hother⟩
  · exact Or.inr hcall.symm

theorem reads_only_handed_in_of_all (p : Platform) (c : Codec) (env : Env)
    (calls : List ClientCall) {s : LsmTree} (time : Nat) {earlier : List Offer}
    (hs : Sourced earlier s) (schedule : List Nat) (i : Nat) (ticks : List Tick)
    (h : (run (Config.step fun _ _ _ g => g) (clients p c env calls s time) schedule).resultAt i =
      some (.ok ticks)) :
    ∃ call ∈ calls[i]?, call.Gives (earlier ++ calls.flatMap (ClientCall.offers s.role)) (.ok ticks)
      (run (Config.step fun _ _ _ g => g) (clients p c env calls s time) schedule).state := by
  have hgood : (provenance s.role (earlier ++ calls.flatMap (ClientCall.offers s.role))).good (s, time) :=
    ⟨rfl, fun x hx => (hs.memtable x hx).subset (List.subset_append_left _ _),
      fun t ht x hx => (hs.tables t ht x hx).subset (List.subset_append_left _ _)⟩
  have hposts (k : Nat) (r : Except (Stop LsmError) (List Tick)) (st st' : LsmTree × Nat)
      (hr : ∃ call ∈ calls[k]?, call.Gives (earlier ++ calls.flatMap (ClientCall.offers s.role)) r st)
      (hgrows : (provenance s.role (earlier ++ calls.flatMap (ClientCall.offers s.role))).grows st st') :
      ∃ call ∈ calls[k]?, call.Gives (earlier ++ calls.flatMap (ClientCall.offers s.role)) r st' := by
    obtain ⟨call, hcall, hgives⟩ := hr
    refine ⟨call, hcall, fun ticks hticks x hx => ?_⟩
    obtain ⟨hoffered, hasks⟩ := hgives ticks hticks x hx
    exact ⟨hoffered.mono hgrows, hasks.mono hgrows⟩
  have hops (k : Nat) (op : LsmOp (List Tick)) (hop : (calls.map (ClientCall.op p c env))[k]? = some op) :
      Steady (provenance s.role (earlier ++ calls.flatMap (ClientCall.offers s.role))) (fun r st =>
        ∃ call ∈ calls[k]?, call.Gives (earlier ++ calls.flatMap (ClientCall.offers s.role)) r st) op
        (s, time) := by
    rw [List.getElem?_map, Option.map_eq_some_iff] at hop
    obtain ⟨call, hcall, rfl⟩ := hop
    have hsub : call.offers s.role ⊆ earlier ++ calls.flatMap (ClientCall.offers s.role) := fun o ho =>
      List.mem_append_right _ (List.mem_flatMap.mpr ⟨call, List.mem_of_getElem? hcall, ho⟩)
    exact (ClientCall.steady_op hsub).mono fun r st hgives => ⟨call, hcall, hgives⟩
  exact (Steady.interleaved hposts hgood hops schedule schedule List.prefix_rfl).2 i (.ok ticks) h

/-- Threads that have had no turn are as if they were silent. -/
theorem sameBegun_silenced (p : Platform) (c : Codec) (env : Env) (calls : List ClientCall)
    (s : LsmTree) (time : Nat) (begun : Nat → Bool) :
    (clients p c env calls s time).SameBegun (fun k => begun k = true)
      (clients p c env (silenced begun calls) s time) := by
  refine Config.sameBegun_start (by simp [silenced]) (fun k hk => ?_) _ _
  rw [List.getElem?_map, List.getElem?_map, silenced, List.getElem?_mapIdx, Option.map_map]
  refine congrArg (fun f => Option.map f calls[k]?) (funext fun call => ?_)
  rw [Function.comp_apply, if_pos hk]

end Graphite
