import Graphite.GuardedRuns
import Graphite.LsmCalls
import Graphite.LsmFlush

/-! Point lookups and range scans over runs of inserts and flushes. Both return the last
tick inserted for a key as long as no flush writes a row outside the ends of its list, and
no flush writes a newer version of a row of an older table: there a scan, which meets the
tables of a level from the oldest on, returns the old version. -/

namespace Graphite
open KeyedRows LockProgram GuardedRuns

/-- A call that changes what lookups find. -/
inductive StoreCall where
  | insertion (call : InsertCall)
  | flushMemtable
  deriving DecidableEq, Repr

/-- The tree, the time, and the ticks of the inserts that returned normally, in order. -/
structure History where
  tree : LsmTree
  time : Nat
  inserted : List Tick

namespace History
open LsmTree

/-- The last tick inserted for the key. -/
def last (h : History) (key : Key) : Option Tick := firstAt Tick.key h.inserted.reverse key

def start (flushThreshold : Nat) (role : NodeRole) : History := ⟨fresh flushThreshold role, 0, []⟩

def step (p : Platform) (c : Codec) (env : Env) (h : History) : StoreCall → History
  | .insertion call =>
    let outcome := exec (call.op p c env) [] (h.tree, h.time)
    ⟨outcome.state.1, outcome.state.2,
      if outcome.succeeded then h.inserted ++ call.rows h.tree.symbolDict else h.inserted⟩
  | .flushMemtable =>
    let outcome := exec (LsmTree.flushMemtable p env) [] (h.tree, h.time)
    ⟨outcome.state.1, outcome.state.2, h.inserted⟩

/-- For every known symbol, a scan and a lookup return the last tick inserted for a key. -/
def LookupsAgree (h : History) : Prop :=
  ∀ symbol id, h.tree.symbolDict.getId symbol = some id → ∀ t1 t2 t, t1 ≤ t → t ≤ t2 →
    ∃ rows st st', exec (scan .calm (some symbol) t1 t2) [] (h.tree, h.time) =
        .finished (.ok rows) [] st ∧
      exec (get .calm symbol t) [] (h.tree, h.time) = .finished (.ok (h.last ⟨id, t⟩)) [] st' ∧
      rows.filter (fun x => x.timestamp = t) = (h.last ⟨id, t⟩).toList

/-- The row will be found in the table of the flush or in an older one, and no older
table has another version of it. -/
def StaysVisible (s : LsmTree) (x : Tick) : Prop :=
  (SsTable.WithinEnds s.memtable.chain x.timestamp ∨ ∃ t ∈ s.storageOrder, x ∈ t.rows) ∧
    ∀ t ∈ s.storageOrder, ∀ y ∈ t.rows, y.key = x.key → y = x

instance (s : LsmTree) (x : Tick) : Decidable (StaysVisible s x) :=
  inferInstanceAs (Decidable (_ ∧ _))

/-- Insert calls are clean; a flush writes its table, and all its rows stay visible. -/
def Harmless (p : Platform) (c : Codec) (env : Env) (h : History) : StoreCall → Prop
  | .insertion call => call.clean c env h.tree h.time = true
  | .flushMemtable => h.tree.memtable.chain = [] ∨
      (h.tree.flushTable p env h.time).isSome = true ∧
        ∀ x ∈ h.tree.memtable.chain, StaysVisible h.tree x

instance (p : Platform) (c : Codec) (env : Env) (h : History) (call : StoreCall) :
    Decidable (Harmless p c env h call) :=
  match call with
  | .insertion _ => inferInstanceAs (Decidable (_ = _))
  | .flushMemtable => inferInstanceAs (Decidable (_ ∨ _))

/-- What the memtable holds is the last version, what only the tables hold too, and every
key of a table is served by some table. -/
structure Inv (h : History) : Prop where
  levels : h.tree.compaction.levels ≠ []
  askable : h.tree.Askable
  known : InsertCall.Known h.tree.symbolDict h.tree.memtable.chain
  memtable : ∀ key x, h.tree.memtable.get key = some x → h.last key = some x
  tables : ∀ t ∈ h.tree.storageOrder, ∀ y ∈ t.rows,
    h.tree.memtable.get y.key = none → h.last y.key = some y
  stored : ∀ key x, h.last key = some x → h.tree.memtable.get key = none →
    ∃ t ∈ h.tree.storageOrder, ∃ y ∈ t.rows, y.key = key
  served : ∀ t ∈ h.tree.storageOrder, ∀ y ∈ t.rows, ∃ t' ∈ h.tree.storageOrder, ∃ y',
    y'.key = y.key ∧ t'.Serves h.tree.symbolDict y'

theorem inv_start (flushThreshold : Nat) (role : NodeRole) : Inv (start flushThreshold role) where
  levels := List.cons_ne_nil _ _
  askable := List.forall_mem_nil _
  known := List.forall_mem_nil _
  memtable := fun key x h => by cases h
  tables := List.forall_mem_nil _
  stored := fun key x h => by cases h
  served := List.forall_mem_nil _

/-- A search through the tables in some order, for a key that the memtable does not have. -/
theorem findSome?_tables {h : History} (hinv : Inv h) {key : Key}
    (hnone : h.tree.memtable.get key = none) {tables : List Table}
    (htables : ∀ t, t ∈ tables ↔ t ∈ h.tree.storageOrder) {look : Table → Option Tick}
    (hrows : ∀ t x, look t = some x → x ∈ t.rows ∧ x.key = key)
    (hserves : ∀ t x, t.Serves h.tree.symbolDict x → x.key = key → look t = some x) :
    tables.findSome? look = h.last key := by
  refine findSome?_eq_of_agree (fun t ht x hx => ?_) fun hlast => ?_
  · obtain ⟨hmem, rfl⟩ := hrows t x hx
    exact hinv.tables t ((htables t).mp ht) x hmem hnone
  · obtain ⟨x, hx⟩ := Option.ne_none_iff_exists'.mp hlast
    obtain ⟨t, ht, y, hy, rfl⟩ := hinv.stored key x hx hnone
    obtain ⟨t', ht', y', hkey, hserves'⟩ := hinv.served t ht y hy
    refine ⟨t', (htables t').mpr ht', ?_⟩
    rw [hserves t' y' hserves' hkey]
    exact Option.some_ne_none y'

theorem lookupsAgree_of_inv {h : History} (hinv : Inv h) : LookupsAgree h := by
  have hio (n : Nat) : Env.calm.io n = true := rfl
  intro symbol id hid t1 t2 t h1 h2
  obtain ⟨time, hscan⟩ := exec_scan hio hinv.askable (idOf_some hid) t1 t2 h.time
  obtain ⟨time', hget⟩ := exec_get hio hinv.askable hid t h.time
  have hboth : h.tree.find ⟨id, t⟩ = h.last ⟨id, t⟩ ∧
      firstAt Tick.key (h.tree.range (some id) t1 t2) ⟨id, t⟩ = h.last ⟨id, t⟩ := by
    rw [find, firstAt_range h1 h2]
    cases hmem : h.tree.memtable.get ⟨id, t⟩ with
    | some x => exact ⟨(hinv.memtable _ x hmem).symm, (hinv.memtable _ x hmem).symm⟩
    | none =>
      refine ⟨findSome?_tables hinv hmem (fun t => mem_newestFirst) ?_ ?_,
        findSome?_tables hinv hmem (fun t => Iff.rfl) ?_ ?_⟩
      · exact fun t x hx => Table.mem_of_probe hx
      · exact fun t x hx hkey => hkey ▸ hx.probe
      · exact fun t x hx => Table.mem_of_seen hx
      · intro t' x hx hkey
        obtain ⟨rfl, rfl⟩ := Key.mk.inj hkey
        exact hx.seen h1 h2
  refine ⟨_, _, _, hscan, by rw [hget, hboth.1], ?_⟩
  rw [filter_range, hboth.2]

theorem last_append (h : History) (tree : LsmTree) (time : Nat) (rows : List Tick) (key : Key) :
    (History.mk tree time (h.inserted ++ rows)).last key =
      (firstAt Tick.key rows.reverse key).or (h.last key) := by
  rw [last, List.reverse_append, firstAt_append]
  rfl

/-- More rows in the memtable, and more symbols in the dictionary. -/
theorem inv_take {h : History} (hinv : Inv h) {dict : SymbolDictionary} {rows : List Tick}
    (hgrown : h.tree.symbolDict.idToSymbol <+: dict.idToSymbol) (hrows : InsertCall.Known dict rows)
    (wal : Wal) (time : Nat) :
    Inv ⟨((h.tree.withDict dict).take rows).withWal wal, time, h.inserted ++ rows⟩ := by
  have hget (key : Key) : (((h.tree.withDict dict).take rows).withWal wal).memtable.get key =
      (firstAt Tick.key rows.reverse key).or (h.tree.memtable.get key) :=
    SkipList.get_insertAll h.tree.memtable rows key
  refine ⟨hinv.levels, hinv.askable, ?_, ?_, ?_, ?_, ?_⟩
  · intro x hx
    rcases SkipList.mem_insertAll hx with hx | hx
    · exact hrows x hx
    · exact InsertCall.known_mono hgrown hinv.known x hx
  · intro key x hx
    rw [hget] at hx
    rw [last_append]
    cases hfirst : firstAt Tick.key rows.reverse key with
    | some y =>
      rw [hfirst] at hx
      exact hx
    | none =>
      rw [hfirst] at hx
      exact hinv.memtable key x hx
  · intro t ht y hy hnone
    rw [hget, Option.or_eq_none_iff] at hnone
    rw [last_append, hnone.1]
    exact hinv.tables t ht y hy hnone.2
  · intro key x hx hnone
    rw [hget, Option.or_eq_none_iff] at hnone
    rw [last_append, hnone.1] at hx
    exact hinv.stored key x hx hnone.2
  · intro t ht y hy
    obtain ⟨t', ht', y', hkey, hserves⟩ := hinv.served t ht y hy
    exact ⟨t', ht', y', hkey, hserves.mono hgrown⟩

/-- The rows of the memtable become the newest table of level 0. -/
theorem inv_flush {h : History} (hinv : Inv h) {p : Platform} {env : Env} {t : Table}
    (ht : h.tree.flushTable p env h.time = some t)
    (hvisible : ∀ x ∈ h.tree.memtable.chain, StaysVisible h.tree x) (wal : Wal) (time : Nat) :
    Inv ⟨(h.tree.drained.register t).withWal wal, time, h.inserted⟩ := by
  have hrows := rows_flushTable ht
  have htables {x : Table} : x ∈ ((h.tree.drained.register t).withWal wal).storageOrder ↔
      x ∈ h.tree.storageOrder ∨ x = t := mem_storageOrder_register (s := h.tree.drained) hinv.levels
  have hget {x : Tick} (hx : x ∈ h.tree.memtable.chain) : h.last x.key = some x :=
    hinv.memtable _ x ((SkipList.get_eq_some_iff _ _ x).mpr ⟨hx, rfl⟩)
  refine ⟨?_, ?_, List.forall_mem_nil _, ?_, ?_, ?_, ?_⟩
  · intro hnil
    exact hinv.levels (List.modify_eq_nil_iff.mp hnil)
  · intro x hx
    rcases htables.mp hx with hx | rfl
    · exact hinv.askable x hx
    · exact askable_flushTable ht
  · intro key x hx
    cases hx
  · intro x hx y hy _
    rcases htables.mp hx with hx | rfl
    · cases hmem : h.tree.memtable.get y.key with
      | none => exact hinv.tables x hx y hy hmem
      | some z =>
        obtain ⟨hz, hkey⟩ := (SkipList.get_eq_some_iff _ _ z).mp hmem
        obtain rfl := (hvisible z hz).2 x hx y hy hkey.symm
        exact hget hz
    · exact hget (hrows ▸ hy)
  · intro key x hx _
    cases hmem : h.tree.memtable.get key with
    | none =>
      obtain ⟨t', ht', y, hy, hkey⟩ := hinv.stored key x hx hmem
      exact ⟨t', htables.mpr (Or.inl ht'), y, hy, hkey⟩
    | some z =>
      obtain ⟨hz, hkey⟩ := (SkipList.get_eq_some_iff _ _ z).mp hmem
      exact ⟨t, htables.mpr (Or.inr rfl), z, hrows.symm ▸ hz, hkey⟩
  · have hold {x : Table} (hx : x ∈ h.tree.storageOrder) {y : Tick} (hy : y ∈ x.rows) :
        ∃ t' ∈ ((h.tree.drained.register t).withWal wal).storageOrder, ∃ y', y'.key = y.key ∧
          t'.Serves h.tree.symbolDict y' := by
      obtain ⟨t', ht', y', hkey, hserves⟩ := hinv.served x hx y hy
      exact ⟨t', htables.mpr (Or.inl ht'), y', hkey, hserves⟩
    intro x hx y hy
    rcases htables.mp hx with hx | rfl
    · exact hold hx hy
    · have hy' : y ∈ h.tree.memtable.chain := hrows ▸ hy
      rcases (hvisible y hy').1 with hends | ⟨t', ht', hmem⟩
      · exact ⟨x, hx, y, rfl, serves_flushTable ht hy' (hinv.known y hy') hends⟩
      · exact hold ht' hmem

theorem inv_step (p : Platform) (c : Codec) (env : Env) (h : History) (call : StoreCall)
    (hinv : Inv h) (hharmless : Harmless p c env h call) : Inv (step p c env h call) := by
  cases call with
  | insertion call =>
    obtain ⟨r, dict, rows, wal, time, hexec, hgrown, hknown, hrows⟩ :=
      InsertCall.settles p hharmless
    have hstep := inv_take hinv hgrown hknown wal time
    rw [step, hexec]
    rcases hrows with ⟨rfl, rfl⟩ | ⟨⟨e, rfl⟩, rfl⟩
    · exact hstep
    · rwa [List.append_nil] at hstep
  | flushMemtable =>
    have hends := flush_ends p env hinv.levels h.time
    rw [step]
    generalize exec (LsmTree.flushMemtable p env) [] (h.tree, h.time) = outcome at hends
    cases hends with
    | nothing _ => exact hinv
    | unwritten hchain hnone e =>
      obtain ⟨hsome, -⟩ := hharmless.resolve_left hchain
      rw [hnone] at hsome
      cases hsome
    | @written t hchain ht r =>
      exact inv_flush hinv ht (hharmless.resolve_left hchain).2 _ _

/-- A codec for two versions of a row. -/
def versionsCodec : Codec := Codec.forTicks [flatTick 0 5 1, flatTick 0 5 2]

def insertA (volume : UInt64) : StoreCall := .insertion (.insert "A" (flatTick 0 5 volume))

instance (s : LsmTree) : Decidable s.Askable := inferInstanceAs (Decidable (∀ _ ∈ _, 0 < _))

/-- As long as the calls are harmless, scans and lookups agree on the last tick inserted. -/
theorem lookups_agree (p : Platform) (c : Codec) (env : Env) (flushThreshold : Nat)
    (role : NodeRole) (calls : List StoreCall)
    (h : Guarded (step p c env) (Harmless p c env) (start flushThreshold role) calls) :
    Always (step p c env) LookupsAgree (start flushThreshold role) calls :=
  always_of_guarded Inv (fun _ => lookupsAgree_of_inv) (inv_step p c env)
    (inv_start flushThreshold role) h

/-- A row is flushed, then overwritten in the memtable. -/
theorem lookups_agree_one_flush :
    Always (step .simple versionsCodec .calm) LookupsAgree (start 10 .primary)
      [insertA 1, .flushMemtable, insertA 2] :=
  lookups_agree .simple versionsCodec .calm 10 .primary [insertA 1, .flushMemtable, insertA 2]
    (by decide +kernel)

/-- Both versions of a row are flushed: the scan returns the old one. -/
theorem scan_returns_overwritten_row :
    ¬ Always (step .simple versionsCodec .calm) LookupsAgree (start 10 .primary)
      [insertA 1, .flushMemtable, insertA 2, .flushMemtable] := by
  intro h
  have hio (n : Nat) : Env.calm.io n = true := rfl
  have hlast := h _ List.prefix_rfl
  generalize hrun : run (step .simple versionsCodec .calm) (start 10 .primary)
    [insertA 1, .flushMemtable, insertA 2, .flushMemtable] = final at hlast
  have hid : final.tree.symbolDict.getId "A" = some 0 := by
    rw [← hrun]
    decide +kernel
  have hask : final.tree.Askable := by
    rw [← hrun]
    decide +kernel
  obtain ⟨time, hexec⟩ := exec_scan hio hask (idOf_some hid) 5 5 final.time
  obtain ⟨rows, st, -, hscan, -, hrows⟩ :=
    hlast "A" 0 hid 5 5 5 Int64.le_rfl Int64.le_rfl
  rw [hexec] at hscan
  cases hscan
  revert hrows
  rw [← hrun]
  decide +kernel

end History

end Graphite
