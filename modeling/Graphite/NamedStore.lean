import Graphite.GqlFilter
import Graphite.LsmDeliveries
import Graphite.LsmLookups

/-! What the database is for: a map from a symbol and a time to the tick that was inserted
last. Lookups and queries name symbols, the tree stores ids; over runs of harmless calls
with at most 65536 symbols, what is returned is what the map has. -/

namespace Graphite
open KeyedRows LockProgram GuardedRuns

/-- The row of the symbol at that time that comes last. -/
def rowAt (rows : List (String × Tick)) (symbol : String) (t : TimestampNs) : Option Tick :=
  (rows.reverse.find? fun r => r.1 = symbol ∧ r.2.timestamp = t).map Prod.snd

/-- The last row of the symbol at each time of the range, in the order of the times. -/
def rowsBetween (rows : List (String × Tick)) (symbol : String) (t1 t2 : TimestampNs) :
    List Tick :=
  mergeRows Tick.key ((rows.reverse.filter fun r =>
    r.1 = symbol ∧ t1 ≤ r.2.timestamp ∧ r.2.timestamp ≤ t2).map Prod.snd)

/-- The rows carry no id. -/
def Plain (rows : List (String × Tick)) : Prop := ∀ r ∈ rows, r.2.symbolId = 0

theorem timestamp_of_rowAt {rows : List (String × Tick)} {symbol : String} {t : TimestampNs}
    {x : Tick} (h : rowAt rows symbol t = some x) : (symbol, x) ∈ rows ∧ x.timestamp = t := by
  obtain ⟨⟨name, tick⟩, hfind, rfl⟩ := Option.map_eq_some_iff.mp h
  have hdec := List.find?_some hfind
  obtain ⟨rfl, htime⟩ := of_decide_eq_true hdec
  exact ⟨List.mem_reverse.mp (List.mem_of_find?_eq_some hfind), htime⟩

theorem mem_rowsBetween {rows : List (String × Tick)} (hplain : Plain rows) {symbol : String}
    {t1 t2 : TimestampNs} {x : Tick} : x ∈ rowsBetween rows symbol t1 t2 ↔
      rowAt rows symbol x.timestamp = some x ∧ t1 ≤ x.timestamp ∧ x.timestamp ≤ t2 := by
  have hkey {r : String × Tick} (hr : r ∈ rows) {t : TimestampNs} :
      r.2.key = ⟨0, t⟩ ↔ r.2.timestamp = t := by
    rw [Tick.key, hplain r hr, Key.mk.injEq]
    exact and_iff_right rfl
  have hfirst {t : TimestampNs} (h1 : t1 ≤ t) (h2 : t ≤ t2) :
      firstAt Tick.key (rowsBetween rows symbol t1 t2) ⟨0, t⟩ = rowAt rows symbol t := by
    rw [rowsBetween, firstAt_mergeRows, firstAt, List.find?_map, List.find?_filter, rowAt]
    congr 1
    refine List.find?_congr fun r hr => ?_
    have hiff := hkey (List.mem_reverse.mp hr) (t := t)
    simp only [Function.comp_apply, Bool.decide_and, Bool.and_eq_true, decide_eq_true_eq, hiff]
    rw [Bool.eq_iff_iff]
    simp only [Bool.and_eq_true, decide_eq_true_eq]
    constructor
    · rintro ⟨⟨hname, -, -⟩, htime⟩
      exact ⟨hname, htime⟩
    · rintro ⟨hname, rfl⟩
      exact ⟨⟨hname, h1, h2⟩, rfl⟩
  have hsorted := increasing_mergeRows Tick.key ((rows.reverse.filter fun r =>
    r.1 = symbol ∧ t1 ≤ r.2.timestamp ∧ r.2.timestamp ≤ t2).map Prod.snd)
  constructor
  · intro hx
    obtain ⟨r, hr, rfl⟩ := List.mem_map.mp (mem_mergeRows Tick.key hx)
    obtain ⟨hr, hbounds⟩ := List.mem_filter.mp hr
    obtain ⟨-, h1, h2⟩ := of_decide_eq_true hbounds
    refine ⟨?_, h1, h2⟩
    rw [← hfirst h1 h2]
    exact (firstAt_eq_some_iff Tick.key hsorted).mpr ⟨hx, (hkey (List.mem_reverse.mp hr)).mpr rfl⟩
  · rintro ⟨hx, h1, h2⟩
    rw [← hfirst h1 h2] at hx
    exact (firstAt_eq_some Tick.key hx).1

namespace InsertCall

/-- The rows of a call under the names of their symbols. -/
def named : InsertCall → List (String × Tick)
  | insert symbol tick => [(symbol, tick.withSymbol 0)]
  | insertBatch symbol batch => ((batch.ticks 0).getD []).map fun tick => (symbol, tick)
  | insertMulti ticks => ticks.map fun tick => (tick.symbol, tick.toTick 0)

theorem tickAt_eq (batch : TickBatch) (i : Nat) (id : SymbolId) :
    batch.tickAt i id = (batch.tickAt i 0).map fun tick => tick.withSymbol id := by
  simp only [TickBatch.tickAt, Option.pure_def, Option.bind_eq_bind, Option.map_bind,
    Function.comp_def, Option.map_some, Tick.withSymbol]

theorem ticks_eq (batch : TickBatch) (id : SymbolId) :
    batch.ticks id = (batch.ticks 0).map (List.map fun tick => tick.withSymbol id) := by
  unfold TickBatch.ticks
  induction List.range' 0 batch.len with
  | nil => rfl
  | cons i rows ih =>
    rw [List.mapM_cons, List.mapM_cons, tickAt_eq, ih]
    cases batch.tickAt i 0 with
    | none => rfl
    | some tick =>
      cases List.mapM (fun i => batch.tickAt i 0) rows with
      | none => rfl
      | some ticks => rfl

theorem plain_named (call : InsertCall) : Plain call.named := by
  cases call with
  | insert symbol tick => exact List.forall_mem_singleton.mpr rfl
  | insertBatch symbol batch =>
    refine List.forall_mem_map.mpr fun x hx => ?_
    cases hticks : batch.ticks 0 with
    | none =>
      rw [hticks] at hx
      cases hx
    | some ticks =>
      rw [hticks] at hx
      exact symbolId_of_ticks hticks x hx
  | insertMulti ticks => exact List.forall_mem_map.mpr fun _ _ => rfl

theorem named_intern (d : SymbolDictionary) (ticks : List SymbolTick) {e : SymbolDictionary}
    (h : (d.intern ticks).2.idToSymbol <+: e.idToSymbol) :
    (d.intern ticks).1 = (named (insertMulti ticks)).map (Deliveries.stored e) ∧
      Deliveries.HasIds e (named (insertMulti ticks)) := by
  induction ticks generalizing d with
  | nil => exact ⟨rfl, List.forall_mem_nil _⟩
  | cons tick ticks ih =>
    obtain ⟨hrows, hids⟩ := ih (d.getOrInsert tick.symbol).2 h
    have hgrown := (intern_spec (d.getOrInsert tick.symbol).2 ticks).1.trans h
    have hid := SymbolDictionary.getOrInsert_of_grown hgrown
    refine ⟨?_, List.forall_mem_cons.mpr ⟨⟨(d.getOrInsert tick.symbol).1,
      SymbolDictionary.getId_of_grown hgrown (d.getId_getOrInsert tick.symbol)⟩, hids⟩⟩
    change _ :: _ = _ :: _
    rw [hrows, Deliveries.stored, hid]
    rfl

/-- The stored ticks are the named rows under the ids of the dictionary. -/
theorem named_stored {d e : SymbolDictionary} {call : InsertCall} {ticks : List Tick}
    (h : call.stored d = some (ticks, e)) :
    ticks = call.named.map (Deliveries.stored e) ∧ Deliveries.HasIds e call.named := by
  cases call with
  | insert symbol tick =>
    cases h
    have hid := d.getId_getOrInsert symbol
    refine ⟨?_, List.forall_mem_singleton.mpr ⟨_, hid⟩⟩
    rw [named, List.map_singleton, Deliveries.stored, SymbolDictionary.getOrInsert_of_getId hid]
    rfl
  | insertBatch symbol batch =>
    obtain ⟨_, hticks, heq⟩ := Option.map_eq_some_iff.mp h
    cases heq
    have hid := d.getId_getOrInsert symbol
    rw [ticks_eq] at hticks
    obtain ⟨plain, hplain, rfl⟩ := Option.map_eq_some_iff.mp hticks
    rw [named, hplain, Option.getD_some, List.map_map]
    refine ⟨List.map_congr_left fun x _ => ?_, List.forall_mem_map.mpr fun x _ => ⟨_, hid⟩⟩
    rw [Function.comp_apply, Deliveries.stored, SymbolDictionary.getOrInsert_of_getId hid]
  | insertMulti symbolTicks =>
    obtain rfl : (d.intern symbolTicks).1 = ticks := congrArg Prod.fst (Option.some.inj h)
    obtain rfl : (d.intern symbolTicks).2 = e := congrArg Prod.snd (Option.some.inj h)
    exact named_intern d symbolTicks List.prefix_rfl

theorem named_of_isEmpty {call : InsertCall} (h : call.isEmpty = true) : call.named = [] := by
  cases call with
  | insert symbol tick => cases h
  | insertBatch symbol batch =>
    have hlen : batch.len = 0 := by simpa [isEmpty] using h
    simp [named, TickBatch.ticks, hlen]
  | insertMulti ticks =>
    obtain rfl : ticks = [] := by simpa [isEmpty] using h
    rfl

end InsertCall

namespace Gql.Executor

/-- What a query makes of the ticks of its scan. -/
def answer (avx2 : Bool) (q : Query) (ticks : List Tick) : Except (Stop LsmError) QueryResult :=
  match rowsOf q (applyPriceFilter avx2 ticks q.whereClause.pricePredicate) with
  | some rows => .ok ⟨limitRows q.limit rows, none⟩
  | none => .error .panic

/-- A result does not show the ids. -/
theorem answer_withSymbol (avx2 : Bool) (q : Query) (ticks : List Tick) (id : SymbolId) :
    answer avx2 q (ticks.map fun tick => tick.withSymbol id) = answer avx2 q ticks := by
  have hrows (filtered : List Tick) :
      rowsOf q (filtered.map fun tick => tick.withSymbol id) = rowsOf q filtered := by
    rw [rowsOf, rowsOf, List.map_map, List.map_map]
    rfl
  have hfilter := applyPriceFilter_map (f := fun tick : Tick => tick.withSymbol id) (fun _ => rfl) avx2
    ticks q.whereClause.pricePredicate
  rw [answer, answer, hfilter, hrows]

theorem exec_execute (avx2 : Bool) (env : Env) {q : Query} (h : q.explain = false)
    {st st' : LsmTree × Nat} {ticks : List Tick}
    (hscan : exec (LsmTree.scan env (some q.symbol) q.whereClause.t1 q.whereClause.t2) [] st =
      .finished (.ok ticks) [] st') :
    exec (execute avx2 env q) [] st = .finished (answer avx2 q ticks) [] st' := by
  rw [execute, h, if_neg Bool.false_ne_true, exec_bind_ok hscan, answer]
  cases rowsOf q (applyPriceFilter avx2 ticks q.whereClause.pricePredicate) with
  | some rows => rfl
  | none => rfl

theorem exec_execute_error (avx2 : Bool) (env : Env) {q : Query} (h : q.explain = false)
    {st st' : LsmTree × Nat} {e : Stop LsmError}
    (hscan : exec (LsmTree.scan env (some q.symbol) q.whereClause.t1 q.whereClause.t2) [] st =
      .finished (.error e) [] st') :
    exec (execute avx2 env q) [] st = .finished (.error e) [] st' := by
  rw [execute, h, if_neg Bool.false_ne_true, exec_bind_error hscan]

end Gql.Executor

namespace LsmTree

variable {env : Env} {s : LsmTree} {symbol : String}

theorem exec_get_unknown (h : s.symbolDict.getId symbol = none) (t : TimestampNs) (time : Nat) :
    exec (get env symbol t) [] (s, time) =
      .finished (.error (.error (.symbolNotFound symbol))) [] (s, time) := by
  rw [get, exec_withGuard, if_neg (by decide), exec_bind_ok (exec_gets _ _ _), h]
  rfl

theorem exec_scan_unknown (h : s.symbolDict.getId symbol = none) (t1 t2 : TimestampNs) (time : Nat) :
    exec (scan env (some symbol) t1 t2) [] (s, time) =
      .finished (.error (.error (.symbolNotFound symbol))) [] (s, time) := by
  have hlook : exec (lookUp (some symbol)) [] (s, time) =
      .finished (.error (.error (.symbolNotFound symbol))) [] (s, time) := by
    rw [lookUp, exec_withGuard, if_neg (by decide), exec_bind_ok (exec_gets _ _ _), h]
    rfl
  rw [scan, exec_bind_error hlook]

theorem mem_range_bounds {id : SymbolId} {t1 t2 : TimestampNs} {x : Tick}
    (h : x ∈ s.range (some id) t1 t2) : x.symbolId = id ∧ t1 ≤ x.timestamp ∧ x.timestamp ≤ t2 := by
  have hselects : SsTable.selects (some id) t1 t2 x = true := by
    rcases List.mem_append.mp (mem_mergeRows Tick.key h) with hx | hx
    · exact (List.mem_filter.mp hx).2
    · obtain ⟨t, -, hx⟩ := List.mem_flatMap.mp hx
      rw [Table.range] at hx
      split_ifs at hx
      · exact (List.mem_filter.mp hx).2
      · cases hx
  simpa [SsTable.selects, and_comm, and_assoc, eq_comm (a := id)] using hselects

end LsmTree

/-- A history with the rows of the inserts that returned normally, under their names. -/
structure NamedHistory extends History where
  rows : List (String × Tick)

namespace NamedHistory
open LsmTree

def start (flushThreshold : Nat) (role : NodeRole) : NamedHistory :=
  ⟨History.start flushThreshold role, []⟩

def step (p : Platform) (c : Codec) (env : Env) (n : NamedHistory) (call : StoreCall) :
    NamedHistory :=
  ⟨History.step p c env n.toHistory call,
    match call with
    | .insertion insertion =>
      if (exec (insertion.op p c env) [] (n.tree, n.time)).succeeded then n.rows ++ insertion.named
      else n.rows
    | .flushMemtable => n.rows⟩

/-- The call is harmless, and the dictionary has room for its symbols. -/
def Roomy (p : Platform) (c : Codec) (env : Env) (n : NamedHistory) (call : StoreCall) : Prop :=
  History.Harmless p c env n.toHistory call ∧
    (History.step p c env n.toHistory call).tree.symbolDict.len ≤ 65536

instance (p : Platform) (c : Codec) (env : Env) (n : NamedHistory) (call : StoreCall) :
    Decidable (Roomy p c env n call) := inferInstanceAs (Decidable (_ ∧ _))

/-- A symbol without an id has no rows, and queries for it are refused. Any other lookup or
query gets what the map of the rows has. -/
def AnswersAsMap (n : NamedHistory) : Prop :=
  ∀ symbol, match n.tree.symbolDict.getId symbol with
  | none => (∀ r ∈ n.rows, r.1 ≠ symbol) ∧
    (∀ t, exec (get .calm symbol t) [] (n.tree, n.time) =
      .finished (.error (.error (.symbolNotFound symbol))) [] (n.tree, n.time)) ∧
    ∀ avx2 q, q.explain = false → q.symbol = symbol →
      exec (Gql.Executor.execute avx2 .calm q) [] (n.tree, n.time) =
        .finished (.error (.error (.symbolNotFound symbol))) [] (n.tree, n.time)
  | some id =>
    (∀ t, ∃ time, exec (get .calm symbol t) [] (n.tree, n.time) = .finished
      (.ok ((rowAt n.rows symbol t).map fun tick => tick.withSymbol id)) [] (n.tree, time)) ∧
    ∀ avx2 q, q.explain = false → q.symbol = symbol → ∃ time,
      exec (Gql.Executor.execute avx2 .calm q) [] (n.tree, n.time) = .finished
        (Gql.Executor.answer avx2 q (rowsBetween n.rows symbol q.whereClause.t1
          q.whereClause.t2)) [] (n.tree, time)

/-- The ticks of the history are the rows under the ids of their names. -/
structure Named (n : NamedHistory) : Prop where
  names : n.inserted = n.rows.map (Deliveries.stored n.tree.symbolDict)
  ids : Deliveries.HasIds n.tree.symbolDict n.rows
  plain : Plain n.rows
  room : n.tree.symbolDict.len ≤ 65536

theorem named_start (flushThreshold : Nat) (role : NodeRole) :
    Named (start flushThreshold role) where
  names := rfl
  ids := List.forall_mem_nil _
  plain := List.forall_mem_nil _
  room := Nat.zero_le _

structure Inv (n : NamedHistory) : Prop extends History.Inv n.toHistory, Named n

theorem inv_start (flushThreshold : Nat) (role : NodeRole) : Inv (start flushThreshold role) where
  toInv := History.inv_start flushThreshold role
  toNamed := named_start flushThreshold role

variable {n : NamedHistory}

/-- A symbol without an id has no rows. -/
theorem Named.no_rows (h : Named n) {symbol : String}
    (hid : n.tree.symbolDict.getId symbol = none) : ∀ r ∈ n.rows, r.1 ≠ symbol := by
  rintro r hr rfl
  obtain ⟨id, hid'⟩ := h.ids r hr
  rw [hid] at hid'
  cases hid'

/-- The last tick of an id is the last row of its name. -/
theorem Named.last_eq (h : Named n) {symbol : String} {id : SymbolId}
    (hid : n.tree.symbolDict.getId symbol = some id) (t : TimestampNs) :
    n.last ⟨id, t⟩ = (rowAt n.rows symbol t).map fun tick => tick.withSymbol id := by
  have hreverse : Deliveries.HasIds n.tree.symbolDict n.rows.reverse :=
    fun r hr => h.ids r (List.mem_reverse.mp hr)
  rw [History.last, h.names, ← List.map_reverse, Deliveries.firstAt_stored h.room hreverse hid,
    rowAt, Option.map_map]
  refine Option.map_congr fun r hr => ?_
  have hname := List.find?_some hr
  rw [Function.comp_apply, Deliveries.stored, (of_decide_eq_true hname).1,
    SymbolDictionary.getOrInsert_of_getId hid]

theorem Inv.range_eq (h : Inv n) {symbol : String} {id : SymbolId}
    (hid : n.tree.symbolDict.getId symbol = some id) (t1 t2 : TimestampNs) :
    n.tree.range (some id) t1 t2 =
      (rowsBetween n.rows symbol t1 t2).map fun tick => tick.withSymbol id := by
  have hio (n : Nat) : Env.calm.io n = true := rfl
  have hmem {x : Tick} : x ∈ n.tree.range (some id) t1 t2 ↔
      x.symbolId = id ∧ (t1 ≤ x.timestamp ∧ x.timestamp ≤ t2) ∧
        (rowAt n.rows symbol x.timestamp).map (fun tick => tick.withSymbol id) = some x := by
    have hat (h1 : t1 ≤ x.timestamp) (h2 : x.timestamp ≤ t2) :
        x ∈ n.tree.range (some id) t1 t2 ↔
          (rowAt n.rows symbol x.timestamp).map (fun tick => tick.withSymbol id) = some x := by
      obtain ⟨rows, _, _, hscan, -, hrows⟩ :=
        History.lookupsAgree_of_inv h.toInv symbol id hid t1 t2 x.timestamp h1 h2
      obtain ⟨time, hexec⟩ := exec_scan hio h.askable (idOf_some hid) t1 t2 n.time
      rw [hexec] at hscan
      cases hscan
      rw [← h.last_eq hid, ← Option.mem_toList, ← hrows, List.mem_filter]
      exact (and_iff_left (decide_eq_true rfl)).symm
    constructor
    · intro hx
      obtain ⟨hsymbol, h1, h2⟩ := mem_range_bounds hx
      exact ⟨hsymbol, ⟨h1, h2⟩, (hat h1 h2).mp hx⟩
    · rintro ⟨-, ⟨h1, h2⟩, hx⟩
      exact (hat h1 h2).mpr hx
  refine eq_of_increasing Tick.key (increasing_mergeRows Tick.key _) ?_ fun x => ?_
  · refine List.pairwise_map.mpr ((increasing_mergeRows Tick.key _).imp_of_mem fun hx hy hlt => ?_)
    have hzero {z : Tick} (hz : z ∈ rowsBetween n.rows symbol t1 t2) : z.symbolId = 0 :=
      h.plain _ (timestamp_of_rowAt ((mem_rowsBetween h.plain).mp hz).1).1
    rcases hlt with hlt | ⟨-, hlt⟩
    · rw [Tick.key, Tick.key, hzero hx, hzero hy] at hlt
      exact absurd hlt (UInt16.lt_irrefl _)
    · exact Or.inr ⟨rfl, hlt⟩
  · rw [hmem, List.mem_map]
    constructor
    · rintro ⟨-, hbounds, hx⟩
      obtain ⟨y, hy, rfl⟩ := Option.map_eq_some_iff.mp hx
      have htime := (timestamp_of_rowAt hy).2
      refine ⟨y, (mem_rowsBetween h.plain).mpr ⟨?_, ?_⟩, rfl⟩
      · rwa [htime]
      · rwa [htime]
    · rintro ⟨y, hy, rfl⟩
      obtain ⟨hrow, hbounds⟩ := (mem_rowsBetween h.plain).mp hy
      exact ⟨rfl, hbounds, by rw [show (y.withSymbol id).timestamp = y.timestamp from rfl, hrow]; rfl⟩

theorem answersAsMap_of_inv (h : Inv n) : AnswersAsMap n := by
  have hio (n : Nat) : Env.calm.io n = true := rfl
  intro symbol
  cases hid : n.tree.symbolDict.getId symbol with
  | none =>
    refine ⟨h.no_rows hid, fun t => exec_get_unknown hid t n.time, fun avx2 q hq hsymbol => ?_⟩
    subst hsymbol
    exact Gql.Executor.exec_execute_error avx2 .calm hq (exec_scan_unknown hid _ _ n.time)
  | some id =>
    refine ⟨fun t => ?_, fun avx2 q hq hsymbol => ?_⟩
    · obtain ⟨rows, _, st, hscan, hget, -⟩ :=
        History.lookupsAgree_of_inv h.toInv symbol id hid t t t Int64.le_rfl Int64.le_rfl
      obtain ⟨time, hexec⟩ := exec_get hio h.askable hid t n.time
      rw [hexec] at hget
      obtain ⟨hfind, -, -⟩ := Outcome.finished.inj hget
      rw [hfind, h.last_eq hid] at hexec
      exact ⟨time, hexec⟩
    · subst hsymbol
      obtain ⟨time, hexec⟩ := exec_scan hio h.askable (idOf_some hid) q.whereClause.t1
        q.whereClause.t2 n.time
      have hanswer := Gql.Executor.exec_execute avx2 .calm hq hexec
      rw [h.range_eq hid, Gql.Executor.answer_withSymbol] at hanswer
      exact ⟨time, hanswer⟩

theorem symbolDict_flush (p : Platform) (c : Codec) (env : Env) {h : History}
    (hlevels : h.tree.compaction.levels ≠ []) :
    (History.step p c env h .flushMemtable).tree.symbolDict = h.tree.symbolDict := by
  have hends := flush_ends p env hlevels h.time
  rw [History.step]
  generalize exec (LsmTree.flushMemtable p env) [] (h.tree, h.time) = outcome at hends
  cases hends with
  | nothing => rfl
  | unwritten => rfl
  | written => rfl

/-- No call takes a symbol out of the dictionary. -/
theorem grown_step (p : Platform) (c : Codec) (env : Env) (hlevels : n.tree.compaction.levels ≠ [])
    (call : StoreCall) :
    n.tree.symbolDict.idToSymbol <+:
      (History.step p c env n.toHistory call).tree.symbolDict.idToSymbol := by
  cases call with
  | insertion call =>
    obtain ⟨dict, rows, wal, hgrown, -, hleft | hleft⟩ := call.leaves p c env n.tree n.time
    · rw [History.step, hleft]
      exact hgrown
    · rw [History.step, hleft]
      exact hgrown
  | flushMemtable =>
    rw [symbolDict_flush p c env hlevels]

theorem stored_of_grown {d e : SymbolDictionary} (h : d.idToSymbol <+: e.idToSymbol)
    {rows : List (String × Tick)} (hids : Deliveries.HasIds d rows) :
    rows.map (Deliveries.stored e) = rows.map (Deliveries.stored d) ∧ Deliveries.HasIds e rows := by
  have hid : ∀ r ∈ rows, ∃ id, d.getId r.1 = some id ∧ e.getId r.1 = some id := fun r hr => by
    obtain ⟨id, hid⟩ := hids r hr
    exact ⟨id, hid, SymbolDictionary.getId_of_grown h hid⟩
  refine ⟨List.map_congr_left fun r hr => ?_, fun r hr => ?_⟩
  · obtain ⟨id, hd, he⟩ := hid r hr
    rw [Deliveries.stored, Deliveries.stored, SymbolDictionary.getOrInsert_of_getId hd,
      SymbolDictionary.getOrInsert_of_getId he]
  · obtain ⟨id, -, he⟩ := hid r hr
    exact ⟨id, he⟩

/-- The rows that a call adds, under the ids of the dictionary behind it. -/
theorem rows_step (p : Platform) (c : Codec) (env : Env) (n : NamedHistory) (call : StoreCall) :
    ∃ rows, Deliveries.HasIds (step p c env n call).tree.symbolDict rows ∧ Plain rows ∧
      (step p c env n call).inserted =
        n.inserted ++ rows.map (Deliveries.stored (step p c env n call).tree.symbolDict) ∧
      (step p c env n call).rows = n.rows ++ rows := by
  have hsame (hinserted : (step p c env n call).inserted = n.inserted)
      (hrows : (step p c env n call).rows = n.rows) : ∃ rows,
        Deliveries.HasIds (step p c env n call).tree.symbolDict rows ∧ Plain rows ∧
        (step p c env n call).inserted =
          n.inserted ++ rows.map (Deliveries.stored (step p c env n call).tree.symbolDict) ∧
        (step p c env n call).rows = n.rows ++ rows :=
    ⟨[], List.forall_mem_nil _, List.forall_mem_nil _, by rw [hinserted]; exact (List.append_nil _).symm,
      by rw [hrows, List.append_nil]⟩
  cases call with
  | flushMemtable => exact hsame rfl rfl
  | insertion call =>
    have hends := call.ends p c env n.tree n.time
    rw [step, History.step] at hsame ⊢
    generalize exec (call.op p c env) [] (n.tree, n.time) = outcome at hends hsame
    cases hends with
    | empty _ hempty =>
      refine hsame ?_ ?_
      · rw [InsertCall.rows_of_isEmpty hempty]
        exact List.append_nil _
      · rw [InsertCall.named_of_isEmpty hempty]
        exact List.append_nil _
    | failed _ e st => exact hsame rfl rfl
    | blocked _ _ st => exact hsame rfl rfl
    | @stored ticks dict hstores hlt =>
      obtain ⟨hticks, hnew⟩ := InsertCall.named_stored hstores.stored
      have hrows : call.rows n.tree.symbolDict = ticks := by
        rw [InsertCall.rows, hstores.stored]
        rfl
      rw [hticks] at hrows
      exact ⟨call.named, hnew, call.plain_named, congrArg (n.inserted ++ ·) hrows, rfl⟩

/-- More rows, and more symbols in the dictionary. -/
theorem Named.grow (h : Named n) {m : NamedHistory} {d : SymbolDictionary}
    {rows : List (String × Tick)}
    (hgrown : n.tree.symbolDict.idToSymbol <+: m.tree.symbolDict.idToSymbol)
    (hd : d.idToSymbol <+: m.tree.symbolDict.idToSymbol) (hids : Deliveries.HasIds d rows)
    (hplain : Plain rows) (hinserted : m.inserted = n.inserted ++ rows.map (Deliveries.stored d))
    (hrows : m.rows = n.rows ++ rows) (hroom : m.tree.symbolDict.len ≤ 65536) : Named m := by
  obtain ⟨hold, holdIds⟩ := stored_of_grown hgrown h.ids
  obtain ⟨hnew, hnewIds⟩ := stored_of_grown hd hids
  refine ⟨?_, ?_, ?_, hroom⟩
  · rw [hinserted, hrows, List.map_append, hold, hnew, ← h.names]
  · rw [hrows]
    exact List.forall_mem_append.mpr ⟨holdIds, hnewIds⟩
  · rw [hrows]
    exact List.forall_mem_append.mpr ⟨h.plain, hplain⟩

theorem named_step (p : Platform) (c : Codec) (env : Env) (hlevels : n.tree.compaction.levels ≠ [])
    (call : StoreCall) (h : Named n)
    (hroom : (History.step p c env n.toHistory call).tree.symbolDict.len ≤ 65536) :
    Named (step p c env n call) := by
  obtain ⟨rows, hids, hplain, hinserted, hrows⟩ := rows_step p c env n call
  exact h.grow (grown_step p c env hlevels call) List.prefix_rfl hids hplain hinserted hrows hroom

theorem inv_step (p : Platform) (c : Codec) (env : Env) (n : NamedHistory) (call : StoreCall)
    (h : Inv n) (hroomy : Roomy p c env n call) : Inv (step p c env n call) where
  toInv := History.inv_step p c env n.toHistory call h.toInv hroomy.1
  toNamed := named_step p c env h.levels call h.toNamed hroomy.2

end NamedHistory

end Graphite
