import Graphite.NamedStore
import Graphite.ReplicaPulls

/-! A replica that has caught up answers like its primary. Both store the rows of the same
entries, each under the ids of its own dictionary; a page that was applied twice because the
position could not be saved makes no difference once the position is at the end of the
log. -/

namespace Graphite
open KeyedRows LockProgram GuardedRuns LogShipping

/-- What an entry says about the symbol at that time. -/
def ReplicationEntry.rowFor (symbol : String) (t : TimestampNs) (e : ReplicationEntry) :
    Option Tick :=
  (e.row.filter fun r => r.1 = symbol ∧ r.2.timestamp = t).map Prod.snd

theorem rowAt_filterMap (entries : List ReplicationEntry) (symbol : String) (t : TimestampNs) :
    rowAt (entries.filterMap ReplicationEntry.row) symbol t =
      lastOf (ReplicationEntry.rowFor symbol t) entries := by
  rw [rowAt, lastOf, ← List.filterMap_reverse]
  induction entries.reverse with
  | nil => rfl
  | cons e entries ih =>
    rw [List.findSome?_cons, ← ih, ReplicationEntry.rowFor]
    cases hrow : e.row with
    | none => rw [List.filterMap_cons_none hrow, Option.filter_none, Option.map_none]
    | some r =>
      rw [List.filterMap_cons_some hrow, List.find?_cons, Option.filter_some]
      by_cases hr : r.1 = symbol ∧ r.2.timestamp = t
      · simp [hr]
      · simp [hr]

theorem plain_filterMap (entries : List ReplicationEntry) :
    Plain (entries.filterMap ReplicationEntry.row) := by
  intro r hr
  obtain ⟨⟨sequence, record, symbol⟩, -, hrow⟩ := List.mem_filterMap.mp hr
  cases record with
  | insert tick =>
    cases symbol with
    | some symbol =>
      cases hrow
      rfl
    | none => cases hrow
  | delete key => cases hrow
  | checkpoint sequence => cases hrow

/-- The rows come out of the log as they went in. -/
theorem SymbolDictionary.filterMap_row_entriesFrom {dict : SymbolDictionary} (hlen : dict.len ≤ 65536)
    {rows : List (String × Tick)} (hids : Deliveries.HasIds dict rows) (hplain : Plain rows)
    (first : Nat) : (dict.entriesFrom first (rows.map (Deliveries.stored dict))).filterMap
      ReplicationEntry.row = rows := by
  induction rows generalizing first with
  | nil => rfl
  | cons r rows ih =>
    obtain ⟨⟨id, hid⟩, hids⟩ := List.forall_mem_cons.mp hids
    obtain ⟨hzero, hplain⟩ := List.forall_mem_cons.mp hplain
    have hrow : (LsmTree.entryOf dict (first, .insert (Deliveries.stored dict r))).row = some r := by
      have hname : dict.getSymbol id = some r.1 :=
        (SymbolDictionary.getId_iff_getSymbol hlen r.1 id).mp hid
      have hstored : Deliveries.stored dict r = r.2.withSymbol id := by
        rw [Deliveries.stored, SymbolDictionary.getOrInsert_of_getId hid]
      have hback : (r.2.withSymbol id).withSymbol 0 = r.2 := by
        rw [← hzero]
        rfl
      rw [hstored, LsmTree.entryOf, ReplicationEntry.row]
      dsimp only
      rw [show (r.2.withSymbol id).symbolId = id from rfl, hname]
      exact congrArg (fun tick => some (r.1, tick)) hback
    have hsplit : dict.entriesFrom first ((r :: rows).map (Deliveries.stored dict)) =
        LsmTree.entryOf dict (first, .insert (Deliveries.stored dict r)) ::
          dict.entriesFrom (first + 1) (rows.map (Deliveries.stored dict)) := by
      rw [entriesFrom, List.map_cons, List.zipIdx_cons, List.map_cons]
      rfl
    rw [hsplit, List.filterMap_cons_some hrow, ih hids hplain]

namespace NamedHistory
open LsmTree

/-- A node with the rows that it has taken. -/
def ofRows (st : LsmTree × Nat) (rows : List (String × Tick)) : NamedHistory :=
  ⟨⟨st.1, st.2, rows.map (Deliveries.stored st.1.symbolDict)⟩, rows⟩

variable {p : Platform} {c : Codec} {env : Env} {s s' : LsmTree} {rows : List (String × Tick)}
  {time time' : Nat}

theorem Inv.rebuilt {n : NamedHistory} (h : Inv n) (time : Nat) : Inv (ofRows (n.tree, time) n.rows) := by
  obtain ⟨⟨tree, time', inserted⟩, rows⟩ := n
  have hnames : inserted = rows.map (Deliveries.stored tree.symbolDict) := h.names
  subst hnames
  exact ⟨⟨h.levels, h.askable, h.known, h.memtable, h.tables, h.stored, h.served⟩, rfl, h.ids, h.plain,
    h.room⟩

theorem Inv.sameStore (h : Inv (ofRows (s, time) rows)) (hsame : SameStore s s') (time' : Nat) :
    Inv (ofRows (s', time') rows) := by
  obtain ⟨hmemtable, hcompaction, hdict⟩ := hsame
  cases s
  cases s'
  cases hmemtable
  cases hcompaction
  cases hdict
  exact ⟨⟨h.levels, h.askable, h.known, h.memtable, h.tables, h.stored, h.served⟩, h.names, h.ids,
    h.plain, h.room⟩

/-- More rows in the memtable, under ids of a dictionary that has grown. -/
theorem Inv.take (h : Inv (ofRows (s, time) rows)) {dict : SymbolDictionary}
    (hgrown : s.symbolDict.idToSymbol <+: dict.idToSymbol) (hroom : dict.len ≤ 65536)
    {more : List (String × Tick)} (hids : Deliveries.HasIds dict more) (hplain : Plain more)
    (wal : Wal) (time' : Nat) : Inv (ofRows
      (((s.withDict dict).take (more.map (Deliveries.stored dict))).withWal wal, time') (rows ++ more)) := by
  have hknown : InsertCall.Known dict (more.map (Deliveries.stored dict)) := by
    refine List.forall_mem_map.mpr fun r hr => ?_
    obtain ⟨id, hid⟩ := hids r hr
    refine ⟨r.1, ?_⟩
    rw [Deliveries.stored, SymbolDictionary.getOrInsert_of_getId hid]
    exact (SymbolDictionary.getId_iff_getSymbol hroom r.1 id).mp hid
  obtain ⟨hnames, hold⟩ := stored_of_grown hgrown h.ids
  have hinv := History.inv_take h.toInv hgrown hknown wal time'
  rw [h.names] at hinv
  have hrows : (rows ++ more).map (Deliveries.stored dict) =
      rows.map (Deliveries.stored s.symbolDict) ++ more.map (Deliveries.stored dict) := by
    rw [List.map_append]
    exact congrArg (· ++ _) hnames
  refine ⟨?_, rfl, List.forall_mem_append.mpr ⟨hold, hids⟩,
    List.forall_mem_append.mpr ⟨h.plain, hplain⟩, hroom⟩
  change History.Inv ⟨_, _, (rows ++ more).map (Deliveries.stored dict)⟩
  rw [hrows]
  exact hinv

/-- The flush at the threshold is harmless, or it is not due. -/
def FlushesWell (p : Platform) (c : Codec) (env : Env) (st : LsmTree × Nat) : Prop :=
  st.1.memtable.len < st.1.flushThreshold ∨ History.Harmless p c env ⟨st.1, st.2, []⟩ .flushMemtable

instance (p : Platform) (c : Codec) (env : Env) (st : LsmTree × Nat) :
    Decidable (FlushesWell p c env st) := inferInstanceAs (Decidable (_ ∨ _))

theorem Inv.flushed (h : Inv (ofRows (s, time) rows)) (hflush : FlushesWell p c env (s, time))
    (time' : Nat) : Inv (ofRows (flushedIfFull p env (s, time), time') rows) := by
  rw [LsmTree.flushedIfFull, flushIfFull, exec_bind_ok (exec_gets _ _ _)]
  by_cases hfull : s.memtable.len ≥ s.flushThreshold
  · rw [if_pos hfull]
    have hharmless : Roomy p c env (ofRows (s, time) rows) .flushMemtable := by
      refine ⟨hflush.resolve_left (not_lt.mpr hfull), ?_⟩
      rw [symbolDict_flush p c env h.levels]
      exact h.room
    exact (inv_step p c env _ .flushMemtable h hharmless).rebuilt time'
  · rw [if_neg hfull]
    exact h.sameStore ⟨rfl, rfl, rfl⟩ time'

end NamedHistory

namespace Pulling
open LsmTree NamedHistory

/-- What a lookup finds, without the id; an error finds nothing. -/
def found (st : LsmTree × Nat) (symbol : String) (t : TimestampNs) : Option Tick :=
  match exec (get .calm symbol t) [] st with
  | .finished (.ok tick) _ _ => tick.map fun tick => tick.withSymbol 0
  | .finished (.error _) _ _ => none
  | .blocked _ _ _ => none

/-- The replica's position is at the end of the primary's log. -/
def CaughtUp (r : Pulling) : Prop :=
  ∀ e ∈ r.primary.appended, ∃ s ∈ r.tree.lastPrimarySequence, e.sequence ≤ s

instance (r : Pulling) : Decidable r.CaughtUp := inferInstanceAs (Decidable (∀ _ ∈ _, ∃ _ ∈ _, _))

/-- A caught up replica finds what its primary finds, and queries for a symbol that both know
have the same result. -/
def Copies (r : Pulling) : Prop :=
  r.CaughtUp → ∀ symbol,
    (∀ t, found (r.tree, r.time) symbol t = found (r.primary.tree, r.primary.time) symbol t) ∧
    ∀ id id', r.tree.symbolDict.getId symbol = some id →
      r.primary.tree.symbolDict.getId symbol = some id' →
      ∀ avx2 q, q.explain = false → q.symbol = symbol → ∃ result time time',
        exec (Gql.Executor.execute avx2 .calm q) [] (r.tree, r.time) =
          .finished result [] (r.tree, time) ∧
        exec (Gql.Executor.execute avx2 .calm q) [] (r.primary.tree, r.primary.time) =
          .finished result [] (r.primary.tree, time')

def primaryRows (r : Pulling) : List (String × Tick) := r.primary.appended.filterMap ReplicationEntry.row

def replicaRows (r : Pulling) : List (String × Tick) := r.applied.filterMap ReplicationEntry.row

/-- A batch finds room for its symbols, and the flush behind it, if one is due, is
harmless. -/
def FindsRoom (p : Platform) (c : Codec) (env : Env) (r : Pulling) (batch : List ReplicationEntry) :
    Prop :=
  (r.tree.symbolDict.resolveEntries batch).2.len ≤ 65536 ∧
    (takesBatch c env (r.tree, r.time) batch = true →
      FlushesWell p c env (withBatch c env (r.tree, r.time) batch, r.time + 1))

instance (p : Platform) (c : Codec) (env : Env) (r : Pulling) (batch : List ReplicationEntry) :
    Decidable (r.FindsRoom p c env batch) := inferInstanceAs (Decidable (_ ∧ (_ → _)))

/-- Orderly events that are harmless on both sides. -/
def Harmless (p : Platform) (c : Codec) (env env' : Env) (r : Pulling) (e : Event) : Prop :=
  r.Orderly p c env e ∧ match e with
  | .primary call => Roomy p c env (ofRows (r.primary.tree, r.primary.time) r.primaryRows) call
  | .fetch _ => True
  | .apply => ∀ batch ∈ r.fetched, r.FindsRoom p c env' batch

instance (p : Platform) (c : Codec) (env env' : Env) (r : Pulling) (e : Event) :
    Decidable (r.Harmless p c env env' e) :=
  match e with
  | .primary _ => inferInstanceAs (Decidable (_ ∧ _))
  | .fetch _ => inferInstanceAs (Decidable (_ ∧ True))
  | .apply => inferInstanceAs (Decidable (_ ∧ ∀ _ ∈ _, _))

/-- Both nodes hold the rows of their entries, and what the replica has is current. -/
structure CopyInv (c : Codec) (r : Pulling) : Prop extends Inv c r where
  primaryHolds : NamedHistory.Inv (ofRows (r.primary.tree, r.primary.time) r.primaryRows)
  replicaHolds : NamedHistory.Inv (ofRows (r.tree, r.time) r.replicaRows)
  current : ∀ symbol t, Current ReplicationEntry.sequence (ReplicationEntry.rowFor symbol t)
    r.primary.appended r.applied r.tree.lastPrimarySequence

variable {p : Platform} {c : Codec} {env env' : Env} {r : Pulling}

theorem found_eq {n : NamedHistory} (h : NamedHistory.Inv n) (symbol : String) (t : TimestampNs) :
    found (n.tree, n.time) symbol t = rowAt n.rows symbol t := by
  have hanswers := answersAsMap_of_inv h symbol
  rw [found]
  cases hid : n.tree.symbolDict.getId symbol with
  | none =>
    rw [hid] at hanswers
    obtain ⟨hnone, hget, -⟩ := hanswers
    rw [hget]
    cases hrow : rowAt n.rows symbol t with
    | none => rfl
    | some x => exact absurd rfl (hnone _ (timestamp_of_rowAt hrow).1)
  | some id =>
    rw [hid] at hanswers
    obtain ⟨time, hget⟩ := hanswers.1 t
    rw [hget]
    dsimp only
    rw [Option.map_map]
    cases hrow : rowAt n.rows symbol t with
    | none => rfl
    | some x =>
      have hzero : x.symbolId = 0 := h.plain _ (timestamp_of_rowAt hrow).1
      rw [Option.map_some, Option.some_inj, Function.comp_apply]
      change { x with symbolId := 0 } = x
      rw [← hzero]

theorem CopyInv.rows_eq (h : CopyInv c r) (hcaught : r.CaughtUp) (symbol : String) (t : TimestampNs) :
    rowAt r.replicaRows symbol t = rowAt r.primaryRows symbol t := by
  rw [replicaRows, primaryRows, rowAt_filterMap, rowAt_filterMap]
  exact (h.current symbol t).caughtUp h.sound hcaught

/-- Ranges with the same rows at all times are the same. -/
theorem rowsBetween_congr {rows rows' : List (String × Tick)} (hplain : Plain rows)
    (hplain' : Plain rows') {symbol : String}
    (h : ∀ t, rowAt rows symbol t = rowAt rows' symbol t) (t1 t2 : TimestampNs) :
    rowsBetween rows symbol t1 t2 = rowsBetween rows' symbol t1 t2 := by
  refine eq_of_increasing Tick.key (increasing_mergeRows _ _) (increasing_mergeRows _ _) fun x => ?_
  rw [mem_rowsBetween hplain, mem_rowsBetween hplain', h]

theorem CopyInv.copies (h : CopyInv c r) : r.Copies := by
  intro hcaught symbol
  have hrows := h.rows_eq hcaught symbol
  refine ⟨fun t => ?_, fun id id' hid hid' avx2 q hq hsymbol => ?_⟩
  · exact (found_eq h.replicaHolds symbol t).trans
      ((hrows t).trans (found_eq h.primaryHolds symbol t).symm)
  · have hreplica := answersAsMap_of_inv h.replicaHolds symbol
    have hprimary := answersAsMap_of_inv h.primaryHolds symbol
    have hnamed : (ofRows (r.tree, r.time) r.replicaRows).tree.symbolDict.getId symbol = some id := hid
    have hnamed' : (ofRows (r.primary.tree, r.primary.time) r.primaryRows).tree.symbolDict.getId symbol =
        some id' := hid'
    rw [hnamed] at hreplica
    rw [hnamed'] at hprimary
    obtain ⟨time, hexec⟩ := hreplica.2 avx2 q hq hsymbol
    obtain ⟨time', hexec'⟩ := hprimary.2 avx2 q hq hsymbol
    have hrange := rowsBetween_congr (plain_filterMap _) (plain_filterMap _) hrows
      q.whereClause.t1 q.whereClause.t2
    refine ⟨_, time, time', hexec, hexec'.trans ?_⟩
    change Outcome.finished (Gql.Executor.answer avx2 q
      (rowsBetween r.primaryRows symbol q.whereClause.t1 q.whereClause.t2)) _ _ =
        Outcome.finished (Gql.Executor.answer avx2 q
          (rowsBetween r.replicaRows symbol q.whereClause.t1 q.whereClause.t2)) _ _
    rw [replicaRows, primaryRows, hrange]
    rfl

theorem copyInv_start (c : Codec) (primaryThreshold replicaThreshold : Nat) :
    CopyInv c (start primaryThreshold replicaThreshold) where
  toInv := inv_start c primaryThreshold replicaThreshold
  primaryHolds := (NamedHistory.inv_start primaryThreshold .primary).rebuilt 0
  replicaHolds := (NamedHistory.inv_start replicaThreshold .replica).rebuilt 0
  current _ _ := current_start _

/-- The entries of a call have its rows. -/
theorem rows_insertion {pr : Primary} {call : InsertCall}
    (hroom : (pr.step p c env (.insertion call)).tree.symbolDict.len ≤ 65536) :
    (pr.step p c env (.insertion call)).appended.filterMap ReplicationEntry.row =
      if (exec (call.op p c env) [] (pr.tree, pr.time)).succeeded then
        pr.appended.filterMap ReplicationEntry.row ++ call.named
      else pr.appended.filterMap ReplicationEntry.row := by
  have hends := call.ends p c env pr.tree pr.time
  rw [Primary.step] at hroom ⊢
  generalize exec (call.op p c env) [] (pr.tree, pr.time) = outcome at *
  cases hends with
  | empty _ hempty =>
    rw [InsertCall.named_of_isEmpty hempty, InsertCall.rows_of_isEmpty hempty, List.append_nil]
    exact congrArg (List.filterMap _) (List.append_nil _)
  | failed _ e st => rfl
  | blocked _ _ st => rfl
  | @stored ticks dict hstores hlt =>
    obtain ⟨hticks, hids⟩ := InsertCall.named_stored hstores.stored
    have hrows : call.rows pr.tree.symbolDict = ticks := by
      rw [InsertCall.rows, hstores.stored]
      rfl
    have hlen : dict.len ≤ 65536 := hroom
    change (pr.appended ++ dict.entriesFrom pr.tree.wal.sequence
      (call.rows pr.tree.symbolDict)).filterMap ReplicationEntry.row = _ ++ _
    rw [hrows, hticks, List.filterMap_append,
      SymbolDictionary.filterMap_row_entriesFrom hlen hids call.plain_named]

theorem copyInv_insertion (h : CopyInv c r) {call : InsertCall}
    (hlogs : r.primary.Logs p c env (.insertion call))
    (hroomy : Roomy p c env (ofRows (r.primary.tree, r.primary.time) r.primaryRows)
      (.insertion call)) : CopyInv c (step p c env env' r (.primary (.insertion call))) := by
  obtain ⟨gone, held, first, hstreams, -⟩ := h.streams
  obtain ⟨new, hstreams', hnew⟩ := Primary.streams_insertion hstreams hlogs
  have happended : (r.primary.step p c env (.insertion call)).appended =
      r.primary.appended ++ new := by
    rw [hstreams'.appended, hstreams.appended, List.append_assoc]
  have hholds := (NamedHistory.inv_step p c env _ _ h.primaryHolds hroomy).rebuilt
    (r.primary.step p c env (.insertion call)).time
  refine ⟨inv_insertion h.toInv hlogs, ?_, h.replicaHolds, fun symbol t => ?_⟩
  · have hroom : (r.primary.step p c env (.insertion call)).tree.symbolDict.len ≤ 65536 := hroomy.2
    change NamedHistory.Inv (ofRows _ ((r.primary.step p c env (.insertion call)).appended.filterMap
      ReplicationEntry.row))
    rw [rows_insertion hroom]
    exact hholds
  · have hpast : ∀ e ∈ new, ∀ s ∈ r.tree.lastPrimarySequence, s < e.sequence := fun e he s hs =>
      (h.position s hs).trans_le (hnew e he)
    have hcurrent := (h.current symbol t).append hpast
    rwa [← happended] at hcurrent

theorem copyInv_flushMemtable (h : CopyInv c r)
    (hcovered : r.primary.tree.memtable.chain = [] ∨ r.CaughtUp)
    (hroomy : Roomy p c env (ofRows (r.primary.tree, r.primary.time) r.primaryRows) .flushMemtable) :
    CopyInv c (step p c env env' r (.primary .flushMemtable)) :=
  ⟨inv_flushMemtable h.toInv hcovered,
    (NamedHistory.inv_step p c env _ _ h.primaryHolds hroomy).rebuilt _, h.replicaHolds, h.current⟩

theorem copyInv_fetch (h : CopyInv c r) (limit : Nat) : CopyInv c (fetch c r limit) := by
  obtain ⟨gone, held, first, hstreams, -⟩ := h.streams
  have hinv := inv_fetch h.toInv limit
  rw [fetch, hstreams.read] at hinv ⊢
  exact ⟨hinv, h.primaryHolds.rebuilt _, h.replicaHolds, h.current⟩

theorem copyInv_apply (h : CopyInv c r) {batch : List ReplicationEntry} (hbatch : batch ∈ r.fetched)
    (hroom : r.FindsRoom p c env batch) : CopyInv c (apply p c env r batch) := by
  have hinv : Inv c (apply p c env r batch) := inv_apply h.toInv hbatch
  have hnamed : ∀ e ∈ batch, e.Named := by
    obtain ⟨gone, held, first, hstreams, -⟩ := h.streams
    exact fun e he => hstreams.named e (h.sound_fetched hbatch e he)
  rw [apply] at hinv ⊢
  by_cases hne : batch = []
  · subst hne
    rw [applyReplicationBatch, if_pos rfl, List.append_nil, ite_self] at hinv ⊢
    exact ⟨hinv, h.primaryHolds, h.replicaHolds, h.current⟩
  obtain ⟨r', s', time', hexec, happlied⟩ := exec_apply p c env h.role h.levels r.time hne
  rw [hexec] at hinv ⊢
  obtain ⟨hrows, hids⟩ := Deliveries.resolveEntries_of_named (d := r.tree.symbolDict) hnamed
    List.prefix_rfl
  have hgrown := r.tree.symbolDict.prefix_resolveEntries batch
  refine ⟨hinv, h.primaryHolds, ?_, fun symbol t => ?_⟩
  · rcases happlied.content with ⟨htakes, hsame⟩ | ⟨htakes, hsame⟩
    · have hnone : Deliveries.HasIds (r.tree.symbolDict.resolveEntries batch).2 [] :=
        List.forall_mem_nil _
      have hmore := h.replicaHolds.take hgrown hroom.1 hnone (List.forall_mem_nil _) r.tree.wal r.time
      rw [List.append_nil] at hmore
      rw [htakes]
      exact hmore.sameStore ⟨hsame.memtable, hsame.compaction, hsame.symbolDict⟩ time'
    · have hmore := h.replicaHolds.take hgrown hroom.1 hids (plain_filterMap batch)
        (r.tree.logReplicated c (env.disk r.time) batch).2 (r.time + 1)
      rw [← hrows, replicaRows, ← List.filterMap_append] at hmore
      rw [htakes]
      exact (hmore.flushed (hroom.2 htakes) time').sameStore hsame time'
  · change Current _ _ _ (if takesBatch c env (r.tree, r.time) batch = true then r.applied ++ batch
      else r.applied) s'.lastPrimarySequence
    rcases happlied.position with hsame | ⟨htakes, hmoved⟩
    · rw [hsame]
      split_ifs
      · exact (h.current symbol t).stay (h.fits batch hbatch)
      · exact h.current symbol t
    · obtain ⟨x, hx, hmax, -⟩ := h.moves hbatch hne
      rw [hmoved, hmax, if_pos htakes]
      exact (h.current symbol t).advance h.increasing h.sound (h.fits batch hbatch) hx

theorem copyInv_step (p : Platform) (c : Codec) (env env' : Env) (r : Pulling) (e : Event)
    (h : CopyInv c r) (hharmless : r.Harmless p c env env' e) : CopyInv c (step p c env env' r e) := by
  obtain ⟨horderly, hmore⟩ := hharmless
  cases e with
  | primary call =>
    cases call with
    | insertion call => exact copyInv_insertion h horderly.1 hmore
    | flushMemtable => exact copyInv_flushMemtable h (horderly.2 rfl) hmore
  | fetch limit => exact copyInv_fetch h limit
  | apply =>
    rw [step]
    cases hfetched : r.fetched with
    | none => exact h
    | some batch => exact copyInv_apply h hfetched (hmore batch hfetched)

end Pulling

end Graphite
