import Graphite.TableCache

/-! A block in the cache, or on its way there, is the block of the one table that ever had
its id. So a scan finds what it would have read. -/

namespace Graphite
open BigEndian GuardedRuns

namespace OpenTable

/-- The block that a scan without cache reads. -/
def block (t : OpenTable) (inodes : List Bytes) : Option Bytes :=
  t.sst.readDataBlock (t.file inodes)

theorem block_congr (t : OpenTable) {inodes inodes' : List Bytes}
    (h : inodes'.getD t.inode [] = inodes.getD t.inode []) : t.block inodes' = t.block inodes := by
  rw [block, block, file, file, h]

end OpenTable

namespace TableWorld

/-- One of the first `n` ids of the counter. -/
def Issued (n : Nat) (id : UInt64) : Prop := ∃ i < n, id = UInt64.ofNat (1 + i)

theorem Issued.mono {m n : Nat} (hmn : m ≤ n) {id : UInt64} (h : Issued m id) : Issued n id := by
  obtain ⟨i, hi, rfl⟩ := h
  exact ⟨i, by omega, rfl⟩

/-- The counter does not come round for 2^64 ids. -/
theorem not_issued_next {n : Nat} (hn : n < 2 ^ 64) : ¬ Issued n (UInt64.ofNat (1 + n)) := by
  rintro ⟨i, hi, heq⟩
  have hmod := congrArg UInt64.toNat heq
  rw [UInt64.toNat_ofNat', UInt64.toNat_ofNat'] at hmod
  omega

/-- The block belongs to an id that was issued, and is what the table of that id reads. -/
def Owned (n : Nat) (w : TableWorld) (e : CacheKey × Bytes) : Prop :=
  Issued n e.1.sstableId ∧ ∀ t ∈ w.tables, t.cacheKey = e.1 → t.block w.inodes = some e.2

/-- After `n` ids. -/
structure Sound (n : Nat) (w : TableWorld) : Prop where
  counter : w.counter = UInt64.ofNat (1 + n)
  dirIn : ∀ e ∈ w.dir, e.2 < w.inodes.length
  tablesIn : ∀ t ∈ w.tables, t.inode < w.inodes.length
  ids : (w.tables.map OpenTable.id).Nodup
  issued : ∀ t ∈ w.tables, Issued n t.id
  cached : ∃ c es, w.cache = some c ∧ c.Holds es ∧ ∀ e ∈ es, w.Owned n e
  pendingOwned : ∀ e ∈ w.pending, w.Owned n e

theorem start_sound (capacityMb : Nat) (files : List (String × Bytes)) :
    (start capacityMb files).Sound 0 where
  counter := rfl
  dirIn := by
    intro e he
    have hlt := List.snd_lt_of_mem_zipIdx he
    simpa [start] using hlt
  tablesIn := by simp [start]
  ids := List.nodup_nil
  issued := by simp [start]
  cached := ⟨_, [], rfl, BlockCache.new_holds capacityMb, by simp⟩
  pendingOwned := by simp [start]

/-- What was owned stays so while the tables of the old ids keep their blocks. -/
theorem Owned.keep {n m : Nat} (hnm : n ≤ m) {w w' : TableWorld}
    (hold : ∀ t ∈ w'.tables, Issued n t.id → t ∈ w.tables ∧ t.block w'.inodes = t.block w.inodes)
    {e : CacheKey × Bytes} (h : w.Owned n e) : w'.Owned m e := by
  refine ⟨h.1.mono hnm, fun t ht hkey => ?_⟩
  have hid : t.id = e.1.sstableId := congrArg CacheKey.sstableId hkey
  obtain ⟨ht', hblock⟩ := hold t ht (hid ▸ h.1)
  rw [hblock]
  exact h.2 t ht' hkey

/-- A call that takes an id may open a table under it and write to files that no table has
open. -/
theorem Sound.take_id {n : Nat} (hn : n < 2 ^ 64) {w w' : TableWorld} (h : w.Sound n)
    (hcounter : w'.counter = w.counter + 1) (hcache : w'.cache = w.cache)
    (hpending : w'.pending = w.pending) (hdir : ∀ e ∈ w'.dir, e.2 < w'.inodes.length)
    (hlength : w.inodes.length ≤ w'.inodes.length)
    (hfiles : ∀ t ∈ w.tables, w'.inodes.getD t.inode [] = w.inodes.getD t.inode [])
    (new : Option OpenTable) (htables : w'.tables = w.tables ++ new.toList)
    (hnew : ∀ t ∈ new, t.id = w.counter ∧ t.inode < w'.inodes.length) : w'.Sound (n + 1) := by
  have hfresh := not_issued_next hn
  rw [← h.counter] at hfresh
  have hmem : ∀ t ∈ w'.tables, t ∈ w.tables ∨ t ∈ new := by
    intro t ht
    rw [htables, List.mem_append, Option.mem_toList] at ht
    exact ht
  have hold : ∀ t ∈ w'.tables, Issued n t.id →
      t ∈ w.tables ∧ t.block w'.inodes = t.block w.inodes := by
    intro t ht hissued
    rcases hmem t ht with ht | ht
    · exact ⟨ht, t.block_congr (hfiles t ht)⟩
    · exact absurd ((hnew t ht).1 ▸ hissued) hfresh
  constructor
  · rw [hcounter, h.counter, ← Nat.add_assoc, UInt64.ofNat_add (1 + n) 1]
    rfl
  · exact hdir
  · intro t ht
    rcases hmem t ht with ht | ht
    · exact lt_of_lt_of_le (h.tablesIn t ht) hlength
    · exact (hnew t ht).2
  · rw [htables, List.map_append, List.nodup_append]
    refine ⟨h.ids, ?_, ?_⟩
    · cases new <;> simp
    · rintro _ hid _ hid' rfl
      obtain ⟨t, ht, rfl⟩ := List.mem_map.mp hid
      obtain ⟨t', ht', heq⟩ := List.mem_map.mp hid'
      rw [Option.mem_toList] at ht'
      rw [(hnew t' ht').1] at heq
      exact hfresh (heq ▸ h.issued t ht)
  · intro t ht
    rcases hmem t ht with ht | ht
    · exact (h.issued t ht).mono (Nat.le_succ n)
    · exact ⟨n, Nat.lt_succ_self n, (hnew t ht).1.trans h.counter⟩
  · obtain ⟨c, es, hc, hholds, howned⟩ := h.cached
    exact ⟨c, es, hcache.trans hc, hholds, fun e he => (howned e he).keep (Nat.le_succ n) hold⟩
  · intro e he
    exact (h.pendingOwned e (hpending ▸ he)).keep (Nat.le_succ n) hold

/-- Tables and names may go. -/
theorem Sound.shrink {n : Nat} {w w' : TableWorld} (h : w.Sound n)
    (hcounter : w'.counter = w.counter) (hcache : w'.cache = w.cache)
    (hpending : w'.pending = w.pending) (hinodes : w'.inodes = w.inodes)
    (hdir : w'.dir ⊆ w.dir) (htables : w'.tables.Sublist w.tables) : w'.Sound n := by
  have hold : ∀ t ∈ w'.tables, Issued n t.id →
      t ∈ w.tables ∧ t.block w'.inodes = t.block w.inodes := fun t ht _ =>
    ⟨htables.subset ht, by rw [hinodes]⟩
  constructor
  · rw [hcounter, h.counter]
  · intro e he
    rw [hinodes]
    exact h.dirIn e (hdir he)
  · intro t ht
    rw [hinodes]
    exact h.tablesIn t (htables.subset ht)
  · exact h.ids.sublist (htables.map _)
  · exact fun t ht => h.issued t (htables.subset ht)
  · obtain ⟨c, es, hc, hholds, howned⟩ := h.cached
    exact ⟨c, es, hcache.trans hc, hholds, fun e he => (howned e he).keep (Nat.le_refl n) hold⟩
  · intro e he
    exact (h.pendingOwned e (hpending ▸ he)).keep (Nat.le_refl n) hold

/-- The file that a write goes to is none that a table has open. -/
theorem create_spec (w : TableWorld) (path : String) (hdir : ∀ e ∈ w.dir, e.2 < w.inodes.length)
    (htables : ∀ t ∈ w.tables, t.inode < w.inodes.length)
    (hfree : ∀ t ∈ w.tables, w.dir.lookup path ≠ some t.inode) :
    ∃ inode inodes dir, w.create path = (inode, { w with inodes, dir }) ∧
      inode < inodes.length ∧ w.inodes.length ≤ inodes.length ∧
      (∀ e ∈ dir, e.2 < inodes.length) ∧
      ∀ t ∈ w.tables, t.inode ≠ inode ∧ inodes.getD t.inode [] = w.inodes.getD t.inode [] := by
  rw [create]
  cases hpath : w.dir.lookup path with
  | some inode =>
    have hinode := hdir _ (LruMap.mem_of_lookup hpath)
    refine ⟨inode, w.inodes.set inode [], w.dir, rfl, ?_, ?_, ?_, fun t ht => ?_⟩
    · rwa [List.length_set]
    · rw [List.length_set]
    · simpa using hdir
    · have hne : t.inode ≠ inode := fun heq => hfree t ht (heq ▸ hpath)
      exact ⟨hne, by simp [List.getElem?_set_ne hne.symm]⟩
  | none =>
    refine ⟨w.inodes.length, w.inodes ++ [[]], (path, w.inodes.length) :: w.dir, rfl, ?_, ?_, ?_,
      fun t ht => ?_⟩
    · simp
    · simp
    · intro e he
      rw [List.length_append]
      rcases List.mem_cons.mp he with rfl | he
      · simp
      · exact Nat.lt_succ_of_lt (hdir e he)
    · have hlt := htables t ht
      refine ⟨Nat.ne_of_lt hlt, ?_⟩
      rw [List.getD_append _ _ _ _ hlt]

theorem write_sound (p : Platform) {n : Nat} (hn : n < 2 ^ 64) {w : TableWorld} (h : w.Sound n)
    (path : String) (ticks : List Tick) (level : Nat) (dict : SymbolDictionary) (landing : Landing)
    (hfree : ∀ t ∈ w.tables, w.dir.lookup path ≠ some t.inode) :
    (w.write p path ticks level dict landing).Sound (n + 1) := by
  rw [write]
  split_ifs with hrefused
  · exact h.take_id hn rfl rfl rfl h.dirIn (Nat.le_refl _) (fun _ _ => rfl) none
      (List.append_nil _).symm (by simp)
  obtain ⟨inode, inodes, dir, hcreate, hinode, hlength, hdir, hfiles⟩ :=
    { w with counter := w.counter + 1 }.create_spec path h.dirIn h.tablesIn hfree
  have hset : ∀ bytes : Bytes, ∀ t ∈ w.tables,
      (inodes.set inode bytes).getD t.inode [] = w.inodes.getD t.inode [] := by
    intro bytes t ht
    obtain ⟨hne, hsame⟩ := hfiles t ht
    rw [← hsame, List.getD_eq_getElem?_getD, List.getElem?_set_ne hne.symm,
      List.getD_eq_getElem?_getD]
  simp only [hcreate]
  split
  · refine h.take_id hn rfl rfl rfl ?_ ?_ (hset _) (some _) rfl ?_
    · simpa using hdir
    · simpa using hlength
    · simpa using hinode
  · refine h.take_id hn rfl rfl rfl ?_ ?_ (hset _) none (List.append_nil _).symm (by simp)
    · simpa using hdir
    · simpa using hlength
  · exact h.take_id hn rfl rfl rfl hdir hlength (fun t ht => (hfiles t ht).2) none
      (List.append_nil _).symm (by simp)

theorem openTable_sound {n : Nat} (hn : n < 2 ^ 64) {w : TableWorld} (h : w.Sound n)
    (path : String) : (w.openTable path).Sound (n + 1) := by
  have hnone : { w with counter := w.counter + 1 }.Sound (n + 1) :=
    h.take_id hn rfl rfl rfl h.dirIn (Nat.le_refl _) (fun _ _ => rfl) none
      (List.append_nil _).symm (by simp)
  rw [openTable]
  cases hpath : w.dir.lookup path with
  | none => exact hnone
  | some inode =>
    have hinode := h.dirIn _ (LruMap.mem_of_lookup hpath)
    dsimp only
    cases SsTable.openBytes path (w.inodes.getD inode []) with
    | error e => exact hnone
    | ok sst =>
      exact h.take_id hn rfl rfl rfl h.dirIn (Nat.le_refl _) (fun _ _ => rfl) (some _) rfl
        (by simpa using hinode)

/-- The block of an open table is the one that its key stands for. -/
theorem Sound.owned_block {n : Nat} {w : TableWorld} (h : w.Sound n) {t : OpenTable}
    (ht : t ∈ w.tables) {data : Bytes} (hblock : t.block w.inodes = some data) :
    w.Owned n (t.cacheKey, data) := by
  refine ⟨h.issued t ht, fun t' ht' hkey => ?_⟩
  have hid : t'.id = t.id := congrArg CacheKey.sstableId hkey
  rw [List.inj_on_of_nodup_map h.ids ht' ht hid, hblock]

/-- A scan answers as without the cache, and leaves its block to be inserted at most. -/
theorem scan_spec (p : Platform) {n : Nat} {w : TableWorld} (h : w.Sound n) {t : OpenTable}
    (ht : t ∈ w.tables) (symbolId : Option SymbolId) (t1 t2 : TimestampNs) :
    (w.scan p t symbolId t1 t2).1 = t.scan p w.inodes symbolId t1 t2 ∧
      (w.scan p t symbolId t1 t2).2.Sound n := by
  obtain ⟨c, es, hc, hholds, howned⟩ := h.cached
  obtain ⟨c', hget, -, hholds'⟩ := c.get_spec hholds t.cacheKey
  have hkept : ∀ pending, (∀ e ∈ pending, w.Owned n e) →
      { w with cache := some c', pending }.Sound n := fun pending hpending =>
    ⟨h.counter, h.dirIn, h.tablesIn, h.ids, h.issued, ⟨c', es, rfl, hholds', howned⟩, hpending⟩
  rw [scan, OpenTable.scan, SsTable.scan, hc, Option.bind_some, hget]
  split_ifs
  · exact ⟨rfl, h⟩
  · exact ⟨rfl, h⟩
  cases hlookup : es.lookup t.cacheKey with
  | some data =>
    have hblock := (howned _ (LruMap.mem_of_lookup hlookup)).2 t ht rfl
    rw [OpenTable.block] at hblock
    refine ⟨?_, hkept w.pending h.pendingOwned⟩
    rw [hblock]
    rfl
  | none =>
    dsimp only
    cases hblock : t.sst.readDataBlock (t.file w.inodes) with
    | none => exact ⟨rfl, hkept w.pending h.pendingOwned⟩
    | some data =>
      refine ⟨rfl, hkept _ fun e he => ?_⟩
      rcases List.mem_append.mp he with he | he
      · exact h.pendingOwned e he
      · rw [List.mem_singleton.mp he]
        exact h.owned_block ht hblock

/-- An insert brings in no other entry. -/
theorem store_sound {n : Nat} {w : TableWorld} (h : w.Sound n) (i : Nat) :
    (w.store i).Sound n := by
  rw [store]
  cases hi : w.pending[i]? with
  | none => exact h
  | some e =>
    obtain ⟨key, data⟩ := e
    obtain ⟨c, es, hc, hholds, howned⟩ := h.cached
    obtain ⟨c', es', hinsert, hholds', hsubset⟩ := c.insert_subset hholds key data
    have hnew := h.pendingOwned _ (List.mem_of_getElem? hi)
    refine ⟨h.counter, h.dirIn, h.tablesIn, h.ids, h.issued, ⟨c', es', ?_, hholds', ?_⟩, ?_⟩
    · rw [hc]
      exact hinsert
    · intro e he
      rcases hsubset e he with rfl | he
      · exact hnew
      · exact howned e he
    · exact fun e he => h.pendingOwned e (List.mem_of_mem_eraseIdx he)

/-- Ids that an event takes. -/
def idsOf (event : TableEvent) : Nat := if event.takesId then 1 else 0

theorem step_sound (p : Platform) {n : Nat} {w : TableWorld} (h : w.Sound n) {event : TableEvent}
    (hfree : w.LeavesOpenFiles event) (hn : n + idsOf event ≤ 2 ^ 64) :
    (w.step p event).Sound (n + idsOf event) := by
  cases event with
  | write path ticks level dict landing =>
    exact write_sound p hn h path ticks level dict landing hfree
  | open_ path => exact openTable_sound hn h path
  | remove path =>
    exact h.shrink rfl rfl rfl rfl (fun _ he => List.mem_of_mem_filter he) (List.Sublist.refl _)
  | drop i => exact h.shrink rfl rfl rfl rfl (fun _ he => he) (List.eraseIdx_sublist _ _)
  | scan i symbolId t1 t2 =>
    rw [step]
    cases ht : w.tables[i]? with
    | none => exact h
    | some t => exact (scan_spec p h (List.mem_of_getElem? ht) symbolId t1 t2).2
  | store i => exact store_sound h i

theorem Sound.transparent (p : Platform) {n : Nat} {w : TableWorld} (h : w.Sound n) :
    w.Transparent p := fun _ ht symbolId t1 t2 => (scan_spec p h ht symbolId t1 t2).1

theorem always_transparent (p : Platform) (events : List TableEvent) {n : Nat} {w : TableWorld}
    (h : w.Sound n) (hfree : Guarded (step p) LeavesOpenFiles w events)
    (hn : n + events.countP TableEvent.takesId ≤ 2 ^ 64) :
    Always (step p) (Transparent p) w events := by
  induction events generalizing n w with
  | nil => exact (always_nil_iff w).mpr (h.transparent p)
  | cons event events ih =>
    have hcount : n + idsOf event + events.countP TableEvent.takesId ≤ 2 ^ 64 := by
      rw [List.countP_cons] at hn
      rw [idsOf]
      omega
    refine (always_cons_iff w event events).mpr ⟨h.transparent p, ?_⟩
    exact ih (step_sound p h hfree.1 (by omega)) hfree.2 hcount

/-- In every run of at most 2^64 calls of `write` and `open` each scan answers with the cache
as it does without. -/
theorem cached_scans_agree (p : Platform) (capacityMb : Nat) (files : List (String × Bytes))
    (events : List TableEvent)
    (hfree : Guarded (step p) LeavesOpenFiles (start capacityMb files) events)
    (hids : events.countP TableEvent.takesId ≤ 2 ^ 64) :
    Always (step p) (Transparent p) (start capacityMb files) events :=
  always_transparent p events (start_sound capacityMb files) hfree (by omega)

/-- A table file with this data block, a dictionary without symbols and nothing indexed. -/
def fileWith (data : Bytes) : Bytes :=
  let header := encode 4 SsTable.MAGIC ++ encode 2 SsTable.VERSION
  let body := header ++ data ++ SsTable.indexBytes [] ++ List.replicate 12 0 ++ List.replicate 44 0
  body ++ SsTable.footerBytes
    ⟨6, data.length, 6 + data.length, 4, 10 + data.length, 12, 22 + data.length, 44⟩

/-- A block too short for columns, and one whose last column size points behind its end. -/
def twoFiles : List (String × Bytes) :=
  [("a.sst", fileWith []), ("b.sst", fileWith (List.replicate 27 0 ++ [1]))]

/-- The file is read twice, and removed in between. -/
def scannedTwice : List TableEvent :=
  [.open_ "a.sst", .scan 0 none 0 0, .store 0, .remove "a.sst", .scan 0 none 0 0,
    .write "a.sst" [] 0 .new .done, .open_ "b.sst", .scan 2 none 0 0]

theorem cached_scans_agree_removed_file :
    Always (step .simple) (Transparent .simple) (start 1 twoFiles) scannedTwice :=
  cached_scans_agree .simple 1 twoFiles scannedTwice (by decide +kernel) (by decide)

/-- The block of the first table goes into the cache, and the table is closed. -/
def firstTable : List TableEvent :=
  [.open_ "a.sst", .scan 0 none 0 0, .store 0, .drop 0]

/-- Each failing open takes an id. -/
theorem run_missing (p : Platform) (n : Nat) {w : TableWorld} {path : String}
    (h : w.dir.lookup path = none) :
    run (step p) w (List.replicate n (.open_ path)) =
      { w with counter := w.counter + UInt64.ofNat n } := by
  induction n generalizing w with
  | zero =>
    show w = { w with counter := w.counter + 0 }
    rw [UInt64.add_zero]
  | succ n ih =>
    have hstep : w.step p (.open_ path) = { w with counter := w.counter + 1 } := by
      rw [step, openTable, h]
    have hrest := ih (w := { w with counter := w.counter + 1 }) h
    have hcounter : w.counter + UInt64.ofNat (n + 1) = w.counter + 1 + UInt64.ofNat n := by
      rw [UInt64.ofNat_add, UInt64.add_assoc, UInt64.add_comm 1]
      rfl
    rw [List.replicate_succ, hcounter]
    show run (step p) (w.step p (.open_ path)) _ = _
    rw [hstep]
    exact hrest

/-- Between the closing of the first table and the opening of the second the counter comes
round. -/
def idComesRound : List TableEvent :=
  firstTable ++ List.replicate (2 ^ 64 - 1) (.open_ "missing.sst") ++ [.open_ "b.sst"]

theorem guarded_of_forall {p : Platform} {w : TableWorld} {events : List TableEvent}
    (h : ∀ event ∈ events, ∀ w : TableWorld, w.LeavesOpenFiles event) :
    Guarded (step p) LeavesOpenFiles w events := by
  induction events generalizing w with
  | nil => trivial
  | cons event events ih =>
    rw [List.forall_mem_cons] at h
    exact ⟨h.1 w, ih h.2⟩

/-- The second table has the id of the first, and a scan that should panic finds the block
of the first. -/
theorem id_comes_round :
    Guarded (step .simple) LeavesOpenFiles (start 1 twoFiles) idComesRound ∧
      ¬ Always (step .simple) (Transparent .simple) (start 1 twoFiles) idComesRound := by
  constructor
  · refine guarded_of_forall fun event hevent w => ?_
    simp only [idComesRound, firstTable, List.mem_append, List.mem_cons, List.not_mem_nil, or_false,
      List.mem_replicate] at hevent
    rcases hevent with ((rfl | rfl | rfl | rfl) | ⟨-, rfl⟩) | rfl <;> trivial
  · intro h
    have hlast := h idComesRound (List.prefix_refl _)
    rw [idComesRound, run_append, run_append, run_missing _ _ (by decide +kernel)] at hlast
    have hdiffer : ∀ w : TableWorld, w.Transparent .simple →
        ¬ (w.tables.any fun t =>
          decide ((w.scan .simple t none 0 0).1 ≠ t.scan .simple w.inodes none 0 0)) = true := by
      intro w hw hany
      obtain ⟨t, ht, hne⟩ := List.any_eq_true.mp hany
      exact of_decide_eq_true hne (hw t ht none 0 0)
    exact hdiffer _ hlast (by decide +kernel)

end TableWorld

end Graphite
