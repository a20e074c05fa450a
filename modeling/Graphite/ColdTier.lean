import Graphite.GuardedRuns
import Graphite.BigEndian

/-! The cold tier: tables are put into an object store one by one, and noted in a manifest
whose file is written when a call has put some. The file is taken for the manifest that was
printed into it. -/

namespace Graphite
open BigEndian GuardedRuns

inductive ColdTierError where
  | store
  | io
  deriving DecidableEq, Repr

structure ColdEntry where
  objectPath : String
  syncedAt : Nat
  deriving DecidableEq, Repr

/-- Every basename has one entry. -/
structure ColdManifest where
  entries : List (String × ColdEntry)
  nodup : (entries.map Prod.fst).Nodup
  deriving DecidableEq

namespace ColdManifest

def default : ColdManifest := ⟨[], List.nodup_nil⟩

def insert (m : ColdManifest) (basename : String) (entry : ColdEntry)
    (h : basename ∉ m.entries.map Prod.fst) : ColdManifest where
  entries := m.entries ++ [(basename, entry)]
  nodup := by
    rw [List.map_append, List.map_singleton, List.nodup_append]
    refine ⟨m.nodup, by simp, ?_⟩
    intro name hname name' hname' heq
    rw [List.mem_singleton.mp hname'] at heq
    rw [heq] at hname
    exact h hname

end ColdManifest

/-- A table of a call, with what the file system and the object store have for it. -/
structure SyncTable where
  level : Nat
  /-- `path.file_name().and_then(|s| s.to_str())` -/
  fileName : Option String
  present : Bool
  /-- What reading the file gives; nothing is an error. -/
  content : Option Bytes
  putSucceeds : Bool
  unixNow : Nat

/-- `reads` and `puts` list the files that were read and the objects that were stored. -/
structure ColdTier where
  /-- `prefix.clone().join(basename).to_string()` -/
  objectPath : String → String
  minLevel : Nat
  manifest : ColdManifest
  file : Option ColdManifest
  reads : List (String × Bytes)
  puts : List (String × Bytes)

namespace ColdTier

def basename (t : SyncTable) : String := t.fileName.getD ""

/-- What the loop passes over. -/
def skips (s : ColdTier) (t : SyncTable) : Bool :=
  t.level < s.minLevel || basename t = "" || basename t ∈ s.manifest.entries.map Prod.fst ||
    !t.present

/-- A table that is not passed over: read, put, noted. -/
def upload (s : ColdTier) (t : SyncTable) (h : basename t ∉ s.manifest.entries.map Prod.fst) :
    Except ColdTierError Unit × ColdTier :=
  match t.content with
  | none => (.error .io, s)
  | some bytes =>
    let s' := { s with reads := (basename t, bytes) :: s.reads }
    if t.putSucceeds then
      let entry := ⟨s.objectPath (basename t), t.unixNow⟩
      (.ok (), { s' with
        puts := (s.objectPath (basename t), bytes) :: s.puts
        manifest := s.manifest.insert (basename t) entry h })
    else (.error .store, s')

theorem not_mem_of_not_skips {s : ColdTier} {t : SyncTable} (h : ¬ s.skips t) :
    basename t ∉ s.manifest.entries.map Prod.fst := by
  simp only [skips, Bool.or_eq_true, decide_eq_true_eq, not_or] at h
  exact h.1.2

def syncLoop : List SyncTable → (synced : Nat) → ColdTier → Except ColdTierError Nat × ColdTier
  | [], synced, s => (.ok synced, s)
  | t :: tables, synced, s =>
    if h : s.skips t then syncLoop tables synced s
    else
      match s.upload t (not_mem_of_not_skips h) with
      | (.ok (), s') => syncLoop tables (synced + 1) s'
      | (.error e, s') => (.error e, s')

/-- Upload SSTables at or above min level that are not yet synced. -/
def syncTables (tables : List SyncTable) (s : ColdTier) : Except ColdTierError Nat × ColdTier :=
  match syncLoop tables 0 s with
  | (.ok synced, s') => (.ok synced, if synced > 0 then { s' with file := some s'.manifest } else s')
  | (.error e, s') => (.error e, s')

/-- The manifest in the file, or an empty one. -/
def loadManifest (s : ColdTier) : ColdManifest := s.file.getD ColdManifest.default

/-- A cold tier in a new data directory. -/
def fresh (objectPath : String → String) (minLevel : Nat) : ColdTier :=
  ⟨objectPath, minLevel, .default, none, [], []⟩

/-- The entry's object was stored with the bytes that the local file had. -/
def Backed (s : ColdTier) (e : String × ColdEntry) : Prop :=
  ∃ bytes, (e.1, bytes) ∈ s.reads ∧ (e.2.objectPath, bytes) ∈ s.puts

/-- The file has the entries of the manifest in memory. -/
def Saved (s : ColdTier) : Prop := ∀ e, e ∈ s.loadManifest.entries ↔ e ∈ s.manifest.entries

/-- The last call's result and the tier behind it. -/
abbrev Called := Option (Except ColdTierError Nat) × ColdTier

def call (s : Called) (tables : List SyncTable) : Called :=
  let r := syncTables tables s.2
  (some r.1, r.2)

/-- When the last call returned normally the file has the manifest's entries, and what they
name is stored. -/
def Complete (s : Called) : Prop :=
  ∀ synced, s.1 = some (.ok synced) →
    s.2.Saved ∧ ∀ e ∈ s.2.loadManifest.entries, s.2.Backed e

/-- Entries that wait for the file are not left behind by a call with nothing to upload. -/
def NoneLeftWaiting (s : Called) (tables : List SyncTable) : Prop :=
  s.2.Saved ∨ ∃ t ∈ tables, ¬ s.2.skips t

/-- The entries of manifest and file are stored. -/
def AllBacked (s : ColdTier) : Prop :=
  (∀ e ∈ s.manifest.entries, s.Backed e) ∧ ∀ e ∈ s.loadManifest.entries, s.Backed e

/-- What the loop leaves alone, and what it adds to. -/
structure Grows (s s' : ColdTier) : Prop where
  file : s'.file = s.file
  minLevel : s'.minLevel = s.minLevel
  reads : s.reads ⊆ s'.reads
  puts : s.puts ⊆ s'.puts

theorem Grows.refl (s : ColdTier) : Grows s s := ⟨rfl, rfl, List.Subset.refl _, List.Subset.refl _⟩

theorem Grows.trans {s s' s'' : ColdTier} (h : Grows s s') (h' : Grows s' s'') : Grows s s'' :=
  ⟨h'.file.trans h.file, h'.minLevel.trans h.minLevel, List.Subset.trans h.reads h'.reads,
    List.Subset.trans h.puts h'.puts⟩

theorem Grows.backed {s s' : ColdTier} (h : Grows s s') {e : String × ColdEntry}
    (he : s.Backed e) : s'.Backed e := by
  obtain ⟨bytes, hread, hput⟩ := he
  exact ⟨bytes, h.reads hread, h.puts hput⟩

theorem Grows.loadManifest {s s' : ColdTier} (h : Grows s s') :
    s'.loadManifest = s.loadManifest := by
  rw [ColdTier.loadManifest, h.file, ColdTier.loadManifest]

/-- An upload notes only what it has put. -/
theorem upload_spec (s : ColdTier) (t : SyncTable)
    (h : basename t ∉ s.manifest.entries.map Prod.fst) :
    Grows s (s.upload t h).2 ∧
      ((∀ e ∈ s.manifest.entries, s.Backed e) →
        ∀ e ∈ (s.upload t h).2.manifest.entries, (s.upload t h).2.Backed e) := by
  rw [upload]
  cases hcontent : t.content with
  | none => exact ⟨Grows.refl s, fun hbacked => hbacked⟩
  | some bytes =>
    dsimp only
    split_ifs
    · have hgrows : Grows s { s with
          reads := (basename t, bytes) :: s.reads
          puts := (s.objectPath (basename t), bytes) :: s.puts
          manifest := s.manifest.insert (basename t) ⟨s.objectPath (basename t), t.unixNow⟩ h } :=
        ⟨rfl, rfl, List.subset_cons_self _ _, List.subset_cons_self _ _⟩
      refine ⟨hgrows, fun hbacked e he => ?_⟩
      rcases List.mem_append.mp he with he | he
      · exact hgrows.backed (hbacked e he)
      · rw [List.mem_singleton.mp he]
        exact ⟨bytes, List.mem_cons_self, List.mem_cons_self⟩
    · have hgrows : Grows s { s with reads := (basename t, bytes) :: s.reads } :=
        ⟨rfl, rfl, List.subset_cons_self _ _, List.Subset.refl _⟩
      exact ⟨hgrows, fun hbacked e he => hgrows.backed (hbacked e he)⟩

/-- The loop keeps the manifest's entries backed. -/
theorem syncLoop_spec (tables : List SyncTable) (synced : Nat) (s : ColdTier) :
    Grows s (syncLoop tables synced s).2 ∧
      ((∀ e ∈ s.manifest.entries, s.Backed e) → ∀ e ∈ (syncLoop tables synced s).2.manifest.entries,
        (syncLoop tables synced s).2.Backed e) := by
  induction tables generalizing synced s with
  | nil => exact ⟨Grows.refl s, fun hbacked => hbacked⟩
  | cons t tables ih =>
    rw [syncLoop]
    split_ifs with hskip
    · exact ih synced s
    · obtain ⟨hgrows, hkeeps⟩ := s.upload_spec t (not_mem_of_not_skips hskip)
      rcases hup : s.upload t (not_mem_of_not_skips hskip) with ⟨_ | _, s'⟩ <;>
        rw [hup] at hgrows hkeeps
      · exact ⟨hgrows, hkeeps⟩
      · obtain ⟨hgrows', hkeeps'⟩ := ih (synced + 1) s'
        exact ⟨hgrows.trans hgrows', fun hbacked => hkeeps' (hkeeps hbacked)⟩

/-- The count only grows. -/
theorem syncLoop_synced_le (tables : List SyncTable) (synced : Nat) (s : ColdTier) {n : Nat}
    (h : (syncLoop tables synced s).1 = .ok n) : synced ≤ n := by
  induction tables generalizing synced s with
  | nil => exact (Except.ok.inj h).le
  | cons t tables ih =>
    rw [syncLoop] at h
    split_ifs at h with hskip
    · exact ih synced s h
    · rcases hup : s.upload t (not_mem_of_not_skips hskip) with ⟨_ | _, s'⟩
      · rw [hup] at h
        cases h
      · rw [hup] at h
        have := ih (synced + 1) s' h
        omega

/-- With every table passed over the loop does nothing. -/
theorem syncLoop_of_skips {tables : List SyncTable} {s : ColdTier}
    (h : ∀ t ∈ tables, s.skips t) (synced : Nat) :
    syncLoop tables synced s = (.ok synced, s) := by
  induction tables with
  | nil => rfl
  | cons t tables ih =>
    rw [syncLoop, dif_pos (h t List.mem_cons_self)]
    exact ih fun t' ht' => h t' (List.mem_cons_of_mem t ht')

/-- A loop that ends normally counts the first table that is not passed over. -/
theorem syncLoop_pos {tables : List SyncTable} {synced n : Nat} {s : ColdTier}
    (h : ∃ t ∈ tables, ¬ s.skips t) (hok : (syncLoop tables synced s).1 = .ok n) : synced < n := by
  induction tables with
  | nil => simp at h
  | cons t tables ih =>
    rw [syncLoop] at hok
    split_ifs at hok with hskip
    · obtain ⟨t', ht', hnot⟩ := h
      rcases List.mem_cons.mp ht' with rfl | ht'
      · exact absurd hskip hnot
      · exact ih ⟨t', ht', hnot⟩ hok
    · rcases hup : s.upload t (not_mem_of_not_skips hskip) with ⟨_ | _, s'⟩
      · rw [hup] at hok
        cases hok
      · rw [hup] at hok
        exact syncLoop_synced_le tables (synced + 1) s' hok

theorem allBacked_syncTables {s : ColdTier} (h : s.AllBacked) (tables : List SyncTable) :
    (syncTables tables s).2.AllBacked := by
  obtain ⟨hgrows, hkeeps⟩ := syncLoop_spec tables 0 s
  have hmanifest := hkeeps h.1
  have hfile : ∀ e ∈ (syncLoop tables 0 s).2.loadManifest.entries,
      (syncLoop tables 0 s).2.Backed e := by
    intro e he
    rw [hgrows.loadManifest] at he
    exact hgrows.backed (h.2 e he)
  rw [syncTables]
  rcases hloop : syncLoop tables 0 s with ⟨_ | synced, s'⟩ <;> rw [hloop] at hmanifest hfile
  · exact ⟨hmanifest, hfile⟩
  · dsimp only
    split_ifs
    · exact ⟨hmanifest, hmanifest⟩
    · exact ⟨hmanifest, hfile⟩

/-- A call under the guard that returns normally leaves the file complete. -/
theorem saved_syncTables {s : ColdTier} {tables : List SyncTable} {synced : Nat}
    (h : s.Saved ∨ ∃ t ∈ tables, ¬ s.skips t) (hok : (syncTables tables s).1 = .ok synced) :
    (syncTables tables s).2.Saved := by
  by_cases hskips : ∀ t ∈ tables, s.skips t
  · have hsaved : s.Saved := h.elim id fun ⟨t, ht, hnot⟩ => absurd (hskips t ht) hnot
    rw [syncTables, syncLoop_of_skips hskips]
    exact hsaved
  · have hsome : ∃ t ∈ tables, ¬ s.skips t := by
      simpa using hskips
    rw [syncTables] at hok ⊢
    rcases hloop : syncLoop tables 0 s with ⟨_ | n, s'⟩
    · rw [hloop] at hok
      cases hok
    · have hpos : 0 < n := syncLoop_pos hsome (by rw [hloop])
      dsimp only
      rw [if_pos hpos]
      exact fun e => Iff.rfl

/-- A call outside the guard returns normally and leaves the file behind. -/
theorem not_complete_of_waits {s : Called} {tables : List SyncTable}
    (h : ¬ NoneLeftWaiting s tables) : ¬ Complete (call s tables) := by
  obtain ⟨hnot, hnone⟩ := not_or.mp h
  have hskips : ∀ t ∈ tables, s.2.skips t := by
    simpa using hnone
  have hcall : call s tables = (some (.ok 0), s.2) := by
    rw [call, syncTables, syncLoop_of_skips hskips]
    rfl
  intro hcomplete
  rw [hcall] at hcomplete
  exact hnot (hcomplete 0 rfl).1

/-- In every run of calls from a new data directory, the file is complete behind each call
that returns normally exactly when no call with nothing to upload finds entries waiting. -/
theorem manifest_complete_iff (objectPath : String → String) (minLevel : Nat)
    (calls : List (List SyncTable)) :
    Always call Complete (none, fresh objectPath minLevel) calls ↔
      Guarded call NoneLeftWaiting (none, fresh objectPath minLevel) calls := by
  refine always_iff_guarded (fun s => s.2.AllBacked ∧ Complete s) (fun s h => h.2) ?_
    (fun s tables _ hguard => not_complete_of_waits hguard) ?_ calls
  · rintro s tables ⟨hbacked, -⟩ hguard
    have hbacked' := allBacked_syncTables hbacked tables
    refine ⟨hbacked', fun synced hok => ⟨?_, hbacked'.2⟩⟩
    exact saved_syncTables hguard (Option.some.inj hok)
  · refine ⟨⟨fun e he => ?_, fun e he => ?_⟩, fun synced hok => ?_⟩
    · cases he
    · cases he
    · cases hok

/-- A table of level 2 that is there and whose put succeeds. -/
def goodTable : SyncTable := ⟨2, some "L2_000001.sst", true, some [1, 2, 3], true, 1700000000⟩

/-- The second table of the first call cannot be read; the second call has nothing new. -/
theorem failed_call_leaves_entry : ¬ Always call Complete (none, fresh id 2)
    [[goodTable, ⟨2, some "L2_000002.sst", true, none, true, 1700000000⟩], [goodTable]] := by
  intro h
  have hrun : ∀ s, s = run call (none, fresh id 2)
      [[goodTable, ⟨2, some "L2_000002.sst", true, none, true, 1700000000⟩], [goodTable]] →
      s.1 = some (.ok 0) ∧ s.2.loadManifest.entries = [] ∧
        ("L2_000001.sst", ⟨"L2_000001.sst", 1700000000⟩) ∈ s.2.manifest.entries := by
    rintro s rfl
    decide +kernel
  obtain ⟨hok, hfile, hentry⟩ := hrun _ rfl
  have hsaved := (h _ (List.prefix_refl _) 0 hok).1
  have hmem := (hsaved _).mpr hentry
  rw [hfile] at hmem
  cases hmem

end ColdTier

end Graphite
