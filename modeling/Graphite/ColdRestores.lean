import Mathlib.Logic.Function.Basic
import Graphite.ColdTier

/-! Tables that go to the cold tier and come back. Local copies may be removed at any time and
are downloaded again when somebody asks for them; what has reached the manifest's file
outlives a restart. The object store is taken to give back what was put last under a path,
and to read the paths that it has printed as what they were. -/

namespace Graphite
open BigEndian GuardedRuns

/-- The object that was stored last under the path. -/
def ColdTier.object (s : ColdTier) (path : String) : Option Bytes :=
  (s.puts.find? fun e => e.1 = path).map Prod.snd

def ColdManifest.get (m : ColdManifest) (basename : String) : Option ColdEntry :=
  (m.entries.find? fun e => e.1 = basename).map Prod.snd

/-- How `std::fs::write` turns out: there is no file, the start of one, or all of it. -/
inductive WriteOutcome where
  | refused
  | cut (length : Nat)
  | whole
  deriving DecidableEq, Repr

/-- Only the start of the bytes gets into the file. -/
def WriteOutcome.CutsOff (bytes : Bytes) : WriteOutcome → Prop
  | refused => False
  | cut length => length < bytes.length
  | whole => False

instance (bytes : Bytes) (outcome : WriteOutcome) : Decidable (outcome.CutsOff bytes) :=
  match outcome with
  | .refused => isFalse id
  | .cut _ => inferInstanceAs (Decidable (_ < _))
  | .whole => isFalse id

inductive EnsureError where
  | tier (e : ColdTierError)
  | notFound (basename : String)
  deriving DecidableEq, Repr

/-- A data directory with its cold tier, and the bytes that each table was first written
with. -/
structure ColdWorld where
  tier : ColdTier
  dir : String → Option Bytes
  written : String → Option Bytes

/-- A registered table in a call of `sync_tables`, and how reading and putting it turn out. -/
structure Registered where
  level : Nat
  basename : String
  readable : Bool
  putSucceeds : Bool
  unixNow : Nat
  deriving DecidableEq, Repr

namespace ColdWorld

/-- A new data directory. -/
def fresh (objectPath : String → String) (minLevel : Nat) : ColdWorld :=
  ⟨.fresh objectPath minLevel, fun _ => none, fun _ => none⟩

/-- What a call finds of the table in the directory. -/
def syncTable (w : ColdWorld) (t : Registered) : SyncTable where
  level := t.level
  fileName := some t.basename
  present := (w.dir t.basename).isSome
  content := if t.readable then w.dir t.basename else none
  putSucceeds := t.putSucceeds
  unixNow := t.unixNow

def syncTables (w : ColdWorld) (tables : List Registered) : Except ColdTierError Nat × ColdWorld :=
  let r := ColdTier.syncTables (tables.map w.syncTable) w.tier
  (r.1, { w with tier := r.2 })

variable (parsePath : String → String)

/-- What the object store gives for a table that is not in the directory; `parsePath` is
`ObjectPath::from`. -/
def download (w : ColdWorld) (basename : String) (got : Bool) : Except EnsureError Bytes :=
  match w.tier.manifest.get basename with
  | none => .error (.notFound basename)
  | some entry =>
    match w.tier.object (parsePath entry.objectPath) with
    | none => .error (.tier .store)
    | some bytes => if got then .ok bytes else .error (.tier .store)

/-- Download an SSTable from cold tier if missing locally. -/
def ensureLocal (w : ColdWorld) (basename : String) (got : Bool) (outcome : WriteOutcome) :
    Except EnsureError Unit × ColdWorld :=
  if (w.dir basename).isSome then (.ok (), w)
  else
    match w.download parsePath basename got with
    | .error e => (.error e, w)
    | .ok bytes =>
      match outcome with
      | .refused => (.error (.tier .io), w)
      | .cut length => (.error (.tier .io),
          { w with dir := Function.update w.dir basename (some (bytes.take length)) })
      | .whole => (.ok (), { w with dir := Function.update w.dir basename (some bytes) })

/-- What happens to the directory. -/
inductive Event where
  | write (basename : String) (bytes : Bytes)
  | remove (basename : String)
  | sync (tables : List Registered)
  | reopen
  | ensure (basename : String) (got : Bool) (outcome : WriteOutcome)
  deriving DecidableEq, Repr

def step (w : ColdWorld) : Event → ColdWorld
  | .write basename bytes =>
    { w with
      dir := Function.update w.dir basename (some bytes)
      written := if (w.written basename).isSome then w.written
        else Function.update w.written basename (some bytes) }
  | .remove basename => { w with dir := Function.update w.dir basename none }
  | .sync tables => (w.syncTables tables).2
  | .reopen => { w with tier := { w.tier with manifest := w.tier.loadManifest } }
  | .ensure basename got outcome => (w.ensureLocal parsePath basename got outcome).2

/-- Every table in the directory has the bytes that it was first written with. -/
def Faithful (w : ColdWorld) : Prop := ∀ basename, ∀ bytes ∈ w.dir basename,
  w.written basename = some bytes

/-- No name is used for other bytes, and no download is cut off. -/
def KeepsWhole (w : ColdWorld) : Event → Prop
  | .write basename bytes => ∀ old ∈ w.written basename, old = bytes
  | .remove _ => True
  | .sync _ => True
  | .reopen => True
  | .ensure basename got outcome => (w.dir basename).isSome = true ∨
      ∀ bytes ∈ (w.download parsePath basename got).toOption, ¬ outcome.CutsOff bytes

instance (w : ColdWorld) (e : Event) : Decidable (w.KeepsWhole parsePath e) :=
  match e with
  | .write _ _ => inferInstanceAs (Decidable (∀ _ ∈ _, _ = _))
  | .remove _ => isTrue trivial
  | .sync _ => isTrue trivial
  | .reopen => isTrue trivial
  | .ensure _ _ _ => inferInstanceAs (Decidable (_ ∨ ∀ _ ∈ _, ¬ _))

end ColdWorld

/-- The objects of the store are whole tables, each entry has one, and what the file has is
in memory too. -/
structure ColdTier.Keeps (parsePath : String → String) (written : String → Option Bytes)
    (s : ColdTier) : Prop where
  injective : Function.Injective s.objectPath
  parses : ∀ basename, parsePath (s.objectPath basename) = s.objectPath basename
  objects : ∀ basename, ∀ bytes ∈ s.object (s.objectPath basename), written basename = some bytes
  entries : ∀ e ∈ s.manifest.entries, e.2.objectPath = s.objectPath e.1 ∧
    (s.object (s.objectPath e.1)).isSome = true
  saved : s.loadManifest.entries ⊆ s.manifest.entries

namespace ColdTier

variable {parsePath : String → String} {written : String → Option Bytes} {s : ColdTier}

theorem object_cons (s : ColdTier) (path : String) (bytes : Bytes) (path' : String) :
    ColdTier.object { s with puts := (path, bytes) :: s.puts } path' =
      if path = path' then some bytes else s.object path' := by
  rw [object, List.find?_cons]
  split_ifs with h
  · simp [h]
  · simp [h, object]

/-- An upload of a table as it was written. -/
theorem keeps_upload (h : s.Keeps parsePath written) {t : SyncTable}
    (hmem : basename t ∉ s.manifest.entries.map Prod.fst)
    (hcontent : ∀ bytes ∈ t.content, written (basename t) = some bytes) :
    (s.upload t hmem).2.Keeps parsePath written ∧
      s.manifest.entries ⊆ (s.upload t hmem).2.manifest.entries ∧
      ((s.upload t hmem).1 = .ok () →
        basename t ∈ (s.upload t hmem).2.manifest.entries.map Prod.fst) := by
  rw [upload]
  cases hbytes : t.content with
  | none => exact ⟨h, List.Subset.refl _, fun hok => by cases hok⟩
  | some bytes =>
    dsimp only
    split_ifs
    · have hobject (name : String) :
          (if s.objectPath (basename t) = s.objectPath name then some bytes
            else s.object (s.objectPath name)) =
          if basename t = name then some bytes else s.object (s.objectPath name) := by
        simp only [h.injective.eq_iff]
      refine ⟨⟨h.injective, h.parses, fun name => ?_, fun e he => ?_, ?_⟩, ?_, fun _ => ?_⟩
      · change ∀ bytes' ∈ ColdTier.object { s with puts := _ :: s.puts } _, _
        rw [object_cons, hobject]
        split_ifs with hname
        · rintro _ ⟨⟩
          exact hname ▸ hcontent bytes hbytes
        · exact h.objects name
      · change _ ∧ (ColdTier.object { s with puts := _ :: s.puts } _).isSome = true
        rw [object_cons, hobject]
        rcases List.mem_append.mp he with he | he
        · refine ⟨(h.entries e he).1, ?_⟩
          split_ifs
          · rfl
          · exact (h.entries e he).2
        · rw [List.mem_singleton.mp he]
          exact ⟨rfl, by rw [if_pos rfl]; rfl⟩
      · exact List.Subset.trans h.saved (List.subset_append_left _ _)
      · exact List.subset_append_left _ _
      · exact List.mem_map_of_mem (List.mem_append_right _ List.mem_cons_self)
    · exact ⟨⟨h.injective, h.parses, h.objects, h.entries, h.saved⟩, List.Subset.refl _,
        fun hok => by cases hok⟩

/-- A loop that ends normally has every table that it should in the manifest. -/
theorem keeps_syncLoop {tables : List SyncTable} (h : s.Keeps parsePath written)
    (hcontent : ∀ t ∈ tables, ∀ bytes ∈ t.content, written (basename t) = some bytes)
    (synced : Nat) :
    (syncLoop tables synced s).2.Keeps parsePath written ∧
      s.manifest.entries ⊆ (syncLoop tables synced s).2.manifest.entries ∧
      ∀ n, (syncLoop tables synced s).1 = .ok n → ∀ t ∈ tables, s.minLevel ≤ t.level →
        basename t ≠ "" → t.present = true →
          basename t ∈ (syncLoop tables synced s).2.manifest.entries.map Prod.fst := by
  induction tables generalizing s synced with
  | nil => exact ⟨h, List.Subset.refl _, fun _ _ => List.forall_mem_nil _⟩
  | cons t tables ih =>
    obtain ⟨ht, hcontent⟩ := List.forall_mem_cons.mp hcontent
    rw [syncLoop]
    split_ifs with hskip
    · obtain ⟨hkeeps, hsub, hall⟩ := ih h hcontent synced
      refine ⟨hkeeps, hsub, fun n hn => List.forall_mem_cons.mpr ⟨fun hlevel hname hpresent => ?_,
        hall n hn⟩⟩
      simp only [skips, Bool.or_eq_true, decide_eq_true_eq, Bool.not_eq_true', hpresent,
        Bool.true_eq_false, or_false, not_lt.mpr hlevel, hname, false_or] at hskip
      exact (List.map_subset Prod.fst hsub) hskip
    · obtain ⟨hkeeps, hsub, hnoted⟩ := keeps_upload h (not_mem_of_not_skips hskip) ht
      have hgrows := (s.upload_spec t (not_mem_of_not_skips hskip)).1
      rcases hup : s.upload t (not_mem_of_not_skips hskip) with ⟨_ | _, s'⟩
      all_goals rw [hup] at hkeeps hsub hnoted hgrows
      · exact ⟨hkeeps, hsub, fun _ hok => by cases hok⟩
      · obtain ⟨hkeeps', hsub', hall⟩ := ih hkeeps hcontent (synced + 1)
        refine ⟨hkeeps', List.Subset.trans hsub hsub', fun n hn => List.forall_mem_cons.mpr
          ⟨fun _ _ _ => List.map_subset Prod.fst hsub' (hnoted rfl), fun t' ht' hlevel => ?_⟩⟩
        exact hall n hn t' ht' (hgrows.minLevel ▸ hlevel)

theorem keeps_syncTables {tables : List SyncTable} (h : s.Keeps parsePath written)
    (hcontent : ∀ t ∈ tables, ∀ bytes ∈ t.content, written (basename t) = some bytes) :
    (syncTables tables s).2.Keeps parsePath written ∧
      s.loadManifest.entries ⊆ (syncTables tables s).2.loadManifest.entries ∧
      ∀ n, (syncTables tables s).1 = .ok n → ∀ t ∈ tables, s.minLevel ≤ t.level →
        basename t ≠ "" → t.present = true →
          basename t ∈ (syncTables tables s).2.manifest.entries.map Prod.fst := by
  obtain ⟨hkeeps, hsub, hall⟩ := keeps_syncLoop h hcontent 0
  have hgrows := (syncLoop_spec tables 0 s).1
  have hsaved := List.Subset.trans h.saved hsub
  rw [syncTables]
  rcases hloop : syncLoop tables 0 s with ⟨_ | n, s'⟩
  all_goals
    rw [hloop] at hkeeps hall hgrows hsaved
    dsimp only
  · exact ⟨hkeeps, hgrows.loadManifest.symm ▸ List.Subset.refl _, fun _ hok => by cases hok⟩
  · split_ifs
    · exact ⟨⟨hkeeps.injective, hkeeps.parses, hkeeps.objects, hkeeps.entries, List.Subset.refl _⟩,
        hsaved, fun _ _ => hall n rfl⟩
    · exact ⟨hkeeps, hgrows.loadManifest.symm ▸ List.Subset.refl _, fun _ _ => hall n rfl⟩

theorem Keeps.mono (h : s.Keeps parsePath written) {written' : String → Option Bytes}
    (himp : ∀ basename, ∀ bytes ∈ written basename, written' basename = some bytes) :
    s.Keeps parsePath written' where
  injective := h.injective
  parses := h.parses
  objects := fun basename bytes hbytes => himp basename bytes (h.objects basename bytes hbytes)
  entries := h.entries
  saved := h.saved

end ColdTier

namespace ColdWorld

variable {parsePath : String → String} {w : ColdWorld}

structure Inv (parsePath : String → String) (w : ColdWorld) : Prop where
  keeps : w.tier.Keeps parsePath w.written
  faithful : w.Faithful

theorem inv_fresh {objectPath : String → String} (hinjective : Function.Injective objectPath)
    (hparses : ∀ basename, parsePath (objectPath basename) = objectPath basename)
    (minLevel : Nat) : Inv parsePath (fresh objectPath minLevel) where
  keeps := ⟨hinjective, hparses, fun _ => nofun, List.forall_mem_nil _, List.Subset.refl _⟩
  faithful := fun _ => nofun

/-- What the store gives for a table is what was written. -/
theorem Inv.download_eq (h : Inv parsePath w) {basename : String} {got : Bool} {bytes : Bytes}
    (hdownload : w.download parsePath basename got = .ok bytes) :
    w.written basename = some bytes := by
  rw [download] at hdownload
  cases hget : w.tier.manifest.get basename with
  | none =>
    rw [hget] at hdownload
    cases hdownload
  | some entry =>
    obtain ⟨e, hfind, rfl⟩ := Option.map_eq_some_iff.mp hget
    have hname := List.find?_some hfind
    replace hname := of_decide_eq_true hname
    obtain ⟨hpath, -⟩ := h.keeps.entries e (List.mem_of_find?_eq_some hfind)
    rw [hget] at hdownload
    dsimp only at hdownload
    rw [hpath, hname, h.keeps.parses] at hdownload
    cases hobject : w.tier.object (w.tier.objectPath basename) with
    | none =>
      rw [hobject] at hdownload
      cases hdownload
    | some bytes' =>
      rw [hobject] at hdownload
      dsimp only at hdownload
      split_ifs at hdownload
      cases hdownload
      exact h.keeps.objects basename bytes hobject

theorem Inv.syncTable_content (h : Inv parsePath w) (tables : List Registered) :
    ∀ t ∈ tables.map w.syncTable, ∀ bytes ∈ t.content,
      w.written (ColdTier.basename t) = some bytes := by
  refine List.forall_mem_map.mpr fun t _ bytes hbytes => ?_
  rw [syncTable] at hbytes
  dsimp only at hbytes
  split_ifs at hbytes
  · exact h.faithful t.basename bytes hbytes
  · cases hbytes

/-- A file that is put into the directory as it was first written. -/
theorem faithful_update (h : w.Faithful) {basename : String} {bytes : Bytes}
    (hbytes : w.written basename = some bytes) :
    Faithful { w with dir := Function.update w.dir basename (some bytes) } := by
  intro name bytes' hname
  change bytes' ∈ Function.update w.dir basename (some bytes) name at hname
  rcases eq_or_ne name basename with rfl | hne
  · rw [Function.update_self] at hname
    cases hname
    exact hbytes
  · rw [Function.update_of_ne hne] at hname
    exact h name bytes' hname

theorem inv_step (parsePath : String → String) (w : ColdWorld) (e : Event) (h : Inv parsePath w)
    (hwhole : w.KeepsWhole parsePath e) : Inv parsePath (step parsePath w e) := by
  cases e with
  | write basename bytes =>
    rw [step]
    split_ifs with hold
    · obtain ⟨old, hold⟩ := Option.isSome_iff_exists.mp hold
      rw [hwhole old hold] at hold
      exact ⟨h.keeps, faithful_update h.faithful hold⟩
    · have hnone : w.written basename = none := by simpa using hold
      have himp : ∀ name, ∀ bytes' ∈ w.written name,
          Function.update w.written basename (some bytes) name = some bytes' := by
        intro name bytes' hname
        rw [Function.update_of_ne]
        · exact hname
        · rintro rfl
          rw [hnone] at hname
          cases hname
      refine ⟨h.keeps.mono himp, faithful_update (w := ⟨w.tier, w.dir, _⟩)
        (fun name bytes' hname => himp name bytes' (h.faithful name bytes' hname)) ?_⟩
      exact Function.update_self _ _ _
  | remove basename =>
    refine ⟨h.keeps, fun name bytes hname => h.faithful name bytes ?_⟩
    change bytes ∈ Function.update w.dir basename none name at hname
    rcases eq_or_ne name basename with rfl | hne
    · rw [Function.update_self] at hname
      cases hname
    · rwa [Function.update_of_ne hne] at hname
  | sync tables => exact ⟨(ColdTier.keeps_syncTables h.keeps (h.syncTable_content tables)).1, h.faithful⟩
  | reopen =>
    refine ⟨⟨h.keeps.injective, h.keeps.parses, h.keeps.objects, fun e he => ?_, List.Subset.refl _⟩,
      h.faithful⟩
    exact h.keeps.entries e (h.keeps.saved he)
  | ensure basename got outcome =>
    rw [step, ensureLocal]
    split_ifs with hthere
    · exact h
    · have hcut := hwhole.resolve_left hthere
      cases hdownload : w.download parsePath basename got with
      | error e => exact h
      | ok bytes =>
        have hbytes := h.download_eq hdownload
        rw [hdownload] at hcut
        cases outcome with
        | refused => exact h
        | cut length =>
          dsimp only
          rw [List.take_of_length_le (not_lt.mp (hcut bytes rfl))]
          exact ⟨h.keeps, faithful_update h.faithful hbytes⟩
        | whole => exact ⟨h.keeps, faithful_update h.faithful hbytes⟩

/-- A step outside the guard leaves a table with other bytes. -/
theorem not_faithful_step (w : ColdWorld) (e : Event) (h : Inv parsePath w)
    (hwhole : ¬ w.KeepsWhole parsePath e) : ¬ (step parsePath w e).Faithful := by
  intro hfaithful
  cases e with
  | write basename bytes =>
    refine hwhole fun old hold => ?_
    have hsame := hfaithful basename bytes (Function.update_self _ _ _)
    rw [step] at hsame
    dsimp only at hsame
    rw [if_pos (by rw [Option.mem_def.mp hold]; rfl), Option.mem_def.mp hold] at hsame
    exact Option.some.inj hsame
  | remove basename => exact hwhole trivial
  | sync tables => exact hwhole trivial
  | reopen => exact hwhole trivial
  | ensure basename got outcome =>
    obtain ⟨hthere, hcut⟩ := not_or.mp hwhole
    rw [step, ensureLocal, if_neg hthere] at hfaithful
    cases hdownload : w.download parsePath basename got with
    | error e =>
      rw [hdownload] at hcut
      exact hcut nofun
    | ok bytes =>
      rw [hdownload] at hcut hfaithful
      cases outcome with
      | refused => exact hcut fun _ _ => id
      | whole => exact hcut fun _ _ => id
      | cut length =>
        have hsame := hfaithful basename (bytes.take length) (Function.update_self _ _ _)
        have hbytes := h.download_eq hdownload
        rw [show w.written basename = some (bytes.take length) from hsame] at hbytes
        have hlength := congrArg List.length (Option.some.inj hbytes)
        rw [List.length_take] at hlength
        refine hcut ?_
        rintro _ ⟨⟩
        exact not_lt.mpr (by omega)

/-- The manifest's file has the table. -/
def Archived (w : ColdWorld) (basename : String) : Prop :=
  basename ∈ w.tier.loadManifest.entries.map Prod.fst

/-- The call returns normally, leaves no entry waiting for the file, and the table is one that
it should archive. -/
def Archives (w : ColdWorld) (tables : List Registered) (t : Registered) : Prop :=
  (∃ n, (w.syncTables tables).1 = .ok n) ∧
    (w.tier.Saved ∨ ∃ t ∈ tables, ¬ w.tier.skips (w.syncTable t)) ∧
    t ∈ tables ∧ w.tier.minLevel ≤ t.level ∧ t.basename ≠ "" ∧ (w.dir t.basename).isSome = true

theorem archived_of_archives (h : Inv parsePath w) {tables : List Registered} {t : Registered}
    (harchives : w.Archives tables t) : (step parsePath w (.sync tables)).Archived t.basename := by
  obtain ⟨⟨n, hok⟩, hwaits, ht, hlevel, hname, hthere⟩ := harchives
  obtain ⟨-, -, hall⟩ := ColdTier.keeps_syncTables h.keeps (h.syncTable_content tables)
  have hwaits' : w.tier.Saved ∨ ∃ t ∈ tables.map w.syncTable, ¬ w.tier.skips t := by
    refine hwaits.imp_right ?_
    rintro ⟨t, ht, hnot⟩
    exact ⟨_, List.mem_map_of_mem ht, hnot⟩
  have hnoted := hall n hok _ (List.mem_map_of_mem ht) hlevel hname hthere
  obtain ⟨e, he, heq⟩ := List.mem_map.mp hnoted
  exact List.mem_map.mpr ⟨e, (ColdTier.saved_syncTables hwaits' hok e).mpr he, heq⟩

/-- Nothing takes a table out of the manifest's file. -/
theorem archived_step (h : Inv parsePath w) {basename : String} (harchived : w.Archived basename)
    (e : Event) : (step parsePath w e).Archived basename := by
  cases e with
  | write name bytes => exact harchived
  | remove name => exact harchived
  | sync tables =>
    obtain ⟨-, hsub, -⟩ := ColdTier.keeps_syncTables h.keeps (h.syncTable_content tables)
    exact List.map_subset Prod.fst hsub harchived
  | reopen => exact harchived
  | ensure name got outcome =>
    rw [step, ensureLocal]
    split_ifs
    · exact harchived
    · cases w.download parsePath name got with
      | error e => exact harchived
      | ok bytes => cases outcome <;> exact harchived

/-- What is archived comes back when store and disk do their part. -/
theorem ensureLocal_of_archived (h : Inv parsePath w) {basename : String} {bytes : Bytes}
    (hwritten : w.written basename = some bytes) (harchived : w.Archived basename) :
    (w.ensureLocal parsePath basename true .whole).1 = .ok () ∧
      (w.ensureLocal parsePath basename true .whole).2.dir basename = some bytes := by
  rw [ensureLocal]
  split_ifs with hthere
  · obtain ⟨bytes', hbytes'⟩ := Option.isSome_iff_exists.mp hthere
    have hsame := h.faithful basename bytes' hbytes'
    rw [hwritten] at hsame
    rw [Option.some.inj hsame]
    exact ⟨rfl, hbytes'⟩
  · obtain ⟨bytes', hdownload⟩ : ∃ bytes', w.download parsePath basename true = .ok bytes' := by
      obtain ⟨e, he, rfl⟩ := List.mem_map.mp harchived
      have hfound : (w.tier.manifest.entries.find? fun e' => e'.1 = e.1).isSome = true :=
        List.find?_isSome.mpr ⟨e, h.keeps.saved he, decide_eq_true rfl⟩
      obtain ⟨e', hfind⟩ := Option.isSome_iff_exists.mp hfound
      have hname := List.find?_some hfind
      replace hname := of_decide_eq_true hname
      obtain ⟨hpath, hobject⟩ := h.keeps.entries e' (List.mem_of_find?_eq_some hfind)
      obtain ⟨bytes', hobject⟩ := Option.isSome_iff_exists.mp hobject
      refine ⟨bytes', ?_⟩
      rw [download, ColdManifest.get, hfind, Option.map_some]
      dsimp only
      rw [hpath, h.keeps.parses, hobject]
      rfl
    have hsame := h.download_eq hdownload
    rw [hwritten] at hsame
    rw [hdownload]
    exact ⟨rfl, (Function.update_self _ _ _).trans hsame.symm⟩

/-- The bytes that a name was first written with stay what they are. -/
theorem written_step (w : ColdWorld) {basename : String} {bytes : Bytes}
    (h : w.written basename = some bytes) (e : Event) :
    (step parsePath w e).written basename = some bytes := by
  cases e with
  | write name new =>
    rw [step]
    dsimp only
    split_ifs with hold
    · exact h
    · rw [Function.update_of_ne]
      · exact h
      · rintro rfl
        exact hold (by rw [h]; rfl)
  | remove name => exact h
  | sync tables => exact h
  | reopen => exact h
  | ensure name got outcome =>
    rw [step, ensureLocal]
    split_ifs
    · exact h
    · cases w.download parsePath name got with
      | error e => exact h
      | ok bytes' => cases outcome <;> exact h

end ColdWorld

end Graphite
