import Graphite.LsmCalls
import Graphite.WalReplay

/-! Bulk inserts and single inserts. Each write path interns the symbols, appends the ticks
to the log and puts them into the memtable; a path that returns normally leaves the tree
that its ticks determine, whichever path it was. -/

namespace Graphite
open LockProgram

/-- The tick under a symbol string; its id is left to the dictionary. -/
def Tick.forSymbol (symbol : String) (t : Tick) : SymbolTick :=
  ⟨symbol, t.timestamp, t.open_, t.high, t.low, t.close, t.volume⟩

/-- The columns of a list of ticks. -/
def TickBatch.ofTicks (ticks : List Tick) : TickBatch where
  timestamps := ticks.map Tick.timestamp
  opens := ticks.map Tick.open_
  highs := ticks.map Tick.high
  lows := ticks.map Tick.low
  closes := ticks.map Tick.close
  volumes := ticks.map Tick.volume

namespace DB

/-- Bulk insert ticks for one symbol. -/
def insertBatch (p : Platform) (c : Codec) (env : Env) (symbol : String) : List Tick → LsmOp Unit
  | [] => return ()
  | tick :: ticks => do
    LsmTree.insert p c env symbol tick
    insertBatch p c env symbol ticks

/-- Columnar bulk insert for one symbol (single WAL fsync). -/
def insertBatchColumns (p : Platform) (c : Codec) (env : Env) (symbol : String)
    (batch : TickBatch) : LsmOp Unit :=
  LsmTree.insertBatch p c env symbol batch

/-- Bulk insert ticks across multiple symbols (single WAL fsync). -/
def insertMulti (p : Platform) (c : Codec) (env : Env) (ticks : List SymbolTick) : LsmOp Unit :=
  LsmTree.insertMulti p c env ticks

end DB

theorem TickBatch.tickAt_ofTicks (ticks : List Tick) (symbolId : SymbolId) (i : Nat) :
    (TickBatch.ofTicks ticks).tickAt i symbolId = ticks[i]?.map fun t => t.withSymbol symbolId := by
  simp only [TickBatch.tickAt, TickBatch.ofTicks, List.getElem?_map]
  cases ticks[i]? <;> rfl

/-- The rows of the columns are the ticks. -/
theorem TickBatch.ticks_ofTicks (ticks : List Tick) (symbolId : SymbolId) :
    (TickBatch.ofTicks ticks).ticks symbolId =
      some (ticks.map fun t => t.withSymbol symbolId) := by
  have hlen : (TickBatch.ofTicks ticks).len = ticks.length := List.length_map _
  have hrows : ∀ (front back : List Tick), ticks = front ++ back →
      (List.range' front.length back.length).mapM
        (fun i => (TickBatch.ofTicks ticks).tickAt i symbolId) =
          some (back.map fun t => t.withSymbol symbolId) := by
    intro front back
    induction back generalizing front with
    | nil => exact fun _ => rfl
    | cons t back ih =>
      intro hticks
      have hnext := ih (front ++ [t]) (by simp [hticks])
      rw [List.length_append, List.length_singleton] at hnext
      have hrow : ticks[front.length]? = some t := by simp [hticks]
      rw [List.length_cons, List.range'_succ, List.mapM_cons, TickBatch.tickAt_ofTicks, hrow, hnext]
      rfl
  rw [TickBatch.ticks, hlen]
  exact hrows [] ticks rfl

/-- A known symbol keeps its id for all ticks of a list. -/
theorem SymbolDictionary.intern_forSymbol (dict : SymbolDictionary) (symbol : String) (t : Tick)
    (ticks : List Tick) :
    dict.intern ((t :: ticks).map (Tick.forSymbol symbol)) =
      ((t :: ticks).map fun x => x.withSymbol (dict.getOrInsert symbol).1,
        (dict.getOrInsert symbol).2) := by
  have hknown : (dict.getOrInsert symbol).2.getOrInsert symbol =
      ((dict.getOrInsert symbol).1, (dict.getOrInsert symbol).2) :=
    SymbolDictionary.getOrInsert_of_grown List.prefix_rfl
  have hrest (xs : List Tick) :
      (dict.getOrInsert symbol).2.intern (xs.map (Tick.forSymbol symbol)) =
        (xs.map fun x => x.withSymbol (dict.getOrInsert symbol).1,
          (dict.getOrInsert symbol).2) := by
    induction xs with
    | nil => rfl
    | cons x xs ih =>
      have hsymbol : (x.forSymbol symbol).symbol = symbol := rfl
      rw [List.map_cons, intern, hsymbol, hknown, ih]
      rfl
  have hsymbol : (t.forSymbol symbol).symbol = symbol := rfl
  rw [List.map_cons, intern, hsymbol, hrest]
  rfl

theorem SymbolDictionary.intern_append (dict : SymbolDictionary) (as bs : List SymbolTick) :
    dict.intern (as ++ bs) =
      ((dict.intern as).1 ++ ((dict.intern as).2.intern bs).1, ((dict.intern as).2.intern bs).2) := by
  induction as generalizing dict with
  | nil => rfl
  | cons a as ih =>
    rw [List.cons_append, intern, ih]
    rfl

theorem SymbolDictionary.length_intern (dict : SymbolDictionary) (ticks : List SymbolTick) :
    (dict.intern ticks).1.length = ticks.length := by
  induction ticks generalizing dict with
  | nil => rfl
  | cons t ticks ih => rw [intern, List.length_cons, List.length_cons, ih]

theorem SkipList.length_le_insertRow (tick : Tick) (chain : List Tick) :
    chain.length ≤ (KeyedRows.insertRow Tick.key tick chain).length := by
  induction chain with
  | nil => exact Nat.zero_le _
  | cons y chain ih =>
    unfold KeyedRows.insertRow
    split_ifs
    · exact Nat.succ_le_succ ih
    · exact le_rfl
    · exact Nat.le_succ _

theorem SkipList.len_le_insertAll (s : SkipList) (ticks : List Tick) :
    s.len ≤ (s.insertAll ticks).len := by
  induction ticks generalizing s with
  | nil => exact le_rfl
  | cons t ticks ih => exact (length_le_insertRow t s.chain).trans (ih (s.insert t))

namespace LsmTree

/-- The tree with these ticks in its dictionary, its memtable and its log. -/
def withTicks (c : Codec) (s : LsmTree) (ticks : List SymbolTick) : LsmTree :=
  let stored := s.symbolDict.intern ticks
  ((s.take stored.1).withDict stored.2).withWal (Wal.extend c s.wal (stored.1.map .insert))

theorem withTicks_nil (c : Codec) (s : LsmTree) : s.withTicks c [] = s := by
  simp [withTicks, SymbolDictionary.intern, take, SkipList.insertAll, withDict, withWal]

theorem withTicks_append (c : Codec) (s : LsmTree) (as bs : List SymbolTick) :
    s.withTicks c (as ++ bs) = (s.withTicks c as).withTicks c bs := by
  simp only [withTicks, SymbolDictionary.intern_append, withWal, withDict, take,
    SkipList.insertAll_append, List.length_append, List.map_append, Wal.extend_append, Nat.add_assoc]

end LsmTree

namespace InsertCall
open LsmTree

/-- The call is about these ticks. -/
structure Carries (dict : SymbolDictionary) (call : InsertCall) (ticks : List SymbolTick) :
    Prop where
  empty : call.isEmpty = true → ticks = []
  stored : call.isEmpty = false → call.stored dict = some (dict.intern ticks)

theorem carries_insert (dict : SymbolDictionary) (symbol : String) (tick : Tick) :
    Carries dict (.insert symbol tick) [tick.forSymbol symbol] where
  empty h := by cases h
  stored _ := rfl

theorem carries_insertBatch (dict : SymbolDictionary) (symbol : String) (ticks : List Tick) :
    Carries dict (.insertBatch symbol (.ofTicks ticks)) (ticks.map (Tick.forSymbol symbol)) := by
  cases ticks with
  | nil => exact ⟨fun _ => rfl, fun h => by cases h⟩
  | cons t ticks =>
    refine ⟨fun h => ?_, fun _ => ?_⟩
    · simp [isEmpty, TickBatch.len, TickBatch.ofTicks] at h
    · rw [InsertCall.stored, TickBatch.ticks_ofTicks, SymbolDictionary.intern_forSymbol]
      rfl

theorem carries_insertMulti (dict : SymbolDictionary) (ticks : List SymbolTick) :
    Carries dict (.insertMulti ticks) ticks where
  empty h := by simpa [isEmpty] using h
  stored _ := rfl

variable {p : Platform} {c : Codec} {env : Env} {s : LsmTree} {time : Nat} {call : InsertCall}
  {ticks : List SymbolTick}

/-- Both ways to append leave the same log. -/
theorem after_eq {rows : List Tick} {dict : SymbolDictionary}
    (h : Stores c env call s time rows dict) :
    call.after c env s time rows dict =
      ((s.take rows).withDict dict).withWal (Wal.extend c s.wal (rows.map .insert)) := by
  obtain ⟨n, hn⟩ := h.logged
  have hlog : (call.log c (env.disk time) s rows).2 = Wal.extend c s.wal (rows.map .insert) := by
    cases call with
    | insert symbol tick =>
      obtain ⟨rfl, rfl⟩ := Prod.mk.inj (Option.some.inj h.stored)
      exact (Wal.append_eq_ok (Prod.ext hn rfl)).1
    | insertBatch symbol batch => exact (Wal.appendBatch_eq_ok (Prod.ext hn rfl)).1
    | insertMulti ticks => exact (Wal.appendBatch_eq_ok (Prod.ext hn rfl)).1
  rw [after, hlog]

theorem Stores.after_eq_withTicks {rows : List Tick} {dict : SymbolDictionary}
    (h : Stores c env call s time rows dict) (hcarries : Carries s.symbolDict call ticks) :
    call.after c env s time rows dict = s.withTicks c ticks := by
  have hstored := h.stored.symm.trans (hcarries.stored h.nonempty)
  obtain ⟨rfl, rfl⟩ := Prod.mk.inj (Option.some.inj hstored)
  exact after_eq h

/-- A call that returns normally leaves the tree with its ticks. -/
theorem withTicks_of_ok (hcarries : Carries s.symbolDict call ticks) {held : Held Lock}
    {st : LsmTree × Nat} (h : exec (call.op p c env) [] (s, time) = .finished (.ok ()) held st) :
    held = [] ∧ st.1 = s.withTicks c ticks := by
  have hends := ends p c env call s time
  rw [h] at hends
  cases hends with
  | empty _ hempty => exact ⟨rfl, by rw [hcarries.empty hempty, withTicks_nil]⟩
  | stored hstores _ => exact ⟨rfl, hstores.after_eq_withTicks hcarries⟩

/-- A call whose ticks fit, on a log that takes them, returns normally. -/
theorem ok_of_room (p : Platform) (env : Env) (time : Nat) (call : InsertCall)
    (haccepted : call.refused s.role = false)
    (hcarries : Carries s.symbolDict call ticks)
    (hroom : (s.withTicks c ticks).memtable.len < s.flushThreshold)
    (hdisk : env.disk time = .sound)
    (haccepts : ∀ x ∈ (s.symbolDict.intern ticks).1, c.Accepts (.insert x))
    (hseq : s.wal.sequence + ticks.length < 2 ^ 64) :
    ∃ time', exec (call.op p c env) [] (s, time) =
      .finished (.ok ()) [] (s.withTicks c ticks, time') := by
  cases hempty : call.isEmpty with
  | true =>
    rw [op_eq, haccepted, hempty, hcarries.empty hempty, withTicks_nil]
    exact ⟨time, rfl⟩
  | false =>
    have hstored := hcarries.stored hempty
    have hlength := s.symbolDict.length_intern ticks
    have hrecords : ∀ r ∈ (s.symbolDict.intern ticks).1.map WalRecord.insert, c.Accepts r :=
      List.forall_mem_map.mpr haccepts
    have hlogged : ∃ n, (call.log c (env.disk time) s (s.symbolDict.intern ticks).1).1 = .ok n := by
      rw [hdisk]
      have hbatch := Wal.appendBatch_of_accepts hrecords (Wal.Disk.clear_sound _) s.wal
        (Or.inr (by rwa [List.length_map, hlength]))
      cases call with
      | insert symbol tick =>
        have hone : [tick.withSymbol (s.symbolDict.getOrInsert symbol).1] =
            (s.symbolDict.intern ticks).1 := congrArg Prod.fst (Option.some.inj hstored)
        rw [← hone] at hlength
        have haccept := haccepts (tick.withSymbol (s.symbolDict.getOrInsert symbol).1)
          (by rw [← hone]; exact List.mem_singleton_self _)
        have happend := Wal.append_of_accepts haccept (Wal.Disk.clear_sound 1) s.wal
          (by rw [List.length_singleton] at hlength; omega)
        exact ⟨_, congrArg Prod.fst happend⟩
      | insertBatch symbol batch => exact ⟨_, congrArg Prod.fst hbatch⟩
      | insertMulti ticks' => exact ⟨_, congrArg Prod.fst hbatch⟩
    have hstores : Stores c env call s time _ _ := ⟨haccepted, hempty, hstored, hlogged⟩
    have hends := ends p c env call s time
    generalize exec (call.op p c env) [] (s, time) = outcome at hends
    cases hends with
    | empty _ h => rw [hempty] at h; cases h
    | failed h => exact absurd hstores (h _ _)
    | stored h _ => exact ⟨time + 1, by rw [h.after_eq_withTicks hcarries]⟩
    | blocked h hle =>
      have hsame := h.stored.symm.trans hstored
      obtain ⟨rfl, rfl⟩ := Prod.mk.inj (Option.some.inj hsame)
      exact absurd hroom (Nat.not_lt.mpr hle)

end InsertCall

namespace DB
open LsmTree InsertCall

variable {p : Platform} {c : Codec} {env : Env} {symbol : String} {ticks : List Tick}

/-- Inserts one by one, as long as they all return normally. -/
theorem withTicks_of_insertBatch {s : LsmTree} {time : Nat} {held : Held Lock} {st : LsmTree × Nat}
    (h : exec (insertBatch p c env symbol ticks) [] (s, time) = .finished (.ok ()) held st) :
    st.1 = s.withTicks c (ticks.map (Tick.forSymbol symbol)) := by
  induction ticks generalizing s time with
  | nil =>
    cases h
    exact (withTicks_nil c s).symm
  | cons t ticks ih =>
    obtain ⟨_, held₁, ⟨s₁, time₁⟩, hfirst, hrest⟩ := exec_bind_eq_ok h
    obtain ⟨rfl, rfl⟩ := withTicks_of_ok (carries_insert s.symbolDict symbol t) hfirst
    rw [ih hrest, ← withTicks_append]
    rfl

theorem accepts_intern {s : LsmTree}
    (h : ∀ t ∈ ticks, c.Accepts (.insert (t.withSymbol (s.symbolDict.getOrInsert symbol).1))) :
    ∀ x ∈ (s.symbolDict.intern (ticks.map (Tick.forSymbol symbol))).1, c.Accepts (.insert x) := by
  cases ticks with
  | nil => exact List.forall_mem_nil _
  | cons t ticks =>
    rw [SymbolDictionary.intern_forSymbol]
    exact List.forall_mem_map.mpr h

/-- Inserts one by one return normally where their ticks fit. -/
theorem insertBatch_ok_of_room (p : Platform) (hdisk : ∀ time, env.disk time = .sound)
    {s : LsmTree} (hrole : s.role = .primary) (time : Nat)
    (hroom : (s.withTicks c (ticks.map (Tick.forSymbol symbol))).memtable.len < s.flushThreshold)
    (haccepts : ∀ x ∈ (s.symbolDict.intern (ticks.map (Tick.forSymbol symbol))).1,
      c.Accepts (.insert x))
    (hseq : s.wal.sequence + ticks.length < 2 ^ 64) :
    ∃ time', exec (insertBatch p c env symbol ticks) [] (s, time) =
      .finished (.ok ()) [] (s.withTicks c (ticks.map (Tick.forSymbol symbol)), time') := by
  induction ticks generalizing s time with
  | nil =>
    rw [List.map_nil, withTicks_nil]
    exact ⟨time, rfl⟩
  | cons t ticks ih =>
    rw [List.length_cons] at hseq
    have hsplit := s.symbolDict.intern_append [t.forSymbol symbol]
      (ticks.map (Tick.forSymbol symbol))
    rw [List.map_cons, ← List.singleton_append] at hroom haccepts
    rw [hsplit] at haccepts
    rw [withTicks_append] at hroom
    have hlen := (s.withTicks c [t.forSymbol symbol]).memtable.len_le_insertAll
      ((s.withTicks c [t.forSymbol symbol]).symbolDict.intern
        (ticks.map (Tick.forSymbol symbol))).1
    have hone : (s.withTicks c [t.forSymbol symbol]).wal.sequence = s.wal.sequence + 1 := rfl
    obtain ⟨time₁, hfirst⟩ := ok_of_room p env time (.insert symbol t)
      (by simp [refused, hrole]) (carries_insert s.symbolDict symbol t)
      (lt_of_le_of_lt hlen hroom) (hdisk time)
      (fun x hx => haccepts x (List.mem_append_left _ hx)) (by rw [List.length_singleton]; omega)
    have hrole₁ : (s.withTicks c [t.forSymbol symbol]).role = .primary := hrole
    obtain ⟨time', hrest⟩ := ih hrole₁ time₁ hroom
      (fun x hx => haccepts x (List.mem_append_right _ hx)) (by omega)
    refine ⟨time', ?_⟩
    rw [insertBatch, List.map_cons, ← List.singleton_append, withTicks_append, ← hrest]
    exact exec_bind_ok hfirst _

/-- Single inserts, a batch of columns and a list of symbol ticks leave the same tree; where
the ticks fit and nothing fails, all three return normally. -/
theorem bulk_inserts_agree (p : Platform) (c : Codec) (s : LsmTree) (hrole : s.role = .primary)
    (symbol : String) (ticks : List Tick) :
    (∀ env₁ env₂ env₃ time₁ time₂ time₃ st₁ st₂ st₃,
      exec (insertBatch p c env₁ symbol ticks) [] (s, time₁) = .finished (.ok ()) [] st₁ →
      exec (insertBatchColumns p c env₂ symbol (.ofTicks ticks)) [] (s, time₂) =
        .finished (.ok ()) [] st₂ →
      exec (insertMulti p c env₃ (ticks.map (Tick.forSymbol symbol))) [] (s, time₃) =
        .finished (.ok ()) [] st₃ →
      st₁.1 = st₂.1 ∧ st₁.1 = st₃.1) ∧
    ∀ env time, (∀ time, env.disk time = .sound) →
      (s.withTicks c (ticks.map (Tick.forSymbol symbol))).memtable.len < s.flushThreshold →
      (∀ t ∈ ticks, c.Accepts (.insert (t.withSymbol (s.symbolDict.getOrInsert symbol).1))) →
      s.wal.sequence + ticks.length < 2 ^ 64 →
      (exec (insertBatch p c env symbol ticks) [] (s, time)).succeeded = true ∧
      (exec (insertBatchColumns p c env symbol (.ofTicks ticks)) [] (s, time)).succeeded = true ∧
      (exec (insertMulti p c env (ticks.map (Tick.forSymbol symbol))) [] (s, time)).succeeded =
        true := by
  refine ⟨?_, ?_⟩
  · intro env₁ env₂ env₃ time₁ time₂ time₃ st₁ st₂ st₃ h₁ h₂ h₃
    have hcolumns : exec (InsertCall.op p c env₂ (.insertBatch symbol (.ofTicks ticks))) []
        (s, time₂) = .finished (.ok ()) [] st₂ := h₂
    have hmulti : exec (InsertCall.op p c env₃ (.insertMulti (ticks.map (Tick.forSymbol symbol)))) []
        (s, time₃) = .finished (.ok ()) [] st₃ := h₃
    rw [withTicks_of_insertBatch h₁,
      (withTicks_of_ok (carries_insertBatch s.symbolDict symbol ticks) hcolumns).2,
      (withTicks_of_ok (carries_insertMulti s.symbolDict _) hmulti).2]
    exact ⟨rfl, rfl⟩
  · intro env time hdisk hroom haccepts hseq
    have haccepts' := accepts_intern haccepts
    have hlen : (ticks.map (Tick.forSymbol symbol)).length = ticks.length := List.length_map _
    obtain ⟨time₁, h₁⟩ := insertBatch_ok_of_room p hdisk hrole time hroom haccepts' hseq
    obtain ⟨time₂, h₂⟩ := ok_of_room p env time (.insertBatch symbol (.ofTicks ticks)) rfl
      (carries_insertBatch s.symbolDict symbol ticks) hroom (hdisk time) haccepts' (by rwa [hlen])
    obtain ⟨time₃, h₃⟩ := ok_of_room p env time (.insertMulti (ticks.map (Tick.forSymbol symbol)))
      rfl (carries_insertMulti s.symbolDict _) hroom (hdisk time) haccepts' (by rwa [hlen])
    refine ⟨by rw [h₁]; rfl, ?_, ?_⟩
    · exact (congrArg Outcome.succeeded h₂).trans rfl
    · exact (congrArg Outcome.succeeded h₃).trans rfl

/-- Two ticks at one timestamp. -/
def twiceAtFive : List Tick := [flatTick 0 5 1, flatTick 0 5 2]

theorem accepts_twiceAtFive : ∀ t ∈ twiceAtFive, (Codec.forTicks twiceAtFive).Accepts
    (.insert (t.withSymbol ((LsmTree.fresh 10 .primary).symbolDict.getOrInsert "A").1)) := by
  have hid : ((LsmTree.fresh 10 .primary).symbolDict.getOrInsert "A").1 = 0 := by decide
  rw [hid]
  simp only [twiceAtFive, List.forall_mem_cons]
  exact ⟨⟨_, rfl, by decide +kernel⟩, ⟨_, rfl, by decide +kernel⟩, List.forall_mem_nil _⟩

theorem bulk_inserts_agree_repeated_timestamp :
    ∃ st₁ st₂ st₃,
      exec (insertBatch .simple (.forTicks twiceAtFive) .calm "A" twiceAtFive) []
        (LsmTree.fresh 10 .primary, 0) = .finished (.ok ()) [] st₁ ∧
      exec (insertBatchColumns .simple (.forTicks twiceAtFive) .calm "A" (.ofTicks twiceAtFive)) []
        (LsmTree.fresh 10 .primary, 0) = .finished (.ok ()) [] st₂ ∧
      exec (insertMulti .simple (.forTicks twiceAtFive) .calm
        (twiceAtFive.map (Tick.forSymbol "A"))) [] (LsmTree.fresh 10 .primary, 0) =
          .finished (.ok ()) [] st₃ ∧
      (st₁.1 = st₂.1 ∧ st₁.1 = st₃.1) ∧
      (exec (insertBatch .simple (.forTicks twiceAtFive) .calm "A" twiceAtFive) []
        (LsmTree.fresh 10 .primary, 0)).succeeded = true := by
  have hroom : ((LsmTree.fresh 10 .primary).withTicks (.forTicks twiceAtFive)
      (twiceAtFive.map (Tick.forSymbol "A"))).memtable.len < 10 := by decide +kernel
  obtain ⟨hagree, hok⟩ := bulk_inserts_agree .simple (.forTicks twiceAtFive)
    (LsmTree.fresh 10 .primary) rfl "A" twiceAtFive
  have haccepts := accepts_intern accepts_twiceAtFive
  have hdisk : ∀ time, Env.calm.disk time = .sound := fun _ => rfl
  obtain ⟨time₁, h₁⟩ := insertBatch_ok_of_room .simple hdisk rfl 0 hroom haccepts (by decide)
  obtain ⟨time₂, h₂⟩ := ok_of_room .simple .calm 0 (.insertBatch "A" (.ofTicks twiceAtFive)) rfl
    (carries_insertBatch _ "A" twiceAtFive) hroom rfl haccepts (by decide)
  obtain ⟨time₃, h₃⟩ := ok_of_room .simple .calm 0
    (.insertMulti (twiceAtFive.map (Tick.forSymbol "A"))) rfl (carries_insertMulti _ _) hroom rfl
    haccepts (by decide)
  exact ⟨_, _, _, h₁, h₂, h₃, hagree .calm .calm .calm 0 0 0 _ _ _ h₁ h₂ h₃,
    (hok .calm 0 (fun _ => rfl) hroom accepts_twiceAtFive (by decide)).1⟩

end DB

end Graphite
