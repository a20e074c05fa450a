import Graphite.KeyedRows
import Graphite.Types

/-! The memtable. A skip list's higher chains are shortcuts into its level-0 chain, which
is what iteration, lookup and insertion come down to. -/

namespace Graphite
open KeyedRows

/-- The level-0 chain, in strictly increasing key order. -/
structure SkipList where
  chain : List Tick
  increasing : Increasing Tick.key chain
  deriving DecidableEq

namespace SkipList

def new : SkipList := ⟨[], List.Pairwise.nil⟩

/-- A tick with a key already there replaces the one in the node. -/
def insert (s : SkipList) (tick : Tick) : SkipList :=
  ⟨insertRow Tick.key tick s.chain, increasing_insertRow Tick.key tick s.increasing⟩

/-- Walk past the smaller keys, then compare. -/
def get (s : SkipList) (key : Key) : Option Tick :=
  (s.chain.dropWhile fun x => x.key < key).head?.filter fun x => x.key = key

def len (s : SkipList) : Nat := s.chain.length

def drain (s : SkipList) : List Tick × SkipList := (s.chain, new)

def insertAll (s : SkipList) (ticks : List Tick) : SkipList := ticks.foldl insert s

theorem get_eq_firstAt (s : SkipList) (key : Key) : s.get key = firstAt Tick.key s.chain key := by
  obtain ⟨chain, hinc⟩ := s
  unfold get
  dsimp only
  induction chain with
  | nil => rfl
  | cons x chain ih =>
    obtain ⟨hx, hchain⟩ := List.pairwise_cons.mp hinc
    rw [firstAt_cons, List.dropWhile_cons]
    by_cases hlt : x.key < key
    · simp only [hlt, decide_true, if_true, if_neg hlt.ne]
      exact ih hchain
    · simp only [hlt, decide_false, Bool.false_eq_true, if_false, List.head?_cons]
      by_cases heq : x.key = key
      · simp [heq]
      · have hnone : firstAt Tick.key chain key = none := by
          rw [firstAt_eq_none_iff]
          intro y hy hyk
          exact hlt (by rw [← hyk]; exact hx y hy)
        simp [heq, hnone]

theorem get_insert (s : SkipList) (tick : Tick) (key : Key) :
    (s.insert tick).get key = if tick.key = key then some tick else s.get key := by
  rw [get_eq_firstAt, get_eq_firstAt]
  exact firstAt_insertRow Tick.key tick s.increasing key

@[simp] theorem get_new (key : Key) : new.get key = none := rfl

theorem insertAll_append (s : SkipList) (ticks more : List Tick) :
    s.insertAll (ticks ++ more) = (s.insertAll ticks).insertAll more :=
  List.foldl_append

/-- The version that counts is the last one inserted. -/
theorem get_insertAll (s : SkipList) (ticks : List Tick) (key : Key) :
    (s.insertAll ticks).get key = (firstAt Tick.key ticks.reverse key).or (s.get key) := by
  induction ticks generalizing s with
  | nil => rfl
  | cons tick ticks ih =>
    rw [insertAll, List.foldl_cons, ← insertAll, ih, get_insert, List.reverse_cons, firstAt_append,
      firstAt_cons]
    cases firstAt Tick.key ticks.reverse key with
    | some x => rfl
    | none => split_ifs <;> rfl

theorem get_eq_some_iff (s : SkipList) (key : Key) (x : Tick) :
    s.get key = some x ↔ x ∈ s.chain ∧ x.key = key := by
  rw [get_eq_firstAt]
  exact firstAt_eq_some_iff Tick.key s.increasing

/-- Skip lists with the same versions are the same. -/
theorem ext_get {s s' : SkipList} (h : ∀ key, s.get key = s'.get key) : s = s' := by
  have hchain : s.chain = s'.chain := by
    have : Std.Antisymm fun x y : Tick => x.key < y.key := ⟨fun _ _ h h' => absurd h h'.asymm⟩
    have : Std.Irrefl fun x y : Tick => x.key < y.key := ⟨fun x => lt_irrefl x.key⟩
    refine List.Pairwise.eq_of_mem_iff (r := fun x y : Tick => x.key < y.key) s.increasing
      s'.increasing fun x => ?_
    have hs := s.get_eq_some_iff x.key x
    have hs' := s'.get_eq_some_iff x.key x
    rw [h x.key, hs', and_iff_left rfl, and_iff_left rfl] at hs
    exact hs.symm
  cases s
  cases s'
  congr

theorem mem_insertAll {s : SkipList} {ticks : List Tick} {x : Tick}
    (h : x ∈ (s.insertAll ticks).chain) : x ∈ ticks ∨ x ∈ s.chain := by
  induction ticks generalizing s with
  | nil => exact Or.inr h
  | cons tick ticks ih =>
    rcases ih h with hx | hx
    · exact Or.inl (List.mem_cons_of_mem tick hx)
    · rcases mem_insertRow Tick.key hx with rfl | hx
      · exact Or.inl List.mem_cons_self
      · exact Or.inr hx

theorem length_insertRow_pos (tick : Tick) (chain : List Tick) :
    0 < (insertRow Tick.key tick chain).length := by
  cases chain with
  | nil => exact Nat.one_pos
  | cons y chain =>
    unfold insertRow
    split_ifs <;> exact Nat.succ_pos _

theorem chain_insertAll_ne_nil (s : SkipList) {ticks : List Tick} (h : ticks ≠ []) :
    (s.insertAll ticks).chain ≠ [] := by
  obtain ⟨front, last, rfl⟩ := (List.eq_nil_or_concat ticks).resolve_left h
  rw [List.concat_eq_append, insertAll_append]
  exact List.ne_nil_of_length_pos (length_insertRow_pos last (s.insertAll front).chain)

end SkipList

end Graphite
