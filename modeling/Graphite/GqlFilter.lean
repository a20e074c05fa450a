import Graphite.GqlExecutor

/-! The vectorized price filter keeps the ticks of the scalar one. -/

namespace Graphite.Gql.Executor

/-- Bit `j` of the mask is lane `j`. -/
theorem testBit_movemask (lanes : List Bool) (j : Nat) :
    (movemask lanes).testBit j = lanes.getD j false := by
  induction lanes generalizing j with
  | nil => rw [movemask, List.foldr_nil, Nat.zero_testBit, List.getD_nil]
  | cons lane lanes ih =>
    have hcons : movemask (lane :: lanes) = 2 * movemask lanes + lane.toNat := rfl
    rw [hcons]
    cases j with
    | zero => cases lane <;> simp [Nat.testBit_zero, Nat.add_mod]
    | succ j =>
      have hhalf : (2 * movemask lanes + lane.toNat) / 2 = movemask lanes := by
        have := lane.toNat_lt
        omega
      rw [Nat.testBit_succ, hhalf, ih, List.getD_cons_succ]

/-- Picking the ticks of a block by the bits of its mask filters the block. -/
theorem pick_eq_filter (block : List Tick) (p : Tick → Bool) :
    (block.zipIdx.filterMap fun e =>
      if (movemask (block.map p)).testBit e.2 then some e.1 else none) = block.filter p := by
  have hlane : ∀ e ∈ block.zipIdx, (movemask (block.map p)).testBit e.2 = p e.1 := by
    intro e he
    rw [testBit_movemask, List.getD_eq_getElem?_getD, List.getElem?_map,
      List.mem_zipIdx_iff_getElem?.mp he]
    rfl
  have hpick : (block.zipIdx.filterMap fun e =>
      if (movemask (block.map p)).testBit e.2 then some e.1 else none) =
      block.zipIdx.filterMap fun e => (some e.1).filter p := by
    apply List.filterMap_congr
    intro e he
    rw [hlane e he, Option.filter_some]
  calc
    _ = (block.zipIdx.map Prod.fst).filterMap fun t => (some t).filter p := by
      rw [hpick, List.filterMap_map]
      rfl
    _ = block.filter p := by
      rw [List.zipIdx_map_fst, ← List.filterMap_eq_filter]
      exact List.filterMap_congr fun t _ => by simp [Option.filter_some, Option.guard]

/-- The filter over blocks of four and the scalar filter keep the same ticks in the same
order, at every length, threshold and direction. -/
theorem simd_filter_eq_scalar (threshold : F64) (op : SimdOp) (ticks : List Tick) :
    simdFilterAvx2 threshold op ticks = scalarFilterPrices ticks threshold op := by
  fun_induction simdFilterAvx2 threshold op ticks with
  | case1 a b c d rest block mask ih =>
    rw [ih, pick_eq_filter block fun t => passes threshold op t.close]
    exact (List.filter_append [a, b, c, d] rest).symm
  | case2 rest => rfl

/-- The filter looks at the closing prices only. -/
theorem simdFilterAvx2_map {f : Tick → Tick} (hf : ∀ t, (f t).close = t.close) (threshold : F64)
    (op : SimdOp) (ticks : List Tick) :
    simdFilterAvx2 threshold op (ticks.map f) = (simdFilterAvx2 threshold op ticks).map f := by
  have hpasses (t : Tick) : passes threshold op (f t).close = passes threshold op t.close := by
    rw [hf]
  fun_induction simdFilterAvx2 threshold op ticks with
  | case1 a b c d rest block mask ih =>
    have hmask : movemask ([f a, f b, f c, f d].map fun t => passes threshold op t.close) = mask := by
      simp only [List.map_cons, List.map_nil, hpasses]
      rfl
    have hpick : ([f a, f b, f c, f d].zipIdx.filterMap fun e =>
        if mask.testBit e.2 then some e.1 else none) =
          (block.zipIdx.filterMap fun e => if mask.testBit e.2 then some e.1 else none).map f := by
      rw [show [f a, f b, f c, f d] = block.map f from rfl, List.zipIdx_map, List.filterMap_map,
        List.map_filterMap]
      refine List.filterMap_congr fun e _ => ?_
      by_cases hbit : mask.testBit e.2 = true
      · simp [hbit]
      · simp [hbit]
    rw [List.map_append, ← hpick, ← ih, ← hmask]
    rfl
  | case2 rest hshort =>
    have hrest : simdFilterAvx2 threshold op (rest.map f) =
        (rest.map f).filter fun t => passes threshold op t.close := by
      match rest, hshort with
      | [], _ => rfl
      | [a], _ => rfl
      | [a, b], _ => rfl
      | [a, b, c], _ => rfl
      | a :: b :: c :: d :: rest, h => exact absurd rfl (h a b c d rest)
    rw [hrest, List.filter_map]
    congr 2
    funext t
    exact hpasses t

theorem applyPriceFilter_map {f : Tick → Tick} (hf : ∀ t, (f t).close = t.close) (avx2 : Bool)
    (ticks : List Tick) (predicate : Option PricePredicate) :
    applyPriceFilter avx2 (ticks.map f) predicate = (applyPriceFilter avx2 ticks predicate).map f := by
  have hfilter (test : F64 → Bool) : (ticks.map f).filter (fun t => test t.close) =
      (ticks.filter fun t => test t.close).map f := by
    rw [List.filter_map]
    congr 2
    funext t
    exact congrArg test (hf t)
  have hsimd (threshold : F64) (op : SimdOp) : simdFilterPrices avx2 (ticks.map f) threshold op =
      (simdFilterPrices avx2 ticks threshold op).map f := by
    rw [simdFilterPrices, simdFilterPrices]
    split_ifs
    · exact simdFilterAvx2_map hf threshold op ticks
    · exact hfilter (passes threshold op)
  cases predicate with
  | none => rfl
  | some predicate =>
    cases predicate with
    | greater threshold => exact hsimd threshold .greater
    | less threshold => exact hsimd threshold .less
    | greaterEq threshold => exact hfilter fun x => F64.le threshold x
    | lessEq threshold => exact hfilter fun x => F64.le x threshold
    | equal threshold => exact hfilter fun x => F64.eq x threshold

end Graphite.Gql.Executor
