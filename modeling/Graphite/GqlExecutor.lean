import Graphite.GqlParser
import Graphite.Lsm

/-! The query executor: a scan with the price filter, the aggregation and the limit behind
it, or the plan of all this. -/

namespace Graphite.Gql
open LockProgram

/-- What the aggregation computes with prices of any kind. -/
structure PriceArith (π : Type) where
  max : π → π → π
  min : π → π → π
  add : π → π → π
  mul : π → π → π
  div : π → π → π
  ofU64 : UInt64 → π
  zero : π
  one : π

/-- The arithmetic of `f64`. -/
def PriceArith.binary64 : PriceArith F64 where
  max := F64.max
  min := F64.min
  add := F64.add
  mul := F64.mul
  div := F64.div
  ofU64 := F64.ofU64
  zero := F64.zero
  one := F64.ofU64 1

/-- The fields of a tick that go into a bar. -/
structure Sample (π : Type) where
  timestamp : Int64
  open_ : π
  high : π
  low : π
  close : π
  volume : UInt64
  deriving DecidableEq, Repr

def sampleOf (t : Tick) : Sample F64 := ⟨t.timestamp, t.open_, t.high, t.low, t.close, t.volume⟩

/-- Query result row. -/
structure ResultRow (π : Type) where
  timestamp : Int64
  symbol : String
  open_ : π
  high : π
  low : π
  close : π
  volume : UInt64
  deriving DecidableEq, Repr

structure QueryResult where
  rows : List (ResultRow F64)
  explainPlan : Option String
  deriving DecidableEq, Repr

/-- Explain plan operator node. -/
inductive ExplainNode where
  | node (operator : String) (estimatedRows : Nat) (children : List ExplainNode)

namespace ExplainNode

def estimatedRows : ExplainNode → Nat
  | node _ estimatedRows _ => estimatedRows

mutual

def format : ExplainNode → (indent : Nat) → String
  | node operator estimatedRows children, indent =>
    String.join (List.replicate indent "  ") ++ operator ++ " (est. " ++ toString estimatedRows ++
      " rows)\n" ++ formatAll children (indent + 1)

def formatAll : List ExplainNode → (indent : Nat) → String
  | [], _ => ""
  | child :: children, indent => format child indent ++ formatAll children indent

end

end ExplainNode

/-- Nanoseconds. -/
def Interval.nanos : Interval → Int64
  | sec1 => 1000000000
  | min1 => 60000000000
  | hour1 => 3600000000000

def Interval.debug : Interval → String
  | sec1 => "Sec1"
  | min1 => "Min1"
  | hour1 => "Hour1"

def AggregateFn.debug : AggregateFn → String
  | ohlcv => "Ohlcv"
  | sum => "Sum"
  | count => "Count"
  | vwap => "Vwap"

namespace Executor

inductive SimdOp where
  | greater
  | less
  deriving DecidableEq, Repr

def passes (threshold : F64) (op : SimdOp) (x : F64) : Bool :=
  match op with
  | .greater => F64.lt threshold x
  | .less => F64.lt x threshold

def scalarFilterPrices (ticks : List Tick) (threshold : F64) (op : SimdOp) : List Tick :=
  ticks.filter fun t => passes threshold op t.close

/-- `_mm256_movemask_pd`: the results of the lanes as bits. -/
def movemask (lanes : List Bool) : Nat :=
  lanes.foldr (fun lane mask => 2 * mask + lane.toNat) 0

/-- The loop over four ticks at a time, then over the ticks that are left. -/
def simdFilterAvx2 (threshold : F64) (op : SimdOp) : List Tick → List Tick
  | a :: b :: c :: d :: rest =>
    let block := [a, b, c, d]
    let mask := movemask (block.map fun t => passes threshold op t.close)
    (block.zipIdx.filterMap fun e => if mask.testBit e.2 then some e.1 else none) ++
      simdFilterAvx2 threshold op rest
  | rest => rest.filter fun t => passes threshold op t.close

/-- Vectorized price filter using AVX2 when available. -/
def simdFilterPrices (avx2 : Bool) (ticks : List Tick) (threshold : F64) (op : SimdOp) :
    List Tick :=
  if avx2 then simdFilterAvx2 threshold op ticks else scalarFilterPrices ticks threshold op

def applyPriceFilter (avx2 : Bool) (ticks : List Tick) : Option PricePredicate → List Tick
  | none => ticks
  | some (.greater threshold) => simdFilterPrices avx2 ticks threshold .greater
  | some (.less threshold) => simdFilterPrices avx2 ticks threshold .less
  | some (.greaterEq threshold) => ticks.filter fun t => F64.le threshold t.close
  | some (.lessEq threshold) => ticks.filter fun t => F64.le t.close threshold
  | some (.equal threshold) => ticks.filter fun t => F64.eq t.close threshold

section Aggregate
variable {π : Type} (A : PriceArith π)

/-- `a + b` on `u64`; an overflow is a panic. -/
def checkedAddU64 (a b : UInt64) : Option UInt64 :=
  if a.toNat + b.toNat < 2 ^ 64 then some (a + b) else none

/-- The start of the interval: the quotient is rounded towards zero. -/
def bucket (interval : Interval) (timestamp : Int64) : Int64 :=
  timestamp / interval.nanos * interval.nanos

/-- A bar is a row of the samples in it, under the time of its bucket. -/
def newBar (interval : Interval) (x : Sample π) : Sample π :=
  { x with timestamp := bucket interval x.timestamp }

def extendBar (bar x : Sample π) : Option (Sample π) := do
  let volume ← checkedAddU64 bar.volume x.volume
  return { bar with
    high := A.max bar.high x.high
    low := A.min bar.low x.low
    close := x.close
    volume }

/-- One round of the loop; the bars are in reverse. -/
def addSample (interval : Interval) (bars : List (Sample π)) (x : Sample π) :
    Option (List (Sample π)) :=
  match bars with
  | [] => some [newBar interval x]
  | bar :: bars =>
    if bar.timestamp = bucket interval x.timestamp then
      (extendBar A bar x).map fun bar => bar :: bars
    else some (newBar interval x :: bar :: bars)

def barsOf (interval : Interval) (samples : List (Sample π)) : Option (List (Sample π)) :=
  (samples.foldlM (addSample A interval) []).map List.reverse

def ohlcvRow (symbol : String) (bar : Sample π) : ResultRow π :=
  ⟨bar.timestamp, symbol, bar.open_, bar.high, bar.low, bar.close, bar.volume⟩

def sumRow (symbol : String) (bar : Sample π) : ResultRow π :=
  ⟨bar.timestamp, symbol, A.zero, A.zero, A.zero, A.ofU64 bar.volume, bar.volume⟩

def countRow (symbol : String) (bar : Sample π) : ResultRow π :=
  ⟨bar.timestamp, symbol, A.zero, A.zero, A.zero, A.one, 1⟩

/-- The sums over all samples, whatever their buckets. -/
def vwapSums (samples : List (Sample π)) : Option (π × UInt64) :=
  samples.foldlM (fun sums x => do
    let volume ← checkedAddU64 sums.2 x.volume
    return (A.add sums.1 (A.mul x.close (A.ofU64 x.volume)), volume)) (A.zero, 0)

def vwapRow (symbol : String) (samples : List (Sample π)) : Option (ResultRow π) := do
  let (totalPv, totalVol) ← vwapSums A samples
  let vwap := if totalVol > 0 then A.div totalPv (A.ofU64 totalVol) else A.zero
  return ⟨(samples.head?.map Sample.timestamp).getD 0, symbol, vwap, vwap, vwap, vwap, totalVol⟩

def aggregate (samples : List (Sample π)) (groupBy : GroupByClause) (symbol : String) :
    Option (List (ResultRow π)) := do
  let bars ← barsOf A groupBy.interval samples
  match groupBy.aggregate with
  | .ohlcv => return bars.map (ohlcvRow symbol)
  | .sum => return bars.map (sumRow A symbol)
  | .count => return bars.map (countRow A symbol)
  | .vwap => return [← vwapRow A symbol samples]

end Aggregate

def tickToRow (symbol : String) (tick : Tick) : ResultRow F64 := ohlcvRow symbol (sampleOf tick)

def scanNode (q : Query) (totalRows estRows : Nat) : ExplainNode :=
  .node ("SSTableScan(symbol=" ++ q.symbol ++ ")") estRows
    [.node ("BloomFilterPushdown(t1=" ++ toString q.whereClause.t1.toInt ++ ", t2=" ++
        toString q.whereClause.t2.toInt ++ ")") estRows
      [.node "MemTableScan" (Nat.min totalRows 10000) []]]

/-- `build_explain_plan` for a number of rows of the tree. -/
def explainPlan (q : Query) (totalRows : Nat) : ExplainNode :=
  let estRows := totalRows / 10
  let root := scanNode q totalRows estRows
  let root := match q.whereClause.pricePredicate with
    | some _ => .node "SimdPriceFilter(AVX2)" (estRows / 2) [root]
    | none => root
  let root := match q.groupBy with
    | some g => .node ("StreamAggregate(interval=" ++ g.interval.debug ++ ", fn=" ++
        g.aggregate.debug ++ ")") (estRows / 100) [root]
    | none => root
  let root := match q.limit with
    | some n => .node ("Limit(" ++ toString n.toNat ++ ")") n.toNat [root]
    | none => root
  .node "QueryRoot" root.estimatedRows [root]

/-- The rows before the limit; `none` is a panic. -/
def rowsOf (q : Query) (filtered : List Tick) : Option (List (ResultRow F64)) :=
  match q.groupBy with
  | some groupBy => aggregate .binary64 (filtered.map sampleOf) groupBy q.symbol
  | none => some (filtered.map (tickToRow q.symbol))

def limitRows (limit : Option UInt64) (rows : List (ResultRow F64)) : List (ResultRow F64) :=
  match limit with
  | some n => rows.take n.toNat
  | none => rows

def execute (avx2 : Bool) (env : Env) (q : Query) : LsmOp QueryResult :=
  if q.explain then do
    let totalRows ← withGuard .compaction .read (gets fun st => st.1.totalRows)
    return ⟨[], some ((explainPlan q totalRows).format 0)⟩
  else do
    let ticks ← LsmTree.scan env (some q.symbol) q.whereClause.t1 q.whereClause.t2
    match rowsOf q (applyPriceFilter avx2 ticks q.whereClause.pricePredicate) with
    | some rows => return ⟨limitRows q.limit rows, none⟩
    | none => throw .panic

end Executor

/-- `DB::query`: an error of the parser, or the run of the executor. -/
def query (u : Unicode) (avx2 : Bool) (env : Env) (gql : String) :
    Except ParseError (LsmOp QueryResult) :=
  (parse u gql).map (Executor.execute avx2 env)

def rangeText (symbol : String) (t1 t2 : Int64) : String :=
  "SELECT * FROM " ++ symbol ++ " WHERE timestamp BETWEEN " ++ toString t1.toInt ++ " AND " ++
    toString t2.toInt

/-- Query a time range for a symbol (convenience method). -/
def queryRange (u : Unicode) (avx2 : Bool) (env : Env) (symbol : String) (t1 t2 : Int64) :
    Except ParseError (LsmOp QueryResult) :=
  query u avx2 env (rangeText symbol t1 t2)

end Graphite.Gql
