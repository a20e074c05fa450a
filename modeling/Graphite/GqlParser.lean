import Graphite.GqlLexer
import Graphite.Recognizer

/-! The syntax tree of the query language and its recursive descent parser. -/

namespace Graphite

/-- Column identifiers for projection. -/
inductive Column where
  | timestamp
  | symbol
  | open_
  | high
  | low
  | close
  | volume
  deriving DecidableEq, Repr

namespace Gql
open Recognizer

inductive AggregateFn where
  | ohlcv
  | sum
  | count
  | vwap
  deriving DecidableEq, Repr

inductive Interval where
  | sec1
  | min1
  | hour1
  deriving DecidableEq, Repr

inductive PricePredicate where
  | greater (x : F64)
  | less (x : F64)
  | greaterEq (x : F64)
  | lessEq (x : F64)
  | equal (x : F64)
  deriving DecidableEq, Repr

structure WhereClause where
  t1 : Int64
  t2 : Int64
  pricePredicate : Option PricePredicate
  deriving DecidableEq, Repr

structure GroupByClause where
  interval : Interval
  aggregate : AggregateFn
  deriving DecidableEq, Repr

inductive SelectColumns where
  | all
  | columns (cols : List Column)
  deriving DecidableEq, Repr

structure Query where
  explain : Bool
  columns : SelectColumns
  symbol : String
  whereClause : WhereClause
  limit : Option UInt64
  groupBy : Option GroupByClause
  deriving DecidableEq, Repr

namespace Parser

abbrev ParseM := Recognizer.Parser Token ParseError

/-- `match self.advance()`, with the same error for every other token and for the end. -/
def accept {α : Type} (expected : String) (value : Token → Option α) : ParseM α :=
  item value fun pos got => .unexpectedToken pos (.plain expected) (.optional got)

def expect (expected : Token) : ParseM Unit :=
  item (fun t => if t = expected then some () else none) fun
    | pos, some got => .unexpectedToken pos (.token expected) (.token got)
    | pos, none => .unexpectedEof pos (.token expected)

/-- The column of a name in small letters. -/
def columnOf : String → Option Column
  | "timestamp" => some .timestamp
  | "symbol" => some .symbol
  | "open" => some .open_
  | "high" => some .high
  | "low" => some .low
  | "close" => some .close
  | "volume" => some .volume
  | _ => none

def parseColumnName (u : Unicode) (name : String) : Option Column := columnOf (u.toLowercase name)

/-- The loop over the columns, up to `FROM`. -/
def columnsLoop (u : Unicode) :
    List Token → (pos : Nat) → Except ParseError (List Column × Cursor Token)
  | [], pos => .error (.unexpectedToken pos (.plain "column name") (.optional none))
  | t :: ts, pos =>
    match t with
    | .identifier name =>
      match parseColumnName u name with
      | some col =>
        if ts.head? = some .from then .ok ([col], ⟨ts, pos + 1⟩)
        else (columnsLoop u ts (pos + 1)).map fun r => (col :: r.1, r.2)
      | none => .error (.message (pos + 1) ("unknown column: " ++ name))
    | other => .error (.unexpectedToken (pos + 1) (.plain "column name") (.optional (some other)))

def parseColumns (u : Unicode) : ParseM SelectColumns := do
  match ← optional .star (pure ()) with
  | some () => return .all
  | none => .columns <$> fun c => columnsLoop u c.tokens c.pos

def parseSymbol : ParseM String :=
  accept "symbol name" fun
    | .identifier s => some s
    | _ => none

/-- A bound of the time range. -/
def parseTimestamp : ParseM Int64 :=
  accept "timestamp integer" fun
    | .integer n => some n
    | _ => none

def parseNumber : ParseM F64 :=
  accept "number" fun
    | .number x => some x
    | .integer n => some (F64.ofI64 n)
    | _ => none

def parseComparator : ParseM (F64 → PricePredicate) :=
  accept "price comparator" fun
    | .greater => some .greater
    | .less => some .less
    | .greaterEq => some .greaterEq
    | .lessEq => some .lessEq
    | .equal => some .equal
    | _ => none

/-- `price op x` behind an `AND`. -/
def parsePredicate : ParseM PricePredicate := do
  expect .price
  let comparator ← parseComparator
  comparator <$> parseNumber

/-- `n as u64` -/
def parseLimit : ParseM UInt64 :=
  accept "limit integer" fun
    | .integer n => some n.toUInt64
    | _ => none

/-- The intervals that are one token. -/
def intervalToken : Token → Option (Option Interval)
  | .sec1 => some (some .sec1)
  | .min1 => some (some .min1)
  | .hour1 => some (some .hour1)
  | .integer n => if n = 1 then some none else none
  | _ => none

/-- The interval of a suffix in small letters. -/
def suffixOf : String → Option Interval
  | "s" => some .sec1
  | "m" => some .min1
  | "h" => some .hour1
  | _ => none

def intervalSuffix (u : Unicode) (suffix : String) : Option Interval :=
  suffixOf (u.toLowercase suffix)

/-- The suffix of an interval whose number is a token of its own. -/
def parseSuffix (u : Unicode) : ParseM Interval :=
  item (fun
    | .identifier suffix => intervalSuffix u suffix
    | _ => none) fun
    | pos, some (.identifier suffix) =>
      .message pos ("unknown interval suffix: " ++ u.toLowercase suffix)
    | pos, got => .unexpectedToken pos (.plain "interval suffix (s|m|h)") (.optional got)

def parseInterval (u : Unicode) : ParseM Interval := do
  match ← accept "interval (1s|1m|1h)" intervalToken with
  | some interval => return interval
  | none => parseSuffix u

def parseAggregate : ParseM AggregateFn :=
  accept "aggregate function" fun
    | .ohlcv => some .ohlcv
    | .sum => some .sum
    | .count => some .count
    | .vwap => some .vwap
    | _ => none

/-- The clause behind `GROUP BY`. -/
def parseGroupBy (u : Unicode) : ParseM GroupByClause := do
  expect .colon
  let interval ← parseInterval u
  expect .aggregate
  GroupByClause.mk interval <$> parseAggregate

def parseWhere : ParseM WhereClause := do
  expect .where
  expect .timestamp
  expect .between
  let t1 ← parseTimestamp
  expect .and
  let t2 ← parseTimestamp
  WhereClause.mk t1 t2 <$> optional .and parsePredicate

/-- The parser does not look whether there are tokens left. -/
def parse (u : Unicode) : ParseM Query := do
  let explain ← optional .explain (pure ())
  expect .select
  let columns ← parseColumns u
  expect .from
  let symbol ← parseSymbol
  let whereClause ← parseWhere
  let limit ← optional .limit parseLimit
  Query.mk explain.isSome columns symbol whereClause limit <$> optional .groupBy (parseGroupBy u)

end Parser

def parse (u : Unicode) (input : String) : Except ParseError Query := do
  let tokens ← (Lexer.new input).tokenize u
  let (query, _) ← Parser.parse u ⟨tokens, 0⟩
  return query

end Gql

end Graphite
