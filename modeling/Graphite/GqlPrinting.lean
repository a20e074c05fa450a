import Graphite.GqlGrammar
import Graphite.GqlWords

/-! The text of a query, in the documented order of its clauses and with white space
between its words, and what the parser makes of it. -/

namespace Graphite.Gql
open Recognizer Lexer Graphite.Gql.Parser

def columnWord : Column → String
  | .timestamp => "timestamp"
  | .symbol => "symbol"
  | .open_ => "open"
  | .high => "high"
  | .low => "low"
  | .close => "close"
  | .volume => "volume"

def columnWords : SelectColumns → List String
  | .all => ["*"]
  | .columns cols => cols.map columnWord

def PricePredicate.threshold : PricePredicate → F64
  | greater x => x
  | less x => x
  | greaterEq x => x
  | lessEq x => x
  | equal x => x

def comparatorWord : PricePredicate → String
  | .greater _ => ">"
  | .less _ => "<"
  | .greaterEq _ => ">="
  | .lessEq _ => "<="
  | .equal _ => "="

/-- The threshold is written with the given literal. -/
def priceWords (literal : String) : Option PricePredicate → List String
  | none => []
  | some p => ["AND", "price", comparatorWord p, literal]

def limitWords : Option UInt64 → List String
  | none => []
  | some n => ["LIMIT", toString (n.toNat : Int)]

def intervalWord : Interval → String
  | .sec1 => ":1s"
  | .min1 => ":1m"
  | .hour1 => ":1h"

def aggregateWord : AggregateFn → String
  | .ohlcv => "OHLCV"
  | .sum => "SUM"
  | .count => "COUNT"
  | .vwap => "VWAP"

def groupWords : Option GroupByClause → List String
  | none => []
  | some g => ["GROUP BY", intervalWord g.interval, "AGGREGATE", aggregateWord g.aggregate]

def Query.words (q : Query) (literal : String) : List String :=
  (if q.explain then ["EXPLAIN"] else []) ++ ("SELECT" :: (columnWords q.columns ++
    (["FROM", q.symbol, "WHERE", "timestamp", "BETWEEN", toString q.whereClause.t1.toInt, "AND",
      toString q.whereClause.t2.toInt] ++ (priceWords literal q.whereClause.pricePredicate ++
        (limitWords q.limit ++ groupWords q.groupBy)))))

/-- The text is that of the query, with white space between the words. -/
def Query.IsText (u : Unicode) (q : Query) (literal text : String) : Prop :=
  Spaced u ((q.words literal).map String.toList) text.toList

/-- Queries with any bounds whose other parts can be written down. -/
structure Query.Spelled (u : Unicode) (q : Query) (literal : String) : Prop where
  columns : q.columns ≠ .columns []
  symbol : IsName u q.symbol
  price : ∀ p, q.whereClause.pricePredicate = some p →
    IsDecimal literal.toList ∧ F64.fromStr literal.toList = some p.threshold
  limit : ∀ n, q.limit = some n → n.toNat < 10 ^ 15

structure Query.Writable (u : Unicode) (q : Query) (literal : String) : Prop
    extends q.Spelled u literal where
  t1 : q.whereClause.t1.toInt.natAbs < 10 ^ 15
  t2 : q.whereClause.t2.toInt.natAbs < 10 ^ 15

/-- The derived comparisons; numbers are compared as numbers. -/
def PricePredicate.eq : PricePredicate → PricePredicate → Bool
  | greater x, greater y => F64.eq x y
  | less x, less y => F64.eq x y
  | greaterEq x, greaterEq y => F64.eq x y
  | lessEq x, lessEq y => F64.eq x y
  | equal x, equal y => F64.eq x y
  | _, _ => false

def eqPrice : Option PricePredicate → Option PricePredicate → Bool
  | none, none => true
  | some p, some p' => p.eq p'
  | _, _ => false

def Query.eq (q r : Query) : Bool :=
  q.explain = r.explain && q.columns = r.columns && q.symbol = r.symbol &&
    q.whereClause.t1 = r.whereClause.t1 && q.whereClause.t2 = r.whereClause.t2 &&
    eqPrice q.whereClause.pricePredicate r.whereClause.pricePredicate &&
    q.limit = r.limit && q.groupBy = r.groupBy

/-- The column that is a keyword as well. -/
def columnToken : Column → Token
  | .timestamp => .timestamp
  | col => .identifier (columnWord col)

def columnTokens : SelectColumns → List Token
  | .all => [.star]
  | .columns cols => cols.map columnToken

def comparatorToken : PricePredicate → Token
  | .greater _ => .greater
  | .less _ => .less
  | .greaterEq _ => .greaterEq
  | .lessEq _ => .lessEq
  | .equal _ => .equal

def priceTokens : Option PricePredicate → List Token
  | none => []
  | some p => [.and, .price, comparatorToken p, numberToken p.threshold]

def limitTokens : Option UInt64 → List Token
  | none => []
  | some n => [.limit, .integer (Int64.ofInt n.toNat)]

def intervalSuffixWord : Interval → String
  | .sec1 => "s"
  | .min1 => "m"
  | .hour1 => "h"

def groupTokens : Option GroupByClause → List Token
  | none => []
  | some g => [.groupBy, .colon, .integer 1, .identifier (intervalSuffixWord g.interval), .aggregate,
      aggregateToken g.aggregate]

/-- The tokens of the text of a query. -/
def Query.tokens (q : Query) : List Token :=
  (if q.explain then [.explain] else []) ++ (.select :: (columnTokens q.columns ++
    ([.from, .identifier q.symbol, .where, .timestamp, .between,
      integerToken q.whereClause.t1.toInt, .and, integerToken q.whereClause.t2.toInt] ++
        (priceTokens q.whereClause.pricePredicate ++
          (limitTokens q.limit ++ groupTokens q.groupBy)))))

section Texts
variable {u : Unicode}

/-- A word of ASCII letters as the lexer reads it. -/
theorem lexesAll_ascii {w : String} {t : Token} {words : List (List Char)} {tokens : List Token}
    (h : IsAsciiWord w) (hgroup : String.ofList (w.toList.map Char.toUpper) ≠ "GROUP")
    (ht : (keyword (String.ofList (w.toList.map Char.toUpper))).getD (.identifier w) = t)
    (hs : LexesAll u words tokens) : LexesAll u (w.toList :: words) (t :: tokens) := by
  rw [← ht]
  exact .cons (lexes_ascii h rfl hgroup) hs

theorem lexesAll_columns (cols : SelectColumns) :
    LexesAll u ((columnWords cols).map String.toList) (columnTokens cols) := by
  cases cols with
  | all => exact .cons lexes_star .nil
  | columns cols =>
    induction cols with
    | nil => exact .nil
    | cons col cols ih =>
      cases col <;> exact lexesAll_ascii (by decide) (by decide) (by decide) ih

theorem lexesAll_price {o : Option PricePredicate} {literal : String}
    (h : ∀ p, o = some p → IsDecimal literal.toList ∧
      F64.fromStr literal.toList = some p.threshold) :
    LexesAll u ((priceWords literal o).map String.toList) (priceTokens o) := by
  cases o with
  | none => exact .nil
  | some p =>
    obtain ⟨hdecimal, hvalue⟩ := h p rfl
    refine lexesAll_ascii (w := "AND") (by decide) (by decide) (by decide) ?_
    refine lexesAll_ascii (by decide) (by decide) (by decide) ?_
    have hliteral : LexesAll u [literal.toList] [numberToken p.threshold] :=
      .cons (lexes_number hdecimal hvalue) .nil
    cases p with
    | greater x => exact .cons lexes_greater hliteral
    | less x => exact .cons lexes_less hliteral
    | greaterEq x => exact .cons lexes_greaterEq hliteral
    | lessEq x => exact .cons lexes_lessEq hliteral
    | equal x => exact .cons lexes_equal hliteral

theorem lexesAll_limit {o : Option UInt64} (h : ∀ n, o = some n → n.toNat < 10 ^ 15) :
    LexesAll u ((limitWords o).map String.toList) (limitTokens o) := by
  cases o with
  | none => exact .nil
  | some n =>
    refine lexesAll_ascii (by decide) (by decide) (by decide) ?_
    have hlexes := lexes_integer (u := u) n.toNat
    rw [integerToken_of_lt (by rw [Int.natAbs_natCast]; exact h n rfl)] at hlexes
    exact .cons hlexes .nil

theorem lexes_intervalWord (interval : Interval) : Lexes u (intervalWord interval).toList
    [.colon, .integer 1, .identifier (intervalSuffixWord interval)] := by
  cases interval with
  | sec1 => exact lexes_interval 's' (by decide) (by decide) (by decide)
  | min1 => exact lexes_interval 'm' (by decide) (by decide) (by decide)
  | hour1 => exact lexes_interval 'h' (by decide) (by decide) (by decide)

theorem lexesAll_group (o : Option GroupByClause) :
    LexesAll u ((groupWords o).map String.toList) (groupTokens o) := by
  cases o with
  | none => exact .nil
  | some g =>
    obtain ⟨interval, aggregate⟩ := g
    have haggregate : LexesAll u ["AGGREGATE".toList, (aggregateWord aggregate).toList]
        [.aggregate, aggregateToken aggregate] := by
      refine lexesAll_ascii (by decide) (by decide) (by decide) ?_
      cases aggregate <;> exact lexesAll_ascii (by decide) (by decide) (by decide) .nil
    refine .cons lexes_groupBy ?_
    exact .cons (lexes_intervalWord interval) haggregate

theorem lexesAll_words {q : Query} {literal : String} (h : q.Spelled u literal) :
    LexesAll u ((q.words literal).map String.toList) q.tokens := by
  have hexplain : LexesAll u ((if q.explain then ["EXPLAIN"] else []).map String.toList)
      (if q.explain then [.explain] else []) := by
    split_ifs
    · exact lexesAll_ascii (by decide) (by decide) (by decide) .nil
    · exact .nil
  have hwhere : LexesAll u (["FROM", q.symbol, "WHERE", "timestamp", "BETWEEN",
      toString q.whereClause.t1.toInt, "AND", toString q.whereClause.t2.toInt].map String.toList)
      [.from, .identifier q.symbol, .where, .timestamp, .between,
        integerToken q.whereClause.t1.toInt, .and, integerToken q.whereClause.t2.toInt] := by
    have hend := LexesAll.cons (lexes_integer (u := u) q.whereClause.t2.toInt) .nil
    have hand := lexesAll_ascii (w := "AND") (t := .and) (by decide) (by decide) (by decide) hend
    have hstart := LexesAll.cons (lexes_integer q.whereClause.t1.toInt) hand
    refine lexesAll_ascii (by decide) (by decide) (by decide) (.cons (lexes_name h.symbol) ?_)
    refine lexesAll_ascii (by decide) (by decide) (by decide) ?_
    refine lexesAll_ascii (by decide) (by decide) (by decide) ?_
    exact lexesAll_ascii (by decide) (by decide) (by decide) hstart
  rw [Query.words, Query.tokens, List.map_append, List.map_cons, List.map_append, List.map_append,
    List.map_append, List.map_append]
  refine hexplain.append (lexesAll_ascii (by decide) (by decide) (by decide) ?_)
  exact (lexesAll_columns _).append (hwhere.append ((lexesAll_price h.price).append
    ((lexesAll_limit h.limit).append (lexesAll_group _))))

theorem tokenize_text {q : Query} {literal text : String} (h : q.Spelled u literal)
    (htext : q.IsText u literal text) : (Lexer.new text).tokenize u = .ok q.tokens :=
  tokenize_of_spaced htext (lexesAll_words h) 0

theorem parseColumnName_columnWord (col : Column) : parseColumnName u (columnWord col) = some col := by
  have hlower : u.toLowercase (columnWord col) = columnWord col := by
    rw [u.lowercase_ascii _ (by cases col <;> decide)]
    cases col <;> decide
  rw [parseColumnName, hlower]
  cases col <;> rfl

theorem intervalSuffix_word (interval : Interval) :
    intervalSuffix u (intervalSuffixWord interval) = some interval := by
  have hlower : u.toLowercase (intervalSuffixWord interval) = intervalSuffixWord interval := by
    rw [u.lowercase_ascii _ (by cases interval <;> decide)]
    cases interval <;> decide
  rw [intervalSuffix, hlower]
  cases interval <;> rfl

theorem columnTokens_of_notMem {cols : SelectColumns} (hne : cols ≠ .columns [])
    (h : ∀ cs, cols = .columns cs → .timestamp ∉ cs) : ColumnTokens u cols (columnTokens cols) := by
  cases cols with
  | all => exact .all
  | columns cs =>
    refine .columns (fun hnil => hne (congrArg _ hnil)) ?_
    have hcs := h cs rfl
    clear hne h
    induction cs with
    | nil => exact .nil
    | cons col cs ih =>
      refine .cons ⟨columnWord col, ?_, parseColumnName_columnWord col⟩
        (ih fun hmem => hcs (List.mem_cons_of_mem _ hmem))
      cases col with
      | timestamp => exact absurd List.mem_cons_self hcs
      | symbol => rfl
      | open_ => rfl
      | high => rfl
      | low => rfl
      | close => rfl
      | volume => rfl

/-- The number that the parser reads for a threshold. -/
def readThreshold (x : F64) : F64 :=
  if F64.eq x.fract F64.zero && F64.lt x.abs F64.tenTo15 then F64.ofI64 x.toI64 else x

theorem numberToken_readThreshold (x : F64) : NumberToken (readThreshold x) (numberToken x) := by
  rw [readThreshold, numberToken]
  split_ifs
  · exact .integer _
  · exact .number _

theorem eq_readThreshold {x : F64} (h : ¬ x.IsNan) : F64.eq (readThreshold x) x = true := by
  rw [readThreshold]
  split_ifs with hwhole
  · exact F64.eq_ofI64_toI64 ((F64.isWhole_iff x).mp hwhole)
  · exact F64.eq_self h

def PricePredicate.read : PricePredicate → PricePredicate
  | greater x => greater (readThreshold x)
  | less x => less (readThreshold x)
  | greaterEq x => greaterEq (readThreshold x)
  | lessEq x => lessEq (readThreshold x)
  | equal x => equal (readThreshold x)

/-- The query with the threshold as it is read. -/
def Query.read (q : Query) : Query :=
  { q with whereClause :=
      { q.whereClause with pricePredicate := q.whereClause.pricePredicate.map .read } }

theorem priceTokens_read (o : Option PricePredicate) :
    PriceTokens (o.map .read) (priceTokens o) := by
  cases o with
  | none => exact .none
  | some p =>
    cases p with
    | greater x => exact .greater (numberToken_readThreshold x)
    | less x => exact .less (numberToken_readThreshold x)
    | greaterEq x => exact .greaterEq (numberToken_readThreshold x)
    | lessEq x => exact .lessEq (numberToken_readThreshold x)
    | equal x => exact .equal (numberToken_readThreshold x)

theorem limitTokens_written {o : Option UInt64} (h : ∀ n, o = some n → n.toNat < 10 ^ 15) :
    LimitTokens (fun _ => True) o (limitTokens o) := by
  cases o with
  | none => exact .none
  | some n =>
    have hcast : (Int64.ofInt n.toNat).toUInt64 = n := by
      rw [Int64.ofInt_eq_ofNat]
      change UInt64.ofNat n.toNat = n
      exact UInt64.ofNat_toNat
    have hlimit : LimitTokens (fun _ => True) (some (Int64.ofInt n.toNat).toUInt64) _ :=
      .limit (Int64.ofInt n.toNat) trivial
    rwa [hcast] at hlimit

theorem groupTokens_written (o : Option GroupByClause) : GroupTokens u o (groupTokens o) := by
  cases o with
  | none => exact .none
  | some g => exact .group g.aggregate (.suffix (intervalSuffix_word g.interval))

theorem readable_tokens {q : Query} {literal : String} (h : q.Writable u literal)
    (htimestamp : ∀ cs, q.columns = .columns cs → .timestamp ∉ cs) : Readable u q.read q.tokens := by
  have hcolumns := columnTokens_of_notMem (u := u) h.columns htimestamp
  have hprice := priceTokens_read q.whereClause.pricePredicate
  have hgroup := groupTokens_written (u := u) q.groupBy
  have hquery := QueryTokens.query (q := q.read) hcolumns hprice (limitTokens_written h.limit) hgroup
  rw [Query.tokens, integerToken_of_lt h.t1, integerToken_of_lt h.t2, Int64.ofInt_toInt,
    Int64.ofInt_toInt]
  exact hquery

theorem eq_read {q : Query} {literal : String} (h : q.Spelled u literal) :
    q.read.eq q = true := by
  obtain ⟨explain, columns, symbol, ⟨t1, t2, o⟩, limit, groupBy⟩ := q
  have hprice : eqPrice (o.map .read) o = true := by
    cases o with
    | none => rfl
    | some p =>
      have hnan := F64.not_isNan_of_fromStr (h.price p rfl).2
      cases p <;> exact eq_readThreshold hnan
  simp only [Query.eq, Query.read, decide_true, Bool.and_true, Bool.true_and]
  exact hprice

/-- Columns named in the tokens are identifiers. -/
theorem not_columnNames {cols : List Column} (h : .timestamp ∈ cols) {tokens rest more : List Token}
    (hnames : ColumnNames u cols tokens) :
    cols.map columnToken ++ rest ≠ tokens ++ more := by
  intro heq
  induction hnames with
  | nil => cases h
  | @cons col t cols tokens ht _ ih =>
    obtain ⟨name, rfl, -⟩ := ht
    obtain ⟨hhead, htail⟩ := List.cons.inj heq
    rcases List.mem_cons.mp h with rfl | h
    · cases hhead
    · exact ih h htail

/-- The parser gives the query back exactly when `timestamp` is not among its columns. -/
theorem parse_text_iff (u : Unicode) (q : Query) (literal text : String)
    (hwritable : q.Writable u literal) (htext : q.IsText u literal text) :
    (∃ r, parse u text = .ok r ∧ r.eq q = true) ↔
      ∀ cs, q.columns = .columns cs → .timestamp ∉ cs := by
  have htokens := tokenize_text hwritable.toSpelled htext
  constructor
  · rintro ⟨r, hr, heq⟩ cs hcs hmem
    obtain ⟨tokens, front, rest, htokens', hsplit, hread, -⟩ := parse_eq_ok_iff.mp hr
    rw [htokens] at htokens'
    cases htokens'
    simp only [Query.eq, Bool.and_eq_true, decide_eq_true_eq] at heq
    obtain ⟨⟨⟨⟨⟨⟨⟨hexplain, hcolumns⟩, -⟩, -⟩, -⟩, -⟩, -⟩, -⟩ := heq
    obtain ⟨hcols, -, -, -⟩ := hread
    rw [Query.tokens, hcs, hexplain, List.append_assoc] at hsplit
    have hselect := (List.cons.inj (List.append_cancel_left hsplit)).2
    rw [hcolumns, hcs] at hcols
    cases hcols with
    | columns _ hnames =>
      rw [List.append_eq, List.append_assoc] at hselect
      exact not_columnNames hmem hnames hselect
  · intro h
    exact ⟨q.read, parse_eq_ok_iff.mpr ⟨q.tokens, q.tokens, [], htokens, (List.append_nil _).symm,
      readable_tokens hwritable h, ends_nil _⟩, eq_read hwritable.toSpelled⟩

theorem isText_of_joined {q : Query} {literal text : String} (hne : q.words literal ≠ [])
    (h : text.toList = joined ((q.words literal).map String.toList)) : q.IsText u literal text := by
  rw [Query.IsText, h]
  exact spaced_joined (by simpa using hne)

end Texts

def closeAbove : Query :=
  ⟨false, .columns [.close], "AAPL", ⟨0, 10, some (.greater ⟨0x4062C80000000000⟩)⟩, some 5, none⟩

theorem parse_text_closeAbove :
    (∃ r, parse .ascii
        "SELECT close FROM AAPL WHERE timestamp BETWEEN 0 AND 10 AND price > 150.25 LIMIT 5" = .ok r ∧
      r.eq closeAbove = true) ↔ ∀ cs, closeAbove.columns = .columns cs → .timestamp ∉ cs := by
  have hdecimal : IsDecimal "150.25".toList :=
    .mk (Or.inl rfl) (List.cons_ne_nil '1' ['5', '0']) (by decide)
      (Or.inr ⟨['2', '5'], rfl, by decide⟩)
  refine parse_text_iff .ascii closeAbove "150.25" _ ⟨⟨by decide, by decide +kernel, ?_, ?_⟩,
    by decide, by decide⟩ (isText_of_joined (by decide) (by decide +kernel))
  · rintro p ⟨⟩
    exact ⟨hdecimal, by decide +kernel⟩
  · rintro n ⟨⟩
    decide

def timestampAndClose : Query :=
  ⟨false, .columns [.timestamp, .close], "AAPL", ⟨0, 10, none⟩, none, none⟩

/-- The first column is taken for the keyword. -/
theorem timestamp_column_rejected :
    timestampAndClose.Writable .ascii "" ∧
      timestampAndClose.IsText .ascii ""
        "SELECT timestamp close FROM AAPL WHERE timestamp BETWEEN 0 AND 10" ∧
      parse .ascii "SELECT timestamp close FROM AAPL WHERE timestamp BETWEEN 0 AND 10" =
        .error (.unexpectedToken 2 (.plain "column name") (.optional (some .timestamp))) := by
  refine ⟨⟨⟨by decide, by decide +kernel, ?_, ?_⟩, by decide, by decide⟩,
    isText_of_joined (by decide) (by decide +kernel), by decide +kernel⟩
  · rintro p ⟨⟩
  · rintro n ⟨⟩

end Graphite.Gql
