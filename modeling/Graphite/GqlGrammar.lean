import Graphite.GqlParser

/-! The grammar of the query language over tokens, and what the parser accepts: a query of
the grammar at the front of the tokens, with any integer for the limit, and behind it
whatever opens none of the clauses that may still come. -/

namespace Graphite.Gql
open Recognizer Graphite.Gql.Parser

/-- The names of columns, one token each. -/
def ColumnNames (u : Unicode) : List Column → List Token → Prop :=
  List.Forall₂ fun col t => ∃ name, t = .identifier name ∧ parseColumnName u name = some col

inductive ColumnTokens (u : Unicode) : SelectColumns → List Token → Prop
  | all : ColumnTokens u .all [.star]
  | columns {cols : List Column} {tokens : List Token} (hne : cols ≠ [])
    (h : ColumnNames u cols tokens) : ColumnTokens u (.columns cols) tokens

inductive NumberToken : F64 → Token → Prop
  | number (x : F64) : NumberToken x (.number x)
  | integer (n : Int64) : NumberToken (F64.ofI64 n) (.integer n)

/-- `AND price op x`, or nothing. -/
inductive PriceTokens : Option PricePredicate → List Token → Prop
  | none : PriceTokens none []
  | greater {x : F64} {t : Token} (h : NumberToken x t) :
    PriceTokens (some (.greater x)) [.and, .price, .greater, t]
  | less {x : F64} {t : Token} (h : NumberToken x t) :
    PriceTokens (some (.less x)) [.and, .price, .less, t]
  | greaterEq {x : F64} {t : Token} (h : NumberToken x t) :
    PriceTokens (some (.greaterEq x)) [.and, .price, .greaterEq, t]
  | lessEq {x : F64} {t : Token} (h : NumberToken x t) :
    PriceTokens (some (.lessEq x)) [.and, .price, .lessEq, t]
  | equal {x : F64} {t : Token} (h : NumberToken x t) :
    PriceTokens (some (.equal x)) [.and, .price, .equal, t]

/-- `LIMIT n` for the numbers that the rule allows, or nothing. -/
inductive LimitTokens (rule : Int64 → Prop) : Option UInt64 → List Token → Prop
  | none : LimitTokens rule none []
  | limit (n : Int64) (h : rule n) : LimitTokens rule (some n.toUInt64) [.limit, .integer n]

inductive IntervalTokens (u : Unicode) : Interval → List Token → Prop
  | sec1 : IntervalTokens u .sec1 [.sec1]
  | min1 : IntervalTokens u .min1 [.min1]
  | hour1 : IntervalTokens u .hour1 [.hour1]
  | suffix {suffix : String} {interval : Interval} (h : intervalSuffix u suffix = some interval) :
    IntervalTokens u interval [.integer 1, .identifier suffix]

def aggregateToken : AggregateFn → Token
  | .ohlcv => .ohlcv
  | .sum => .sum
  | .count => .count
  | .vwap => .vwap

/-- `GROUP BY :interval AGGREGATE fn`, or nothing. -/
inductive GroupTokens (u : Unicode) : Option GroupByClause → List Token → Prop
  | none : GroupTokens u none []
  | group {interval : Interval} (aggregate : AggregateFn) {tokens : List Token}
    (h : IntervalTokens u interval tokens) : GroupTokens u (some ⟨interval, aggregate⟩)
      (.groupBy :: .colon :: (tokens ++ [.aggregate, aggregateToken aggregate]))

/-- The tokens of a query, with a rule for the number of `LIMIT`. -/
inductive QueryTokens (u : Unicode) (rule : Int64 → Prop) : Query → List Token → Prop
  | query {q : Query} {columns price limit group : List Token}
    (hcolumns : ColumnTokens u q.columns columns)
    (hprice : PriceTokens q.whereClause.pricePredicate price)
    (hlimit : LimitTokens rule q.limit limit) (hgroup : GroupTokens u q.groupBy group) :
    QueryTokens u rule q ((if q.explain then [.explain] else []) ++ .select :: (columns ++
      .from :: .identifier q.symbol :: .where :: .timestamp :: .between ::
      .integer q.whereClause.t1 :: .and :: .integer q.whereClause.t2 :: (price ++ (limit ++ group))))

/-- Derivable from the grammar: the limit is a non-negative integer. -/
def Derivable (u : Unicode) : Query → List Token → Prop := QueryTokens u fun n => 0 ≤ n

/-- What the parser takes for a query. -/
def Readable (u : Unicode) : Query → List Token → Prop := QueryTokens u fun _ => True

/-- No clause that may still come behind the query begins here. -/
def Ends (q : Query) (rest : List Token) : Prop :=
  q.groupBy = none → rest.head? ≠ some .groupBy ∧ (q.limit = none → rest.head? ≠ some .limit ∧
    (q.whereClause.pricePredicate = none → rest.head? ≠ some .and))

section Parts
variable (u : Unicode)

theorem recognizes_expect (expected : Token) :
    Recognizes (expect expected) fun _ front _ => front = [expected] := by
  refine (recognizes_item _ _).congr fun a front rest => ?_
  constructor
  · rintro ⟨t, rfl, ht⟩
    split_ifs at ht with heq
    rw [heq]
  · rintro rfl
    exact ⟨expected, rfl, if_pos rfl⟩

/-- A fixed token in front of a part. -/
theorem recognizes_expect_bind (expected : Token) {β : Type} {x : ParseM β}
    {clause : β → List Token → List Token → Prop} (hx : Recognizes x clause) :
    Recognizes (expect expected >>= fun _ => x) fun b front rest =>
      ∃ front', front = expected :: front' ∧ clause b front' rest := by
  refine (recognizes_bind (recognizes_expect expected) fun _ => hx).congr fun b front rest => ?_
  constructor
  · rintro ⟨-, _, front', rfl, rfl, h⟩
    exact ⟨front', rfl, h⟩
  · rintro ⟨front', rfl, h⟩
    exact ⟨(), [expected], front', rfl, rfl, h⟩

theorem recognizes_accept {α : Type} (expected : String) (value : Token → Option α) :
    Recognizes (accept expected value) fun a front _ => ∃ t, front = [t] ∧ value t = some a :=
  recognizes_item _ _

theorem recognizes_parseSymbol :
    Recognizes parseSymbol fun s front _ => front = [.identifier s] := by
  rw [parseSymbol]
  refine (recognizes_accept _ _).congr fun s front rest => ?_
  constructor
  · rintro ⟨t, rfl, ht⟩
    split at ht <;> cases ht
    rfl
  · rintro rfl
    exact ⟨.identifier s, rfl, rfl⟩

theorem recognizes_parseTimestamp :
    Recognizes parseTimestamp fun n front _ => front = [.integer n] := by
  rw [parseTimestamp]
  refine (recognizes_accept _ _).congr fun n front rest => ?_
  constructor
  · rintro ⟨t, rfl, ht⟩
    split at ht <;> cases ht
    rfl
  · rintro rfl
    exact ⟨.integer n, rfl, rfl⟩

theorem recognizes_parseNumber :
    Recognizes parseNumber fun x front _ => ∃ t, front = [t] ∧ NumberToken x t := by
  rw [parseNumber]
  refine (recognizes_accept _ _).congr fun x front rest => ?_
  constructor
  · rintro ⟨t, rfl, ht⟩
    split at ht <;> cases ht
    · exact ⟨_, rfl, .number _⟩
    · exact ⟨_, rfl, .integer _⟩
  · rintro ⟨t, rfl, ht⟩
    cases ht <;> exact ⟨_, rfl, rfl⟩

theorem recognizes_parseLimit :
    Recognizes parseLimit fun n front _ => ∃ k : Int64, front = [.integer k] ∧ n = k.toUInt64 := by
  rw [parseLimit]
  refine (recognizes_accept _ _).congr fun n front rest => ?_
  constructor
  · rintro ⟨t, rfl, ht⟩
    split at ht <;> cases ht
    exact ⟨_, rfl, rfl⟩
  · rintro ⟨k, rfl, rfl⟩
    exact ⟨.integer k, rfl, rfl⟩

theorem recognizes_parseAggregate :
    Recognizes parseAggregate fun f front _ => front = [aggregateToken f] := by
  rw [parseAggregate]
  refine (recognizes_accept _ _).congr fun f front rest => ?_
  constructor
  · rintro ⟨t, rfl, ht⟩
    split at ht <;> cases ht <;> rfl
  · rintro rfl
    cases f <;> exact ⟨_, rfl, rfl⟩

theorem recognizes_parsePredicate :
    Recognizes parsePredicate fun p front _ => PriceTokens (some p) (.and :: front) := by
  rw [parsePredicate, parseComparator]
  refine (recognizes_bind (recognizes_expect .price) fun _ =>
    recognizes_bind (recognizes_accept _ _) fun comparator =>
      recognizes_map recognizes_parseNumber comparator).congr fun p front rest => ?_
  constructor
  · rintro ⟨-, _, _, rfl, rfl, comparator, _, _, rfl, ⟨op, rfl, hop⟩, x, rfl, t, rfl, ht⟩
    split at hop <;> cases hop
    · exact .greater ht
    · exact .less ht
    · exact .greaterEq ht
    · exact .lessEq ht
    · exact .equal ht
  · intro h
    cases h <;> exact ⟨(), [.price], _, rfl, rfl, _, [_], _, rfl, ⟨_, rfl, rfl⟩, _, rfl, _, rfl, by assumption⟩

theorem recognizes_parseInterval :
    Recognizes (parseInterval u) fun i front _ => IntervalTokens u i front := by
  have hsuffix : Recognizes (parseSuffix u) fun i front _ =>
      ∃ suffix, front = [.identifier suffix] ∧ intervalSuffix u suffix = some i := by
    refine (recognizes_item _ _).congr fun i front rest => ?_
    constructor
    · rintro ⟨t, rfl, ht⟩
      split at ht
      · exact ⟨_, rfl, ht⟩
      · cases ht
    · rintro ⟨suffix, rfl, h⟩
      exact ⟨_, rfl, h⟩
  have hcontinue : ∀ o : Option Interval, Recognizes (o.elim (parseSuffix u) pure) fun i front _ => (o = some i ∧ front = []) ∨
        o = none ∧ ∃ suffix, front = [.identifier suffix] ∧ intervalSuffix u suffix = some i := by
    intro o
    cases o with
    | none => exact hsuffix.congr fun i front rest => by simp
    | some interval => exact (recognizes_pure interval).congr fun i front rest => by simp [eq_comm]
  have hparse : parseInterval u =
      (accept "interval (1s|1m|1h)" intervalToken >>= fun o => o.elim (parseSuffix u) pure) :=
    bind_congr fun o => by cases o <;> rfl
  rw [hparse]
  refine (recognizes_bind (recognizes_accept _ _) hcontinue).congr fun i front rest => ?_
  constructor
  · rintro ⟨o, _, _, rfl, ⟨t, rfl, ht⟩, ⟨rfl, rfl⟩ | ⟨rfl, suffix, rfl, h⟩⟩
    · unfold intervalToken at ht
      split at ht
      · cases ht
        exact .sec1
      · cases ht
        exact .min1
      · cases ht
        exact .hour1
      · split_ifs at ht
        cases ht
      · cases ht
    · unfold intervalToken at ht
      split at ht
      · cases ht
      · cases ht
      · cases ht
      · split_ifs at ht with hone
        rw [hone]
        exact .suffix h
      · cases ht
  · intro h
    cases h with
    | sec1 => exact ⟨_, [.sec1], [], rfl, ⟨_, rfl, rfl⟩, Or.inl ⟨rfl, rfl⟩⟩
    | min1 => exact ⟨_, [.min1], [], rfl, ⟨_, rfl, rfl⟩, Or.inl ⟨rfl, rfl⟩⟩
    | hour1 => exact ⟨_, [.hour1], [], rfl, ⟨_, rfl, rfl⟩, Or.inl ⟨rfl, rfl⟩⟩
    | suffix h => exact ⟨none, [.integer 1], _, rfl, ⟨_, rfl, rfl⟩, Or.inr ⟨rfl, _, rfl, h⟩⟩

theorem recognizes_parseGroupBy :
    Recognizes (parseGroupBy u) fun g front _ => GroupTokens u (some g) (.groupBy :: front) := by
  refine (recognizes_bind (recognizes_expect .colon) fun _ =>
    recognizes_bind (recognizes_parseInterval u) fun interval =>
      recognizes_bind (recognizes_expect .aggregate) fun _ =>
        recognizes_map recognizes_parseAggregate (GroupByClause.mk interval)).congr
          fun g front rest => ?_
  constructor
  · rintro ⟨-, _, _, rfl, rfl, interval, tokens, _, rfl, hinterval, -, _, _, rfl, rfl, f, rfl, rfl⟩
    exact .group f hinterval
  · intro h
    cases h with
    | group f hinterval =>
      exact ⟨(), [.colon], _, rfl, rfl, _, _, _, rfl, hinterval, (), [.aggregate], _, rfl, rfl, f,
        rfl, rfl⟩

theorem columnsLoop_eq_ok_iff (tokens : List Token) (pos : Nat) (cols : List Column)
    (c : Cursor Token) : columnsLoop u tokens pos = .ok (cols, c) ↔
      ∃ front rest, tokens = front ++ rest ∧
        (cols ≠ [] ∧ ColumnNames u cols front ∧ rest.head? = some .from) ∧
        c = ⟨rest, pos + front.length⟩ := by
  induction tokens generalizing pos cols c with
  | nil =>
    refine iff_of_false (fun h => nomatch h) ?_
    rintro ⟨front, rest, hnil, ⟨-, -, hhead⟩, -⟩
    rw [(List.append_eq_nil_iff.mp hnil.symm).2] at hhead
    cases hhead
  | cons t ts ih =>
    constructor
    · intro h
      unfold columnsLoop at h
      split at h
      · rename_i name
        split at h
        · rename_i col hcol
          split_ifs at h with hfrom
          · cases h
            exact ⟨[.identifier name], ts, rfl,
              ⟨List.cons_ne_nil _ _, .cons ⟨name, rfl, hcol⟩ .nil, hfrom⟩, rfl⟩
          · cases hloop : columnsLoop u ts (pos + 1) with
            | error e =>
              rw [hloop] at h
              cases h
            | ok r =>
              rw [hloop] at h
              cases h
              obtain ⟨front, rest, rfl, ⟨-, hnames, hhead⟩, hcursor⟩ := (ih _ _ _).mp hloop
              refine ⟨.identifier name :: front, rest, rfl,
                ⟨List.cons_ne_nil _ _, .cons ⟨name, rfl, hcol⟩ hnames, hhead⟩, ?_⟩
              rw [hcursor, List.length_cons, Nat.add_assoc, Nat.add_comm 1]
        · cases h
      · cases h
    · rintro ⟨front, rest, hcons, ⟨hne, hnames, hhead⟩, rfl⟩
      cases hnames with
      | nil => exact absurd rfl hne
      | @cons col t' cols front ht hnames =>
        obtain ⟨name, rfl, hcol⟩ := ht
        obtain ⟨rfl, rfl⟩ := List.cons.inj hcons
        unfold columnsLoop
        dsimp only
        rw [hcol]
        dsimp only
        cases hnames with
        | nil =>
          rw [if_pos (by exact hhead)]
          rfl
        | @cons col' t' cols front ht hnames =>
          have hnext : ((t' :: front).append rest).head? ≠ some .from := by
            obtain ⟨name', rfl, -⟩ := ht
            simp
          have hloop := (ih (pos + 1) (col' :: cols) _).mpr ⟨t' :: front, rest, rfl,
            ⟨List.cons_ne_nil _ _, .cons ht hnames, hhead⟩, rfl⟩
          rw [if_neg hnext]
          change Except.map _ (columnsLoop u ((t' :: front).append rest) (pos + 1)) = _
          rw [hloop]
          have hpos : pos + 1 + (t' :: front).length =
              pos + (Token.identifier name :: t' :: front).length := by
            simp only [List.length_cons]
            omega
          rw [← hpos]
          rfl

theorem recognizes_parseColumns : Recognizes (parseColumns u) fun cols front rest =>
    ColumnTokens u cols front ∧ (cols = .all ∨ rest.head? = some .from) := by
  have hloop : Recognizes (fun c : Cursor Token => columnsLoop u c.tokens c.pos)
      fun cols front rest => cols ≠ [] ∧ ColumnNames u cols front ∧ rest.head? = some .from :=
    fun tokens pos cols c => columnsLoop_eq_ok_iff u tokens pos cols c
  have hcontinue : ∀ o : Option Unit, Recognizes (o.elim
      (SelectColumns.columns <$> fun c : Cursor Token => columnsLoop u c.tokens c.pos)
      fun _ => pure SelectColumns.all)
      fun cols front rest => (o = some () ∧ cols = .all ∧ front = []) ∨ o = none ∧
        ∃ cs, cols = .columns cs ∧ cs ≠ [] ∧ ColumnNames u cs front ∧ rest.head? = some .from := by
    intro o
    cases o with
    | none => exact (recognizes_map hloop _).congr fun cols front rest => by simp
    | some star => exact (recognizes_pure _).congr fun cols front rest => by simp
  have hparse : parseColumns u = (optional .star (pure ()) >>= fun o => o.elim
      (SelectColumns.columns <$> fun c : Cursor Token => columnsLoop u c.tokens c.pos)
      fun _ => pure SelectColumns.all) :=
    bind_congr fun o => by cases o <;> rfl
  rw [hparse]
  refine (recognizes_bind (recognizes_optional .star (recognizes_pure ())) hcontinue).congr
    fun cols front rest => ?_
  constructor
  · rintro ⟨o, _, _, rfl, hstar, hcols⟩
    rcases hcols with ⟨rfl, rfl, rfl⟩ | ⟨rfl, cs, rfl, hne, hnames, hhead⟩
    · rcases hstar with ⟨-, _, -, rfl, -, rfl⟩ | ⟨ho, -, -⟩
      · exact ⟨.all, Or.inl rfl⟩
      · cases ho
    · rcases hstar with ⟨star, _, ho, -⟩ | ⟨-, rfl, -⟩
      · cases ho
      · exact ⟨.columns hne hnames, Or.inr hhead⟩
  · rintro ⟨h, hnext⟩
    cases h with
    | all =>
      exact ⟨some (), [.star], [], rfl, Or.inl ⟨(), [], rfl, rfl, rfl, rfl⟩,
        Or.inl ⟨rfl, rfl, rfl⟩⟩
    | @columns cols _ hne hnames =>
      refine ⟨none, [], front, rfl, Or.inr ⟨rfl, rfl, ?_⟩, Or.inr ⟨rfl, cols, rfl, hne, hnames,
        hnext.resolve_left (by simp)⟩⟩
      cases hnames with
      | nil => exact absurd rfl hne
      | cons ht _ =>
        obtain ⟨name, rfl, -⟩ := ht
        simp

theorem recognizes_timestamp_bind {β : Type} {f : Int64 → ParseM β}
    {clause : Int64 → β → List Token → List Token → Prop} (hf : ∀ n, Recognizes (f n) (clause n)) :
    Recognizes (parseTimestamp >>= f) fun b front rest =>
      ∃ n front', front = .integer n :: front' ∧ clause n b front' rest := by
  refine (recognizes_bind recognizes_parseTimestamp hf).congr fun b front rest => ?_
  constructor
  · rintro ⟨n, _, front', rfl, rfl, h⟩
    exact ⟨n, front', rfl, h⟩
  · rintro ⟨n, front', rfl, h⟩
    exact ⟨n, [.integer n], front', rfl, rfl, h⟩

/-- A clause that may be missing. -/
theorem recognizes_clause {α : Type} {opener : Token} {body : ParseM α}
    {clause : Option α → List Token → Prop}
    (h : Recognizes body fun a front _ => clause (some a) (opener :: front))
    (hnone : ∀ front, clause none front ↔ front = [])
    (hsome : ∀ a front, clause (some a) front → ∃ front', front = opener :: front') :
    Recognizes (optional opener body) fun o front rest =>
      clause o front ∧ (o = none → rest.head? ≠ some opener) := by
  refine (recognizes_optional opener h).congr fun o front rest => ?_
  constructor
  · rintro (⟨a, front', rfl, rfl, hclause⟩ | ⟨rfl, rfl, hhead⟩)
    · exact ⟨hclause, fun h => nomatch h⟩
    · exact ⟨(hnone _).mpr rfl, fun _ => hhead⟩
  · rintro ⟨hclause, hhead⟩
    cases o with
    | none => exact Or.inr ⟨rfl, (hnone _).mp hclause, hhead rfl⟩
    | some a =>
      obtain ⟨front', rfl⟩ := hsome a front hclause
      exact Or.inl ⟨a, front', rfl, rfl, hclause⟩

theorem recognizes_price : Recognizes (optional .and parsePredicate) fun o front rest =>
    PriceTokens o front ∧ (o = none → rest.head? ≠ some .and) := by
  refine recognizes_clause recognizes_parsePredicate (fun front => ?_) fun p front h => ?_
  · constructor
    · rintro ⟨⟩
      rfl
    · rintro rfl
      exact .none
  · cases h <;> exact ⟨_, rfl⟩

theorem recognizes_limit : Recognizes (optional .limit parseLimit) fun o front rest =>
    LimitTokens (fun _ => True) o front ∧ (o = none → rest.head? ≠ some .limit) := by
  have hbody : Recognizes parseLimit fun n front _ =>
      LimitTokens (fun _ => True) (some n) (.limit :: front) := by
    refine recognizes_parseLimit.congr fun n front rest => ?_
    constructor
    · rintro ⟨k, rfl, rfl⟩
      exact .limit k trivial
    · rintro ⟨⟩
      exact ⟨_, rfl, rfl⟩
  refine recognizes_clause hbody (fun front => ?_) fun n front h => ?_
  · constructor
    · rintro ⟨⟩
      rfl
    · rintro rfl
      exact .none
  · cases h
    exact ⟨_, rfl⟩

theorem recognizes_group : Recognizes (optional .groupBy (parseGroupBy u)) fun o front rest =>
    GroupTokens u o front ∧ (o = none → rest.head? ≠ some .groupBy) := by
  refine recognizes_clause (recognizes_parseGroupBy u) (fun front => ?_) fun g front h => ?_
  · constructor
    · rintro ⟨⟩
      rfl
    · rintro rfl
      exact .none
  · cases h
    exact ⟨_, rfl⟩

theorem recognizes_parseWhere : Recognizes parseWhere fun w front rest =>
    ∃ price, PriceTokens w.pricePredicate price ∧
      (w.pricePredicate = none → rest.head? ≠ some .and) ∧ front =
      .where :: .timestamp :: .between :: .integer w.t1 :: .and :: .integer w.t2 :: price := by
  have hbounds := recognizes_timestamp_bind fun t1 =>
    recognizes_expect_bind .and (recognizes_timestamp_bind fun t2 =>
      recognizes_map recognizes_price (WhereClause.mk t1 t2))
  have hwhere := recognizes_expect_bind .where
    (recognizes_expect_bind .timestamp (recognizes_expect_bind .between hbounds))
  refine Recognizes.congr (x := parseWhere) hwhere fun w front rest => ?_
  constructor
  · rintro ⟨_, rfl, _, rfl, _, rfl, t1, _, rfl, _, rfl, t2, price, rfl, o, rfl, hprice, hhead⟩
    exact ⟨price, hprice, hhead, rfl⟩
  · rintro ⟨price, hprice, hhead, rfl⟩
    exact ⟨_, rfl, _, rfl, _, rfl, _, _, rfl, _, rfl, _, price, rfl, _, rfl, hprice, hhead⟩

/-- The clauses behind the time range. -/
theorem recognizes_tail (explain : Option Unit) (columns : SelectColumns) (symbol : String)
    (w : WhereClause) : Recognizes (do
      let limit ← optional .limit parseLimit
      Query.mk explain.isSome columns symbol w limit <$> optional .groupBy (parseGroupBy u))
    fun q front rest => ∃ l limit g group, q = ⟨explain.isSome, columns, symbol, w, l, g⟩ ∧
      front = limit ++ group ∧
      (LimitTokens (fun _ => True) l limit ∧ (l = none → (group ++ rest).head? ≠ some .limit)) ∧
      GroupTokens u g group ∧ (g = none → rest.head? ≠ some .groupBy) := by
  refine (recognizes_bind recognizes_limit fun l => recognizes_map (recognizes_group u)
    (Query.mk explain.isSome columns symbol w l)).congr fun q front rest => ?_
  constructor
  · rintro ⟨l, limit, group, rfl, hlimit, g, rfl, hgroup⟩
    exact ⟨l, limit, g, group, rfl, rfl, hlimit, hgroup⟩
  · rintro ⟨l, limit, g, group, rfl, rfl, hlimit, hgroup⟩
    exact ⟨l, limit, group, rfl, hlimit, g, rfl, hgroup⟩

/-- The parser takes a query from the front of the tokens, as far as it goes. -/
theorem recognizes_parse : Recognizes (Parser.parse u) fun q front rest =>
    Readable u q front ∧ Ends q rest := by
  have htail := fun explain columns symbol =>
    recognizes_bind recognizes_parseWhere fun w => recognizes_tail u explain columns symbol w
  have hsymbol := fun explain columns =>
    recognizes_bind recognizes_parseSymbol fun symbol => htail explain columns symbol
  have hcolumns := fun explain => recognizes_bind (recognizes_parseColumns u) fun columns =>
    recognizes_expect_bind .from (hsymbol explain columns)
  have hparse := recognizes_bind (recognizes_optional .explain (recognizes_pure ())) fun explain =>
    recognizes_expect_bind .select (hcolumns explain)
  refine Recognizes.congr (x := Parser.parse u) hparse fun q front rest => ?_
  constructor
  · rintro ⟨explain, ex, _, rfl, hexplain, _, rfl, columns, cols, _, rfl, ⟨hcols, -⟩, _, rfl,
      symbol, _, _, rfl, rfl, w, _, _, rfl, ⟨price, hprice, hand, rfl⟩, l, limit, g, group, rfl, rfl,
      ⟨hlimit, hlim⟩, hgroup, hgrp⟩
    have hex : ex = if explain.isSome then [.explain] else [] := by
      rcases hexplain with ⟨-, _, rfl, rfl, -, rfl⟩ | ⟨rfl, rfl, -⟩
      · rfl
      · rfl
    subst hex
    refine ⟨.query (q := ⟨_, _, _, _, _, _⟩) hcols hprice hlimit hgroup, ?_⟩
    rintro rfl
    cases hgroup
    refine ⟨hgrp rfl, ?_⟩
    rintro rfl
    cases hlimit
    exact ⟨hlim rfl, hand⟩
  · rintro ⟨h, hends⟩
    obtain ⟨explain, columns, symbol, w, l, g⟩ := q
    cases h with
    | @query cols price limit group hcols hprice hlimit hgroup =>
      refine ⟨if explain then some () else none, if explain then [.explain] else [], _, rfl, ?_, _,
        rfl, columns, cols, _, rfl, ⟨hcols, Or.inr rfl⟩, _, rfl, symbol, [.identifier symbol], _, rfl,
        rfl, w, _, limit ++ group, ?_, ⟨price, hprice, ?_, rfl⟩, l, limit, g, group, ?_, rfl,
        ⟨hlimit, ?_⟩, hgroup, fun hg => (hends hg).1⟩
      · cases explain
        · exact Or.inr ⟨rfl, rfl, by simp⟩
        · exact Or.inl ⟨(), [], rfl, rfl, rfl, rfl⟩
      · simp
      · intro hnone
        cases hlimit with
        | none =>
          cases hgroup with
          | none => exact ((hends rfl).2 rfl).2 hnone
          | group => simp
        | limit => simp
      · cases explain <;> rfl
      · rintro rfl
        cases hgroup with
        | none => exact ((hends rfl).2 rfl).1
        | group => simp


end Parts

section Parse
variable {u : Unicode}

theorem parse_eq_ok_iff {input : String} {q : Query} : parse u input = .ok q ↔
    ∃ tokens front rest, (Lexer.new input).tokenize u = .ok tokens ∧ tokens = front ++ rest ∧
      Readable u q front ∧ Ends q rest := by
  have hbind : parse u input = .ok q ↔ ∃ tokens, (Lexer.new input).tokenize u = .ok tokens ∧
      ∃ c, Parser.parse u ⟨tokens, 0⟩ = .ok (q, c) := by
    rw [parse, bind_eq_ok]
    refine exists_congr fun tokens => and_congr_right fun _ => ?_
    rw [bind_eq_ok]
    constructor
    · rintro ⟨⟨q', c⟩, hread, h⟩
      cases h
      exact ⟨c, hread⟩
    · rintro ⟨c, hread⟩
      exact ⟨(q, c), hread, rfl⟩
  rw [hbind]
  constructor
  · rintro ⟨tokens, htokens, c, hread⟩
    obtain ⟨front, rest, heq, hq, -⟩ := (recognizes_parse u _ _ _ _).mp hread
    exact ⟨tokens, front, rest, htokens, heq, hq⟩
  · rintro ⟨tokens, front, rest, htokens, heq, hq⟩
    exact ⟨tokens, htokens, _, (recognizes_parse u _ _ _ _).mpr ⟨front, rest, heq, hq, rfl⟩⟩

theorem ends_nil (q : Query) : Ends q [] :=
  fun _ => ⟨by simp, fun _ => ⟨by simp, fun _ => by simp⟩⟩

/-- A token that does not occur in the first part. -/
theorem exists_suffix_of_not_mem {α : Type} {a : α} {s t pre tail : List α} (hpre : a ∉ pre)
    (h : s ++ a :: t = pre ++ tail) : ∃ s', s' ++ a :: t = tail := by
  induction pre generalizing s with
  | nil => exact ⟨s, h⟩
  | cons x pre ih =>
    cases s with
    | nil => exact absurd ((List.cons.inj h).1 ▸ List.mem_cons_self) hpre
    | cons y s => exact ih (fun ha => hpre (List.mem_cons_of_mem x ha)) (List.cons.inj h).2

theorem not_mem_names {a : Token} (ha : ∀ name, a ≠ .identifier name) {cols : List Column}
    {tokens : List Token} (h : ColumnNames u cols tokens) : a ∉ tokens := by
  induction h with
  | nil => exact List.not_mem_nil
  | cons ht _ ih =>
    obtain ⟨name, rfl, -⟩ := ht
    intro hmem
    rcases List.mem_cons.mp hmem with h | h
    · exact ha name h
    · exact ih h

theorem not_mem_columns {a : Token} (ha : ∀ name, a ≠ .identifier name) (hstar : a ≠ .star)
    {cols : SelectColumns} {tokens : List Token} (h : ColumnTokens u cols tokens) : a ∉ tokens := by
  cases h with
  | all => simpa using hstar
  | columns _ hnames => exact not_mem_names ha hnames

theorem limit_not_mem_price {o : Option PricePredicate} {tokens : List Token}
    (h : PriceTokens o tokens) : .limit ∉ tokens := by
  have hnumber : ∀ {x t}, NumberToken x t → Token.limit ≠ t := by
    intro x t ht
    cases ht <;> simp
  cases h with
  | none => exact List.not_mem_nil
  | greater ht => simp [hnumber ht]
  | less ht => simp [hnumber ht]
  | greaterEq ht => simp [hnumber ht]
  | lessEq ht => simp [hnumber ht]
  | equal ht => simp [hnumber ht]

theorem limit_not_mem_group {o : Option GroupByClause} {tokens : List Token}
    (h : GroupTokens u o tokens) : .limit ∉ tokens := by
  cases h with
  | none => simp
  | group f hinterval => cases hinterval <;> cases f <;> simp [aggregateToken]

/-- The only number behind a `LIMIT` is that of the clause. -/
theorem QueryTokens.rule_of_infix {rule : Int64 → Prop} {q : Query} {tokens : List Token}
    (h : QueryTokens u rule q tokens) {n : Int64} (hn : [.limit, .integer n] <:+: tokens) :
    rule n := by
  obtain ⟨s, t, hst⟩ := hn
  obtain ⟨explain, cols, symbol, w, l, g⟩ := q
  obtain ⟨hcolumns, hprice, hlimit, hgroup⟩ := h
  rename_i columns price limit group
  have hcols := not_mem_columns (a := .limit) (by simp) (by simp) hcolumns
  have hpred := limit_not_mem_price hprice
  have hgrp := limit_not_mem_group hgroup
  have hpre : .limit ∉ (if explain then [.explain] else []) ++ .select :: (columns ++
      .from :: .identifier symbol :: .where :: .timestamp :: .between ::
      .integer w.t1 :: .and :: .integer w.t2 :: price) := by
    split_ifs <;> simp [hcols, hpred]
  have hsplit : s ++ .limit :: .integer n :: t =
      ((if explain then [.explain] else []) ++ .select :: (columns ++
        .from :: .identifier symbol :: .where :: .timestamp :: .between ::
        .integer w.t1 :: .and :: .integer w.t2 :: price)) ++ (limit ++ group) := by
    simpa [List.append_assoc] using hst
  obtain ⟨s', hs'⟩ := exists_suffix_of_not_mem hpre hsplit
  cases hlimit with
  | none =>
    have hmem : Token.limit ∈ s' ++ .limit :: .integer n :: t := by simp
    rw [hs', List.nil_append] at hmem
    exact absurd hmem hgrp
  | limit k hk =>
    cases s' with
    | nil =>
      obtain ⟨-, hrest⟩ := List.cons.inj hs'
      obtain ⟨hnumber, -⟩ := List.cons.inj hrest
      cases hnumber
      exact hk
    | cons x s' =>
      have hmem : Token.limit ∈ s' ++ .limit :: .integer n :: t := by simp
      have hrest : s' ++ .limit :: .integer n :: t = .integer k :: group := (List.cons.inj hs').2
      rw [hrest] at hmem
      rcases List.mem_cons.mp hmem with h | h
      · cases h
      · exact absurd h hgrp

theorem Readable.derivable_iff {q : Query} {tokens : List Token} (h : Readable u q tokens) :
    Derivable u q tokens ↔ ∀ n : Int64, [.limit, .integer n] <:+: tokens → 0 ≤ n := by
  refine ⟨fun hd n hn => hd.rule_of_infix hn, fun hlimits => ?_⟩
  obtain ⟨explain, cols, symbol, w, l, g⟩ := q
  obtain ⟨hcolumns, hprice, hlimit, hgroup⟩ := h
  refine .query hcolumns hprice ?_ hgroup
  cases hlimit with
  | none => exact .none
  | @limit n _ =>
    rename_i columns price group _
    refine .limit n (hlimits n ⟨(if explain then [.explain] else []) ++ .select :: (columns ++
      .from :: .identifier symbol :: .where :: .timestamp :: .between ::
      .integer w.t1 :: .and :: .integer w.t2 :: price), group, ?_⟩)
    simp

theorem Derivable.readable {q : Query} {tokens : List Token} (h : Derivable u q tokens) :
    Readable u q tokens := by
  obtain ⟨explain, cols, symbol, w, l, g⟩ := q
  obtain ⟨hcolumns, hprice, hlimit, hgroup⟩ := h
  refine .query hcolumns hprice ?_ hgroup
  cases hlimit with
  | none => exact .none
  | limit n _ => exact .limit n trivial

/-- Behind a query stands nothing that the parser would leave, and its limit is not
negative. -/
def Complete (u : Unicode) (tokens : List Token) : Prop :=
  ∀ front rest q, tokens = front ++ rest → Readable u q front → Ends q rest →
    rest = [] ∧ ∀ n : Int64, [.limit, .integer n] <:+: front → 0 ≤ n

/-- The queries that the parser returns are derivable from all tokens exactly when the
tokens end with the query and the limit is not negative. -/
theorem parse_derivable_iff (u : Unicode) (input : String) :
    (∀ q, parse u input = .ok q →
      ∃ tokens, (Lexer.new input).tokenize u = .ok tokens ∧ Derivable u q tokens) ↔
    ∀ tokens, (Lexer.new input).tokenize u = .ok tokens → Complete u tokens := by
  constructor
  · intro h tokens htokens front rest q heq hread hends
    obtain ⟨tokens', htokens', hd⟩ := h q (parse_eq_ok_iff.mpr ⟨tokens, front, rest, htokens, heq,
      hread, hends⟩)
    rw [htokens] at htokens'
    cases htokens'
    obtain ⟨-, hfront, hrest⟩ := (recognizes_parse u).unique
      (heq.symm.trans (List.append_nil tokens).symm) ⟨hread, hends⟩ ⟨hd.readable, ends_nil q⟩
    rw [← hfront] at hd
    exact ⟨hrest, hread.derivable_iff.mp hd⟩
  · intro h q hq
    obtain ⟨tokens, front, rest, htokens, heq, hread, hends⟩ := parse_eq_ok_iff.mp hq
    obtain ⟨hrest, hlimits⟩ := h tokens htokens front rest q heq hread hends
    rw [hrest, List.append_nil] at heq
    exact ⟨tokens, htokens, heq ▸ hread.derivable_iff.mpr hlimits⟩

/-- Tokens that the parser leaves are in no derivation. -/
theorem not_derivable_of_left {tokens rest : List Token} {q : Query} {n : Nat}
    (h : Parser.parse u ⟨tokens, 0⟩ = .ok (q, ⟨rest, n⟩)) (hrest : rest ≠ []) :
    ¬ Derivable u q tokens := by
  intro hd
  have hall := (recognizes_parse u tokens 0 q _).mpr
    ⟨tokens, [], (List.append_nil _).symm, ⟨hd.readable, ends_nil q⟩, rfl⟩
  rw [h] at hall
  cases hall
  exact hrest rfl

/-- A limit behind the grouping, as in the documentation. -/
def limitBehindGroup : String :=
  "SELECT * FROM AAPL WHERE timestamp BETWEEN 0 AND 10 GROUP BY :1m AGGREGATE OHLCV LIMIT 1000"

theorem limit_behind_group_dropped :
    parse .ascii limitBehindGroup =
        .ok ⟨false, .all, "AAPL", ⟨0, 10, none⟩, none, some ⟨.min1, .ohlcv⟩⟩ ∧
      ∀ tokens, (Lexer.new limitBehindGroup).tokenize .ascii = .ok tokens →
        ¬ Derivable .ascii ⟨false, .all, "AAPL", ⟨0, 10, none⟩, none, some ⟨.min1, .ohlcv⟩⟩ tokens := by
  refine ⟨by decide +kernel, fun tokens htokens => ?_⟩
  have hlexed : (Lexer.new limitBehindGroup).tokenize .ascii = .ok
      [.select, .star, .from, .identifier "AAPL", .where, .timestamp, .between, .integer 0, .and,
        .integer 10, .groupBy, .colon, .integer 1, .identifier "m", .aggregate, .ohlcv, .limit,
        .integer 1000] := by decide +kernel
  rw [hlexed] at htokens
  cases htokens
  have hleft : Parser.parse .ascii ⟨[.select, .star, .from, .identifier "AAPL", .where, .timestamp,
      .between, .integer 0, .and, .integer 10, .groupBy, .colon, .integer 1, .identifier "m",
      .aggregate, .ohlcv, .limit, .integer 1000], 0⟩ =
      .ok (⟨false, .all, "AAPL", ⟨0, 10, none⟩, none, some ⟨.min1, .ohlcv⟩⟩,
        ⟨[.limit, .integer 1000], 16⟩) := by decide +kernel
  exact not_derivable_of_left hleft (List.cons_ne_nil _ _)

example : (parse .ascii "SELECT * FROM A WHERE timestamp BETWEEN 0 AND 1 LIMIT -5").toOption.map
    Query.limit = some (some 18446744073709551611) := by decide +kernel

end Parse

end Graphite.Gql
