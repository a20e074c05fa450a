import Graphite.GqlPrinting

/-! The bounds of a query with any 64-bit integers. A bound of 10^15 or more is a number
but not an integer for the lexer, and the parser wants integers. -/

namespace Graphite.Gql
open Recognizer Lexer Graphite.Gql.Parser

variable {u : Unicode}

theorem between_not_mem_columnTokens (cols : SelectColumns) : .between ∉ columnTokens cols := by
  cases cols with
  | all => simp [columnTokens]
  | columns cols =>
    intro hmem
    obtain ⟨col, -, hcol⟩ := List.mem_map.mp hmem
    cases col <;> cases hcol

/-- What follows the first occurrence of a token. -/
theorem suffix_unique {α : Type} {a : α} {pre pre' t t' : List α} (hpre : a ∉ pre) (hpre' : a ∉ pre')
    (h : pre ++ a :: t = pre' ++ a :: t') : t = t' := by
  induction pre generalizing pre' with
  | nil =>
    cases pre' with
    | nil => exact (List.cons.inj h).2
    | cons x pre' => exact absurd ((List.cons.inj h).1 ▸ List.mem_cons_self) hpre'
  | cons x pre ih =>
    cases pre' with
    | nil => exact absurd ((List.cons.inj h).1 ▸ List.mem_cons_self) hpre
    | cons y pre' =>
      exact ih (fun ha => hpre (List.mem_cons_of_mem x ha))
        (fun ha => hpre' (List.mem_cons_of_mem y ha)) (List.cons.inj h).2

theorem lt_of_integerToken {n : Int} {k : Int64} (h : integerToken n = .integer k) :
    n.natAbs < 10 ^ 15 := by
  by_contra hnot
  rw [integerToken, if_neg hnot] at h
  cases h

/-- The parser finds the bounds exactly when both are below 10^15. -/
theorem parse_bounds_iff (u : Unicode) (q : Query) (literal text : String)
    (hspelled : q.Spelled u literal) (htext : q.IsText u literal text)
    (htimestamp : ∀ cs, q.columns = .columns cs → .timestamp ∉ cs) :
    (∃ r, parse u text = .ok r ∧ r.whereClause.t1 = q.whereClause.t1 ∧
      r.whereClause.t2 = q.whereClause.t2) ↔
    q.whereClause.t1.toInt.natAbs < 10 ^ 15 ∧ q.whereClause.t2.toInt.natAbs < 10 ^ 15 := by
  have htokens := tokenize_text hspelled htext
  constructor
  · rintro ⟨r, hr, -, -⟩
    obtain ⟨tokens, front, rest, htokens', hsplit, hread, -⟩ := parse_eq_ok_iff.mp hr
    rw [htokens] at htokens'
    cases htokens'
    obtain ⟨hcols, -, -, -⟩ := hread
    rename_i columns price limit group
    have hmem := not_mem_columns (a := .between) (by simp) (by simp) hcols
    have hmem' := between_not_mem_columnTokens q.columns
    have hsame : (((if q.explain then [.explain] else []) ++ .select :: (columnTokens q.columns ++
        [.from, .identifier q.symbol, .where, .timestamp])) ++ .between ::
          (integerToken q.whereClause.t1.toInt :: .and :: integerToken q.whereClause.t2.toInt ::
            (priceTokens q.whereClause.pricePredicate ++
              (limitTokens q.limit ++ groupTokens q.groupBy)))) =
        (((if r.explain then [.explain] else []) ++ .select :: (columns ++
          [.from, .identifier r.symbol, .where, .timestamp])) ++ .between ::
          (.integer r.whereClause.t1 :: .and :: .integer r.whereClause.t2 ::
            (price ++ (limit ++ group) ++ rest))) := by
      simpa [Query.tokens, List.append_assoc] using hsplit
    have htail := suffix_unique (by split_ifs <;> simp [hmem']) (by split_ifs <;> simp [hmem]) hsame
    obtain ⟨ht1, htail⟩ := List.cons.inj htail
    obtain ⟨ht2, -⟩ := List.cons.inj (List.cons.inj htail).2
    exact ⟨lt_of_integerToken ht1, lt_of_integerToken ht2⟩
  · rintro ⟨ht1, ht2⟩
    exact ⟨q.read, parse_eq_ok_iff.mpr ⟨q.tokens, q.tokens, [], htokens, (List.append_nil _).symm,
      readable_tokens ⟨hspelled, ht1, ht2⟩ htimestamp, ends_nil _⟩, rfl, rfl⟩

/-- Nanoseconds since the epoch, in 2023. -/
def lastNovember : Query := ⟨false, .all, "AAPL", ⟨0, 1700000000000000000, none⟩, none, none⟩

theorem parse_bounds_lastNovember :
    (∃ r, parse .ascii "SELECT * FROM AAPL WHERE timestamp BETWEEN 0 AND 1700000000000000000" =
        .ok r ∧ r.whereClause.t1 = 0 ∧ r.whereClause.t2 = 1700000000000000000) ↔
      (0 : Int64).toInt.natAbs < 10 ^ 15 ∧ (1700000000000000000 : Int64).toInt.natAbs < 10 ^ 15 := by
  refine parse_bounds_iff .ascii lastNovember "" _ ⟨by decide, by decide +kernel, ?_, ?_⟩
    (isText_of_joined (by decide) (by decide +kernel)) ?_
  · rintro p ⟨⟩
  · rintro n ⟨⟩
  · rintro cs ⟨⟩

theorem epoch_nanoseconds_rejected :
    parse .ascii "SELECT * FROM AAPL WHERE timestamp BETWEEN 0 AND 1700000000000000000" =
      .error (.unexpectedToken 10 (.plain "timestamp integer")
        (.optional (some (.number ⟨0x43B7979CFE362A00⟩)))) := by decide +kernel

end Graphite.Gql
