import Graphite.GqlExecutor
import Graphite.GqlPrinting

/-! The text that a range query is turned into. The symbol stands in it as it is, so that
only a name comes out of the parser as the symbol that went in. -/

namespace Graphite.Gql
open Recognizer Lexer Graphite.Gql.Parser

variable {u : Unicode}

/-- What `query_range` is meant to ask. -/
def rangeQuery (symbol : String) (t1 t2 : Int64) : Query :=
  ⟨false, .all, symbol, ⟨t1, t2, none⟩, none, none⟩

/-- The rows of a scan. -/
def scanRows (env : Env) (symbol : String) (t1 t2 : Int64) : LsmOp QueryResult := do
  let ticks ← LsmTree.scan env (some symbol) t1 t2
  return ⟨ticks.map (Executor.tickToRow symbol), none⟩

theorem execute_rangeQuery (avx2 : Bool) (env : Env) (symbol : String) (t1 t2 : Int64) :
    Executor.execute avx2 env (rangeQuery symbol t1 t2) = scanRows env symbol t1 t2 := rfl

theorem rangeText_isText (symbol : String) (t1 t2 : Int64) :
    (rangeQuery symbol t1 t2).IsText u "" (rangeText symbol t1 t2) := by
  have hselect : "SELECT * FROM ".toList =
      "SELECT".toList ++ [' '] ++ ("*".toList ++ [' '] ++ ("FROM".toList ++ [' '])) := by decide +kernel
  have hbetween : " WHERE timestamp BETWEEN ".toList = [' '] ++ ("WHERE".toList ++ [' '] ++
      ("timestamp".toList ++ [' '] ++ ("BETWEEN".toList ++ [' ']))) := by decide +kernel
  have hand : " AND ".toList = [' '] ++ ("AND".toList ++ [' ']) := by decide +kernel
  have hwords : (rangeQuery symbol t1 t2).words "" = ["SELECT", "*", "FROM", symbol, "WHERE",
      "timestamp", "BETWEEN", toString t1.toInt, "AND", toString t2.toInt] := by
    simp [Query.words, rangeQuery, columnWords, priceWords, limitWords, groupWords]
  refine isText_of_joined (by rw [hwords]; exact List.cons_ne_nil _ _) ?_
  rw [hwords]
  rw [List.map_cons, List.map_cons, List.map_cons, List.map_cons, List.map_cons, List.map_cons,
    List.map_cons, List.map_cons, List.map_cons, List.map_cons, List.map_nil]
  simp only [joined_cons, joined_one]
  unfold rangeText
  simp only [String.toList_append, hselect, hbetween, hand, List.append_assoc]

/-- A range query asks for its symbol exactly when the symbol is a name. -/
theorem query_range_iff (u : Unicode) (avx2 : Bool) (env : Env) (symbol : String) (t1 t2 : Int64)
    (ht1 : t1.toInt.natAbs < 10 ^ 15) (ht2 : t2.toInt.natAbs < 10 ^ 15) :
    (parse u (rangeText symbol t1 t2) = .ok (rangeQuery symbol t1 t2) ∧
      queryRange u avx2 env symbol t1 t2 = .ok (scanRows env symbol t1 t2)) ↔
    IsName u symbol := by
  constructor
  · rintro ⟨hparse, -⟩
    obtain ⟨tokens, front, rest, htokens, rfl, hread, -⟩ := parse_eq_ok_iff.mp hparse
    refine isName_of_tokenize htokens (List.mem_append_left _ ?_)
    obtain ⟨-, -, -, -⟩ := hread
    simp [rangeQuery]
  · intro hname
    have hspelled : (rangeQuery symbol t1 t2).Spelled u "" :=
      ⟨by simp [rangeQuery], hname, fun p h => (nomatch h), fun n h => (nomatch h)⟩
    have htokens := tokenize_text hspelled (rangeText_isText symbol t1 t2)
    have hread := readable_tokens (q := rangeQuery symbol t1 t2) ⟨hspelled, ht1, ht2⟩
      fun cs h => (nomatch h)
    have hparse : parse u (rangeText symbol t1 t2) = .ok (rangeQuery symbol t1 t2) :=
      parse_eq_ok_iff.mpr ⟨_, _, [], htokens, (List.append_nil _).symm, hread, ends_nil _⟩
    refine ⟨hparse, ?_⟩
    rw [queryRange, query, hparse, ← execute_rangeQuery avx2]
    rfl

theorem query_range_AAPL :
    (parse .ascii (rangeText "AAPL" 0 10) = .ok (rangeQuery "AAPL" 0 10) ∧
      queryRange .ascii true .calm "AAPL" 0 10 = .ok (scanRows .calm "AAPL" 0 10)) ↔
    IsName .ascii "AAPL" :=
  query_range_iff .ascii true .calm "AAPL" 0 10 (by decide) (by decide)

/-- A symbol with a point in it is rejected, and one behind a space is read without it. -/
theorem dotted_symbol_rejected :
    parse .ascii (rangeText "BRK.B" 0 10) =
        .error (.unexpectedToken 17 (.plain "valid token") (.plain ".")) ∧
      parse .ascii (rangeText " AAPL" 0 10) = .ok (rangeQuery "AAPL" 0 10) := by
  decide +kernel

end Graphite.Gql
