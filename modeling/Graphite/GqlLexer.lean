import Mathlib
import Graphite.F64Text

/-! The lexer of the query language. A lexer has the characters that are still to be read
and their position; the character tables are those of the standard library, of which only
the part for ASCII is fixed here. -/

namespace Graphite

/-- `char::is_alphabetic` and the other tables of `char` and `str`. -/
structure Unicode where
  isAlphabetic : Char → Bool
  isNumeric : Char → Bool
  isWhitespace : Char → Bool
  toUppercase : String → String
  toLowercase : String → String
  alphabetic_ascii : ∀ c : Char, c.toNat < 128 → isAlphabetic c = c.isAlpha
  numeric_ascii : ∀ c : Char, c.toNat < 128 → isNumeric c = c.isDigit
  whitespace_ascii : ∀ c : Char, c.toNat < 128 →
    isWhitespace c = decide (c = ' ' ∨ 9 ≤ c.toNat ∧ c.toNat ≤ 13)
  whitespace_apart : ∀ c, isWhitespace c = true → isAlphabetic c = false ∧ isNumeric c = false
  uppercase_ascii : ∀ s : String, (∀ c ∈ s.toList, c.toNat < 128) →
    toUppercase s = String.ofList (s.toList.map Char.toUpper)
  lowercase_ascii : ∀ s : String, (∀ c ∈ s.toList, c.toNat < 128) →
    toLowercase s = String.ofList (s.toList.map Char.toLower)

/-- Tables without letters beyond ASCII. -/
def Unicode.ascii : Unicode where
  isAlphabetic c := c.isAlpha
  isNumeric c := c.isDigit
  isWhitespace c := decide (c = ' ' ∨ 9 ≤ c.toNat ∧ c.toNat ≤ 13)
  toUppercase s := String.ofList (s.toList.map Char.toUpper)
  toLowercase s := String.ofList (s.toList.map Char.toLower)
  alphabetic_ascii _ _ := rfl
  numeric_ascii _ _ := rfl
  whitespace_ascii _ _ := rfl
  whitespace_apart c h := by
    rw [decide_eq_true_eq] at h
    rcases h with rfl | h
    · decide
    · simp only [Char.isAlpha, Char.isUpper, Char.isLower, Char.isDigit, UInt32.le_iff_toNat_le]
      have hnat : c.val.toNat = c.toNat := rfl
      simp
      omega
  uppercase_ascii _ _ := rfl
  lowercase_ascii _ _ := rfl

namespace Gql

/-- A statement about the characters of a list is decided on those, not on all characters. -/
instance decidableForallChars (p : Char → Prop) [DecidablePred p] (cs : List Char) :
    Decidable (∀ c ∈ cs, p c) := List.decidableBAll p cs

instance decidableForallFirst (p : Char → Prop) [DecidablePred p] (o : Option Char) :
    Decidable (∀ c ∈ o, p c) := Option.decidableForallMem o

inductive Token where
  | explain
  | select
  | «from»
  | «where»
  | timestamp
  | between
  | and
  | price
  | greater
  | less
  | greaterEq
  | lessEq
  | equal
  | limit
  | groupBy
  | aggregate
  | star
  | identifier (s : String)
  | number (x : F64)
  | integer (n : Int64)
  | colon
  | sec1
  | min1
  | hour1
  | ohlcv
  | sum
  | count
  | vwap
  deriving DecidableEq, Repr

/-- A text of an error; where the source prints a value with `{:?}`, the value. -/
inductive Text where
  | plain (s : String)
  | token (t : Token)
  | optional (t : Option Token)
  deriving DecidableEq, Repr

inductive ParseError where
  | unexpectedToken (pos : Nat) (expected got : Text)
  | message (pos : Nat) (message : String)
  | unexpectedEof (pos : Nat) (expected : Text)
  deriving DecidableEq, Repr

/-- The characters from `pos` on. -/
structure Lexer where
  input : List Char
  pos : Nat
  deriving DecidableEq, Repr

namespace Lexer

def new (input : String) : Lexer := ⟨input.toList, 0⟩

def peek (l : Lexer) : Option Char := l.input.head?

/-- A loop that reads as long as the characters are of a kind. -/
def readWhile (p : Char → Bool) (l : Lexer) : List Char × Lexer :=
  (l.input.takeWhile p, ⟨l.input.dropWhile p, l.pos + (l.input.takeWhile p).length⟩)

def advance (l : Lexer) : Lexer := ⟨l.input.tail, l.pos + (l.input.take 1).length⟩

variable (u : Unicode)

def skipWhitespace (l : Lexer) : Lexer := (l.readWhile u.isWhitespace).2

/-- `c.is_alphanumeric() || c == '_'` -/
def isWordChar (c : Char) : Bool := u.isAlphabetic c || u.isNumeric c || c = '_'

def readIdentifier (l : Lexer) : String × Lexer :=
  (String.ofList (l.readWhile (isWordChar u)).1, (l.readWhile (isWordChar u)).2)

/-- The loop of `read_number`: a sign in front, digits, and one point. -/
def numberChars : (hasDot isEmpty : Bool) → List Char → List Char
  | _, _, [] => []
  | hasDot, isEmpty, c :: cs =>
    if c.isDigit then c :: numberChars hasDot false cs
    else if c = '.' ∧ hasDot = false then c :: numberChars true false cs
    else if c = '-' ∧ isEmpty = true then c :: numberChars hasDot false cs
    else []

def readNumber (l : Lexer) : Except ParseError (F64 × Lexer) :=
  let s := numberChars false true l.input
  let after : Lexer := ⟨l.input.drop s.length, l.pos + s.length⟩
  match F64.fromStr s with
  | some x => .ok (x, after)
  | none => .error (.message after.pos ("invalid number: " ++ String.ofList s))

/-- `GROUP` and `BY` are handled by the caller. -/
def keyword : String → Option Token
  | "EXPLAIN" => some .explain
  | "SELECT" => some .select
  | "FROM" => some .from
  | "WHERE" => some .where
  | "TIMESTAMP" => some .timestamp
  | "BETWEEN" => some .between
  | "AND" => some .and
  | "PRICE" => some .price
  | "LIMIT" => some .limit
  | "GROUP" => none
  | "BY" => none
  | "AGGREGATE" => some .aggregate
  | "OHLCV" => some .ohlcv
  | "SUM" => some .sum
  | "COUNT" => some .count
  | "VWAP" => some .vwap
  | "1S" => some .sec1
  | "1M" => some .min1
  | "1H" => some .hour1
  | _ => none

def keywordToken (word : String) : Option Token := keyword (u.toUppercase word)

/-- The token of a word; after `GROUP` there has to be `BY`. -/
def wordToken (l : Lexer) : Except ParseError (Token × Lexer) :=
  let (word, l) := readIdentifier u l
  if u.toUppercase word = "GROUP" then
    let (by_, l) := readIdentifier u (l.skipWhitespace u)
    if u.toUppercase by_ ≠ "BY" then .error (.message l.pos "expected BY after GROUP")
    else .ok (.groupBy, l)
  else match keywordToken u word with
    | some token => .ok (token, l)
    | none => .ok (.identifier word, l)

/-- `num.fract() == 0.0 && num.abs() < 1e15` -/
def numberToken (x : F64) : Token :=
  if F64.eq x.fract F64.zero && F64.lt x.abs F64.tenTo15 then .integer x.toI64 else .number x

/-- `>` or `<`, and the same with `=` behind it. -/
def comparison (plain orEqual : Token) (l : Lexer) : Token × Lexer :=
  if l.advance.peek = some '=' then (orEqual, l.advance.advance) else (plain, l.advance)

/-- The token that begins with the character under the cursor. -/
def readToken (c : Char) (l : Lexer) : Except ParseError (Token × Lexer) :=
  if c = '*' then .ok (.star, l.advance)
  else if c = '>' then .ok (comparison .greater .greaterEq l)
  else if c = '<' then .ok (comparison .less .lessEq l)
  else if c = '=' then .ok (.equal, l.advance)
  else if c = ':' then .ok (.colon, l.advance)
  else if u.isAlphabetic c || c = '_' then wordToken u l
  else if c.isDigit || c = '-' then
    (readNumber l).map fun r => (numberToken r.1, r.2)
  else .error (.unexpectedToken l.pos (.plain "valid token") (.plain (String.singleton c)))

/-- `next_token`; at the end of the input there is none. -/
def nextToken (l : Lexer) : Except ParseError (Option (Token × Lexer)) :=
  match (l.skipWhitespace u).peek with
  | none => .ok none
  | some c => (readToken u c (l.skipWhitespace u)).map some

/-- The loop of `tokenize`; each round takes a character at least. -/
def tokenizeLoop : (rounds : Nat) → Lexer → Except ParseError (List Token)
  | 0, _ => .ok []
  | rounds + 1, l => do
    match ← nextToken u l with
    | none => return []
    | some (token, l) => return token :: (← tokenizeLoop rounds l)

def tokenize (l : Lexer) : Except ParseError (List Token) := tokenizeLoop u (l.input.length + 1) l

end Lexer

end Gql

end Graphite
