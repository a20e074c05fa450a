import Graphite.GqlTokens

/-! The tokens of a text that is words with white space between them are the tokens of the
words, one after the other. -/

namespace Graphite.Gql.Lexer

variable {u : Unicode}

/-- White space that separates two words. -/
def IsGap (u : Unicode) (gap : List Char) : Prop :=
  gap ≠ [] ∧ ∀ c ∈ gap, u.isWhitespace c = true

/-- A text of these words with white space between them. -/
inductive Spaced (u : Unicode) : List (List Char) → List Char → Prop
  | one (word : List Char) : Spaced u [word] word
  | cons (word : List Char) {gap : List Char} {words : List (List Char)} {text : List Char}
    (hgap : IsGap u gap) (h : Spaced u words text) :
    Spaced u (word :: words) (word ++ gap ++ text)

/-- One space between two words. -/
def joined : List (List Char) → List Char
  | [] => []
  | [word] => word
  | word :: next :: words => word ++ [' '] ++ joined (next :: words)

theorem joined_one (word : List Char) : joined [word] = word := rfl

theorem joined_cons (word next : List Char) (words : List (List Char)) :
    joined (word :: next :: words) = word ++ [' '] ++ joined (next :: words) := rfl

/-- The text has these tokens wherever it is followed by white space or the end. -/
def Lexes (u : Unicode) (text : List Char) (tokens : List Token) : Prop :=
  ∀ rest pos, (∀ c ∈ rest.head?, u.isWhitespace c = true) →
    tokenize u ⟨text ++ rest, pos⟩ = (tokenize u ⟨rest, pos + text.length⟩).map (tokens ++ ·)

/-- Words and their tokens, one word after the other. -/
inductive LexesAll (u : Unicode) : List (List Char) → List Token → Prop
  | nil : LexesAll u [] []
  | cons {word : List Char} {words : List (List Char)} {ts tokens : List Token}
    (h : Lexes u word ts) (hs : LexesAll u words tokens) :
    LexesAll u (word :: words) (ts ++ tokens)

theorem LexesAll.append {words more : List (List Char)} {tokens moreTokens : List Token}
    (h : LexesAll u words tokens) (hmore : LexesAll u more moreTokens) :
    LexesAll u (words ++ more) (tokens ++ moreTokens) := by
  induction h with
  | nil => exact hmore
  | cons hword _ ih =>
    rw [List.cons_append, List.append_assoc]
    exact .cons hword ih

theorem tokenize_congr {l l' : Lexer} (h : nextToken u l = nextToken u l') :
    tokenize u l = tokenize u l' := by
  rw [tokenize_eq, tokenize_eq, h]

theorem tokenize_of_nextToken {l l' : Lexer} {t : Token} (h : nextToken u l = .ok (some (t, l'))) :
    tokenize u l = (tokenize u l').map (t :: ·) := by
  rw [tokenize_eq, h]
  rfl

theorem skipWhitespace_append {gap : List Char} (hgap : ∀ c ∈ gap, u.isWhitespace c = true)
    (cs : List Char) (pos : Nat) :
    skipWhitespace u ⟨gap ++ cs, pos⟩ = skipWhitespace u ⟨cs, pos + gap.length⟩ := by
  rw [skipWhitespace, skipWhitespace, readWhile, readWhile, List.takeWhile_append_of_pos hgap,
    List.dropWhile_append_of_pos hgap, List.length_append, Nat.add_assoc]

theorem tokenize_gap {gap : List Char} (hgap : ∀ c ∈ gap, u.isWhitespace c = true)
    (cs : List Char) (pos : Nat) :
    tokenize u ⟨gap ++ cs, pos⟩ = tokenize u ⟨cs, pos + gap.length⟩ := by
  refine tokenize_congr ?_
  rw [nextToken, nextToken, skipWhitespace_append hgap]

theorem skipWhitespace_of_head {c : Char} (hc : u.isWhitespace c = false) (cs : List Char)
    (pos : Nat) : skipWhitespace u ⟨c :: cs, pos⟩ = ⟨c :: cs, pos⟩ := by
  rw [skipWhitespace, readWhile, List.takeWhile_cons, List.dropWhile_cons, hc]
  rfl

theorem nextToken_of_head {c : Char} (hc : u.isWhitespace c = false) (cs : List Char) (pos : Nat) :
    nextToken u ⟨c :: cs, pos⟩ = (readToken u c ⟨c :: cs, pos⟩).map some := by
  rw [nextToken, skipWhitespace_of_head hc]
  rfl

theorem tokenize_end (pos : Nat) : tokenize u ⟨[], pos⟩ = .ok [] := by
  rw [tokenize_eq, nextToken]
  rfl

/-- A text of words has the tokens of the words. -/
theorem tokenize_of_spaced {words : List (List Char)} {text : List Char} (h : Spaced u words text)
    {tokens : List Token} (hlexes : LexesAll u words tokens) (pos : Nat) :
    tokenize u ⟨text, pos⟩ = .ok tokens := by
  induction h generalizing tokens pos with
  | one word =>
    cases hlexes with
    | cons hword hrest =>
      cases hrest
      have hend := hword [] pos (by simp)
      rw [List.append_nil, tokenize_end] at hend
      rw [hend]
      rfl
  | @cons word gap words text hgap _ ih =>
    cases hlexes with
    | cons hword hrest =>
      have hhead : ∀ c ∈ (gap ++ text).head?, u.isWhitespace c = true := by
        intro c hc
        obtain ⟨first, gap', hcons⟩ := List.exists_cons_of_ne_nil hgap.1
        rw [hcons] at hc
        cases hc
        exact hgap.2 c (hcons ▸ List.mem_cons_self)
      rw [List.append_assoc, hword _ pos hhead, tokenize_gap hgap.2, ih hrest]
      rfl

theorem isWordChar_of_ascii {c : Char} (h : c.toNat < 128) :
    isWordChar u c = (c.isAlphanum || c = '_') := by
  rw [isWordChar, u.alphabetic_ascii c h, u.numeric_ascii c h]
  rfl

theorem isWordChar_of_whitespace {c : Char} (h : u.isWhitespace c = true) :
    isWordChar u c = false := by
  obtain ⟨halpha, hnum⟩ := u.whitespace_apart c h
  have hne : c ≠ '_' := by
    rintro rfl
    rw [u.whitespace_ascii '_' (by decide)] at h
    exact absurd h (by decide)
  rw [isWordChar, halpha, hnum, decide_eq_false hne]
  rfl

theorem isWhitespace_of_wordChar {c : Char} (h : isWordChar u c = true) :
    u.isWhitespace c = false := by
  by_contra hspace
  rw [isWordChar_of_whitespace (Bool.not_eq_false _ ▸ hspace)] at h
  cases h

/-- The characters with a rule of their own begin no word. -/
theorem first_ne {c c' : Char} (h : (u.isAlphabetic c || c = '_') = true)
    (hc' : c'.toNat < 128 ∧ c'.isAlpha = false ∧ c' ≠ '_') : c ≠ c' := by
  rintro rfl
  rw [u.alphabetic_ascii c hc'.1, hc'.2.1, Bool.false_or, decide_eq_true_eq] at h
  exact hc'.2.2 h

theorem readToken_of_first {c : Char} (h : (u.isAlphabetic c || c = '_') = true) (l : Lexer) :
    readToken u c l = wordToken u l := by
  rw [readToken, if_neg (first_ne h (by decide)), if_neg (first_ne h (by decide)),
    if_neg (first_ne h (by decide)), if_neg (first_ne h (by decide)),
    if_neg (first_ne h (by decide)), if_pos h]

theorem nextToken_word {w : List Char} (hw : IsWord u w) (rest : List Char) (pos : Nat) :
    nextToken u ⟨w ++ rest, pos⟩ = (wordToken u ⟨w ++ rest, pos⟩).map some := by
  obtain ⟨c, cs, rfl⟩ := List.exists_cons_of_ne_nil hw.1
  have hfirst := hw.2.1 c rfl
  rw [List.cons_append, nextToken_of_head (isWhitespace_of_wordChar (isWordChar_of_first hfirst)),
    readToken_of_first hfirst]

theorem readIdentifier_word {w : List Char} (hw : IsWord u w) {rest : List Char}
    (hrest : ∀ c ∈ rest.head?, isWordChar u c = false) (pos : Nat) :
    readIdentifier u ⟨w ++ rest, pos⟩ = (String.ofList w, ⟨rest, pos + w.length⟩) := by
  rw [readIdentifier, readWhile_append hw.2.2 hrest]

/-- The token of a word that is not `GROUP`. -/
theorem tokenize_word {w : List Char} (hw : IsWord u w)
    (hgroup : u.toUppercase (String.ofList w) ≠ "GROUP") {rest : List Char}
    (hrest : ∀ c ∈ rest.head?, isWordChar u c = false) (pos : Nat) :
    tokenize u ⟨w ++ rest, pos⟩ = (tokenize u ⟨rest, pos + w.length⟩).map
      (((keywordToken u (String.ofList w)).getD (.identifier (String.ofList w))) :: ·) := by
  refine tokenize_of_nextToken ?_
  rw [nextToken_word hw, wordToken, readIdentifier_word hw hrest]
  dsimp only
  rw [if_neg hgroup]
  cases keywordToken u (String.ofList w) <;> rfl

theorem lexes_word {w : List Char} (hw : IsWord u w)
    (hgroup : u.toUppercase (String.ofList w) ≠ "GROUP") :
    Lexes u w [(keywordToken u (String.ofList w)).getD (.identifier (String.ofList w))] :=
  fun _ pos hrest => tokenize_word hw hgroup (fun c hc => isWordChar_of_whitespace (hrest c hc)) pos

theorem lexes_name {s : String} (hs : IsName u s) : Lexes u s.toList [.identifier s] := by
  have hword := lexes_word hs.1 (by rw [String.ofList_toList]; exact hs.2.1)
  rwa [String.ofList_toList, hs.2.2] at hword

/-- A word of ASCII letters, digits and underscores, with a keyword or none in capitals. -/
def IsAsciiWord (w : String) : Prop :=
  w.toList ≠ [] ∧ (∀ c ∈ w.toList.head?, (c.isAlpha || c = '_') = true) ∧
    ∀ c ∈ w.toList, c.toNat < 128 ∧ (c.isAlphanum || c = '_') = true

instance (w : String) : Decidable (IsAsciiWord w) := inferInstanceAs (Decidable (_ ∧ _))

theorem IsAsciiWord.isWord {w : String} (h : IsAsciiWord w) : IsWord u w.toList := by
  refine ⟨h.1, fun c hc => ?_, fun c hc => ?_⟩
  · rw [u.alphabetic_ascii c (h.2.2 c (List.mem_of_mem_head? hc)).1]
    exact h.2.1 c hc
  · rw [isWordChar_of_ascii (h.2.2 c hc).1]
    exact (h.2.2 c hc).2

theorem IsAsciiWord.toUppercase {w : String} (h : IsAsciiWord w) :
    u.toUppercase w = String.ofList (w.toList.map Char.toUpper) :=
  u.uppercase_ascii w fun c hc => (h.2.2 c hc).1

/-- What the lexer makes of an ASCII word can be computed. -/
theorem lexes_ascii {w : String} (h : IsAsciiWord w) {upper : String}
    (hupper : String.ofList (w.toList.map Char.toUpper) = upper) (hgroup : upper ≠ "GROUP") :
    Lexes u w.toList [(keyword upper).getD (.identifier w)] := by
  have hcaps : u.toUppercase (String.ofList w.toList) = upper := by
    rw [String.ofList_toList, h.toUppercase, hupper]
  have hword := lexes_word (u := u) h.isWord (by rw [hcaps]; exact hgroup)
  rwa [keywordToken, hcaps, String.ofList_toList] at hword

theorem tokenize_groupBy {rest : List Char} (hrest : ∀ c ∈ rest.head?, u.isWhitespace c = true)
    (pos : Nat) : tokenize u ⟨"GROUP BY".toList ++ rest, pos⟩ =
      (tokenize u ⟨rest, pos + "GROUP BY".toList.length⟩).map (.groupBy :: ·) := by
  have hgroup : IsAsciiWord "GROUP" := by decide
  have hby : IsAsciiWord "BY" := by decide
  have hspace : u.isWhitespace ' ' = true := u.whitespace_ascii ' ' (by decide)
  have hapart : ∀ c ∈ (' ' :: ("BY".toList ++ rest)).head?, isWordChar u c = false := by
    rintro c ⟨⟩
    exact isWordChar_of_whitespace hspace
  have hskip : skipWhitespace u ⟨' ' :: ("BY".toList ++ rest), pos + "GROUP".toList.length⟩ =
      ⟨"BY".toList ++ rest, pos + 6⟩ := by
    rw [← List.singleton_append, skipWhitespace_append (by simpa using hspace)]
    exact skipWhitespace_of_head (c := 'B')
      (isWhitespace_of_wordChar (hby.isWord.2.2 'B' (by decide))) ('Y' :: rest) _
  refine tokenize_of_nextToken ?_
  change nextToken u ⟨"GROUP".toList ++ ' ' :: ("BY".toList ++ rest), pos⟩ = _
  rw [nextToken_word hgroup.isWord, wordToken, readIdentifier_word hgroup.isWord hapart]
  dsimp only
  rw [if_pos (by rw [String.ofList_toList, hgroup.toUppercase]; decide), hskip,
    readIdentifier_word hby.isWord fun c hc => isWordChar_of_whitespace (hrest c hc)]
  dsimp only
  rw [if_neg (by rw [String.ofList_toList, hby.toUppercase]; decide)]
  rfl

/-- A plain decimal literal: a sign or none, digits, and a point with digits or none. -/
inductive IsDecimal : List Char → Prop
  | mk {sign whole places : List Char} (hsign : sign = [] ∨ sign = ['-']) (hwhole : whole ≠ [])
    (hdigits : ∀ c ∈ whole, c.isDigit = true)
    (hplaces : places = [] ∨ ∃ ds, places = '.' :: ds ∧ ∀ c ∈ ds, c.isDigit = true) :
    IsDecimal (sign ++ whole ++ places)

theorem numberChars_digits (hasDot : Bool) {digits : List Char}
    (h : ∀ c ∈ digits, c.isDigit = true) (rest : List Char) :
    numberChars hasDot false (digits ++ rest) = digits ++ numberChars hasDot false rest := by
  induction digits with
  | nil => rfl
  | cons c digits ih =>
    obtain ⟨hc, hdigits⟩ := List.forall_mem_cons.mp h
    rw [List.cons_append, numberChars, if_pos hc, ih hdigits, List.cons_append]

/-- Something that is no part of a number. -/
def EndsNumber (rest : List Char) : Prop := ∀ c ∈ rest.head?, c.isDigit = false ∧ c ≠ '.'

theorem numberChars_end (hasDot : Bool) {rest : List Char} (h : EndsNumber rest) :
    numberChars hasDot false rest = [] := by
  cases rest with
  | nil => rfl
  | cons c rest =>
    obtain ⟨hdigit, hdot⟩ := h c rfl
    rw [numberChars, hdigit, if_neg Bool.false_ne_true, if_neg (fun h => hdot h.1),
      if_neg (fun h => Bool.false_ne_true h.2)]

theorem numberChars_decimal {s rest : List Char} (hs : IsDecimal s) (h : EndsNumber rest) :
    numberChars false true (s ++ rest) = s := by
  obtain ⟨hsign, hwhole, hdigits, hplaces⟩ := hs
  rename_i sign whole places
  have hfraction : numberChars false false (places ++ rest) = places := by
    rcases hplaces with rfl | ⟨ds, rfl, hds⟩
    · exact numberChars_end false h
    · rw [List.cons_append, numberChars, if_neg (by decide), if_pos ⟨rfl, rfl⟩,
        numberChars_digits true hds, numberChars_end true h, List.append_nil]
  have hbody : ∀ isEmpty, numberChars false isEmpty (whole ++ (places ++ rest)) = whole ++ places := by
    intro isEmpty
    obtain ⟨c, cs, rfl⟩ := List.exists_cons_of_ne_nil hwhole
    obtain ⟨hc, hcs⟩ := List.forall_mem_cons.mp hdigits
    rw [List.cons_append, numberChars, if_pos hc, numberChars_digits false hcs, hfraction,
      List.cons_append]
  rw [List.append_assoc, List.append_assoc]
  rcases hsign with rfl | rfl
  · exact hbody true
  · rw [List.singleton_append, numberChars, if_neg (by decide),
      if_neg (by decide), if_pos ⟨rfl, rfl⟩, hbody false, List.append_assoc, List.singleton_append]

theorem IsDecimal.first {s : List Char} (hs : IsDecimal s) :
    ∃ c cs, s = c :: cs ∧ (c.isDigit = true ∨ c = '-') := by
  obtain ⟨hsign, hwhole, hdigits, -⟩ := hs
  rename_i sign whole places
  rcases hsign with rfl | rfl
  · obtain ⟨c, cs, rfl⟩ := List.exists_cons_of_ne_nil hwhole
    exact ⟨c, cs ++ places, rfl, Or.inl (hdigits c List.mem_cons_self)⟩
  · exact ⟨'-', whole ++ places, by simp, Or.inr rfl⟩

theorem toNat_of_number {c : Char} (h : c.isDigit = true ∨ c = '-') :
    c.toNat < 128 ∧ c.isAlpha = false ∧ c ≠ '_' ∧ u.isWhitespace c = false := by
  rcases h with h | rfl
  · have hrange : 48 ≤ c.toNat ∧ c.toNat ≤ 57 := by
      simpa [Char.isDigit, UInt32.le_iff_toNat_le] using h
    have hne : c ≠ ' ' ∧ c ≠ '_' := by
      constructor <;> (rintro rfl; revert hrange; decide)
    refine ⟨by omega, ?_, hne.2, ?_⟩
    · simp only [Char.isAlpha, Char.isUpper, Char.isLower, UInt32.le_iff_toNat_le]
      have hnat : c.val.toNat = c.toNat := rfl
      simp
      omega
    · rw [u.whitespace_ascii c (by omega), decide_eq_false]
      rintro (rfl | h)
      · exact hne.1 rfl
      · omega
  · refine ⟨by decide, by decide, by decide, ?_⟩
    rw [u.whitespace_ascii '-' (by decide)]
    decide

/-- The token of a literal in front of something that is no part of it. -/
theorem tokenize_number {s rest : List Char} (hs : IsDecimal s) {x : F64}
    (hx : F64.fromStr s = some x) (h : EndsNumber rest) (pos : Nat) :
    tokenize u ⟨s ++ rest, pos⟩ =
      (tokenize u ⟨rest, pos + s.length⟩).map (numberToken x :: ·) := by
  obtain ⟨c, cs, hcons, hc⟩ := hs.first
  obtain ⟨hascii, halpha, hne, hspace⟩ := toNat_of_number (u := u) hc
  have hother : ∀ c' : Char, c'.isDigit = false → c' ≠ '-' → c ≠ c' := by
    rintro c' hdigit hminus rfl
    exact hc.elim (fun h => Bool.false_ne_true (hdigit.symm.trans h)) hminus
  have hletter : (u.isAlphabetic c || c = '_') = false := by
    rw [u.alphabetic_ascii c hascii, halpha, decide_eq_false hne]
    rfl
  have hread : readNumber ⟨s ++ rest, pos⟩ = .ok (x, ⟨rest, pos + s.length⟩) := by
    rw [readNumber]
    dsimp only
    rw [numberChars_decimal hs h, hx, List.drop_left]
  refine tokenize_of_nextToken ?_
  rw [hcons, List.cons_append] at hread ⊢
  rw [nextToken_of_head hspace, readToken, if_neg (hother _ (by decide) (by decide)),
    if_neg (hother _ (by decide) (by decide)), if_neg (hother _ (by decide) (by decide)),
    if_neg (hother _ (by decide) (by decide)), if_neg (hother _ (by decide) (by decide)), hletter,
    if_neg Bool.false_ne_true, if_pos (by simpa using hc), hread]
  rfl

theorem endsNumber_of_whitespace {rest : List Char}
    (h : ∀ c ∈ rest.head?, u.isWhitespace c = true) : EndsNumber rest := by
  intro c hc
  have hspace := h c hc
  constructor
  · by_contra hdigit
    rw [(toNat_of_number (u := u) (Or.inl (Bool.not_eq_false _ ▸ hdigit))).2.2.2] at hspace
    cases hspace
  · rintro rfl
    rw [u.whitespace_ascii '.' (by decide)] at hspace
    exact absurd hspace (by decide)

theorem lexes_number {s : List Char} (hs : IsDecimal s) {x : F64} (hx : F64.fromStr s = some x) :
    Lexes u s [numberToken x] :=
  fun _ pos hrest => tokenize_number hs hx (endsNumber_of_whitespace hrest) pos

theorem isDecimal_toString (n : Int) : IsDecimal (toString n).toList := by
  have hdigits : ∀ c ∈ Nat.toDigits 10 n.natAbs, c.isDigit = true :=
    fun c hc => F64.isDigit_of_mem_toDigits hc
  rw [F64.toList_toString]
  split_ifs
  · have h := IsDecimal.mk (Or.inr rfl) Nat.toDigits_ne_nil hdigits (Or.inl rfl)
    rwa [List.append_nil] at h
  · have h := IsDecimal.mk (Or.inl rfl) Nat.toDigits_ne_nil hdigits (Or.inl rfl)
    rwa [List.append_nil] at h

/-- The token of a written integer; from 10^15 on it is not one of integers. -/
def integerToken (n : Int) : Token :=
  if n.natAbs < 10 ^ 15 then .integer (Int64.ofInt n)
  else .number (F64.ofExact (decide (n < 0)) (n * F64.one))

theorem numberToken_ofExact (n : Int) :
    numberToken (F64.ofExact (decide (n < 0)) (n * F64.one)) = integerToken n := by
  have hwhole := F64.isWhole_ofExact_iff (decide (n < 0)) n
  rw [numberToken, integerToken]
  split_ifs with hif hlt hlt
  · rw [F64.isWhole_iff] at hif
    have hcast : (Int64.ofInt n).toInt = n := Int64.toInt_ofInt_of_le (by omega) (by omega)
    rw [F64.toI64_of_toInt hif.not_isNan (n := Int64.ofInt n)
      (by rw [F64.toInt_ofExact_mul_one _ (by omega), hcast])]
  · rw [F64.isWhole_iff, hwhole] at hif
    exact absurd hif hlt
  · rw [F64.isWhole_iff, hwhole] at hif
    exact absurd hlt hif
  · rfl

theorem integerToken_of_lt {n : Int} (h : n.natAbs < 10 ^ 15) :
    integerToken n = .integer (Int64.ofInt n) := if_pos h

/-- An integer as `Display` writes it. -/
theorem lexes_integer (n : Int) : Lexes u (toString n).toList [integerToken n] := by
  rw [← numberToken_ofExact]
  exact lexes_number (isDecimal_toString n) (F64.fromStr_toString n)

theorem space_isWhitespace : u.isWhitespace ' ' = true := u.whitespace_ascii ' ' (by decide)

theorem spaced_joined {words : List (List Char)} (hne : words ≠ []) : Spaced u words (joined words) := by
  induction words with
  | nil => exact absurd rfl hne
  | cons word words ih =>
    cases words with
    | nil => exact .one word
    | cons next words =>
      have hgap : IsGap u [' '] := ⟨List.cons_ne_nil _ _, by simpa using space_isWhitespace⟩
      exact .cons word hgap (ih (List.cons_ne_nil _ _))

theorem lexes_groupBy : Lexes u "GROUP BY".toList [.groupBy] := fun _ pos hrest =>
  tokenize_groupBy hrest pos

theorem isWhitespace_eq_false {c : Char} (hascii : c.toNat < 128)
    (h : ¬ (c = ' ' ∨ 9 ≤ c.toNat ∧ c.toNat ≤ 13)) : u.isWhitespace c = false := by
  rw [u.whitespace_ascii c hascii]
  exact decide_eq_false h

theorem lexes_star : Lexes u "*".toList [.star] := by
  intro rest pos _
  rw [show "*".toList = ['*'] by decide]
  refine tokenize_of_nextToken ?_
  rw [List.singleton_append, nextToken_of_head (isWhitespace_eq_false (by decide) (by decide))]
  rfl

theorem lexes_equal : Lexes u "=".toList [.equal] := by
  intro rest pos _
  rw [show "=".toList = ['='] by decide]
  refine tokenize_of_nextToken ?_
  rw [List.singleton_append, nextToken_of_head (isWhitespace_eq_false (by decide) (by decide))]
  rfl

theorem comparison_plain (plain orEqual : Token) (c : Char) {rest : List Char}
    (hrest : ∀ c ∈ rest.head?, u.isWhitespace c = true) (pos : Nat) :
    comparison plain orEqual ⟨c :: rest, pos⟩ = (plain, ⟨rest, pos + 1⟩) := by
  have hne : rest.head? ≠ some '=' := by
    intro heq
    have hspace := hrest '=' heq
    rw [isWhitespace_eq_false (by decide) (by decide)] at hspace
    cases hspace
  rw [comparison, if_neg (by exact hne)]
  rfl

theorem lexes_greater : Lexes u ">".toList [.greater] := by
  intro rest pos hrest
  rw [show ">".toList = ['>'] by decide]
  refine tokenize_of_nextToken ?_
  rw [List.singleton_append, nextToken_of_head (isWhitespace_eq_false (by decide) (by decide))]
  change Except.map some (.ok (comparison .greater .greaterEq ⟨'>' :: rest, pos⟩)) = _
  rw [comparison_plain _ _ _ hrest]
  rfl

theorem lexes_less : Lexes u "<".toList [.less] := by
  intro rest pos hrest
  rw [show "<".toList = ['<'] by decide]
  refine tokenize_of_nextToken ?_
  rw [List.singleton_append, nextToken_of_head (isWhitespace_eq_false (by decide) (by decide))]
  change Except.map some (.ok (comparison .less .lessEq ⟨'<' :: rest, pos⟩)) = _
  rw [comparison_plain _ _ _ hrest]
  rfl

theorem lexes_greaterEq : Lexes u ">=".toList [.greaterEq] := by
  intro rest pos _
  rw [show ">=".toList = ['>', '='] by decide]
  refine tokenize_of_nextToken ?_
  rw [List.cons_append, nextToken_of_head (isWhitespace_eq_false (by decide) (by decide))]
  rfl

theorem lexes_lessEq : Lexes u "<=".toList [.lessEq] := by
  intro rest pos _
  rw [show "<=".toList = ['<', '='] by decide]
  refine tokenize_of_nextToken ?_
  rw [List.cons_append, nextToken_of_head (isWhitespace_eq_false (by decide) (by decide))]
  rfl

/-- The interval in a query is three tokens. -/
theorem lexes_interval (suffix : Char) (hword : IsAsciiWord (String.ofList [suffix]))
    (hkeyword : keyword (String.ofList [suffix.toUpper]) = none)
    (hgroup : String.ofList [suffix.toUpper] ≠ "GROUP") :
    Lexes u [':', '1', suffix] [.colon, .integer 1, .identifier (String.ofList [suffix])] := by
  intro rest pos hrest
  have hascii := hword.2.2 suffix (by simp)
  have hfirst := hword.2.1 suffix (by simp)
  have hupper : String.ofList ((String.ofList [suffix]).toList.map Char.toUpper) =
      String.ofList [suffix.toUpper] := by simp
  have hname := lexes_ascii (u := u) hword hupper hgroup
  rw [hkeyword] at hname
  have hends : EndsNumber ([suffix] ++ rest) := by
    rintro c ⟨⟩
    constructor
    · by_contra hdigit
      obtain ⟨-, halpha, hne, -⟩ := toNat_of_number (u := u) (Or.inl (Bool.not_eq_false _ ▸ hdigit))
      rw [halpha, Bool.false_or, decide_eq_true_eq] at hfirst
      exact hne hfirst
    · rintro rfl
      exact absurd hfirst (by decide)
  have hone : IsDecimal ['1'] := isDecimal_toString 1
  have hnumber := tokenize_number (u := u) hone (F64.fromStr_toString 1) hends (pos + 1)
  have htoken : numberToken (F64.ofExact (decide ((1 : Int) < 0)) (1 * F64.one)) = .integer 1 := by
    rw [numberToken_ofExact, integerToken_of_lt (by decide)]
    rfl
  rw [htoken] at hnumber
  have hcolon : nextToken u ⟨':' :: ('1' :: suffix :: rest), pos⟩ =
      .ok (some (.colon, ⟨'1' :: suffix :: rest, pos + 1⟩)) := by
    rw [nextToken_of_head (isWhitespace_eq_false (by decide) (by decide))]
    rfl
  have hsuffix := hname rest (pos + 1 + 1) hrest
  rw [String.toList_ofList] at hsuffix
  change tokenize u ⟨':' :: ('1' :: suffix :: rest), pos⟩ = _
  rw [tokenize_of_nextToken hcolon]
  change Except.map _ (tokenize u ⟨['1'] ++ ([suffix] ++ rest), pos + 1⟩) = _
  rw [hnumber, List.length_singleton, hsuffix]
  change _ = Except.map _ (tokenize u ⟨rest, pos + 3⟩)
  cases tokenize u ⟨rest, pos + 3⟩ <;> rfl

end Graphite.Gql.Lexer
