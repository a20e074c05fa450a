import Graphite.GqlLexer

/-! What one round of the lexer reads. Each token takes a character at least, so that the
rounds of the loop are enough, and an identifier is a word that is no keyword. -/

namespace Graphite.Gql.Lexer

theorem readWhile_append {p : Char → Bool} {body rest : List Char} (hbody : ∀ c ∈ body, p c = true)
    (hrest : ∀ c ∈ rest.head?, p c = false) (pos : Nat) :
    readWhile p ⟨body ++ rest, pos⟩ = (body, ⟨rest, pos + body.length⟩) := by
  have htake : rest.takeWhile p = [] := by
    cases rest with
    | nil => rfl
    | cons c rest => rw [List.takeWhile_cons, hrest c rfl]; rfl
  have hdrop : rest.dropWhile p = rest := by
    cases rest with
    | nil => rfl
    | cons c rest => rw [List.dropWhile_cons, hrest c rfl]; rfl
  rw [readWhile, List.takeWhile_append_of_pos hbody, List.dropWhile_append_of_pos hbody, htake,
    hdrop, List.append_nil]

theorem length_readWhile_le (p : Char → Bool) (l : Lexer) :
    (l.readWhile p).2.input.length ≤ l.input.length := List.length_dropWhile_le p l.input

theorem length_advance (l : Lexer) : l.advance.input.length = l.input.length - 1 :=
  List.length_tail

theorem length_readWhile_lt {p : Char → Bool} {l : Lexer} {c : Char} (hc : l.peek = some c)
    (hp : p c = true) : (l.readWhile p).2.input.length < l.input.length := by
  obtain ⟨input, pos⟩ := l
  cases input with
  | nil => cases hc
  | cons c' cs =>
    cases hc
    change ((c :: cs).dropWhile p).length < (c :: cs).length
    rw [List.dropWhile_cons, hp, if_pos rfl, List.length_cons]
    exact Nat.lt_succ_of_le (List.length_dropWhile_le p cs)

variable (u : Unicode)

theorem length_skipWhitespace_le (l : Lexer) :
    (l.skipWhitespace u).input.length ≤ l.input.length := length_readWhile_le _ l

theorem length_wordToken_lt {l l' : Lexer} {c : Char} {t : Token} (hc : l.peek = some c)
    (hword : isWordChar u c = true) (h : wordToken u l = .ok (t, l')) :
    l'.input.length < l.input.length := by
  have hlt := length_readWhile_lt hc hword
  rw [wordToken] at h
  dsimp only [readIdentifier] at h
  split_ifs at h with hgroup hby
  · cases h
    have hle := length_readWhile_le (isWordChar u)
      ((l.readWhile (isWordChar u)).2.skipWhitespace u)
    have hskip := length_skipWhitespace_le u (l.readWhile (isWordChar u)).2
    omega
  · split at h
    · cases h
      exact hlt
    · cases h
      exact hlt

theorem numberChars_ne_nil {c : Char} (hc : c.isDigit = true ∨ c = '-') (cs : List Char) :
    numberChars false true (c :: cs) ≠ [] := by
  unfold numberChars
  split_ifs with h1 h2 h3
  · exact List.cons_ne_nil _ _
  · exact List.cons_ne_nil _ _
  · exact List.cons_ne_nil _ _
  · exact absurd hc (not_or.mpr ⟨h1, fun h => h3 ⟨h, rfl⟩⟩)

theorem length_readNumber_lt {l l' : Lexer} {c : Char} {x : F64} (hc : l.peek = some c)
    (hnumber : c.isDigit = true ∨ c = '-') (h : readNumber l = .ok (x, l')) :
    l'.input.length < l.input.length := by
  obtain ⟨input, pos⟩ := l
  cases input with
  | nil => cases hc
  | cons c' cs =>
    cases hc
    have hpos := List.length_pos_iff.mpr (numberChars_ne_nil hnumber cs)
    rw [readNumber] at h
    dsimp only at h
    split at h
    · cases h
      rw [List.length_drop, List.length_cons]
      omega
    · cases h

theorem length_readToken_lt {l l' : Lexer} {c : Char} {t : Token} (hc : l.peek = some c)
    (h : readToken u c l = .ok (t, l')) : l'.input.length < l.input.length := by
  have hpos : 0 < l.input.length := by
    cases hinput : l.input with
    | nil =>
      rw [peek, hinput] at hc
      cases hc
    | cons => exact Nat.succ_pos _
  have hadvance := length_advance l
  have hcomparison : ∀ plain orEqual, (comparison plain orEqual l).2.input.length < l.input.length := by
    intro plain orEqual
    have htwice := length_advance l.advance
    rw [comparison]
    split_ifs
    · dsimp only
      omega
    · dsimp only
      omega
  rw [readToken] at h
  split_ifs at h with _ _ _ _ _ hword hnumber
  · cases h
    omega
  · have heq : _ = l' := congrArg Prod.snd (Except.ok.inj h)
    exact heq ▸ hcomparison _ _
  · have heq : _ = l' := congrArg Prod.snd (Except.ok.inj h)
    exact heq ▸ hcomparison _ _
  · cases h
    omega
  · cases h
    omega
  · refine length_wordToken_lt u hc ?_ h
    rw [isWordChar]
    simp only [Bool.or_eq_true, decide_eq_true_eq] at hword ⊢
    tauto
  · rw [Bool.or_eq_true, decide_eq_true_eq] at hnumber
    cases hread : readNumber l with
    | error e =>
      rw [hread] at h
      cases h
    | ok r =>
      rw [hread] at h
      cases h
      exact length_readNumber_lt hc hnumber hread

theorem length_nextToken_lt {l l' : Lexer} {t : Token} (h : nextToken u l = .ok (some (t, l'))) :
    l'.input.length < l.input.length := by
  have hskip := length_skipWhitespace_le u l
  rw [nextToken] at h
  split at h
  · cases h
  · rename_i c hc
    cases hread : readToken u c (l.skipWhitespace u) with
    | error e =>
      rw [hread] at h
      cases h
    | ok r =>
      rw [hread] at h
      cases h
      have hlt := length_readToken_lt u hc hread
      omega

/-- The rounds do not run out. -/
theorem tokenizeLoop_eq {m n : Nat} {l : Lexer} (hm : l.input.length < m) (hn : l.input.length < n) :
    tokenizeLoop u m l = tokenizeLoop u n l := by
  induction m generalizing n l with
  | zero => omega
  | succ m ih =>
    cases n with
    | zero => omega
    | succ n =>
      rw [tokenizeLoop, tokenizeLoop]
      cases hnext : nextToken u l with
      | error e => rfl
      | ok r =>
        cases r with
        | none => rfl
        | some r =>
          obtain ⟨t, l'⟩ := r
          have hlt := length_nextToken_lt u hnext
          change (do return t :: (← tokenizeLoop u m l')) = (do return t :: (← tokenizeLoop u n l'))
          rw [ih (n := n) (by omega) (by omega)]

theorem tokenize_eq (l : Lexer) : tokenize u l = (nextToken u l).bind fun
    | none => .ok []
    | some (t, l') => (tokenize u l').map (t :: ·) := by
  rw [tokenize, tokenizeLoop]
  cases hnext : nextToken u l with
  | error e => rfl
  | ok r =>
    cases r with
    | none => rfl
    | some r =>
      obtain ⟨t, l'⟩ := r
      have hlt := length_nextToken_lt u hnext
      change (do return t :: (← tokenizeLoop u l.input.length l')) = (tokenize u l').map (t :: ·)
      rw [tokenize, tokenizeLoop_eq u hlt (Nat.lt_succ_self _)]
      cases tokenizeLoop u (l'.input.length + 1) l' <;> rfl

variable {u}

/-- A word, as the lexer reads it: a letter or an underscore first. -/
def IsWord (u : Unicode) (w : List Char) : Prop :=
  w ≠ [] ∧ (∀ c ∈ w.head?, (u.isAlphabetic c || c = '_') = true) ∧ ∀ c ∈ w, isWordChar u c = true

/-- A word that becomes an identifier. -/
def IsName (u : Unicode) (s : String) : Prop :=
  IsWord u s.toList ∧ u.toUppercase s ≠ "GROUP" ∧ keywordToken u s = none

instance (w : List Char) : Decidable (IsWord u w) := inferInstanceAs (Decidable (_ ∧ _))

instance (s : String) : Decidable (IsName u s) := inferInstanceAs (Decidable (_ ∧ _))

theorem isWordChar_of_first {c : Char} (h : (u.isAlphabetic c || c = '_') = true) :
    isWordChar u c = true := by
  rw [isWordChar]
  simp only [Bool.or_eq_true, decide_eq_true_eq] at h ⊢
  tauto

theorem isName_of_readToken {l l' : Lexer} {c : Char} {s : String} (hc : l.peek = some c)
    (h : readToken u c l = .ok (.identifier s, l')) : IsName u s := by
  have hcomparison : ∀ plain orEqual, (∀ s, plain ≠ Token.identifier s) →
      (∀ s, orEqual ≠ Token.identifier s) → (comparison plain orEqual l).1 ≠ .identifier s := by
    intro plain orEqual hplain hequal
    rw [comparison]
    split_ifs
    · exact hequal s
    · exact hplain s
  rw [readToken] at h
  split_ifs at h with _ _ _ _ _ hword hnumber
  · cases h
  · have heq : _ = Token.identifier s := congrArg Prod.fst (Except.ok.inj h)
    exact absurd heq (hcomparison _ _ (fun _ => Token.noConfusion) (fun _ => Token.noConfusion))
  · have heq : _ = Token.identifier s := congrArg Prod.fst (Except.ok.inj h)
    exact absurd heq (hcomparison _ _ (fun _ => Token.noConfusion) (fun _ => Token.noConfusion))
  · cases h
  · cases h
  · obtain ⟨input, pos⟩ := l
    cases input with
    | nil => cases hc
    | cons c' cs =>
      cases hc
      have hread : ((c :: cs).takeWhile (isWordChar u)) = c :: cs.takeWhile (isWordChar u) := by
        rw [List.takeWhile_cons, isWordChar_of_first hword, if_pos rfl]
      rw [wordToken] at h
      dsimp only [readIdentifier] at h
      split_ifs at h with hgroup hby
      · cases h
      split at h
      · rename_i token hkeyword
        have heq : token = Token.identifier s := congrArg Prod.fst (Except.ok.inj h)
        rw [heq] at hkeyword
        unfold keywordToken keyword at hkeyword
        split at hkeyword <;> cases hkeyword
      · rename_i hkeyword
        cases h
        refine ⟨⟨?_, ?_, ?_⟩, hgroup, hkeyword⟩
        · rw [String.toList_ofList]
          change (c :: cs).takeWhile _ ≠ []
          rw [hread]
          exact List.cons_ne_nil _ _
        · rw [String.toList_ofList]
          change ∀ x ∈ ((c :: cs).takeWhile (isWordChar u)).head?, _
          rw [hread]
          rintro x ⟨⟩
          exact hword
        · rw [String.toList_ofList]
          exact fun x hx => List.mem_takeWhile_imp hx
  · cases hread : readNumber l with
    | error e =>
      rw [hread] at h
      cases h
    | ok r =>
      rw [hread] at h
      have heq : numberToken r.1 = Token.identifier s := congrArg Prod.fst (Except.ok.inj h)
      rw [numberToken] at heq
      split_ifs at heq

/-- Every identifier among the tokens is a name. -/
theorem isName_of_tokenize {l : Lexer} {tokens : List Token} (h : tokenize u l = .ok tokens)
    {s : String} (hs : .identifier s ∈ tokens) : IsName u s := by
  generalize hn : l.input.length = n
  induction n using Nat.strong_induction_on generalizing l tokens with
  | _ n ih =>
    rw [tokenize_eq] at h
    cases hnext : nextToken u l with
    | error e =>
      rw [hnext] at h
      cases h
    | ok r =>
      rw [hnext] at h
      cases r with
      | none =>
        cases h
        cases hs
      | some r =>
        obtain ⟨t, l'⟩ := r
        have hlt := length_nextToken_lt u hnext
        cases hrest : tokenize u l' with
        | error e =>
          change (tokenize u l').map (t :: ·) = _ at h
          rw [hrest] at h
          cases h
        | ok rest =>
          change (tokenize u l').map (t :: ·) = _ at h
          rw [hrest] at h
          cases h
          rcases List.mem_cons.mp hs with rfl | hs
          · rw [nextToken] at hnext
            split at hnext
            · cases hnext
            · rename_i c hc
              cases hread : readToken u c (l.skipWhitespace u) with
              | error e =>
                rw [hread] at hnext
                cases hnext
              | ok r =>
                rw [hread] at hnext
                cases hnext
                exact isName_of_readToken hc hread
          · exact ih _ (hn ▸ hlt) hrest hs rfl

end Graphite.Gql.Lexer
