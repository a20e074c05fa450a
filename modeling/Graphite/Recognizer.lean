import Mathlib.Data.List.Basic

/-! Recursive descent over a list of tokens. What a parser accepts is told by a clause: the
value, the tokens it is read from, and the tokens behind them that the parser looks at. -/

namespace Recognizer

variable {τ ε α β : Type}

/-- The tokens still to be read, and the number of those behind. -/
structure Cursor (τ : Type) where
  tokens : List τ
  pos : Nat
  deriving DecidableEq, Repr

abbrev Parser (τ ε : Type) := StateT (Cursor τ) (Except ε)

/-- The next token if it has a value, else an error with the position behind it. -/
def item (value : τ → Option α) (err : Nat → Option τ → ε) : Parser τ ε α := fun c =>
  match c.tokens with
  | [] => .error (err c.pos none)
  | t :: ts =>
    match value t with
    | some a => .ok (a, ⟨ts, c.pos + 1⟩)
    | none => .error (err (c.pos + 1) (some t))

/-- A part that is there when its first token is. -/
def optional [DecidableEq τ] (opener : τ) (body : Parser τ ε α) : Parser τ ε (Option α) := fun c =>
  match c.tokens with
  | [] => .ok (none, c)
  | t :: ts =>
    if t = opener then (body ⟨ts, c.pos + 1⟩).map fun r => (some r.1, r.2) else .ok (none, c)

/-- The parser accepts exactly what the clause says. -/
def Recognizes (x : Parser τ ε α) (clause : α → List τ → List τ → Prop) : Prop :=
  ∀ tokens pos a c, x ⟨tokens, pos⟩ = .ok (a, c) ↔
    ∃ front rest, tokens = front ++ rest ∧ clause a front rest ∧ c = ⟨rest, pos + front.length⟩

theorem Recognizes.congr {x : Parser τ ε α} {clause clause' : α → List τ → List τ → Prop}
    (h : Recognizes x clause) (hiff : ∀ a front rest, clause a front rest ↔ clause' a front rest) :
    Recognizes x clause' := by
  intro tokens pos a c
  rw [h tokens pos a c]
  simp only [hiff]

theorem recognizes_pure (a : α) :
    Recognizes (pure a : Parser τ ε α) fun b front _ => b = a ∧ front = [] := by
  intro tokens pos b c
  constructor
  · intro h
    cases h
    exact ⟨[], tokens, rfl, ⟨rfl, rfl⟩, rfl⟩
  · rintro ⟨front, rest, rfl, ⟨rfl, rfl⟩, rfl⟩
    rfl

theorem recognizes_bind {x : Parser τ ε α} {f : α → Parser τ ε β}
    {first : α → List τ → List τ → Prop} {second : α → β → List τ → List τ → Prop}
    (hx : Recognizes x first) (hf : ∀ a, Recognizes (f a) (second a)) :
    Recognizes (x >>= f) fun b front rest => ∃ a front₁ front₂, front = front₁ ++ front₂ ∧
      first a front₁ (front₂ ++ rest) ∧ second a b front₂ rest := by
  intro tokens pos b c
  have hbind : (x >>= f) ⟨tokens, pos⟩ = .ok (b, c) ↔
      ∃ a c', x ⟨tokens, pos⟩ = .ok (a, c') ∧ f a c' = .ok (b, c) := by
    change (x ⟨tokens, pos⟩ >>= fun r => f r.1 r.2) = _ ↔ _
    cases hread : x ⟨tokens, pos⟩ with
    | error e => exact iff_of_false (fun h => nomatch h) (fun ⟨_, _, h, _⟩ => nomatch h)
    | ok r =>
      constructor
      · intro h
        exact ⟨r.1, r.2, rfl, h⟩
      · rintro ⟨a, c', h, hrest⟩
        cases h
        exact hrest
  rw [hbind]
  constructor
  · rintro ⟨a, c', hread, hrest⟩
    obtain ⟨front₁, rest₁, rfl, hfirst, rfl⟩ := (hx _ _ _ _).mp hread
    obtain ⟨front₂, rest, rfl, hsecond, rfl⟩ := (hf a _ _ _ _).mp hrest
    refine ⟨front₁ ++ front₂, rest, (List.append_assoc _ _ _).symm,
      ⟨a, front₁, front₂, rfl, hfirst, hsecond⟩, ?_⟩
    rw [List.length_append, Nat.add_assoc]
  · rintro ⟨front, rest, rfl, ⟨a, front₁, front₂, rfl, hfirst, hsecond⟩, rfl⟩
    refine ⟨a, ⟨front₂ ++ rest, pos + front₁.length⟩, ?_, ?_⟩
    · exact (hx _ _ _ _).mpr ⟨front₁, front₂ ++ rest, List.append_assoc _ _ _, hfirst, rfl⟩
    · refine (hf a _ _ _ _).mpr ⟨front₂, rest, rfl, hsecond, ?_⟩
      rw [List.length_append, Nat.add_assoc]

theorem recognizes_map {x : Parser τ ε α} {clause : α → List τ → List τ → Prop}
    (h : Recognizes x clause) (g : α → β) :
    Recognizes (g <$> x) fun b front rest => ∃ a, b = g a ∧ clause a front rest := by
  refine (recognizes_bind h fun a => recognizes_pure (g a)).congr fun b front rest => ?_
  constructor
  · rintro ⟨a, front₁, front₂, rfl, hclause, rfl, rfl⟩
    rw [List.append_nil]
    exact ⟨a, rfl, hclause⟩
  · rintro ⟨a, rfl, hclause⟩
    exact ⟨a, front, [], (List.append_nil _).symm, hclause, rfl, rfl⟩

theorem recognizes_item (value : τ → Option α) (err : Nat → Option τ → ε) :
    Recognizes (item value err) fun a front _ => ∃ t, front = [t] ∧ value t = some a := by
  intro tokens pos a c
  cases tokens with
  | nil =>
    refine iff_of_false (fun h => nomatch h) ?_
    rintro ⟨front, rest, hnil, ⟨t, rfl, -⟩, -⟩
    cases hnil
  | cons t ts =>
    rw [item]
    dsimp only
    constructor
    · intro h
      cases hvalue : value t with
      | none =>
        rw [hvalue] at h
        cases h
      | some b =>
        rw [hvalue] at h
        cases h
        exact ⟨[t], ts, rfl, ⟨t, rfl, hvalue⟩, rfl⟩
    · rintro ⟨front, rest, hcons, ⟨t', rfl, hvalue⟩, rfl⟩
      cases hcons
      rw [hvalue]
      rfl

theorem recognizes_optional [DecidableEq τ] (opener : τ) {body : Parser τ ε α}
    {clause : α → List τ → List τ → Prop} (h : Recognizes body clause) :
    Recognizes (optional opener body) fun o front rest =>
      (∃ a front', o = some a ∧ front = opener :: front' ∧ clause a front' rest) ∨
        o = none ∧ front = [] ∧ rest.head? ≠ some opener := by
  intro tokens pos o c
  cases tokens with
  | nil =>
    constructor
    · intro hok
      cases hok
      exact ⟨[], [], rfl, Or.inr ⟨rfl, rfl, by simp⟩, rfl⟩
    · rintro ⟨front, rest, hnil, hclause, rfl⟩
      obtain ⟨rfl, rfl⟩ := List.append_eq_nil_iff.mp hnil.symm
      rcases hclause with ⟨a, front', -, hcons, -⟩ | ⟨rfl, -, -⟩
      · cases hcons
      · rfl
  | cons t ts =>
    rw [optional]
    dsimp only
    by_cases ht : t = opener
    · subst ht
      rw [if_pos rfl]
      constructor
      · intro hok
        cases hbody : body ⟨ts, pos + 1⟩ with
        | error e =>
          rw [hbody] at hok
          cases hok
        | ok r =>
          rw [hbody] at hok
          cases hok
          obtain ⟨front, rest, rfl, hclause, hcursor⟩ := (h _ _ _ _).mp hbody
          refine ⟨t :: front, rest, rfl, Or.inl ⟨r.1, front, rfl, rfl, hclause⟩, ?_⟩
          rw [hcursor, List.length_cons, Nat.add_assoc, Nat.add_comm 1]
      · rintro ⟨front, rest, hcons, ⟨a, front', rfl, rfl, hclause⟩ | ⟨rfl, rfl, hhead⟩, rfl⟩
        · obtain rfl : ts = front' ++ rest := (List.cons.inj hcons).2
          rw [(h _ _ _ _).mpr ⟨front', rest, rfl, hclause, rfl⟩, List.length_cons, Nat.add_assoc,
            Nat.add_comm 1]
          rfl
        · rw [List.nil_append] at hcons
          rw [← hcons] at hhead
          exact absurd rfl hhead
    · rw [if_neg ht]
      constructor
      · intro hok
        cases hok
        exact ⟨[], t :: ts, rfl, Or.inr ⟨rfl, rfl, fun hhead => ht (Option.some_inj.mp hhead)⟩, rfl⟩
      · rintro ⟨front, rest, hcons, ⟨a, front', -, rfl, -⟩ | ⟨rfl, rfl, -⟩, rfl⟩
        · cases hcons
          exact absurd rfl ht
        · rw [List.nil_append] at hcons
          rw [hcons]
          rfl

/-- A parser reads one value from the tokens, and one number of them. -/
theorem Recognizes.unique {x : Parser τ ε α} {clause : α → List τ → List τ → Prop}
    (h : Recognizes x clause) {front rest front' rest' : List τ} {a a' : α}
    (heq : front ++ rest = front' ++ rest') (hclause : clause a front rest)
    (hclause' : clause a' front' rest') : a = a' ∧ front = front' ∧ rest = rest' := by
  have hread := (h _ 0 _ _).mpr ⟨front, rest, rfl, hclause, rfl⟩
  have hread' := (h _ 0 _ _).mpr ⟨front', rest', rfl, hclause', rfl⟩
  rw [heq, hread', Except.ok.injEq, Prod.mk.injEq, Cursor.mk.injEq] at hread
  obtain ⟨rfl, rfl, -⟩ := hread
  exact ⟨rfl, List.append_cancel_right heq, rfl⟩

end Recognizer
