import Recognizer.Grammar.Production

/-!
# Phrases of expressions

The grammar of expressions as a relation between the lexemes before a phrase and
those after it, given which names are known. `Reads known p k s t` says that a
phrase `p` can be read off the front of `s` and leaves `t`, and that its nesting
is `k`: expressions and template arguments count one each, and the phrases inside
another count as the deepest of them. Only a name looks at what follows it.
-/
namespace Recognizer

/-- The lexeme is the keyword. -/
def Lexeme.Is (x : Lexeme) (k : Keyword) : Prop := x.kind = .identifier ∧ x.text = k.bytes

instance (x : Lexeme) (k : Keyword) : Decidable (x.Is k) :=
  inferInstanceAs (Decidable (x.kind = .identifier ∧ x.text = k.bytes))

/-- A lexeme is one keyword at most. -/
theorem Lexeme.Is.not_is {x : Lexeme} {k l : Keyword} (h : x.Is k) (hkl : k.bytes ≠ l.bytes) :
    ¬ x.Is l := fun hl => hkl (h.2.symm.trans hl.2)

namespace Grammar

/-- The binary levels of precedence, loosest first. -/
inductive Level where
  | disjunction | conjunction | equality | relational | additive | multiplicative
  deriving DecidableEq, Repr

/-- The operators of a level. -/
def Level.operators : Level → List Kind
  | disjunction => [.doublePipe]
  | conjunction => [.doubleAmpersand]
  | equality => [.doubleEquals, .bangEquals]
  | relational => [.less, .greater, .lessEquals, .greaterEquals]
  | additive => [.plus, .minus]
  | multiplicative => [.star, .slash, .percent]

/-- What expressions are made of. -/
inductive Phrase where
  | expression
  /-- Operands of the next level with the operators of this one between them. -/
  | level (l : Level)
  | prefixed | postfixed | primary
  /-- What follows the opening parenthesis of a call. -/
  | arguments
  /-- What follows a known name and a `<`. -/
  | templateArguments
  | suffixes
  /-- Any number of phrases, each after a lexeme of one of the kinds. -/
  | chain (ks : List Kind) (p : Phrase)
  deriving DecidableEq, Repr

/-- The operands of a level. -/
def Level.operand : Level → Phrase
  | disjunction => .level conjunction
  | conjunction => .level equality
  | equality => .level relational
  | relational => .level additive
  | additive => .level multiplicative
  | multiplicative => .prefixed

/-- The phrases that begin an operand. -/
def Phrase.isOperand : Phrase → Bool
  | expression | level _ | prefixed | postfixed | primary => true
  | arguments | templateArguments | suffixes | chain _ _ => false

/-- The kinds that an operand begins with. -/
def operandStarts : List Kind := [.identifier, .integer, .real, .openParen, .minus, .bang]

/-- The phrases at the front of a list of lexemes, with their nesting and with the
lexemes they leave. -/
inductive Reads (known : Bytes → Bool) : Phrase → Nat → List Lexeme → List Lexeme → Prop where
  | expression {k s t} : Reads known (.level .disjunction) k s t →
      Reads known .expression (k + 1) s t
  | level {l j k s u t} : Reads known l.operand j s u →
      Reads known (.chain l.operators l.operand) k u t → Reads known (.level l) (max j k) s t
  | last {ks p s} : Reads known (.chain ks p) 0 s s
  | link {ks p j k x s u t} (hx : x.kind ∈ ks) : Reads known p j s u →
      Reads known (.chain ks p) k u t → Reads known (.chain ks p) (max j k) (x :: s) t
  /-- A prefix operator. -/
  | signed {k x s t} (hx : x.kind = .minus ∨ x.kind = .bang ∨ x.Is .const) :
      Reads known .postfixed k s t → Reads known .prefixed k (x :: s) t
  /-- At the start of an operand, `const` is the operator and never a name. -/
  | unsigned {k s t} (hs : ∀ x ∈ s.head?, ¬ x.Is .const) :
      Reads known .postfixed k s t → Reads known .prefixed k s t
  | postfixed {j k s u t} : Reads known .primary j s u → Reads known .suffixes k u t →
      Reads known .postfixed (max j k) s t
  | bare {s} : Reads known .suffixes 0 s s
  | field {k x y s t} (hx : x.kind = .dot) (hy : y.kind = .identifier) :
      Reads known .suffixes k s t → Reads known .suffixes k (x :: y :: s) t
  | application {j k x s u t} (hx : x.kind = .openParen) : Reads known .arguments j s u →
      Reads known .suffixes k u t → Reads known .suffixes (max j k) (x :: s) t
  | subscript {j k x y s u t} (hx : x.kind = .openBracket) (hy : y.kind = .closeBracket) :
      Reads known .expression j s (y :: u) → Reads known .suffixes k u t →
      Reads known .suffixes (max j k) (x :: s) t
  | reference {k x s t} (hx : x.kind = .ampersand) : Reads known .suffixes k s t →
      Reads known .suffixes k (x :: s) t
  | noArguments {x s} (hx : x.kind = .closeParen) : Reads known .arguments 0 (x :: s) s
  | arguments {j k x s u t} (hx : x.kind = .closeParen) : Reads known .expression j s u →
      Reads known (.chain [.comma] .expression) k u (x :: t) →
      Reads known .arguments (max j k) s t
  /-- Any name, unless it is known and a `<` follows. -/
  | name {x s} (hx : x.kind = .identifier)
      (hs : known x.text = true → ∀ y ∈ s.head?, y.kind ≠ .less) : Reads known .primary 0 (x :: s) s
  | number {x s} (hx : x.kind = .integer ∨ x.kind = .real) : Reads known .primary 0 (x :: s) s
  | group {k x y s t} (hx : x.kind = .openParen) (hy : y.kind = .closeParen) :
      Reads known .expression k s (y :: t) → Reads known .primary k (x :: s) t
  | template {k x y s t} (hx : x.kind = .identifier) (hk : known x.text = true)
      (hy : y.kind = .less) : Reads known .templateArguments k s t →
      Reads known .primary k (x :: y :: s) t
  | templateArguments {j k x s u t} (hx : x.kind = .greater) :
      Reads known (.level .additive) j s u →
      Reads known (.chain [.comma] (.level .additive)) k u (x :: t) →
      Reads known .templateArguments (max j k + 1) s t

namespace Reads

variable {known : Bytes → Bool} {p : Phrase} {k : Nat} {s t v : List Lexeme}

/-- An operand begins with a lexeme of one of a few kinds. -/
theorem operand_start (h : Reads known p k s t) (hp : p.isOperand = true) :
    ∃ x u, s = x :: u ∧ x.kind ∈ operandStarts := by
  induction h with
  | expression _ ih | unsigned _ _ ih => exact ih rfl
  | @level l _ _ _ _ _ _ _ ih => exact ih (by cases l <;> rfl)
  | postfixed _ _ ih => exact ih rfl
  | @signed _ x s _ hx =>
    refine ⟨x, s, rfl, ?_⟩
    rcases hx with hx | hx | hx
    · simp [hx, operandStarts]
    · simp [hx, operandStarts]
    · simp [hx.1, operandStarts]
  | @name x s hx | @group _ x _ s _ hx => exact ⟨x, s, rfl, by simp [hx, operandStarts]⟩
  | @template _ x y s _ hx => exact ⟨x, y :: s, rfl, by simp [hx, operandStarts]⟩
  | @number x s hx =>
    refine ⟨x, s, rfl, ?_⟩
    rcases hx with hx | hx <;> simp [hx, operandStarts]
  | _ => cases hp

/-- A postfix expression begins with no prefix operator but `const`. -/
theorem postfixed_start (h : Reads known .postfixed k s t) :
    ∃ x u, s = x :: u ∧ x.kind ∈ [Kind.identifier, .integer, .real, .openParen] := by
  cases h with
  | postfixed h _ =>
    cases h with
    | name hx | group hx | template hx => exact ⟨_, _, rfl, by simp [hx]⟩
    | number hx =>
      refine ⟨_, _, rfl, ?_⟩
      rcases hx with hx | hx <;> simp [hx]

/-- An operand is a phrase of its level. -/
theorem of_operand {l : Level} (h : Reads known l.operand k s t) :
    Reads known (.level l) k s t := by
  simpa using h.level .last

/-- An operand without binary operators is an expression. -/
theorem of_prefixed (h : Reads known .prefixed k s t) : Reads known .expression (k + 1) s t := by
  have hmultiplicative : Reads known (.level .multiplicative) k s t := of_operand h
  have hadditive : Reads known (.level .additive) k s t := of_operand hmultiplicative
  have hrelational : Reads known (.level .relational) k s t := of_operand hadditive
  have hequality : Reads known (.level .equality) k s t := of_operand hrelational
  have hconjunction : Reads known (.level .conjunction) k s t := of_operand hequality
  exact .expression (of_operand hconjunction)

/-- A `<` begins the second list only if one begins the first. -/
def Tame (t v : List Lexeme) : Prop :=
  ∀ x ∈ v.head?, x.kind = .less → ∃ y ∈ t.head?, y.kind = .less

theorem Tame.append (h : Tame t v) (w : List Lexeme) : Tame (w ++ t) (w ++ v) := by
  cases w with
  | nil => exact h
  | cons x w => exact fun y hy hk => ⟨y, hy, hk⟩

/-- What a phrase consists of may be followed by other lexemes. -/
theorem relocate (h : Reads known p k s t) :
    ∃ w, s = w ++ t ∧ ∀ v, Tame t v → Reads known p k (w ++ v) v := by
  induction h with
  | expression _ ih =>
    obtain ⟨w, hw, hv⟩ := ih
    exact ⟨w, hw, fun v ht => .expression (hv v ht)⟩
  | level _ _ ihp ihc =>
    obtain ⟨w, rfl, hw⟩ := ihp
    obtain ⟨w', rfl, hw'⟩ := ihc
    refine ⟨w ++ w', by simp, fun v ht => ?_⟩
    rw [List.append_assoc]
    exact .level (hw _ (ht.append w')) (hw' v ht)
  | last => exact ⟨[], rfl, fun v _ => .last⟩
  | bare => exact ⟨[], rfl, fun v _ => .bare⟩
  | @link _ _ _ _ x _ _ _ hx _ _ ihp ihc =>
    obtain ⟨w, rfl, hw⟩ := ihp
    obtain ⟨w', rfl, hw'⟩ := ihc
    refine ⟨x :: (w ++ w'), by simp, fun v ht => ?_⟩
    rw [List.cons_append, List.append_assoc]
    exact .link hx (hw _ (ht.append w')) (hw' v ht)
  | @signed _ x _ _ hx _ ih =>
    obtain ⟨w, rfl, hw⟩ := ih
    exact ⟨x :: w, rfl, fun v ht => .signed hx (hw v ht)⟩
  | unsigned hs _ ih =>
    obtain ⟨w, rfl, hw⟩ := ih
    refine ⟨w, rfl, fun v ht => .unsigned ?_ (hw v ht)⟩
    -- an operand is not empty, so its first lexeme stays the first
    obtain ⟨x, w', hx, -⟩ := (hw [] (by simp [Tame])).operand_start rfl
    rw [List.append_nil] at hx
    subst hx
    exact hs
  | postfixed _ _ ihp ihc =>
    obtain ⟨w, rfl, hw⟩ := ihp
    obtain ⟨w', rfl, hw'⟩ := ihc
    refine ⟨w ++ w', by simp, fun v ht => ?_⟩
    rw [List.append_assoc]
    exact .postfixed (hw _ (ht.append w')) (hw' v ht)
  | @field _ x y _ _ hx hy _ ih =>
    obtain ⟨w, rfl, hw⟩ := ih
    exact ⟨x :: y :: w, rfl, fun v ht => .field hx hy (hw v ht)⟩
  | @application _ _ x _ _ _ hx _ _ ihp ihc =>
    obtain ⟨w, rfl, hw⟩ := ihp
    obtain ⟨w', rfl, hw'⟩ := ihc
    refine ⟨x :: (w ++ w'), by simp, fun v ht => ?_⟩
    rw [List.cons_append, List.append_assoc]
    exact .application hx (hw _ (ht.append w')) (hw' v ht)
  | @subscript _ _ x y _ _ _ hx hy _ _ ihp ihc =>
    obtain ⟨w, rfl, hw⟩ := ihp
    obtain ⟨w', rfl, hw'⟩ := ihc
    refine ⟨x :: (w ++ y :: w'), by simp, fun v ht => ?_⟩
    rw [List.cons_append, List.append_assoc]
    exact .subscript hx hy (hw _ (ht.append (y :: w'))) (hw' v ht)
  | @reference _ x _ _ hx _ ih =>
    obtain ⟨w, rfl, hw⟩ := ih
    exact ⟨x :: w, rfl, fun v ht => .reference hx (hw v ht)⟩
  | @noArguments x _ hx => exact ⟨[x], rfl, fun v _ => .noArguments hx⟩
  | @arguments _ _ x _ _ _ hx _ _ ihp ihc =>
    obtain ⟨w, rfl, hw⟩ := ihp
    obtain ⟨w', rfl, hw'⟩ := ihc
    refine ⟨w ++ w' ++ [x], by simp, fun v ht => ?_⟩
    rw [List.append_assoc, List.append_assoc]
    exact .arguments hx (hw _ ((ht.append [x]).append w')) (hw' _ (ht.append [x]))
  | @name x s hx hs =>
    refine ⟨[x], rfl, fun v ht => .name hx fun hk y hy hl => ?_⟩
    obtain ⟨z, hz, hl⟩ := ht y hy hl
    exact hs hk z hz hl
  | @number x _ hx => exact ⟨[x], rfl, fun v _ => .number hx⟩
  | @group _ x y _ _ hx hy _ ih =>
    obtain ⟨w, rfl, hw⟩ := ih
    refine ⟨x :: (w ++ [y]), by simp, fun v ht => ?_⟩
    rw [List.cons_append, List.append_assoc]
    exact .group hx hy (hw _ (ht.append [y]))
  | @template _ x y _ _ hx hk hy _ ih =>
    obtain ⟨w, rfl, hw⟩ := ih
    exact ⟨x :: y :: w, rfl, fun v ht => .template hx hk hy (hw v ht)⟩
  | @templateArguments _ _ x _ _ _ hx _ _ ihp ihc =>
    obtain ⟨w, rfl, hw⟩ := ihp
    obtain ⟨w', rfl, hw'⟩ := ihc
    refine ⟨w ++ w' ++ [x], by simp, fun v ht => ?_⟩
    rw [List.append_assoc, List.append_assoc]
    exact .templateArguments hx (hw _ ((ht.append [x]).append w')) (hw' _ (ht.append [x]))

/-- A phrase with nothing behind it may be followed by anything but a `<`. -/
theorem append (h : Reads known p k s []) (hv : ∀ x ∈ v.head?, x.kind ≠ .less) :
    Reads known p k (s ++ v) v := by
  obtain ⟨w, rfl, hw⟩ := h.relocate
  simpa using hw v fun x hx hk => absurd hk (hv x hx)

/-- What follows a phrase may be taken away. -/
theorem truncate (h : Reads known p k (s ++ t) t) : Reads known p k s [] := by
  obtain ⟨w, hw, hv⟩ := h.relocate
  obtain rfl := List.append_cancel_right hw
  simpa using hv [] (by simp [Tame])

end Reads
end Grammar
end Recognizer
