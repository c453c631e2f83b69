import Recognizer.Proofs.Completion
import Recognizer.Proofs.Nesting
import Recognizer.Proofs.Spacing

/-!
# Nesting thresholds

Three families of sources, each with a number inside so many parentheses or template arguments.
What is nested needs as much room as it nests, by induction on the copies. The productions around
it are followed from the inside out, with the alternatives that are tried before them: each
guarded production on the way adds one, and what else it reads needs no more than a name does.
-/
namespace Recognizer

namespace Lexeme

/-- A lexeme that stands nowhere in particular. -/
def ofPiece (p : Piece) : Lexeme := ⟨p.1, 0, p.2⟩

/-- A name or a keyword. -/
def word (w : Bytes) : Lexeme := ofPiece (.name w)

/-- A name of one letter. -/
def letter (c : Char) : Lexeme := word (Bytes.ofAscii [c])

/-- A lexeme of a kind with one fixed spelling. -/
def mark (k : Kind) : Lexeme := ofPiece (.mark k)

/-- The number one. -/
def one : Lexeme := ofPiece (.integer, Bytes.ofAscii ['1'])

theorem word_is_iff {w : Bytes} {k : Keyword} : (word w).Is k ↔ w = k.bytes := by
  simp [word, ofPiece, Piece.name, Lexeme.Is]

end Lexeme

namespace Grammar

/-! ### What is nested -/

/-- Copies of what opens, the number, and as many copies of what closes, before other lexemes. -/
def nested (opening : List Lexeme) (closing : Lexeme) (n : Nat) (s : List Lexeme) : List Lexeme :=
  (List.replicate n opening).flatten ++ .one :: (List.replicate n closing ++ s)

section Phrases

variable {known : Bytes → Bool} {opening : List Lexeme} {closing : Lexeme} {w : Bytes}

theorem nested_succ (n : Nat) (s : List Lexeme) : nested opening closing (n + 1) s =
    opening ++ nested opening closing n (closing :: s) := by
  simp only [nested, List.replicate_succ, List.flatten_cons, List.append_assoc]
  rw [← List.replicate_succ, List.replicate_succ', List.append_assoc, List.singleton_append]

/-- The copies nest when one of them nests what it encloses one deeper. -/
theorem reads_nested (h : ∀ k s t, Reads known .prefixed k s (closing :: t) →
      Reads known .prefixed (k + 1) (opening ++ s) t) (n : Nat) (s : List Lexeme) :
    Reads known .prefixed n (nested opening closing n s) s := by
  induction n generalizing s with
  | zero =>
    have hone : Reads known .primary 0 (.one :: s) s := .number (.inl rfl)
    exact .unsigned (by simp [nested, Lexeme.one, Lexeme.ofPiece, Lexeme.Is])
      (.postfixed hone .bare)
  | succ n ih =>
    rw [nested_succ]
    exact h n _ s (ih (closing :: s))

theorem reads_grouped (n : Nat) (s : List Lexeme) :
    Reads known .prefixed n (nested [.mark .openParen] (.mark .closeParen) n s) s := by
  refine reads_nested (fun k s t h => ?_) n s
  have hgroup : Reads known .primary (k + 1) (.mark .openParen :: s) t :=
    .group rfl rfl (.of_prefixed h)
  exact .unsigned (by simp [Lexeme.mark, Lexeme.ofPiece, Piece.mark, Lexeme.Is])
    (.postfixed hgroup .bare)

theorem reads_templated (hw : known w = true) (hconst : w ≠ Keyword.const.bytes) (n : Nat)
    (s : List Lexeme) :
    Reads known .prefixed n (nested [.word w, .mark .less] (.mark .greater) n s) s := by
  refine reads_nested (fun k s t h => ?_) n s
  have hadditive : Reads known (.level .additive) k s (.mark .greater :: t) :=
    .of_operand (.of_operand h)
  have harguments : Reads known .templateArguments (k + 1) s t := by
    simpa using Reads.templateArguments rfl hadditive .last
  have hname : Reads known .primary (k + 1) (.word w :: .mark .less :: s) t :=
    .template rfl hw rfl harguments
  exact .unsigned (by simpa [Lexeme.word_is_iff] using hconst) (.postfixed hname .bare)

end Phrases

/-! ### What is around it -/

section Productions

variable {prefs : GrammarPreferences} {size j k : Nat} {table : SymbolTable} {w : Bytes}
  {x : Lexeme} {s t : List Lexeme} {u v : State}

/-- An expression without binary operators nests one deeper than its operand. -/
theorem needs_operand (h : Reads (Setting.mk prefs size table).known .prefixed k s (x :: t))
    (hx : x.kind ∉ Level.stops .disjunction) :
    Needs prefs (k + 1) expression ⟨s, size, table, none⟩ true ⟨x :: t, size, table, none⟩ :=
  .phrase (.of_prefixed h) trivial (.cons hx)

theorem needs_word (hw : w ≠ Keyword.const.bytes) (hx : x.kind ∉ Level.stops .disjunction) :
    Needs prefs 1 expression ⟨.word w :: x :: s, size, table, none⟩ true
      ⟨x :: s, size, table, none⟩ := by
  have hless : x.kind ∉ [.less] := fun h => hx (List.mem_singleton.1 h ▸ by decide)
  have hname : Reads (Setting.mk prefs size table).known .postfixed 0 (.word w :: x :: s)
      (x :: s) :=
    reads_name rfl (Begins.avoids ⟨x, s, rfl, rfl⟩ hless)
  exact needs_operand (.unsigned (by simpa [Lexeme.word_is_iff] using hw) hname) hx

/-- An assignment is tried as a label and as an expression before. -/
theorem needs_assignment (h : Needs prefs k expression ⟨s, size, table, none⟩ true
      ⟨.mark .semicolon :: t, size, table, none⟩) :
    Needs prefs (max 1 k + 1) statement ⟨.letter 'x' :: .mark .equals :: s, size, table, none⟩
      true ⟨t, size, table, none⟩ := by
  have hvariable : Needs prefs 1 expression
      ⟨.letter 'x' :: .mark .equals :: s, size, table, none⟩ true
      ⟨.mark .equals :: s, size, table, none⟩ := needs_word (by decide) (by decide)
  have hlabel : Needs prefs _ label ⟨.letter 'x' :: .mark .equals :: s, size, table, none⟩
      false _ := .yes (.hit (.kind _) rfl) (.miss (.kind _) rfl)
  have hsimple : Needs prefs _ simple _ false _ := hvariable.yes (.miss (.kind _) rfl)
  have hassignment : Needs prefs _ assignment _ true _ :=
    hvariable.yes (.yes (.hit (.kind _) rfl) (h.yes (.hit (.kind _) rfl)))
  have hbody : Needs prefs _ (statementBody prefs) _ true _ :=
    hlabel.restore.no (.no hsimple.restore (.yes hassignment.keep .accept))
  refine Needs.cast (.call rfl hbody) ?_
  omega

/-- One statement between braces is read in a scope of its own. -/
theorem needs_compound (h : Needs prefs k statement ⟨s, size, table.push, none⟩ true
      ⟨.mark .closeBrace :: t, size, table.push, none⟩) (hs : Avoids [.closeBrace] s) :
    Needs prefs k compound ⟨.mark .openBrace :: s, size, table, none⟩ true
      ⟨t, size, table, none⟩ := by
  have hround : (State.mk s size table.push none).passes (.negate (.kind .closeBrace)) = true := by
    rw [State.passes, Test.holds, hs.kind (by simp)]
    rfl
  have hblock : Needs prefs _ (.upTo .closeBrace statement) ⟨s, size, table.push, none⟩ true
      ⟨t, size, table.push, none⟩ :=
    .yes (.again hround h (.done rfl)) (.hit (.kind _) rfl)
  have hscope : Needs prefs _ (.enclosed (.upTo .closeBrace statement)) ⟨s, size, table, none⟩
      true ⟨t, size, table, none⟩ := .enclosed (s := ⟨s, size, table, none⟩) hblock
  refine Needs.cast (.yes (.hit (.kind _) rfl) hscope) ?_
  omega

/-- A procedure is what no keyword of another declaration begins. -/
theorem needs_void (hw : w ≠ Keyword.operator.bytes)
    (hparameters : Needs prefs j parameters ⟨s, size, table.declare w .procedure, none⟩ true u)
    (hend : Needs prefs k (.orElse (.kind .semicolon) compound) u true v) :
    Needs prefs (max j k + 1) declaration
      ⟨.word Keyword.void.bytes :: .word w :: s, size, table, none⟩ true v := by
  have hname : Needs prefs _ procedureName ⟨.word w :: s, size, table, none⟩ true
      ⟨s, size, table.declare w .procedure, none⟩ :=
    .no (.miss (.keyword _) (by simpa [Lexeme.word, Lexeme.ofPiece, Piece.name] using hw))
      (.declare rfl .accept)
  have hprocedure : Needs prefs _ procedure
      ⟨.word Keyword.void.bytes :: .word w :: s, size, table, none⟩ true v :=
    .yes (.yes (.hit (.keyword _) rfl) .accept) (hname.yes (hparameters.yes hend))
  refine Needs.cast (.call rfl (.no (.peek rfl) (.no (.peek rfl) (.no (.peek rfl) hprocedure)))) ?_
  omega

theorem needs_noParameters : Needs prefs 0 parameters
    ⟨.mark .openParen :: .mark .closeParen :: s, size, table, none⟩ true ⟨s, size, table, none⟩ :=
  .yes (.hit (.kind _) rfl) (.yes (.yes (.peek rfl) .accept) (.hit (.kind _) rfl))

/-- One parameter with a name is a list of parameters. -/
theorem needs_parameterList
    (h : Needs prefs k expression ⟨s, size, table, none⟩ true
      ⟨.word w :: x :: t, size, table, none⟩) (hx : x.kind ≠ .comma) :
    Needs prefs k parameterList ⟨s, size, table, none⟩ true ⟨x :: t, size, table, none⟩ := by
  have hparameter : Needs prefs _ parameter ⟨s, size, table, none⟩ true
      ⟨x :: t, size, table, none⟩ := h.yes (.yes (.hit (.kind _) rfl) .accept)
  refine Needs.cast (hparameter.yes (.done (by simpa [State.passes, Test.holds] using hx))) ?_
  omega

theorem needs_parameters
    (h : Needs prefs k parameterList ⟨s, size, table, none⟩ true
      ⟨.mark .closeParen :: t, size, table, none⟩) (hs : Avoids [.closeParen] s) :
    Needs prefs k parameters ⟨.mark .openParen :: s, size, table, none⟩ true
      ⟨t, size, table, none⟩ := by
  have hnone : (State.mk s size table none).passes (.kind .closeParen) = false :=
    hs.kind (by simp) table
  refine Needs.cast (.yes (.hit (.kind _) rfl) (.yes (.no (.peek hnone) h)
    (.hit (.kind _) rfl))) ?_
  omega

theorem needs_structure : Needs prefs 1 declaration
    ⟨.word Keyword.struct.bytes :: .word w :: .mark .semicolon :: s, size, table, none⟩ true
    ⟨s, size, table.declare w .type, none⟩ :=
  .call rfl (.calm (productive_body .declaration) fun _ => rfl)

/-- A specialization is tried as a structure before, which declares its name already. -/
theorem needs_specialization (h : Needs prefs k templateArguments
      ⟨s, size, (table.declare w .type).declare w .type, none⟩ true
      ⟨.mark .semicolon :: t, size, (table.declare w .type).declare w .type, none⟩) :
    Needs prefs k (.orElse (.attempt structureDeclaration) (.attempt specialization))
      ⟨.word Keyword.struct.bytes :: .word w :: .mark .less :: s, size, table, none⟩ true
      ⟨t, size, (table.declare w .type).declare w .type, none⟩ := by
  have hstructure : Needs prefs 0 structureDeclaration
      ⟨.word Keyword.struct.bytes :: .word w :: .mark .less :: s, size, table, none⟩ false
      ⟨.mark .less :: s, size, table.declare w .type, none⟩ := .calm (by simp) fun _ => rfl
  have hrest : Needs prefs _ (.inOrder [.kind .less, templateArguments,
      .orElse (.peek (.kind .semicolon)) (structureBody w), .kind .semicolon])
      ⟨.mark .less :: s, size, (table.declare w .type).declare w .type, none⟩ true
      ⟨t, size, (table.declare w .type).declare w .type, none⟩ :=
    .yes (.hit (.kind _) rfl) (h.yes (.yes (.yes (.peek rfl) .accept) (.hit (.kind _) rfl)))
  have hspecialization : Needs prefs _ specialization
      ⟨.word Keyword.struct.bytes :: .word w :: .mark .less :: s, size, table.declare w .type,
        none⟩ true ⟨t, size, (table.declare w .type).declare w .type, none⟩ :=
    .yes (.hit (.keyword _) rfl) (.declare rfl hrest)
  refine Needs.cast (hstructure.restore.no hspecialization.keep) ?_
  omega

/-- The header of the template has one type for a parameter. -/
theorem needs_template (h : Needs prefs k
      (.orElse (.attempt structureDeclaration) (.attempt specialization))
      ⟨.word Keyword.struct.bytes :: s, size, table, none⟩ true u) :
    Needs prefs (max 1 k + 1) declaration
      ⟨.word Keyword.template.bytes :: .mark .less :: .word Keyword.typename.bytes ::
        .letter 'T' :: .mark .greater :: .word Keyword.struct.bytes :: s, size, table, none⟩
      true u := by
  have htype : Needs prefs 1 expression
      ⟨.word Keyword.typename.bytes :: .letter 'T' :: .mark .greater ::
        .word Keyword.struct.bytes :: s, size, table, none⟩ true
      ⟨.letter 'T' :: .mark .greater :: .word Keyword.struct.bytes :: s, size, table, none⟩ :=
    needs_word (by decide) (by decide)
  have hheader : Needs prefs _ templateHeader
      ⟨.word Keyword.template.bytes :: .mark .less :: .word Keyword.typename.bytes ::
        .letter 'T' :: .mark .greater :: .word Keyword.struct.bytes :: s, size, table, none⟩
      true ⟨.word Keyword.struct.bytes :: s, size, table, none⟩ :=
    .yes (.hit (.keyword _) rfl) (.yes (.hit (.kind _) rfl)
      (.yes (.no (.peek rfl) (needs_parameterList htype (by decide)))
        (.yes (.hit (.kind _) rfl) (.no (.miss (.keyword _) rfl) .accept))))
  have htemplate : Needs prefs _ template _ true u :=
    hheader.yes (.yes (.yes (.peek rfl) h) .accept)
  refine Needs.cast (.call rfl (.no (.peek rfl) (.no (.peek rfl) (.yes (.peek rfl) htemplate)))) ?_
  omega

/-- A procedure without parameters that assigns an operand to a variable. -/
theorem needs_assigning (hw : w ≠ Keyword.operator.bytes)
    (h : Reads (Setting.mk prefs size (table.declare w .procedure).push).known .prefixed k s
      (.mark .semicolon :: .mark .closeBrace :: t)) :
    Needs prefs (k + 3) declaration
      ⟨.word Keyword.void.bytes :: .word w :: .mark .openParen :: .mark .closeParen ::
        .mark .openBrace :: .letter 'x' :: .mark .equals :: s, size, table, none⟩ true
      ⟨t, size, table.declare w .procedure, none⟩ := by
  have hstatement := needs_assignment (needs_operand h (by decide))
  have hcompound := needs_compound hstatement (Begins.avoids ⟨_, _, rfl, rfl⟩ (by decide))
  refine Needs.cast (needs_void hw needs_noParameters (.no (.miss (.kind _) rfl) hcompound)) ?_
  omega

/-- A procedure without a body, with one parameter whose type is an operand. -/
theorem needs_taking (hw : w ≠ Keyword.operator.bytes)
    (h : Reads (Setting.mk prefs size (table.declare w .procedure)).known .prefixed k s
      (.letter 'x' :: .mark .closeParen :: .mark .semicolon :: t)) :
    Needs prefs (k + 2) declaration
      ⟨.word Keyword.void.bytes :: .word w :: .mark .openParen :: s, size, table, none⟩ true
      ⟨t, size, table.declare w .procedure, none⟩ := by
  have hstart : Avoids [.closeParen] s := by
    obtain ⟨x, u, hs, hx⟩ := h.operand_start rfl
    refine Begins.avoids ⟨x, u, hs, rfl⟩ fun hk => ?_
    rw [List.mem_singleton.1 hk] at hx
    exact absurd hx (by decide)
  have hlist := needs_parameterList (needs_operand h (by decide)) (by decide)
  have hend : Needs prefs _ (.orElse (.kind .semicolon) compound)
      ⟨.mark .semicolon :: t, size, table.declare w .procedure, none⟩ true _ :=
    .yes (.hit (.kind _) rfl) .accept
  refine Needs.cast (needs_void hw (needs_parameters hlist hstart) hend) ?_
  omega

/-- A template with a structure that is specialized for one argument. -/
theorem needs_specializing
    (h : Reads (Setting.mk prefs size ((table.declare w .type).declare w .type)).known
      (.level .additive) k s (.mark .greater :: .mark .semicolon :: t)) :
    Needs prefs (k + 2) declaration
      ⟨.word Keyword.template.bytes :: .mark .less :: .word Keyword.typename.bytes ::
        .letter 'T' :: .mark .greater :: .word Keyword.struct.bytes :: .word w :: .mark .less :: s,
        size, table, none⟩ true
      ⟨t, size, (table.declare w .type).declare w .type, none⟩ := by
  have harguments := needs_specialization
    (.phrase (.templateArguments rfl h .last) trivial (.of_stops rfl))
  refine Needs.cast (needs_template harguments) ?_
  omega

end Productions

/-! ### Three families -/

section Families

variable {prefs : GrammarPreferences} {size n : Nat}

theorem needs_grouped : Needs prefs (n + 3) declarations
    ⟨[.word Keyword.void.bytes, .letter 'f', .mark .openParen, .mark .closeParen,
      .mark .openBrace, .letter 'x', .mark .equals] ++
      nested [.mark .openParen] (.mark .closeParen) n [.mark .semicolon, .mark .closeBrace],
      size, .fresh, none⟩ true
    ⟨[], size, SymbolTable.fresh.declare (Bytes.ofAscii ['f']) .procedure, none⟩ := by
  refine Needs.cast (.again rfl (needs_assigning (by decide) (reads_grouped n _)) (.done rfl)) ?_
  omega

theorem needs_typed : Needs prefs (n + 2) declarations
    ⟨[.word Keyword.struct.bytes, .letter 'p', .mark .semicolon, .word Keyword.void.bytes,
      .letter 'f', .mark .openParen] ++
      nested [.letter 'p', .mark .less] (.mark .greater) n
        [.letter 'x', .mark .closeParen, .mark .semicolon], size, .fresh, none⟩ true
    ⟨[], size, (SymbolTable.fresh.declare (Bytes.ofAscii ['p']) .type).declare
      (Bytes.ofAscii ['f']) .procedure, none⟩ := by
  refine Needs.cast (.again rfl needs_structure
    (.again rfl (needs_taking (by decide) (reads_templated rfl (by decide) n _)) (.done rfl))) ?_
  omega

theorem needs_specialized : Needs prefs (n + 2) declarations
    ⟨[.word Keyword.struct.bytes, .letter 'p', .mark .semicolon, .word Keyword.template.bytes,
      .mark .less, .word Keyword.typename.bytes, .letter 'T', .mark .greater,
      .word Keyword.struct.bytes, .letter 'q', .mark .less] ++
      nested [.letter 'p', .mark .less] (.mark .greater) n [.mark .greater, .mark .semicolon],
      size, .fresh, none⟩ true
    ⟨[], size, ((SymbolTable.fresh.declare (Bytes.ofAscii ['p']) .type).declare
      (Bytes.ofAscii ['q']) .type).declare (Bytes.ofAscii ['q']) .type, none⟩ := by
  refine Needs.cast (.again rfl needs_structure (.again rfl
    (needs_specializing (.of_operand (.of_operand (reads_templated rfl (by decide) n _))))
    (.done rfl))) ?_
  omega

end Families
end Grammar

open Grammar

/-! ### How it is written -/

section Around

variable {α β : Type} {lead opening core closing tail : α}

/-- Copies of one element before a core and as many copies of another behind it, between two
ends. -/
def around (lead opening core closing tail : α) (n : Nat) : List α :=
  lead :: (List.replicate n opening ++ core :: (List.replicate n closing ++ [tail]))

theorem mem_around {x : α} {n : Nat} (h : x ∈ around lead opening core closing tail n) :
    x ∈ [lead, opening, core, closing, tail] := by
  simp only [around, List.mem_cons, List.mem_append, List.mem_replicate] at h ⊢
  tauto

theorem flatMap_around (f : α → List β) (n : Nat) :
    (around lead opening core closing tail n).flatMap f =
      f lead ++ ((List.replicate n (f opening)).flatten ++
        (f core ++ ((List.replicate n (f closing)).flatten ++ f tail))) := by
  simp [around, List.flatMap_def]

/-- Copies may stand behind an element that they may follow, before what may follow both. -/
theorem isChain_cons_replicate {R : α → α → Prop} {a b : α} {l : List α} (ha : R a b)
    (hb : R b b) (hl : ∀ x ∈ l.head?, R a x ∧ R b x) (hchain : l.IsChain R) (n : Nat) :
    (a :: (List.replicate n b ++ l)).IsChain R := by
  induction n generalizing a with
  | zero => exact List.isChain_cons.2 ⟨fun x hx => (hl x hx).1, hchain⟩
  | succ n ih =>
    exact List.isChain_cons_cons.2 ⟨ha, ih hb fun x hx => ⟨(hl x hx).2, (hl x hx).2⟩⟩

theorem isChain_around {R : α → α → Prop}
    (hleft : ∀ u ∈ [lead, opening], ∀ v ∈ [opening, core], R u v)
    (hright : ∀ u ∈ [core, closing], ∀ v ∈ [closing, tail], R u v) (n : Nat) :
    (around lead opening core closing tail n).IsChain R := by
  simp only [List.forall_mem_cons, List.not_mem_nil, false_imp_iff, implies_true,
    and_true] at hleft hright
  obtain ⟨⟨hlead, hleads⟩, hopening, hopens⟩ := hleft
  obtain ⟨⟨hcore, hcores⟩, hclosing, hcloses⟩ := hright
  refine isChain_cons_replicate hlead hopening (by simp [hleads, hopens]) ?_ n
  exact isChain_cons_replicate hcore hclosing (by simp [hcores, hcloses]) (.singleton tail) n

end Around

/-- The bytes of a text. -/
def bytesOf (text : String) : Bytes := Bytes.ofAscii text.toList

/-- A lead, copies of what opens, a number, as many copies of what closes, and a tail. -/
def nestedSource (lead opening closing tail : String) (n : Nat) : Bytes :=
  (around lead opening "1" closing tail n).flatMap bytesOf

/-- The significant lexemes of the text, which is not empty, are those given but for their
places. -/
def Writes (text : String) (xs : List Lexeme) : Prop :=
  bytesOf text ≠ [] ∧ (Lexeme.significant (bytesOf text)).map Lexeme.piece = xs.map Lexeme.piece

instance (text : String) (xs : List Lexeme) : Decidable (Writes text xs) :=
  inferInstanceAs (Decidable (_ ∧ _))

/-- A nested source is read text by text when none of its texts continues the one before it. -/
theorem significant_nestedSource {lead opening closing tail : String}
    {before os after : List Lexeme} {c : Lexeme}
    (hwrites : ∀ p ∈ [(lead, before), (opening, os), (closing, [c]), (tail, after)],
      Writes p.1 p.2)
    (hleft : ∀ u ∈ [lead, opening], ∀ v ∈ [opening, "1"], Piece.Joins (bytesOf u) (bytesOf v))
    (hright : ∀ u ∈ ["1", closing], ∀ v ∈ [closing, tail], Piece.Joins (bytesOf u) (bytesOf v))
    (n : Nat) :
    (Lexeme.significant (nestedSource lead opening closing tail n)).map Lexeme.piece =
      (before ++ nested os c n after).map Lexeme.piece := by
  simp only [List.forall_mem_cons, List.not_mem_nil, false_imp_iff, implies_true,
    and_true] at hwrites
  obtain ⟨hlead, hopening, hclosing, htail⟩ := hwrites
  have hone : Writes "1" [.one] := by decide +kernel
  have hbytes : ∀ u ∈ (around lead opening "1" closing tail n).map bytesOf, u ≠ [] := by
    intro u hu
    obtain ⟨text, htext, rfl⟩ := List.mem_map.1 hu
    have hall : ∀ u ∈ [lead, opening, "1", closing, tail], bytesOf u ≠ [] := by
      simp [hlead.1, hopening.1, hone.1, hclosing.1, htail.1]
    exact hall text (mem_around htext)
  have hchain : ((around lead opening "1" closing tail n).map bytesOf).IsChain Piece.Joins :=
    (List.isChain_map bytesOf).2 (isChain_around hleft hright n)
  rw [nestedSource, List.flatMap_def, Piece.significant_flatten hbytes hchain, List.flatMap_map,
    flatMap_around, hlead.2, hopening.2, hone.2, hclosing.2, htail.2]
  simp [nested]

namespace Recognition

/-- What nested sources need of the depth guard, exactly. With `n` pairs of parentheses around a
number that a procedure assigns, `n + 3` calls are nested: the declaration, the statement, one
expression for each pair and the number. With `n` lists of template arguments around it, `n + 2`
calls are nested: the declaration, each of the lists, and the type of the parameter or the list of
the specialization that they stand in. Neither the alternatives that are given up on the way nor
the preferences make a difference. -/
theorem nesting_thresholds (n : Nat) :
    NestsTo (nestedSource "void f() \x7b x = " "(" ")" "; \x7d" n) (n + 3) ∧
    NestsTo (nestedSource "struct p; void f(" "p<" ">" " x);" n) (n + 2) ∧
    NestsTo (nestedSource "struct p; template <typename T> struct q<" "p<" ">" ">;" n)
      (n + 2) := by
  refine ⟨?_, ?_, ?_⟩
  · exact nestsTo_of_needs (significant_nestedSource (by decide +kernel) (by decide +kernel)
      (by decide +kernel) n) fun _ => ⟨_, needs_grouped⟩
  · exact nestsTo_of_needs (significant_nestedSource (by decide +kernel) (by decide +kernel)
      (by decide +kernel) n) fun _ => ⟨_, needs_typed⟩
  · exact nestsTo_of_needs (significant_nestedSource (by decide +kernel) (by decide +kernel)
      (by decide +kernel) n) fun _ => ⟨_, needs_specialized⟩

/-- Five pairs fit under a limit of eight, and six do not. -/
example :
    parses { Limits.development with maxDepth := 8 }
      (bytesOf "void f() \x7b x = (((((1))))); \x7d") = true ∧
    parses { Limits.development with maxDepth := 8 }
      (bytesOf "void f() \x7b x = ((((((1)))))); \x7d") = false := by
  decide +kernel

end Recognition
end Recognizer
