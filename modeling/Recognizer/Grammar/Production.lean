import Recognizer.Grammar.Declaration
import Recognizer.Grammar.Run

/-!
# The productions and the program

The guarded productions get their bodies here, which closes the recursion. A
program is a run of declarations from an empty symbol table, and it is accepted
exactly when that run ends at the end of the source.
-/
namespace Recognizer.Grammar

open Rule

variable (prefs : GrammarPreferences)

/-- The body of a guarded production. -/
def body : Guarded → Rule
  | .expression => disjunction
  | .statement => statementBody prefs
  | .declaration => declarationBody
  | .templateArguments => closedAdditiveList

/-- Run a rule under the preferences, with room for so many nested calls. -/
def perform (room : Nat) (r : Rule) : Step := r.run (body prefs) room

/-- Declarations up to the first one that is rejected, or to the end. -/
def declarations : Rule := loop (.negate .finish) declaration

/-- Read declarations from an empty symbol table and accept at the end of the
source, whether or not the last declaration was accepted. -/
def program (room : Nat) : Step := fun s =>
  let t := (perform prefs room declarations { s with table := .fresh }).2
  (t.rest.isEmpty, t)

/-- Items that any step reads, with commas between them. -/
def listOf (item : Step) : Step := (separated (call .expression)).exec fun _ => item

/-- Items that any step reads, with commas between them, or none, inside an
opening and a closing lexeme. -/
def bracketed (opening : Kind) (item : Step) (closing : Kind) : Step :=
  (delimited opening (call .expression) closing).exec fun _ => item

/-- The productions by name, except the program. -/
def rules : List (String × Rule) :=
  [("literal", literal), ("basic_type", basicType),
    ("overloadable_operator", overloadableOperator), ("additive_list", additiveList),
    ("template_arguments", templateArguments), ("expression_list", expressionList),
    ("parameter_list", parameterList), ("initializer_list", initializerList),
    ("parameters", parameters), ("arguments", arguments), ("expression", expression),
    ("disjunction", disjunction), ("conjunction", conjunction), ("equality", equality),
    ("relational", relational), ("additive", additive), ("multiplicative", multiplicative),
    ("prefix", prefixExpr), ("postfix", postfixExpr), ("primary", primary),
    ("parameter", parameter), ("statement", statement), ("simple", simple),
    ("assignment", assignment), ("construction", construction prefs),
    ("initialization", initialization prefs), ("control", control prefs),
    ("return", returnStatement), ("conditional", conditional), ("switch", switchStatement),
    ("case", caseClause), ("while", whileStatement), ("do", doStatement),
    ("break", breakStatement), ("goto", gotoStatement), ("compound", compound),
    ("body", compound), ("typedef", typeDefinition), ("declaration", declaration),
    ("enumeration", enumeration), ("structure", structureDeclaration),
    ("data_member", dataMember), ("assign_operator", assignOperator),
    ("apply_operator", applyOperator), ("index_operator", indexOperator),
    ("initializer", initializer), ("procedure_name", procedureName), ("procedure", procedure),
    ("template_decl", templateHeader), ("specialization", specialization),
    ("template", template)]

/-- The productions by name that depend on the name of a structure. -/
def memberRules (name : Bytes) : List (String × Rule) :=
  [("structure_body", structureBody name), ("member", member name),
    ("constructor", constructor name), ("destructor", destructor name)]

/-- The step of a production, given its name and the room for nested calls. -/
def step? (production : String) : Option (Nat → Step) :=
  if production == "program" then some (program prefs)
  else ((rules prefs).lookup production).map fun r room => perform prefs room r

end Recognizer.Grammar
