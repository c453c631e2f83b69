import Recognizer.Source.Span

/-!
# Scoped symbols

A symbol table is a stack of scopes, of which the bottom one is global and never
leaves. A scope lists its symbols in the order of their names, each name once,
so that equal scopes are equal lists.
-/
namespace Recognizer

/-- What a declared name denotes. -/
inductive Symbol.Kind where
  | type
  | procedure
  deriving DecidableEq, Repr

/-- The published name of what a symbol denotes. -/
def Symbol.Kind.name : Symbol.Kind → String
  | .type => "Type"
  | .procedure => "Procedure"

/-- The word for what a symbol denotes. -/
def Symbol.Kind.word : Symbol.Kind → String
  | .type => "type"
  | .procedure => "procedure"

/-- The kind with the published name given. -/
def Symbol.Kind.ofName? (text : String) : Option Symbol.Kind :=
  [Symbol.Kind.type, Symbol.Kind.procedure].find? fun k => k.name == text

/-- A name with what it denotes. -/
structure Symbol where
  name : Bytes
  kind : Symbol.Kind
  deriving DecidableEq, Repr

/-- Names are ordered byte by byte, and a name comes before its extensions. -/
def Bytes.precedes : Bytes → Bytes → Bool
  | [], [] => false
  | [], _ :: _ => true
  | _ :: _, [] => false
  | a :: as, b :: bs => a < b || (a == b && Bytes.precedes as bs)

/-- The symbols of one scope, in the order of their names. -/
abbrev Scope := List Symbol

namespace Scope

/-- The symbol of a name. -/
def get? (s : Scope) (name : Bytes) : Option Symbol := s.find? fun x => x.name == name

/-- Add a symbol, in place of one of the same name. -/
def insert (x : Symbol) : Scope → Scope
  | [] => [x]
  | y :: s =>
    if x.name == y.name then x :: s
    else if x.name.precedes y.name then x :: y :: s
    else y :: insert x s

@[simp] theorem get?_nil (name : Bytes) : get? [] name = none := rfl

/-- After an insertion the name denotes the new symbol and no other name changes. -/
theorem get?_insert (x : Symbol) (s : Scope) (name : Bytes) :
    (insert x s).get? name = if x.name == name then some x else s.get? name := by
  induction s with
  | nil => by_cases hn : x.name = name <;> simp [insert, get?, hn]
  | cons y s ih =>
    simp only [get?] at ih ⊢
    simp only [insert]
    split
    · next h =>
      have h := eq_of_beq h
      by_cases hn : x.name = name <;> simp [← h, hn]
    · next h =>
      split
      · by_cases hn : x.name = name <;> simp [List.find?_cons, hn]
      · simp only [List.find?_cons, ih]
        by_cases hy : y.name = name
        · have hx : ¬ x.name = name := fun hx => h (by simp [hx, hy])
          simp [hy, hx]
        · have hy : (y.name == name) = false := by simp [hy]
          simp [hy]

end Scope

/-- A stack of scopes. The innermost is separate, so the stack is never empty;
the last of the outer ones, or the innermost if there are none, is global. -/
structure SymbolTable where
  innermost : Scope
  outer : List Scope
  deriving DecidableEq, Repr

namespace SymbolTable

/-- Why a table refuses an operation. -/
inductive Fault where
  | globalScope
  deriving DecidableEq, Repr

/-- The wording of a fault. -/
def Fault.message : Fault → String
  | .globalScope => "cannot pop the global scope"

/-- One empty global scope. -/
def fresh : SymbolTable := ⟨[], []⟩

/-- The scopes, innermost first. -/
def scopes (t : SymbolTable) : List Scope := t.innermost :: t.outer

/-- The number of open scopes. -/
def depth (t : SymbolTable) : Nat := t.outer.length + 1

/-- Open an empty scope. -/
def push (t : SymbolTable) : SymbolTable := ⟨[], t.innermost :: t.outer⟩

/-- Close the innermost scope, unless it is the global one. -/
def pop : SymbolTable → Except Fault SymbolTable
  | ⟨_, []⟩ => .error .globalScope
  | ⟨_, s :: outer⟩ => .ok ⟨s, outer⟩

/-- Close the innermost scope and keep the global one. -/
def close : SymbolTable → SymbolTable
  | ⟨s, []⟩ => ⟨s, []⟩
  | ⟨_, s :: outer⟩ => ⟨s, outer⟩

/-- Declare a name in the innermost scope. -/
def declare (t : SymbolTable) (name : Bytes) (kind : Symbol.Kind) : SymbolTable :=
  { t with innermost := t.innermost.insert ⟨name, kind⟩ }

/-- The innermost declaration of a name. -/
def lookup? (t : SymbolTable) (name : Bytes) : Option Symbol :=
  t.scopes.findSome? fun s => s.get? name

/-- The global scope. -/
def globals (t : SymbolTable) : Scope := t.outer.getLast?.getD t.innermost

@[simp] theorem depth_fresh : fresh.depth = 1 := rfl
@[simp] theorem depth_push (t : SymbolTable) : t.push.depth = t.depth + 1 := rfl
@[simp] theorem depth_declare (t : SymbolTable) (name : Bytes) (kind : Symbol.Kind) :
    (t.declare name kind).depth = t.depth := rfl
@[simp] theorem close_push (t : SymbolTable) : t.push.close = t := rfl
@[simp] theorem pop_push (t : SymbolTable) : t.push.pop = .ok t := rfl

/-- A declared name denotes what it was declared as. -/
@[simp] theorem lookup?_declare_self (t : SymbolTable) (name : Bytes) (kind : Symbol.Kind) :
    (t.declare name kind).lookup? name = some ⟨name, kind⟩ := by
  simp [lookup?, declare, scopes, Scope.get?_insert]

/-- Closing a scope that is not global is popping it. -/
theorem close_eq_of_pop {t u : SymbolTable} (h : t.pop = .ok u) : t.close = u := by
  obtain ⟨s, outer⟩ := t
  cases outer with
  | nil => simp [pop] at h
  | cons o outer => simpa [pop, close] using h

end SymbolTable
end Recognizer
