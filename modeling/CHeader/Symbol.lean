import CHeader.Text.Quoted

/-!
# Symbols

Every identifier that a run mentions has one symbol, numbered in the order of first mention. A symbol
collects the numbers of the declarations that introduce its name; its kind is that of the first, and
is unknown while the name is only mentioned.
-/

namespace CHeader

/-- What a declaration declares. -/
inductive DeclKind
  | function
  | type
  | variable
  | macroDef
  deriving DecidableEq, Repr

/-- The name of a kind in listings. -/
def DeclKind.label : DeclKind → String
  | .function => "Function"
  | .type => "Type"
  | .variable => "Variable"
  | .macroDef => "Macro"

/-- Functions and variables have linkage, types and macros have none. -/
def DeclKind.hasLinkage : DeclKind → Bool
  | .function | .variable => true
  | .type | .macroDef => false

/-- What is known of a name. -/
structure Symbol where
  name : String
  /-- What the name is declared as; `none` while it is only mentioned. -/
  kind : Option DeclKind := none
  /-- The declarations of the name, in order. -/
  declarations : List Nat := []
  deriving DecidableEq, Repr, Inhabited

/-- Take in a declaration of the symbol's name. -/
def Symbol.addDeclaration (symbol : Symbol) (kind : Option DeclKind) (declaration : Nat) : Symbol :=
  { symbol with kind := symbol.kind <|> kind, declarations := symbol.declarations ++ [declaration] }

/-- The symbols of a run; a symbol's number is its place. -/
structure SymbolTable where
  symbols : List Symbol := []
  deriving DecidableEq, Repr, Inhabited

namespace SymbolTable

/-- The number of a name. -/
def id? (table : SymbolTable) (name : String) : Option Nat :=
  table.symbols.findIdx? (·.name = name)

/-- The symbol with a number. -/
def get? (table : SymbolTable) (id : Nat) : Option Symbol :=
  table.symbols[id]?

/-- The symbol of a name. -/
def lookup (table : SymbolTable) (name : String) : Option Symbol :=
  (table.id? name).bind table.get?

/-- The number of a name, which is given one at its first mention. -/
def intern (table : SymbolTable) (name : String) : SymbolTable × Nat :=
  match table.id? name with
  | some id => (table, id)
  | none => (⟨table.symbols ++ [{ name }]⟩, table.symbols.length)

/-- Link a declaration to a name, mentioned before or not. -/
def record (table : SymbolTable) (name : String) (kind : Option DeclKind) (declaration : Nat) :
    SymbolTable × Nat :=
  let (table, id) := table.intern name
  (⟨table.symbols.modify id (·.addDeclaration kind declaration)⟩, id)

/-- The names with their kinds, in one line. -/
def describe (table : SymbolTable) : String :=
  let entry (s : Symbol) := Text.quoted s.name ++ ": " ++ (s.kind.map DeclKind.label).getD "Unknown"
  "\x7b" ++ ", ".intercalate (table.symbols.map entry) ++ "\x7d"

end SymbolTable

end CHeader
