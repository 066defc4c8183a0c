import CHeader.Guard
import CHeader.Span
import CHeader.Symbol

/-!
# Declarations

The declarations of a text in the order of the text, each with the guards it stands under and the text
it has in a header. A declaration is numbered by its place in the list, and the symbol table of the
list links its name to that number.

What a header shows is decided by `effectiveVisibility`: a declaration marked local is local, and a
function or variable is as visible as the first declaration with linkage of its name.
-/

namespace CHeader

/-- Whether other translation units need to see a declaration. -/
inductive Visibility
  | interface
  | internal
  deriving DecidableEq, Repr

/-- The name of a visibility in listings. -/
def Visibility.label : Visibility → String
  | .interface => "Interface"
  | .internal => "Local"

/-- The text of a declaration in a header. -/
inductive DeclText
  /-- Copied from the source: types, macros, inline functions. -/
  | verbatim (text : String)
  /-- Rebuilt from tokens: prototypes and `extern` variables. -/
  | synthesized (text : String)
  deriving DecidableEq, Repr

namespace DeclText

/-- The characters of the text. -/
def text : DeclText → String
  | verbatim text | synthesized text => text

/-- Whether the text is copied from the source. -/
def isVerbatim : DeclText → Bool
  | verbatim _ => true
  | synthesized _ => false

/-- The word for the origin of the text in listings. -/
def label : DeclText → String
  | verbatim _ => "verbatim"
  | synthesized _ => "synthesized"

end DeclText

/-- A declaration that is in no list yet. -/
structure Draft where
  kind : DeclKind
  text : DeclText
  visibility : Visibility := .interface
  guard : GuardPath := []
  span : Span
  /-- The 1-based line of its start. -/
  line : Nat
  deriving DecidableEq, Repr

/-- A declaration of a list. -/
structure Declaration extends Draft where
  /-- Its place in the list. -/
  id : Nat
  /-- The number of its name. -/
  name : Option Nat
  deriving DecidableEq, Repr

/-- Declarations in order, and the symbols of their names. -/
structure DeclarationList where
  items : List Declaration := []
  symbols : SymbolTable := {}
  deriving DecidableEq, Repr, Inhabited

namespace DeclarationList

/-- The declaration with a number. -/
def get? (list : DeclarationList) (id : Nat) : Option Declaration :=
  list.items[id]?

/-- Mention a name that nothing declares yet. -/
def intern (list : DeclarationList) (name : String) : DeclarationList × Nat :=
  let (symbols, id) := list.symbols.intern name
  ({ list with symbols }, id)

/-- Append a declaration, under a name if it has one. -/
def push (list : DeclarationList) (name : Option String) (draft : Draft) : DeclarationList × Nat :=
  let id := list.items.length
  match name with
  | some name =>
    let (symbols, symbol) := list.symbols.record name (some draft.kind) id
    (⟨list.items ++ [{ draft with id, name := some symbol }], symbols⟩, id)
  | none => ({ list with items := list.items ++ [{ draft with id, name := none }] }, id)

/-- Link a further name to a declaration of the list. -/
def addName (list : DeclarationList) (name : String) (id : Nat) : DeclarationList :=
  match list.get? id with
  | some declaration =>
    { list with symbols := (list.symbols.record name (some declaration.kind) id).1 }
  | none => list

/-- The name of a declaration. -/
def nameOf? (list : DeclarationList) (declaration : Declaration) : Option String :=
  (declaration.name.bind list.symbols.get?).map (·.name)

/-- The first declaration with linkage among those with the given numbers. -/
def firstLinked? (list : DeclarationList) (ids : List Nat) : Option Declaration :=
  (ids.filterMap list.get?).find? (·.kind.hasLinkage)

/-- The visibility that decides whether a header shows a declaration. -/
def effectiveVisibility (list : DeclarationList) (declaration : Declaration) : Visibility :=
  if declaration.visibility = .internal || !declaration.kind.hasLinkage then declaration.visibility
  else
    match (declaration.name.bind list.symbols.get?).bind (list.firstLinked? ·.declarations) with
    | some first => first.visibility
    | none => declaration.visibility

/-- The declarations that a header shows. -/
def visible (list : DeclarationList) : List Declaration :=
  list.items.filter (list.effectiveVisibility · = .interface)

/-! ### Listing -/

/-- A text with its further lines indented. -/
def indented (text : String) : String :=
  String.join (text.toList.map fun c => if c = '\n' then "\n    " else String.singleton c)

/-- A guard in one line. -/
def describeGuard (guard : Guard) : String :=
  "[" ++ " / ".intercalate guard.openingLines ++ "]"

/-- The two-part entry of a declaration: its data in one line, then its text. -/
def describe (list : DeclarationList) (d : Declaration) : String :=
  "#" ++ toString d.id ++ " line " ++ toString d.line ++ " " ++ d.kind.label ++ " " ++
    (list.effectiveVisibility d).label ++ " " ++ (list.nameOf? d).getD "<anonymous>" ++ " " ++
    d.text.label ++ " " ++ String.join (d.guard.map describeGuard) ++ "\n    " ++
    indented d.text.text ++ "\n"

/-- The entries of all declarations. -/
def listing (list : DeclarationList) : String :=
  String.join (list.items.map list.describe)

end DeclarationList

end CHeader
