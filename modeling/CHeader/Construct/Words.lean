import CHeader.Nesting

/-!
# Words with a part of their own

Identifiers that are no names. Marker words say where a declaration belongs and are not part of it.
Attribute words are compiler extensions that may take an argument in parentheses. The `typeof` words
stand, with their argument, for a type.
-/

namespace CHeader

/-- Words that keep a declaration out of the header. -/
def internalMarkers : List String := ["LOCAL", "PRIVATE"]

/-- Words that put a declaration into the header. -/
def exportMarkers : List String := ["EXPORT", "PUBLIC"]

/-- Compiler extensions that name nothing. -/
def attributeWords : List String :=
  ["__attribute__", "__attribute", "__declspec", "__asm__", "__asm", "asm", "__extension__"]

/-- Words that stand for the type of their argument. -/
def typeofWords : List String := ["typeof", "__typeof__", "__typeof"]

namespace Token

/-- Whether the token is an attribute word. -/
def isAttribute (token : Token) : Bool :=
  token.kind.identifier?.any (attributeWords.contains ·)

/-- Whether the token is a `typeof` word. -/
def isTypeof (token : Token) : Bool :=
  token.kind.identifier?.any (typeofWords.contains ·)

/-- Whether the token is an identifier and no attribute word. -/
def isName (token : Token) : Bool :=
  token.kind.identifier?.any (!attributeWords.contains ·)

end Token

/-- The attributes that the tokens start with, arguments included. -/
def attributes : List Token → List Token
  | [] => []
  | t :: ts =>
    if t.isAttribute then
      let argument := Nesting.parenthesized ts
      t :: (argument ++ attributes (ts.drop argument.length))
    else []
termination_by ts => ts.length
decreasing_by simp only [List.length_drop, List.length_cons]; omega

end CHeader
