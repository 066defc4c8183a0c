/-!
# Keywords

The reserved words of C11, with the part each may play in a declaration. `table` lists every
spelling; `inline` alone has three. A keyword's `label` is its name in messages and listings, without
the leading underscore of the newer words.
-/

namespace CHeader

/-- A reserved word. -/
inductive Keyword
  | autoKw | breakKw | caseKw | charKw | constKw | continueKw | defaultKw | doKw | doubleKw | elseKw
  | enumKw | externKw | floatKw | forKw | gotoKw | ifKw | inlineKw | intKw | longKw | registerKw
  | restrictKw | returnKw | shortKw | signedKw | sizeofKw | staticKw | structKw | switchKw | typedefKw
  | unionKw | unsignedKw | voidKw | volatileKw | whileKw | boolKw | complexKw | imaginaryKw | alignasKw
  | alignofKw | atomicKw | genericKw | noreturnKw | staticAssertKw | threadLocalKw
  deriving DecidableEq, Repr

namespace Keyword

/-- Every spelling and the keyword it stands for. -/
def table : List (String × Keyword) :=
  [("auto", .autoKw), ("break", .breakKw), ("case", .caseKw), ("char", .charKw), ("const", .constKw),
   ("continue", .continueKw), ("default", .defaultKw), ("do", .doKw), ("double", .doubleKw),
   ("else", .elseKw), ("enum", .enumKw), ("extern", .externKw), ("float", .floatKw), ("for", .forKw),
   ("goto", .gotoKw), ("if", .ifKw), ("inline", .inlineKw), ("__inline", .inlineKw),
   ("__inline__", .inlineKw), ("int", .intKw), ("long", .longKw), ("register", .registerKw),
   ("restrict", .restrictKw), ("return", .returnKw), ("short", .shortKw), ("signed", .signedKw),
   ("sizeof", .sizeofKw), ("static", .staticKw), ("struct", .structKw), ("switch", .switchKw),
   ("typedef", .typedefKw), ("union", .unionKw), ("unsigned", .unsignedKw), ("void", .voidKw),
   ("volatile", .volatileKw), ("while", .whileKw), ("_Bool", .boolKw), ("_Complex", .complexKw),
   ("_Imaginary", .imaginaryKw), ("_Alignas", .alignasKw), ("_Alignof", .alignofKw),
   ("_Atomic", .atomicKw), ("_Generic", .genericKw), ("_Noreturn", .noreturnKw),
   ("_Static_assert", .staticAssertKw), ("_Thread_local", .threadLocalKw)]

/-- The keyword that a word spells. -/
def ofWord? (word : String) : Option Keyword :=
  table.lookup word

/-- The name of a keyword in listings. -/
def label : Keyword → String
  | .autoKw => "Auto"
  | .breakKw => "Break"
  | .caseKw => "Case"
  | .charKw => "Char"
  | .constKw => "Const"
  | .continueKw => "Continue"
  | .defaultKw => "Default"
  | .doKw => "Do"
  | .doubleKw => "Double"
  | .elseKw => "Else"
  | .enumKw => "Enum"
  | .externKw => "Extern"
  | .floatKw => "Float"
  | .forKw => "For"
  | .gotoKw => "Goto"
  | .ifKw => "If"
  | .inlineKw => "Inline"
  | .intKw => "Int"
  | .longKw => "Long"
  | .registerKw => "Register"
  | .restrictKw => "Restrict"
  | .returnKw => "Return"
  | .shortKw => "Short"
  | .signedKw => "Signed"
  | .sizeofKw => "Sizeof"
  | .staticKw => "Static"
  | .structKw => "Struct"
  | .switchKw => "Switch"
  | .typedefKw => "Typedef"
  | .unionKw => "Union"
  | .unsignedKw => "Unsigned"
  | .voidKw => "Void"
  | .volatileKw => "Volatile"
  | .whileKw => "While"
  | .boolKw => "Bool"
  | .complexKw => "Complex"
  | .imaginaryKw => "Imaginary"
  | .alignasKw => "Alignas"
  | .alignofKw => "Alignof"
  | .atomicKw => "Atomic"
  | .genericKw => "Generic"
  | .noreturnKw => "Noreturn"
  | .staticAssertKw => "StaticAssert"
  | .threadLocalKw => "ThreadLocal"

/-- Words that name a type or begin one. -/
def isTypeSpecifier : Keyword → Bool
  | .voidKw | .charKw | .shortKw | .intKw | .longKw | .floatKw | .doubleKw | .signedKw | .unsignedKw
  | .boolKw | .complexKw | .imaginaryKw | .structKw | .unionKw | .enumKw => true
  | _ => false

/-- Words that qualify a type. -/
def isTypeQualifier : Keyword → Bool
  | .constKw | .volatileKw | .restrictKw | .atomicKw => true
  | _ => false

/-- Words that choose storage or linkage; `typedef` counts as one. -/
def isStorageClass : Keyword → Bool
  | .typedefKw | .externKw | .staticKw | .autoKw | .registerKw | .threadLocalKw => true
  | _ => false

/-- Words on functions, and alignment, which may stand among the specifiers. -/
def isFunctionSpecifier : Keyword → Bool
  | .inlineKw | .noreturnKw | .alignasKw => true
  | _ => false

/-- Words that begin a type with a tag and a body. -/
def isAggregate : Keyword → Bool
  | .structKw | .unionKw | .enumKw => true
  | _ => false

/-- Words that a declaration may begin with. -/
def canStart (k : Keyword) : Bool :=
  k.isTypeSpecifier || k.isTypeQualifier || k.isStorageClass || k.isFunctionSpecifier ||
    k = .staticAssertKw

end Keyword

end CHeader
