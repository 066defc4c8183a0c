/-!
# Operators and punctuation

The three pairs of brackets are one constructor each for their two sides, so that a bracket and
its partner are the same value of `Bracket`. `table` lists the spellings with the longer ones
first; the first that a text starts with is therefore the longest.
-/

namespace CHeader

/-- A pair of brackets. -/
inductive Bracket
  | paren | square | brace
  deriving DecidableEq, Repr

/-- An operator or a punctuation mark. -/
inductive Punct
  | opening (bracket : Bracket)
  | closing (bracket : Bracket)
  | plus | minus | star | slash | percent | plusPlus | minusMinus | eqEq | notEq | lt | gt | ltEq
  | gtEq | ampAmp | pipePipe | bang | amp | pipe | caret | tilde | ltLt | gtGt | eq | plusEq | minusEq
  | starEq | slashEq | percentEq | ampEq | pipeEq | caretEq | ltLtEq | gtGtEq | semi | comma | dot
  | arrow | colon | question | ellipsis
  deriving DecidableEq, Repr

namespace Punct

/-- Every operator with its spelling, longer ones first. -/
def table : List (List Char × Punct) :=
  [(['<', '<', '='], .ltLtEq), (['>', '>', '='], .gtGtEq), (['.', '.', '.'], .ellipsis),
   (['+', '+'], .plusPlus), (['-', '-'], .minusMinus), (['=', '='], .eqEq), (['!', '='], .notEq),
   (['<', '='], .ltEq), (['>', '='], .gtEq), (['&', '&'], .ampAmp), (['|', '|'], .pipePipe),
   (['<', '<'], .ltLt), (['>', '>'], .gtGt), (['+', '='], .plusEq), (['-', '='], .minusEq),
   (['*', '='], .starEq), (['/', '='], .slashEq), (['%', '='], .percentEq), (['&', '='], .ampEq),
   (['|', '='], .pipeEq), (['^', '='], .caretEq), (['-', '>'], .arrow), (['+'], .plus),
   (['-'], .minus), (['*'], .star), (['/'], .slash), (['%'], .percent), (['<'], .lt), (['>'], .gt),
   (['!'], .bang), (['&'], .amp), (['|'], .pipe), (['^'], .caret), (['~'], .tilde), (['='], .eq),
   (['('], .opening .paren), ([')'], .closing .paren), (['['], .opening .square),
   ([']'], .closing .square), (['{'], .opening .brace), (['}'], .closing .brace), ([';'], .semi),
   ([','], .comma), (['.'], .dot), ([':'], .colon), (['?'], .question)]

/-- The longest operator at the start of a text, with the number of its characters. -/
def ofStart? (cs : List Char) : Option (Punct × Nat) :=
  (table.find? fun (spelling, _) => spelling.isPrefixOf cs).map fun (spelling, p) =>
    (p, spelling.length)

/-- The spelling of an operator. -/
def spelling : Punct → String
  | .plus => "+"
  | .minus => "-"
  | .star => "*"
  | .slash => "/"
  | .percent => "%"
  | .plusPlus => "++"
  | .minusMinus => "--"
  | .eqEq => "=="
  | .notEq => "!="
  | .lt => "<"
  | .gt => ">"
  | .ltEq => "<="
  | .gtEq => ">="
  | .ampAmp => "&&"
  | .pipePipe => "||"
  | .bang => "!"
  | .amp => "&"
  | .pipe => "|"
  | .caret => "^"
  | .tilde => "~"
  | .ltLt => "<<"
  | .gtGt => ">>"
  | .eq => "="
  | .plusEq => "+="
  | .minusEq => "-="
  | .starEq => "*="
  | .slashEq => "/="
  | .percentEq => "%="
  | .ampEq => "&="
  | .pipeEq => "|="
  | .caretEq => "^="
  | .ltLtEq => "<<="
  | .gtGtEq => ">>="
  | .opening .paren => "("
  | .closing .paren => ")"
  | .opening .square => "["
  | .closing .square => "]"
  | .opening .brace => "\x7b"
  | .closing .brace => "\x7d"
  | .semi => ";"
  | .comma => ","
  | .dot => "."
  | .arrow => "->"
  | .colon => ":"
  | .question => "?"
  | .ellipsis => "..."

/-- The name of an operator in listings. -/
def label : Punct → String
  | .plus => "Plus"
  | .minus => "Minus"
  | .star => "Star"
  | .slash => "Slash"
  | .percent => "Percent"
  | .plusPlus => "PlusPlus"
  | .minusMinus => "MinusMinus"
  | .eqEq => "EqEq"
  | .notEq => "NotEq"
  | .lt => "Lt"
  | .gt => "Gt"
  | .ltEq => "LtEq"
  | .gtEq => "GtEq"
  | .ampAmp => "AmpAmp"
  | .pipePipe => "PipePipe"
  | .bang => "Bang"
  | .amp => "Amp"
  | .pipe => "Pipe"
  | .caret => "Caret"
  | .tilde => "Tilde"
  | .ltLt => "LtLt"
  | .gtGt => "GtGt"
  | .eq => "Eq"
  | .plusEq => "PlusEq"
  | .minusEq => "MinusEq"
  | .starEq => "StarEq"
  | .slashEq => "SlashEq"
  | .percentEq => "PercentEq"
  | .ampEq => "AmpEq"
  | .pipeEq => "PipeEq"
  | .caretEq => "CaretEq"
  | .ltLtEq => "LtLtEq"
  | .gtGtEq => "GtGtEq"
  | .opening .paren => "LParen"
  | .closing .paren => "RParen"
  | .opening .square => "LBracket"
  | .closing .square => "RBracket"
  | .opening .brace => "LBrace"
  | .closing .brace => "RBrace"
  | .semi => "Semi"
  | .comma => "Comma"
  | .dot => "Dot"
  | .arrow => "Arrow"
  | .colon => "Colon"
  | .question => "Question"
  | .ellipsis => "Ellipsis"

/-- The table and the spellings agree. -/
theorem spelling_of_mem_table : ∀ entry ∈ table, entry.2.spelling.toList = entry.1 := by
  decide

/-- Every operator is in the table. -/
theorem mem_table (p : Punct) : (p.spelling.toList, p) ∈ table := by
  cases p with
  | opening b | closing b => cases b <;> decide
  | _ => decide

end Punct

end CHeader
