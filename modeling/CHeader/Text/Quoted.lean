import CHeader.Text.Printing

/-!
# Quoted text

Text between double quotes on one line. The quote and the backslash are written behind a
backslash, tab, newline, carriage return and NUL by their letters `t`, `n`, `r` and `0`, and any
other character that does not print by its code point in lower-case hexadecimal digits, as in
`\u{7f}`.
-/

namespace CHeader.Text

/-- One character as it stands between double quotes. -/
def escapeChar (c : Char) : String :=
  match c with
  | '\x00' => "\\0"
  | '\t' => "\\t"
  | '\n' => "\\n"
  | '\r' => "\\r"
  | '"' => "\\\""
  | '\\' => "\\\\"
  | _ =>
    if isPrinting c then String.singleton c
    else "\\u\x7b" ++ String.ofList (Nat.toDigits 16 c.toNat) ++ "\x7d"

/-- The text between double quotes. -/
def quoted (text : String) : String :=
  "\"" ++ String.join (text.toList.map escapeChar) ++ "\""

end CHeader.Text
