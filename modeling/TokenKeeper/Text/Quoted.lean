import TokenKeeper.Text.Visible
/-! Quoted debug text: what cannot be shown is written by its code point. -/
namespace TokenKeeper.Text

def escape (c : Char) : List Char :=
  match c with
  | '\x00' => ['\\', '0']
  | '\t' => ['\\', 't']
  | '\r' => ['\\', 'r']
  | '\n' => ['\\', 'n']
  | '"' => ['\\', '"']
  | '\\' => ['\\', '\\']
  | _ => if isVisible c then [c] else ['\\', 'u', '\x7b'] ++ Nat.toDigits 16 c.toNat ++ ['\x7d']

def quoted (text : List Char) : List Char := '"' :: text.flatMap escape ++ ['"']

end TokenKeeper.Text
