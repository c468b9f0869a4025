import TokenKeeper.Text.Utf8
/-! Texts cut to a budget. It counts characters, but the cut is made at an octet. -/
namespace TokenKeeper.Text

def startsFrom (start : Nat) : List Char → List Nat
  | [] => []
  | c :: rest => start :: startsFrom (start + (Utf8.encodeChar c).length) rest

def cut (budget : Nat) (text : List Char) : Nat := (startsFrom 0 text)[budget - 1]?.getD 0

/-- A text within the budget stays whole; a longer one is cut, and ends in an ellipsis. None for a
cut inside a character. -/
def truncate? (budget : Nat) (text : List Char) : Option (List Char) :=
  match text[budget]? with
  | none => some text
  | some _ => (Utf8.before? (cut budget text) (Utf8.encode text)).map (· ++ ['…'])

def truncate (budget : Nat) (text : List Char) : List Char := (truncate? budget text).getD []

def padEnd (width : Nat) (text : List Char) : List Char :=
  text ++ List.replicate (width - text.length) ' '

def padStart (width : Nat) (text : List Char) : List Char :=
  List.replicate (width - text.length) ' ' ++ text

end TokenKeeper.Text
