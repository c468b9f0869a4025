/-! Debug text of structured values, on one line or over several. Over several lines each field
stands on its own line, ends in a comma, and is indented by one level. -/
namespace TokenKeeper.Text

def margin : List Char := [' ', ' ', ' ', ' ']

def indentFrom (fresh : Bool) : List Char → List Char
  | [] => []
  | c :: rest => (if fresh then margin else []) ++ c :: indentFrom (c == '\n') rest

def indent (text : List Char) : List Char := indentFrom true text

def line (text : List Char) : List Char := indent (text ++ [',', '\n'])

def labelled (field : String × List Char) : List Char := field.1.toList ++ ": ".toList ++ field.2

def record (multiline : Bool) (name : String) (fields : List (String × List Char))
    (more : Bool) : List Char :=
  if multiline then
    name.toList ++ " \x7b\n".toList ++ fields.flatMap (fun f => line (labelled f)) ++
      (if more then indent "..\n".toList else []) ++ ['\x7d']
  else
    name.toList ++ " \x7b ".toList ++
      (", ".toList).intercalate (fields.map labelled ++ if more then ["..".toList] else []) ++
      " \x7d".toList

def optional (multiline : Bool) : Option (List Char) → List Char
  | none => "None".toList
  | some v =>
    if multiline then "Some(\n".toList ++ line v ++ [')'] else "Some(".toList ++ v ++ [')']

end TokenKeeper.Text
