import CypherTraversal.Text.Letter
import CypherTraversal.Text.Numeral

/-! # Names

A plain name is a letter or an underscore followed by letters, numerals and underscores. Plain
names are written as they are; any other name stands between backquotes. Keywords and function
names are compared without regard to ASCII case. -/

namespace CypherTraversal.Text

def isNameStart (c : Char) : Bool :=
  isLetter c || c == '_'

def isNamePart (c : Char) : Bool :=
  isLetter c || isNumeral c || c == '_'

def isPlainName (s : String) : Bool :=
  match s.toList with
  | [] => false
  | c :: cs => isNameStart c && cs.all isNamePart

def writeName (s : String) : String :=
  if isPlainName s then s else "`" ++ s ++ "`"

def lowerAscii (s : String) : String :=
  String.ofList (s.toList.map Char.toLower)

def sameIgnoringCase (s t : String) : Bool :=
  lowerAscii s == lowerAscii t

end CypherTraversal.Text
