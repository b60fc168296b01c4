/-!
Comparison of names without regard to case. Only the letters of ASCII have a second case here, so
a letter outside ASCII equals itself alone.
-/
namespace SoqlAssist.Text

/-- The text with the capital letters of ASCII made small. -/
def lower (s : String) : List Char :=
  s.toList.map Char.toLower

def upper (s : String) : String :=
  String.ofList (s.toList.map Char.toUpper)

def sameFold (s t : String) : Bool :=
  lower s == lower t

end SoqlAssist.Text
