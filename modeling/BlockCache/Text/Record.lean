/-!
# Record — one-line texts of records

A record is written as its name and its fields in braces, in declaration order.
-/

namespace BlockCache
namespace Text

def bool (b : Bool) : String :=
  if b then "true" else "false"

def optional : Option Nat → String
  | none => "None"
  | some n => "Some(" ++ toString n ++ ")"

def fields (fs : List (String × String)) : String :=
  ", ".intercalate (fs.map fun f => f.1 ++ ": " ++ f.2)

def record (name : String) (fs : List (String × String)) : String :=
  name ++ " \x7b " ++ fields fs ++ " \x7d"

/-- A record of which only some fields are shown. -/
def partialRecord (name : String) (fs : List (String × String)) : String :=
  name ++ " \x7b " ++ fields fs ++ ", .. \x7d"

end Text
end BlockCache
