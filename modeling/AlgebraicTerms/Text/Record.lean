/-!
# Records

A named record on one line, with its fields in braces: `Name` or `Name { key: value, key: value }`.
-/

namespace AlgebraicTerms.Text

def record (name : String) (fields : List (String × String)) : String :=
  match fields with
  | [] => name
  | fields =>
    name ++ " \x7b " ++ ", ".intercalate (fields.map fun (key, value) => key ++ ": " ++ value) ++
      " \x7d"

end AlgebraicTerms.Text
