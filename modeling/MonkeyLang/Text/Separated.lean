/-!
# Lists in running text

Items are set apart by a comma and a blank, in rendered code, in displayed
values and in diagnostic texts alike.
-/

namespace MonkeyLang

/-- The items in order, with `", "` between each two of them. -/
def commaSeparated : List String → String
  | [] => ""
  | [item] => item
  | item :: next :: rest => item ++ ", " ++ commaSeparated (next :: rest)

end MonkeyLang
