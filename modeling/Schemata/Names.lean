/-!
# Names in a container

Structs, schemas, databases and registries all want their names to be
distinct and report the first one that comes a second time.
-/

namespace Schemata.Names

/-- The first of `names` that is in `seen` or stands earlier in the list. -/
def repeatedFrom? (seen : List String) : List String → Option String
  | [] => none
  | name :: names =>
    if seen.contains name then some name
    else repeatedFrom? (name :: seen) names

/-- The first name that comes a second time. -/
def repeated? (names : List String) : Option String :=
  repeatedFrom? [] names

end Schemata.Names
