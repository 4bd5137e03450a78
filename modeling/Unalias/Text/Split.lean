/-!
A text cut at every occurrence of a character.
-/

namespace Unalias.Text

/-- The pieces between the separators of a text, empty pieces included. -/
def split (separator : Char) : List Char → List (List Char)
  | [] => [[]]
  | c :: cs =>
    if c = separator then [] :: split separator cs
    else
      match split separator cs with
      | [] => [[c]]
      | p :: ps => (c :: p) :: ps

end Unalias.Text
