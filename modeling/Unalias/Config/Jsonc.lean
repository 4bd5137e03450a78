import Unalias.Text.Blank

/-!
JSON with comments and trailing commas. `toStrict` removes both and leaves strings and line breaks
as they are, so that a fault keeps its line.
-/

namespace Unalias.Jsonc

/-- Where a character stands. A block comment remembers whether a star came just before. -/
inductive Place where
  | plain
  | string
  | escaped
  | lineComment
  | blockStart
  | blockComment (star : Bool)
  deriving DecidableEq, Repr

def Place.afterQuoted (c : Char) : Place :=
  if c = '\\' then .escaped else if c = '"' then .plain else .string

/-- Removes comments. The line break that ends a line comment and those inside a block comment
stay. -/
def stripComments : Place → List Char → List Char
  | _, [] => []
  | .plain, c :: cs =>
    if c = '"' then c :: stripComments .string cs
    else if c = '/' ∧ cs.head? = some '/' then stripComments .lineComment cs
    else if c = '/' ∧ cs.head? = some '*' then stripComments .blockStart cs
    else c :: stripComments .plain cs
  | .string, c :: cs => c :: stripComments (.afterQuoted c) cs
  | .escaped, c :: cs => c :: stripComments .string cs
  | .lineComment, c :: cs =>
    if c = '\n' then c :: stripComments .plain cs else stripComments .lineComment cs
  | .blockStart, _ :: cs => stripComments (.blockComment false) cs
  | .blockComment star, c :: cs =>
    if star ∧ c = '/' then stripComments .plain cs
    else if c = '\n' then c :: stripComments (.blockComment false) cs
    else stripComments (.blockComment (c = '*')) cs

/-- Whether the next character that is no blank closes an array or an object. -/
def closesNext (cs : List Char) : Bool :=
  match cs.find? fun c => !Text.isBlank c with
  | some c => c = '}' || c = ']'
  | none => false

def stripCommas : Place → List Char → List Char
  | _, [] => []
  | .string, c :: cs => c :: stripCommas (.afterQuoted c) cs
  | .escaped, c :: cs => c :: stripCommas .string cs
  | _, c :: cs =>
    if c = '"' then c :: stripCommas .string cs
    else if c = ',' ∧ closesNext cs then stripCommas .plain cs
    else c :: stripCommas .plain cs

def toStrict (text : String) : String :=
  String.ofList (stripCommas .plain (stripComments .plain text.toList))

end Unalias.Jsonc
