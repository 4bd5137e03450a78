import Unalias.Config.Jsonc
import Unalias.Json.Parser

/-!
A configuration document as written: the documents it extends and the options it sets. Each record
may be written as an object or as an array of its fields in order.
-/

namespace Unalias.Config

open Json (Reader Fault)

/-- The options of one document; `paths` keeps its patterns in the order written. -/
structure Options where
  baseUrl : Option String := none
  outDir : Option String := none
  paths : Option (List (String × Json)) := none
  deriving Inhabited

/-- A document; the one extended last counts most. -/
structure Document where
  extends? : Option (List String) := none
  options : Option Options := none
  deriving Inhabited

variable {σ α : Type}

structure Field (σ : Type) where
  key : String
  isSet : σ → Bool
  read : σ → Reader σ

/-- Passes over everything up to the end of an array whose elements are all read. -/
def endArray (text : List Char) : Except Fault (List Char) :=
  match Json.skipBlank text with
  | [] => .error .endOfText
  | c :: rest =>
    if c = ']' then .ok rest
    else if c = ',' then .error (.malformed (Json.skipBlank rest).tail)
    else .error (.malformed rest)

theorem endArray_length_lt {text rest : List Char} (h : endArray text = .ok rest) :
    rest.length < text.length := by
  have hb := Json.skipBlank_length_le text
  rw [endArray] at h
  split at h
  · cases h
  · rename_i c cs hc
    rw [hc] at hb
    split at h
    · cases h; exact hb
    · split at h <;> cases h

/-- Reads fields in order; those that the array has no element for stay unset. -/
def readInOrder : List (Field σ) → (first : Bool) → σ → List Char → Except Fault (σ × List Char)
  | [], _, s, text => (endArray text).map fun rest => (s, rest)
  | field :: fields, first, s, text =>
    match Json.nextElement first text with
    | .error e => .error e
    | .ok (.close rest) => .ok (s, rest)
    | .ok (.item t) =>
      match (field.read s).run t with
      | .error e => .error e
      | .ok (s, rest) => readInOrder fields false s rest

theorem readInOrder_length_lt {fields : List (Field σ)} {first : Bool} {s s' : σ}
    {text rest : List Char} (h : readInOrder fields first s text = .ok (s', rest)) :
    rest.length < text.length := by
  induction fields generalizing first s text with
  | nil =>
    rw [readInOrder] at h
    cases he : endArray text with
    | error e => rw [he] at h; cases h
    | ok r =>
      rw [he] at h
      cases h
      exact endArray_length_lt he
  | cons field fields ih =>
    rw [readInOrder] at h
    split at h
    · cases h
    · rename_i hc
      cases h
      exact Json.nextElement_close_length hc
    · rename_i hi
      split at h
      · cases h
      · rename_i hr
        exact Nat.lt_trans (ih h)
          (Nat.lt_of_lt_of_le ((field.read s).shorter hr) (Json.nextElement_item_length hi))

/-- Reads a member from the end of its key. A key that no field has is passed over; one that was
read already is refused before its value. -/
def readMember (fields : List (Field σ)) (s : σ) (key : String) : Reader σ :=
  match fields.find? fun field => field.key = key with
  | none => Json.afterColon (Json.skip.map fun _ => s)
  | some field =>
    if field.isSet s then .fail fun _ => .shape else Json.afterColon (field.read s)

/-- A record, written either way. -/
def record (fields : List (Field σ)) (empty : σ) : Reader σ where
  run text :=
    match Json.skipBlank text with
    | [] => .error .endOfText
    | c :: rest =>
      if c = '[' then readInOrder fields true empty rest
      else if c = '{' then Json.members (readMember fields) true empty rest
      else .error (Json.mismatch (c :: rest))
  shorter := by
    intro text s rest h
    have hb := Json.skipBlank_length_le text
    split at h
    · cases h
    · rename_i c cs hc
      rw [hc] at hb
      split at h
      · exact Nat.lt_trans (readInOrder_length_lt h) hb
      · split at h
        · exact Nat.lt_trans (Json.members_length_lt h) hb
        · cases h

/-- A value or `null`, which stands for an absent one. -/
def orNull (reader : Reader α) : Reader (Option α) where
  run text :=
    match Json.skipBlank text with
    | [] => .error .endOfText
    | c :: rest =>
      if c = 'n' then (Json.expect ['u', 'l', 'l'] rest).map fun rest => (none, rest)
      else (reader.map some).run (c :: rest)
  shorter := by
    intro text s rest h
    have hb := Json.skipBlank_length_le text
    split at h
    · cases h
    · rename_i c cs hc
      rw [hc] at hb
      split at h
      · cases he : Json.expect ['u', 'l', 'l'] cs with
        | error e => rw [he] at h; cases h
        | ok r =>
          rw [he] at h
          cases h
          exact Nat.lt_of_le_of_lt (Json.expect_length_le he) hb
      · exact Nat.lt_of_lt_of_le ((reader.map some).shorter h) hb

def plainString : Reader String where
  run text :=
    match Json.skipBlank text with
    | [] => .error .endOfText
    | c :: rest =>
      if c = '"' then Json.keptString.run rest else .error (Json.mismatch (c :: rest))
  shorter := by
    intro text s rest h
    have hb := Json.skipBlank_length_le text
    split at h
    · cases h
    · rename_i c cs hc
      rw [hc] at hb
      split at h
      · exact Nat.lt_trans (Json.keptString.shorter h) hb
      · cases h

/-- The members of an object whose values nest at most `depth` deep. -/
def object (depth : Nat) : Reader (List (String × Json)) where
  run text :=
    match Json.skipBlank text with
    | [] => .error .endOfText
    | c :: rest =>
      if c = '{' then
        Json.members (fun l key => (Json.afterColon (Json.value depth)).map (Keyed.set key · l))
          true [] rest
      else .error (Json.mismatch (c :: rest))
  shorter := by
    intro text s rest h
    have hb := Json.skipBlank_length_le text
    split at h
    · cases h
    · rename_i c cs hc
      rw [hc] at hb
      split at h
      · exact Nat.lt_trans (Json.members_length_lt h) hb
      · cases h

def shaped (reader : Reader α) (shape? : α → Option σ) : Reader σ where
  run text :=
    match reader.run text with
    | .error e => .error e
    | .ok (a, rest) =>
      match shape? a with
      | none => .error .shape
      | some s => .ok (s, rest)
  shorter := by
    intro text s rest h
    split at h
    · cases h
    · rename_i hr
      split at h
      · cases h
      · cases h
        exact reader.shorter hr

def parents? : Json → Option (Option (List String))
  | .null => some none
  | .string s => some (some [s])
  | v => v.strings?.map some

/-- A field that has been read counts as set even if it is `null`. -/
def field (key : String) (get : σ → Option α) (set : σ → α → σ) (reader : Reader α) :
    Field σ where
  key := key
  isSet s := (get s).isSome
  read s := reader.map (set s)

/-- Options while they are read: each field apart, `none` until its key was seen. -/
structure OptionsDraft where
  baseUrl : Option (Option String) := none
  outDir : Option (Option String) := none
  paths : Option (Option (List (String × Json))) := none

def OptionsDraft.finish (d : OptionsDraft) : Options :=
  ⟨d.baseUrl.join, d.outDir.join, d.paths.join⟩

def optionFields (depth : Nat) : List (Field OptionsDraft) :=
  [field "baseUrl" (·.baseUrl) (fun d v => { d with baseUrl := some v }) (orNull plainString),
    field "outDir" (·.outDir) (fun d v => { d with outDir := some v }) (orNull plainString),
    field "paths" (·.paths) (fun d v => { d with paths := some v }) (orNull (object depth))]

structure DocumentDraft where
  extends? : Option (Option (List String)) := none
  options : Option (Option Options) := none

def DocumentDraft.finish (d : DocumentDraft) : Document :=
  ⟨d.extends?.join, d.options.join⟩

/-- The document, its options and their `paths` take up three levels of the depth of a text. -/
def documentFields : List (Field DocumentDraft) :=
  [field "extends" (·.extends?) (fun d v => { d with extends? := some v })
      (shaped (Json.value (Json.maxDepth - 1)) parents?),
    field "compilerOptions" (·.options) (fun d v => { d with options := some v })
      (orNull ((record (optionFields (Json.maxDepth - 3)) {}).map OptionsDraft.finish))]

def document : Reader Document :=
  (record documentFields {}).map DocumentDraft.finish

/-- The document that a text with comments and trailing commas holds. -/
def Document.parse (text : String) : Except Json.Refusal Document :=
  let strict := (Jsonc.toStrict text).toList
  match Json.whole document strict with
  | .error e => .error (e.locate strict)
  | .ok d => .ok d

end Unalias.Config
