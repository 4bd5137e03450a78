import Unalias.Json.Skip
import Unalias.Keyed

/-!
Values that are kept, and the parts of which readers of a known shape are made: lists of elements
and of members, and the fault of a value of another shape.
-/

namespace Unalias.Json

variable {σ : Type}

def elements (element : σ → Reader σ) (first : Bool) (s : σ) (text : List Char) :
    Except Fault (σ × List Char) :=
  match h : nextElement first text with
  | .error e => .error e
  | .ok (.close rest) => .ok (s, rest)
  | .ok (.item t) =>
    have := nextElement_item_length h
    match h' : (element s).run t with
    | .error e => .error e
    | .ok (s', rest) =>
      have := (element s).shorter h'
      elements element false s' rest
termination_by text.length

theorem elements_length_lt {element : σ → Reader σ} {first : Bool} {s s' : σ}
    {text rest : List Char} (h : elements element first s text = .ok (s', rest)) :
    rest.length < text.length := by
  fun_induction elements element first s text with
  | case1 => cases h
  | case2 _ _ _ _ hc => cases h; exact nextElement_close_length hc
  | case3 => cases h
  | case4 =>
    rename_i hle _ _ _ hlt ih
    exact Nat.lt_trans (ih h) (Nat.lt_of_lt_of_le hlt hle)

/-- Reads the members of an object into a state, after the opening bracket. A member is read from
the end of its key. -/
def members (member : σ → String → Reader σ) (first : Bool) (s : σ) (text : List Char) :
    Except Fault (σ × List Char) :=
  match h : nextKey first text with
  | .error e => .error e
  | .ok (.close rest) => .ok (s, rest)
  | .ok (.item t) =>
    have := nextKey_length h
    match h' : (keptString.bind (member s)).run t with
    | .error e => .error e
    | .ok (s', rest) =>
      have := (keptString.bind (member s)).shorter h'
      members member false s' rest
termination_by text.length
decreasing_by simp only [Turn.rest] at *; omega

theorem members_length_lt {member : σ → String → Reader σ} {first : Bool} {s s' : σ}
    {text rest : List Char} (h : members member first s text = .ok (s', rest)) :
    rest.length < text.length := by
  fun_induction members member first s text with
  | case1 => cases h
  | case2 _ _ _ _ hc => cases h; exact nextKey_length hc
  | case3 => cases h
  | case4 =>
    rename_i hle _ _ _ hlt ih
    exact Nat.lt_trans (ih h) (Nat.lt_trans hlt hle)

def afterColon {α : Type} (value : Reader α) : Reader α where
  run text :=
    match skipColon text with
    | .error e => .error e
    | .ok rest => value.run rest
  shorter := by
    intro text a rest h
    split at h
    · cases h
    · rename_i hc
      exact Nat.lt_of_lt_of_le (value.shorter h) (skipColon_length_le hc)

def scalar : List Char → Except Fault (Json × List Char)
  | [] => .error .endOfText
  | c :: rest =>
    if c = '"' then (keptString.map .string).run rest
    else if c = 'n' then (expect ['u', 'l', 'l'] rest).map fun rest => (.null, rest)
    else if c = 't' then (expect ['r', 'u', 'e'] rest).map fun rest => (.bool true, rest)
    else if c = 'f' then (expect ['a', 'l', 's', 'e'] rest).map fun rest => (.bool false, rest)
    else if c = '-' then (unsigned true rest).map fun (n, rest) => (.number n, rest)
    else if c.isDigit then (unsigned false (c :: rest)).map fun (n, rest) => (.number n, rest)
    else .error (.malformed rest)

theorem expect_map_length_le {word text rest : List Char} {v w : Json}
    (h : ((expect word text).map fun rest => (v, rest)) = .ok (w, rest)) :
    rest.length ≤ text.length := by
  cases he : expect word text with
  | error e => rw [he] at h; cases h
  | ok r =>
    rw [he] at h
    cases h
    exact expect_length_le he

theorem unsigned_map_length_lt {negative : Bool} {text rest : List Char} {w : Json}
    (h : ((unsigned negative text).map fun (n, rest) => (Json.number n, rest)) = .ok (w, rest)) :
    rest.length < text.length := by
  cases hn : unsigned negative text with
  | error e => rw [hn] at h; cases h
  | ok r =>
    rw [hn] at h
    cases h
    exact unsigned_length_lt hn

theorem scalar_length_lt {text rest : List Char} {v : Json} (h : scalar text = .ok (v, rest)) :
    rest.length < text.length := by
  cases text with
  | nil => cases h
  | cons c cs =>
    rw [scalar] at h
    split at h
    · exact Nat.lt_succ_of_lt ((keptString.map Json.string).shorter h)
    · split at h
      · exact Nat.lt_succ_of_le (expect_map_length_le h)
      · split at h
        · exact Nat.lt_succ_of_le (expect_map_length_le h)
        · split at h
          · exact Nat.lt_succ_of_le (expect_map_length_le h)
          · split at h
            · exact Nat.lt_succ_of_lt (unsigned_map_length_lt h)
            · split at h
              · exact unsigned_map_length_lt h
              · cases h

/-- The fault of a value that stands where another shape is asked for. A value without brackets is
read first, and its own fault comes before. -/
def mismatch (text : List Char) : Fault :=
  match text with
  | '[' :: _ => .shape
  | '{' :: _ => .shape
  | _ =>
    match scalar text with
    | .error e => e
    | .ok _ => .shape

/-- A value whose elements and members are read by `inner`; without it, brackets are refused. -/
def valueWith (inner : Option (Reader Json)) : Reader Json where
  run text :=
    match skipBlank text with
    | [] => .error .endOfText
    | c :: rest =>
      if c = '[' then
        match inner with
        | none => .error (.malformed rest)
        | some value =>
          (elements (fun l => value.map (· :: l)) true [] rest).map fun (l, rest) =>
            (.array l.reverse, rest)
      else if c = '{' then
        match inner with
        | none => .error (.malformed rest)
        | some value =>
          (members (fun l key => (afterColon value).map (Keyed.set key · l)) true [] rest).map
            fun (l, rest) => (.object l, rest)
      else scalar (c :: rest)
  shorter := by
    intro text v rest h
    have hb := skipBlank_length_le text
    split at h
    · cases h
    · rename_i c cs hc
      rw [hc] at hb
      split at h
      · split at h
        · cases h
        · rename_i value
          cases he : elements (fun l => value.map (· :: l)) true [] cs with
          | error e => rw [he] at h; cases h
          | ok r =>
            rw [he] at h
            cases h
            exact Nat.lt_trans (elements_length_lt he) hb
      · split at h
        · split at h
          · cases h
          · rename_i value
            cases he : members (fun l key => (afterColon value).map (Keyed.set key · l))
                true [] cs with
            | error e => rw [he] at h; cases h
            | ok r =>
              rw [he] at h
              cases h
              exact Nat.lt_trans (members_length_lt he) hb
        · exact Nat.lt_of_lt_of_le (scalar_length_lt h) hb

/-- A value of at most the given number of nested brackets. -/
def value : (depth : Nat) → Reader Json
  | 0 => valueWith none
  | depth + 1 => valueWith (some (value depth))

def maxDepth : Nat := 127

def whole {α : Type} (reader : Reader α) (text : List Char) : Except Fault α :=
  match reader.run text with
  | .error e => .error e
  | .ok (a, rest) =>
    match skipBlank rest with
    | [] => .ok a
    | _ :: rest => .error (.malformed rest)

/-- Why a text was refused, with the line of the first offending character. -/
inductive Refusal where
  | endOfText (line : Nat)
  | malformed (line : Nat)
  | shape
  deriving DecidableEq, Repr

/-- The line on which `text` stands once only `rest` is left of it. -/
def lineAt (text rest : List Char) : Nat :=
  1 + text.count '\n' - rest.count '\n'

def Fault.locate (text : List Char) : Fault → Refusal
  | .endOfText => .endOfText (lineAt text [])
  | .malformed rest => .malformed (lineAt text rest)
  | .shape => .shape

def parse (text : String) : Except Refusal Json :=
  match whole (value maxDepth) text.toList with
  | .error e => .error (e.locate text.toList)
  | .ok v => .ok v

end Unalias.Json
