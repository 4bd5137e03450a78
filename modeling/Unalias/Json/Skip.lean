import Unalias.Json.Numeral
import Unalias.Json.Text

/-!
Values that are passed over. They are checked to be JSON, but nest to any depth and their numbers
have any size.
-/

namespace Unalias.Json

inductive Bracket where
  | square
  | curly
  deriving DecidableEq, Repr

def Bracket.closing : Bracket → Char
  | .square => ']'
  | .curly => '}'

def skipScalar : List Char → Except Fault (List Char)
  | [] => .error .endOfText
  | c :: rest =>
    if c = '"' then skipString rest
    else if c = 'n' then expect ['u', 'l', 'l'] rest
    else if c = 't' then expect ['r', 'u', 'e'] rest
    else if c = 'f' then expect ['a', 'l', 's', 'e'] rest
    else if c = '-' then ((numeral (.malformed [])).run rest).map Prod.snd
    else if c.isDigit then ((numeral (.malformed [])).run (c :: rest)).map Prod.snd
    else .error (.malformed rest)

theorem numeral_map_snd_length_lt {f : Fault} {text rest : List Char}
    (h : ((numeral f).run text).map Prod.snd = .ok rest) : rest.length < text.length := by
  cases hn : (numeral f).run text with
  | error e => rw [hn] at h; cases h
  | ok r =>
    rw [hn] at h
    cases h
    exact (numeral f).shorter hn

theorem skipScalar_length_lt {text rest : List Char} (h : skipScalar text = .ok rest) :
    rest.length < text.length := by
  cases text with
  | nil => cases h
  | cons c cs =>
    rw [skipScalar] at h
    split at h
    · exact Nat.lt_succ_of_lt (skipString_length_lt h)
    · split at h
      · exact Nat.lt_succ_of_le (expect_length_le h)
      · split at h
        · exact Nat.lt_succ_of_le (expect_length_le h)
        · split at h
          · exact Nat.lt_succ_of_le (expect_length_le h)
          · split at h
            · exact Nat.lt_succ_of_lt (numeral_map_snd_length_lt h)
            · split at h
              · exact numeral_map_snd_length_lt h
              · cases h

def skipColon (text : List Char) : Except Fault (List Char) :=
  expect [':'] (skipBlank text)

theorem skipColon_length_le {text rest : List Char} (h : skipColon text = .ok rest) :
    rest.length ≤ text.length :=
  Nat.le_trans (expect_length_le h) (skipBlank_length_le text)

def skipKey (text : List Char) : Except Fault (List Char) :=
  match expect ['"'] (skipBlank text) with
  | .error e => .error e
  | .ok rest =>
    match skipString rest with
    | .error e => .error e
    | .ok rest => skipColon rest

theorem skipKey_length_lt {text rest : List Char} (h : skipKey text = .ok rest) :
    rest.length < text.length := by
  rw [skipKey] at h
  split at h
  · cases h
  · rename_i hq
    split at h
    · cases h
    · rename_i hs
      exact Nat.lt_of_le_of_lt (skipColon_length_le h) (Nat.lt_of_lt_of_le
        (skipString_length_lt hs) (Nat.le_trans (expect_length_le hq) (skipBlank_length_le text)))

/-- The place of the next value between brackets, a key before it read over. -/
def skipToValue (b : Bracket) (text : List Char) : Except Fault (List Char) :=
  match b with
  | .square => .ok text
  | .curly => skipKey text

theorem skipToValue_length_le {b : Bracket} {text rest : List Char}
    (h : skipToValue b text = .ok rest) : rest.length ≤ text.length := by
  cases b with
  | square => cases h; exact Nat.le_refl _
  | curly => exact Nat.le_of_lt (skipKey_length_lt h)

mutual

/-- What follows a value and all that is still open around it. -/
def skipValue (around : List Bracket) (text : List Char) :
    Except Fault { rest : List Char // rest.length < text.length } :=
  match ht : skipBlank text with
  | [] => .error .endOfText
  | c :: cs =>
    have hc : cs.length < text.length := by
      have := skipBlank_length_le text
      rw [ht] at this
      exact this
    if c = '[' then
      match skipOpen (.square :: around) true cs with
      | .error e => .error e
      | .ok ⟨rest, h⟩ => .ok ⟨rest, Nat.lt_of_le_of_lt h hc⟩
    else if c = '{' then
      match skipOpen (.curly :: around) true cs with
      | .error e => .error e
      | .ok ⟨rest, h⟩ => .ok ⟨rest, Nat.lt_of_le_of_lt h hc⟩
    else
      match hs : skipScalar (c :: cs) with
      | .error e => .error e
      | .ok after =>
        have ha : after.length < text.length :=
          Nat.lt_of_le_of_lt (Nat.le_of_lt_succ (skipScalar_length_lt hs)) hc
        match skipOpen around false after with
        | .error e => .error e
        | .ok ⟨rest, h⟩ => .ok ⟨rest, Nat.lt_of_le_of_lt h ha⟩
termination_by 2 * text.length
decreasing_by all_goals omega

/-- What follows the open brackets, read after a value or, at `first`, after the innermost of
them. -/
def skipOpen (around : List Bracket) (first : Bool) (text : List Char) :
    Except Fault { rest : List Char // rest.length ≤ text.length } :=
  match around with
  | [] => .ok ⟨text, Nat.le_refl _⟩
  | b :: outer =>
    match ht : skipBlank text with
    | [] => .error .endOfText
    | c :: cs =>
      have hle : cs.length + 1 ≤ text.length := by
        have := skipBlank_length_le text
        rw [ht] at this
        exact this
      if c = b.closing then
        match skipOpen outer false cs with
        | .error e => .error e
        | .ok ⟨rest, h⟩ => .ok ⟨rest, Nat.le_trans h (Nat.le_of_lt hle)⟩
      else if first ∨ c = ',' then
        match hv : skipToValue b (if first then c :: cs else cs) with
        | .error e => .error e
        | .ok item =>
          have hi : item.length ≤ text.length := by
            have := skipToValue_length_le hv
            split at this
            · exact Nat.le_trans this hle
            · exact Nat.le_trans this (Nat.le_of_lt hle)
          match skipValue (b :: outer) item with
          | .error e => .error e
          | .ok ⟨rest, h⟩ => .ok ⟨rest, Nat.le_trans (Nat.le_of_lt h) hi⟩
      else .error (.malformed cs)
termination_by 2 * text.length + 1
decreasing_by all_goals omega

end

def skip : Reader Unit where
  run text :=
    match skipValue [] text with
    | .error e => .error e
    | .ok ⟨rest, _⟩ => .ok ((), rest)
  shorter := by
    intro text a rest h
    split at h
    · cases h
    · rename_i rest' hlt _
      cases h
      exact hlt

end Unalias.Json
