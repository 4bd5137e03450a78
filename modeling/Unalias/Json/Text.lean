import Unalias.Json.Reader

/-!
String literals. A kept string is decoded and its surrogate escapes have to pair up; a skipped
string is only checked for its escapes.
-/

namespace Unalias.Json

def hexValue? (c : Char) : Option Nat :=
  if '0' ≤ c ∧ c ≤ '9' then some (c.toNat - 48)
  else if 'a' ≤ c ∧ c ≤ 'f' then some (c.toNat - 87)
  else if 'A' ≤ c ∧ c ≤ 'F' then some (c.toNat - 55)
  else none

/-- Drops the characters that start within the first `n` bytes, if the text has so many. -/
def dropBytes? : Nat → List Char → Option (List Char)
  | 0, text => some text
  | _ + 1, [] => none
  | n + 1, c :: rest => dropBytes? (n + 1 - c.utf8Size) rest

def fourHex? : List Char → Option (Nat × List Char)
  | a :: b :: c :: d :: rest =>
    match hexValue? a, hexValue? b, hexValue? c, hexValue? d with
    | some a, some b, some c, some d => some (((a * 16 + b) * 16 + c) * 16 + d, rest)
    | _, _, _, _ => none
  | _ => none

theorem fourHex?_length_lt {text rest : List Char} {n : Nat}
    (h : fourHex? text = some (n, rest)) : rest.length < text.length := by
  match text, h with
  | a :: b :: c :: d :: rest', h =>
    rw [fourHex?] at h
    split at h
    · cases h
      simp only [List.length_cons]
      omega
    · cases h

def unit (text : List Char) : Except Fault (Nat × List Char) :=
  match fourHex? text with
  | some r => .ok r
  | none =>
    match dropBytes? 4 text with
    | none => .error .endOfText
    | some rest => .error (.malformed rest)

theorem unit_length_lt {text rest : List Char} {n : Nat}
    (h : unit text = .ok (n, rest)) : rest.length < text.length := by
  rw [unit] at h
  split at h
  · rename_i hr
    cases h
    exact fourHex?_length_lt hr
  · split at h <;> cases h

def isLeading (n : Nat) : Bool := 0xD800 ≤ n && n ≤ 0xDBFF

def isTrailing (n : Nat) : Bool := 0xDC00 ≤ n && n ≤ 0xDFFF

def surrogatePair (n m : Nat) : Char :=
  Char.ofNat (0x10000 + (n - 0xD800) * 0x400 + (m - 0xDC00))

def unicodeEscape (text : List Char) : Except Fault (Char × List Char) :=
  match unit text with
  | .error e => .error e
  | .ok (n, rest) =>
    if isTrailing n then .error (.malformed rest)
    else if isLeading n then
      match expect ['\\', 'u'] rest with
      | .error e => .error e
      | .ok rest =>
        match unit rest with
        | .error e => .error e
        | .ok (m, rest) =>
          if isTrailing m then .ok (surrogatePair n m, rest) else .error (.malformed rest)
    else .ok (Char.ofNat n, rest)

theorem unicodeEscape_length_lt {text rest : List Char} {c : Char}
    (h : unicodeEscape text = .ok (c, rest)) : rest.length < text.length := by
  unfold unicodeEscape at h
  cases hn : unit text with
  | error e => simp only [hn] at h; cases h
  | ok r =>
    obtain ⟨n, rest₁⟩ := r
    have hlt := unit_length_lt hn
    simp only [hn] at h
    by_cases ht : isTrailing n
    · rw [if_pos ht] at h; cases h
    rw [if_neg ht] at h
    by_cases hl : isLeading n
    · rw [if_pos hl] at h
      cases he : expect ['\\', 'u'] rest₁ with
      | error e => simp only [he] at h; cases h
      | ok rest₂ =>
        have hle := expect_length_le he
        simp only [he] at h
        cases hm : unit rest₂ with
        | error e => simp only [hm] at h; cases h
        | ok r =>
          obtain ⟨m, rest₃⟩ := r
          have hlt' := unit_length_lt hm
          simp only [hm] at h
          by_cases ht' : isTrailing m
          · rw [if_pos ht', Except.ok.injEq, Prod.mk.injEq] at h
            rw [← h.2]
            omega
          · rw [if_neg ht'] at h; cases h
    · rw [if_neg hl] at h; cases h; exact hlt

def letterEscape? (c : Char) : Option Char :=
  if c = '"' ∨ c = '\\' ∨ c = '/' then some c
  else if c = 'b' then some '\x08'
  else if c = 'f' then some '\x0c'
  else if c = 'n' then some '\n'
  else if c = 'r' then some '\r'
  else if c = 't' then some '\t'
  else none

/-- The character of an escape, read after its backslash. -/
def escape : List Char → Except Fault (Char × List Char)
  | [] => .error .endOfText
  | c :: rest =>
    if c = 'u' then unicodeEscape rest
    else
      match letterEscape? c with
      | some d => .ok (d, rest)
      | none => .error (.malformed rest)

theorem escape_length_lt {text rest : List Char} {c : Char}
    (h : escape text = .ok (c, rest)) : rest.length < text.length := by
  cases text with
  | nil => cases h
  | cons d ds =>
    rw [escape] at h
    split at h
    · exact Nat.lt_succ_of_lt (unicodeEscape_length_lt h)
    · split at h
      · cases h; exact Nat.lt_succ_self _
      · cases h

/-- The characters of a string up to its closing quote, read after the opening one. -/
def stringTail (text : List Char) : Except Fault (List Char × List Char) :=
  match text with
  | [] => .error .endOfText
  | c :: rest =>
    if c = '"' then .ok ([], rest)
    else if c = '\\' then
      match h : escape rest with
      | .error e => .error e
      | .ok (d, rest') =>
        have : rest'.length < rest.length := escape_length_lt h
        match stringTail rest' with
        | .error e => .error e
        | .ok (ds, rest'') => .ok (d :: ds, rest'')
    else if c.toNat < 32 then .error (.malformed rest)
    else
      match stringTail rest with
      | .error e => .error e
      | .ok (ds, rest') => .ok (c :: ds, rest')
termination_by text.length
decreasing_by
  · simp only [List.length_cons]; omega
  · simp only [List.length_cons]; omega

theorem stringTail_length_lt {text rest cs : List Char}
    (h : stringTail text = .ok (cs, rest)) : rest.length < text.length := by
  fun_induction stringTail text generalizing cs rest with
  | case1 => cases h
  | case2 rest' => cases h; exact Nat.lt_succ_self _
  | case3 => cases h
  | case4 => cases h
  | case5 =>
    rename_i hlt _ _ hs _ ih
    cases h
    exact Nat.lt_succ_of_lt (Nat.lt_trans (ih hs) hlt)
  | case6 => cases h
  | case7 => cases h
  | case8 =>
    rename_i hs ih
    cases h
    exact Nat.lt_succ_of_lt (ih hs)

def keptString : Reader String where
  run text :=
    match stringTail text with
    | .error e => .error e
    | .ok (cs, rest) => .ok (String.ofList cs, rest)
  shorter := by
    intro text s rest h
    split at h
    · cases h
    · rename_i hs
      cases h
      exact stringTail_length_lt hs

/-- What follows a skipped string, read after its opening quote. A raw control character is
faulty where it stands. -/
def skipString (text : List Char) : Except Fault (List Char) :=
  match text with
  | [] => .error .endOfText
  | c :: rest =>
    if c = '"' then .ok rest
    else if c = '\\' then
      match rest with
      | [] => .error .endOfText
      | d :: rest' =>
        if d = 'u' then
          match h : unit rest' with
          | .error e => .error e
          | .ok (_, rest'') =>
            have : rest''.length < rest'.length := unit_length_lt h
            skipString rest''
        else if (letterEscape? d).isSome then skipString rest'
        else .error (.malformed rest')
    else if c.toNat < 32 then .error (.malformed (c :: rest))
    else skipString rest
termination_by text.length
decreasing_by all_goals simp only [List.length_cons]; omega

theorem skipString_length_lt {text rest : List Char} (h : skipString text = .ok rest) :
    rest.length < text.length := by
  fun_induction skipString text with
  | case1 => cases h
  | case2 => cases h; exact Nat.lt_succ_self _
  | case3 => cases h
  | case4 => cases h
  | case5 =>
    rename_i hlt ih
    have := ih h
    simp only [List.length_cons]
    omega
  | case6 =>
    rename_i ih
    have := ih h
    simp only [List.length_cons]
    omega
  | case7 => cases h
  | case8 => cases h
  | case9 =>
    rename_i ih
    exact Nat.lt_succ_of_lt (ih h)

end Unalias.Json
