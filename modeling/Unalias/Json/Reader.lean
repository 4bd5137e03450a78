/-!
Readers of JSON text. A reader either fails with the first fault of the text or returns a value
and what follows it, which is always shorter than the text it was given.
-/

namespace Unalias.Json

/-- Why a text does not read: it stops too early, it is not JSON, or it is JSON of another shape.
A malformed text is described by what follows the offending character. -/
inductive Fault where
  | endOfText
  | malformed (rest : List Char)
  | shape
  deriving DecidableEq, Repr

structure Reader (α : Type) where
  run : List Char → Except Fault (α × List Char)
  shorter : ∀ {text a rest}, run text = .ok (a, rest) → rest.length < text.length

namespace Reader

variable {α β : Type}

def map (f : α → β) (r : Reader α) : Reader β where
  run text :=
    match r.run text with
    | .error e => .error e
    | .ok (a, rest) => .ok (f a, rest)
  shorter := by
    intro text b rest h
    split at h
    · cases h
    · rename_i a rest' ha
      cases h
      exact r.shorter ha

def bind (r : Reader α) (f : α → Reader β) : Reader β where
  run text :=
    match r.run text with
    | .error e => .error e
    | .ok (a, rest) => (f a).run rest
  shorter := by
    intro text b rest h
    split at h
    · cases h
    · rename_i a rest' ha
      exact Nat.lt_trans ((f a).shorter h) (r.shorter ha)

def fail (fault : List Char → Fault) : Reader α where
  run text := .error (fault text)
  shorter := by intro text a rest h; cases h

end Reader

def isBlank (c : Char) : Bool :=
  c = ' ' || c = '\t' || c = '\n' || c = '\r'

def skipBlank : List Char → List Char
  | [] => []
  | c :: cs => if isBlank c then skipBlank cs else c :: cs

theorem skipBlank_length_le (text : List Char) : (skipBlank text).length ≤ text.length := by
  induction text with
  | nil => exact Nat.le_refl _
  | cons c cs ih =>
    rw [skipBlank]
    split
    · exact Nat.le_succ_of_le ih
    · exact Nat.le_refl _

def expect : (word : List Char) → List Char → Except Fault (List Char)
  | [], text => .ok text
  | _ :: _, [] => .error .endOfText
  | w :: word, c :: rest => if c = w then expect word rest else .error (.malformed rest)

theorem expect_length_le {word text rest : List Char} (h : expect word text = .ok rest) :
    rest.length ≤ text.length := by
  induction word generalizing text with
  | nil => cases h; exact Nat.le_refl _
  | cons w word ih =>
    cases text with
    | nil => cases h
    | cons c cs =>
      rw [expect] at h
      split at h
      · exact Nat.le_succ_of_le (ih h)
      · cases h

/-- Where a list of items stands: at its end or at an item. -/
inductive Turn where
  | close (rest : List Char)
  | item (text : List Char)

/-- The turn inside an array: its items are parted by commas. -/
def nextElement (first : Bool) (text : List Char) : Except Fault Turn :=
  match skipBlank text with
  | [] => .error .endOfText
  | c :: rest =>
    if c = ']' then .ok (.close rest)
    else if first then .ok (.item (c :: rest))
    else if c = ',' then
      match skipBlank rest with
      | [] => .error .endOfText
      | d :: rest' => if d = ']' then .error (.malformed rest') else .ok (.item (d :: rest'))
    else .error (.malformed rest)

/-- The turn inside an object; the item starts after the quote of its key. -/
def nextKey (first : Bool) (text : List Char) : Except Fault Turn :=
  match skipBlank text with
  | [] => .error .endOfText
  | c :: rest =>
    if c = '}' then .ok (.close rest)
    else if first then
      if c = '"' then .ok (.item rest) else .error (.malformed rest)
    else if c = ',' then
      match skipBlank rest with
      | [] => .error .endOfText
      | d :: rest' => if d = '"' then .ok (.item rest') else .error (.malformed rest')
    else .error (.malformed rest)

def Turn.rest : Turn → List Char
  | .close rest => rest
  | .item text => text

theorem nextElement_item_length {first : Bool} {text t : List Char}
    (h : nextElement first text = .ok (.item t)) : t.length ≤ text.length := by
  have hb := skipBlank_length_le text
  rw [nextElement] at h
  split at h
  · cases h
  · rename_i c rest hc
    rw [hc] at hb
    have hb' := skipBlank_length_le rest
    split at h
    · cases h
    · split at h
      · cases h; exact hb
      · split at h
        · split at h
          · cases h
          · rename_i d rest' hd
            rw [hd] at hb'
            split at h
            · cases h
            · cases h
              exact Nat.le_trans hb' (Nat.le_of_succ_le hb)
        · cases h

theorem nextElement_close_length {first : Bool} {text t : List Char}
    (h : nextElement first text = .ok (.close t)) : t.length < text.length := by
  have hb := skipBlank_length_le text
  rw [nextElement] at h
  split at h
  · cases h
  · rename_i c rest hc
    rw [hc] at hb
    split at h
    · cases h; exact hb
    · split at h
      · cases h
      · split at h
        · split at h
          · cases h
          · split at h <;> cases h
        · cases h

theorem nextKey_length {first : Bool} {text : List Char} {turn : Turn}
    (h : nextKey first text = .ok turn) : turn.rest.length < text.length := by
  have hb := skipBlank_length_le text
  rw [nextKey] at h
  split at h
  · cases h
  · rename_i c rest hc
    rw [hc] at hb
    have hb' := skipBlank_length_le rest
    split at h
    · cases h; exact hb
    · split at h
      · split at h
        · cases h; exact hb
        · cases h
      · split at h
        · split at h
          · cases h
          · rename_i d rest' hd
            rw [hd] at hb'
            split at h
            · cases h
              exact Nat.lt_of_lt_of_le (Nat.lt_of_succ_le hb') (Nat.le_of_succ_le hb)
            · cases h
        · cases h

end Unalias.Json
