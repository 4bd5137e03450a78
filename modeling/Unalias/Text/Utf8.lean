/-!
Reading bytes as text where they may be no text: what is no character is shown by the replacement
character, once for each longest start of a character that breaks off.
-/

namespace Unalias.Text

/-- How many bytes the character with a lead byte has; no character has a lead byte of width 0. -/
def width (lead : Nat) : Nat :=
  if lead < 0x80 then 1
  else if lead < 0xc2 then 0
  else if lead < 0xe0 then 2
  else if lead < 0xf0 then 3
  else if lead < 0xf5 then 4
  else 0

/-- The least and the greatest byte after a lead byte. Those it excludes would give a character
that has a shorter form, half a surrogate pair, or none at all. -/
def secondBounds (lead : Nat) : Nat × Nat :=
  if lead = 0xe0 then (0xa0, 0xbf)
  else if lead = 0xed then (0x80, 0x9f)
  else if lead = 0xf0 then (0x90, 0xbf)
  else if lead = 0xf4 then (0x80, 0x8f)
  else (0x80, 0xbf)

def isWithin (bounds : Nat × Nat) (byte : UInt8) : Bool :=
  bounds.1 ≤ byte.toNat && byte.toNat ≤ bounds.2

/-- The bytes after a lead byte that go on with its character. -/
def continuation (lead : Nat) (bytes : List UInt8) : List UInt8 :=
  match bytes.take (width lead - 1) with
  | [] => []
  | second :: others =>
    if isWithin (secondBounds lead) second then second :: others.takeWhile (isWithin (0x80, 0xbf))
    else []

/-- The bits of a lead byte that count for its character. -/
def leadBits (lead : Nat) : Nat :=
  match width lead with
  | 2 => lead - 0xc0
  | 3 => lead - 0xe0
  | 4 => lead - 0xf0
  | _ => lead

def charOf (lead : Nat) (others : List UInt8) : Char :=
  Char.ofNat (others.foldl (fun n byte => n * 64 + (byte.toNat - 0x80)) (leadBits lead))

def decode (bytes : List UInt8) : List Char :=
  match bytes with
  | [] => []
  | lead :: rest =>
    let others := continuation lead.toNat rest
    let c := if others.length + 1 = width lead.toNat then charOf lead.toNat others else '\ufffd'
    c :: decode (rest.drop others.length)
termination_by bytes.length
decreasing_by
  rw [List.length_drop, List.length_cons]
  exact Nat.lt_succ_of_le (Nat.sub_le _ _)

/-- The text by which bytes are shown. Bytes that are no text may be shown like others. -/
def shown (bytes : ByteArray) : String :=
  String.ofList (decode bytes.data.toList)

end Unalias.Text
