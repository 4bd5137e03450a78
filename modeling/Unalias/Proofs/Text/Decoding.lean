import Mathlib.Data.List.Basic
import Mathlib.Data.List.TakeWhile
import Unalias.Path.Basic

/-!
Bytes that are the UTF-8 of a text are shown as that text, whatever characters it has; so nothing is
lost where names that are text are printed.
-/

namespace Unalias

namespace Text

theorem toNat_ofNat {n : Nat} (hn : n < 256) : (UInt8.ofNat n).toNat = n := by
  rw [UInt8.toNat_ofNat', Nat.mod_eq_of_lt hn]

theorem isWithin_ofNat {bounds : Nat × Nat} {n : Nat} (hn : n < 256) :
    isWithin bounds (UInt8.ofNat n) = true ↔ bounds.1 ≤ n ∧ n ≤ bounds.2 := by
  rw [isWithin, toNat_ofNat hn, Bool.and_eq_true, decide_eq_true_iff, decide_eq_true_iff]

theorem secondBounds_le (lead : Nat) : (secondBounds lead).2 ≤ 0xbf := by
  rw [secondBounds]
  repeat' split
  all_goals decide

section Character

variable {lead second : Nat} {others : List Nat} {rest : List UInt8} {c : Char}

theorem continuation_append (hwidth : width lead = others.length + 2)
    (hsecond : (secondBounds lead).1 ≤ second ∧ second ≤ (secondBounds lead).2)
    (hothers : ∀ n ∈ others, 0x80 ≤ n ∧ n ≤ 0xbf) :
    continuation lead ((second :: others).map UInt8.ofNat ++ rest) =
      (second :: others).map UInt8.ofNat := by
  have hbound := secondBounds_le lead
  have hfirst : isWithin (secondBounds lead) (UInt8.ofNat second) = true :=
    (isWithin_ofNat (by omega)).2 hsecond
  have hall : ∀ byte ∈ others.map UInt8.ofNat, isWithin (0x80, 0xbf) byte = true := by
    intro byte hbyte
    obtain ⟨n, hn, rfl⟩ := List.mem_map.1 hbyte
    have hn := hothers n hn
    exact (isWithin_ofNat (by omega)).2 hn
  have htake : ((second :: others).map UInt8.ofNat ++ rest).take (width lead - 1) =
      (second :: others).map UInt8.ofNat := by
    rw [hwidth]
    exact List.take_left' (by simp)
  rw [continuation, htake, List.map_cons]
  dsimp only
  rw [if_pos hfirst, List.takeWhile_eq_self_iff.2 hall]

theorem charOf_eq (hothers : ∀ n ∈ others, n < 256)
    (hchar : others.foldl (fun n byte => n * 64 + (byte - 0x80)) (leadBits lead) = c.toNat) :
    charOf lead (others.map UInt8.ofNat) = c := by
  have hfold : (others.map UInt8.ofNat).foldl (fun n byte => n * 64 + (byte.toNat - 0x80))
      (leadBits lead) = c.toNat := by
    rw [List.foldl_map, ← hchar]
    apply List.foldl_ext
    intro n byte hbyte
    rw [toNat_ofNat (hothers byte hbyte)]
  rw [charOf, hfold, Char.ofNat_toNat]

/-- A lead byte and the bytes that go on with it give a character, whatever comes behind. -/
theorem decode_append (hlead : lead < 256) (hwidth : width lead = others.length + 2)
    (hsecond : (secondBounds lead).1 ≤ second ∧ second ≤ (secondBounds lead).2)
    (hothers : ∀ n ∈ others, 0x80 ≤ n ∧ n ≤ 0xbf)
    (hchar : (second :: others).foldl (fun n byte => n * 64 + (byte - 0x80)) (leadBits lead) =
      c.toNat) :
    decode (UInt8.ofNat lead :: ((second :: others).map UInt8.ofNat ++ rest)) =
      c :: decode rest := by
  have hbytes : ∀ n ∈ second :: others, n < 256 := by
    have hbound := secondBounds_le lead
    refine List.forall_mem_cons.2 ⟨by omega, fun n hn => ?_⟩
    have hn := hothers n hn
    omega
  have hlength : ((second :: others).map UInt8.ofNat).length + 1 = width lead := by
    rw [hwidth, List.length_map, List.length_cons]
  rw [decode]
  simp only [toNat_ofNat hlead, continuation_append hwidth hsecond hothers, hlength,
    charOf_eq hbytes hchar, if_true, List.drop_left]

theorem decode_cons_of_lt (h : c.toNat < 0x80) :
    decode (UInt8.ofNat c.toNat :: rest) = c :: decode rest := by
  have hwidth : width c.toNat = 1 := by rw [width, if_pos h]
  have hcontinuation : continuation c.toNat rest = [] := by
    rw [continuation, hwidth]
    rfl
  have hchar : charOf c.toNat [] = c := by
    rw [charOf, leadBits, hwidth]
    exact Char.ofNat_toNat c
  rw [decode]
  simp only [toNat_ofNat (Nat.lt_trans h (by decide)), hcontinuation, hwidth, hchar]
  rfl

theorem decode_two (hleast : 0x80 ≤ c.toNat) (hgreatest : c.toNat < 0x800) :
    decode (UInt8.ofNat (c.toNat / 64 % 32 + 192) :: UInt8.ofNat (c.toNat % 64 + 128) :: rest) =
      c :: decode rest := by
  have hwidth : width (c.toNat / 64 % 32 + 192) = 2 := by
    rw [width, if_neg (by omega), if_neg (by omega), if_pos (by omega)]
  apply @decode_append _ (c.toNat % 64 + 128) []
  · omega
  · exact hwidth
  · rw [secondBounds, if_neg (by omega), if_neg (by omega), if_neg (by omega), if_neg (by omega)]
    omega
  · exact List.forall_mem_nil _
  · simp only [leadBits, hwidth, List.foldl_cons, List.foldl_nil]
    omega

/-- Halves of surrogate pairs are no characters. -/
theorem decode_three (hleast : 0x800 ≤ c.toNat) (hgreatest : c.toNat < 0x10000)
    (hvalid : c.toNat < 0xd800 ∨ 0xdfff < c.toNat) :
    decode (UInt8.ofNat (c.toNat / 4096 % 16 + 224) :: UInt8.ofNat (c.toNat / 64 % 64 + 128) ::
      UInt8.ofNat (c.toNat % 64 + 128) :: rest) = c :: decode rest := by
  have hwidth : width (c.toNat / 4096 % 16 + 224) = 3 := by
    rw [width, if_neg (by omega), if_neg (by omega), if_neg (by omega), if_pos (by omega)]
  apply @decode_append _ (c.toNat / 64 % 64 + 128) [c.toNat % 64 + 128]
  · omega
  · exact hwidth
  · rw [secondBounds]
    split
    · omega
    · split
      · omega
      · rw [if_neg (by omega), if_neg (by omega)]
        omega
  · rw [List.forall_mem_singleton]
    omega
  · simp only [leadBits, hwidth, List.foldl_cons, List.foldl_nil]
    omega

theorem decode_four (hleast : 0x10000 ≤ c.toNat) (hgreatest : c.toNat < 0x110000) :
    decode (UInt8.ofNat (c.toNat / 262144 % 8 + 240) :: UInt8.ofNat (c.toNat / 4096 % 64 + 128) ::
      UInt8.ofNat (c.toNat / 64 % 64 + 128) :: UInt8.ofNat (c.toNat % 64 + 128) :: rest) =
        c :: decode rest := by
  have hwidth : width (c.toNat / 262144 % 8 + 240) = 4 := by
    rw [width, if_neg (by omega), if_neg (by omega), if_neg (by omega), if_neg (by omega),
      if_pos (by omega)]
  apply @decode_append _ (c.toNat / 4096 % 64 + 128) [c.toNat / 64 % 64 + 128, c.toNat % 64 + 128]
  · omega
  · exact hwidth
  · rw [secondBounds, if_neg (by omega), if_neg (by omega)]
    split
    · omega
    · split <;> omega
  · rw [List.forall_mem_cons, List.forall_mem_singleton]
    omega
  · simp only [leadBits, hwidth, List.foldl_cons, List.foldl_nil]
    omega

/-- The bytes of a character give that character. -/
theorem decode_utf8EncodeChar_append (c : Char) (rest : List UInt8) :
    decode (String.utf8EncodeChar c ++ rest) = c :: decode rest := by
  have hvalid : c.toNat < 0xd800 ∨ 0xdfff < c.toNat ∧ c.toNat < 0x110000 := c.valid
  have hv : c.val.toNat = c.toNat := rfl
  rw [String.utf8EncodeChar, hv]
  split
  next => exact decode_cons_of_lt (by omega)
  next =>
    split
    next => exact decode_two (by omega) (by omega)
    next =>
      split
      next => exact decode_three (by omega) (by omega) (by omega)
      next => exact decode_four (by omega) (by omega)

end Character

theorem decode_flatMap_utf8EncodeChar (cs : List Char) :
    decode (cs.flatMap String.utf8EncodeChar) = cs := by
  induction cs with
  | nil => rw [List.flatMap_nil, decode]
  | cons c cs ih => rw [List.flatMap_cons, decode_utf8EncodeChar_append, ih]

/-- A text is shown as it is. -/
theorem shown_toUTF8 (text : String) : shown text.toUTF8 = text := by
  have hbytes : text.toUTF8.data.toList = text.toList.flatMap String.utf8EncodeChar := by
    rw [String.toUTF8_eq_toByteArray, ← String.utf8Encode_toList, List.utf8Encode,
      List.data_toByteArray]
  rw [shown, hbytes, decode_flatMap_utf8EncodeChar, String.ofList_toList]

/-- Different names that are no text can look alike. -/
example : shown ⟨#[0xfe, 0x2e, 0x6a, 0x73]⟩ = shown ⟨#[0xff, 0x2e, 0x6a, 0x73]⟩ := by
  decide +kernel

end Text

namespace Path

theorem joined_toUTF8 (names : List String) :
    joined (names.map String.toUTF8) = "/".intercalate names := by
  rw [joined, List.map_map]
  exact congrArg _ (List.map_id'' Text.shown_toUTF8 names)

theorem toSlash_eq (p : Path) : p.toSlash = "/".intercalate (p.components.map Component.text) := by
  rw [toSlash, ← joined_toUTF8, List.map_map]
  rfl

end Path

end Unalias
