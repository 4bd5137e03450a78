/-!
The characters with the Unicode property White_Space, and texts without them at the ends.
-/

namespace Unalias.Text

/-- First and last characters of the ranges of White_Space. -/
def blankRanges : List (Nat × Nat) :=
  [(0x09, 0x0d), (0x20, 0x20), (0x85, 0x85), (0xa0, 0xa0), (0x1680, 0x1680), (0x2000, 0x200a),
    (0x2028, 0x2029), (0x202f, 0x202f), (0x205f, 0x205f), (0x3000, 0x3000)]

def isBlank (c : Char) : Bool :=
  blankRanges.any fun (first, last) => first ≤ c.toNat && c.toNat ≤ last

def trim (cs : List Char) : List Char :=
  ((cs.dropWhile isBlank).reverse.dropWhile isBlank).reverse

theorem dropWhile_isBlank_of_forall {cs : List Char} (h : ∀ c ∈ cs, isBlank c = false) :
    cs.dropWhile isBlank = cs := by
  cases cs with
  | nil => rfl
  | cons c cs => rw [List.dropWhile_cons_of_neg (by simp [h c List.mem_cons_self])]

theorem trim_of_forall {cs : List Char} (h : ∀ c ∈ cs, isBlank c = false) : trim cs = cs := by
  rw [trim, dropWhile_isBlank_of_forall h,
    dropWhile_isBlank_of_forall fun c hc => h c (List.mem_reverse.1 hc), List.reverse_reverse]

/-- No blank is a capital letter. -/
theorem toLower_of_isBlank {c : Char} (h : isBlank c = true) : c.toLower = c := by
  have hranges : ∀ range ∈ blankRanges, range.2 < 65 ∨ 90 < range.1 := by decide
  obtain ⟨⟨first, last⟩, hrange, hc⟩ := List.any_eq_true.1 h
  rw [Bool.and_eq_true, decide_eq_true_eq, decide_eq_true_eq] at hc
  have hout := hranges _ hrange
  have hcapital : ¬('A' ≤ c ∧ c ≤ 'Z') := by
    intro hcapital
    have hlower : 65 ≤ c.toNat := hcapital.1
    have hupper : c.toNat ≤ 90 := hcapital.2
    omega
  exact dif_neg hcapital

end Unalias.Text
