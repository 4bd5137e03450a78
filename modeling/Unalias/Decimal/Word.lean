/-!
Integers that fit a word of 64 bits.
-/

namespace Unalias

/-- How many words there are; half of them stand for negative numbers where a sign is kept. -/
def wordCount : Nat := 0x10000000000000000

end Unalias
