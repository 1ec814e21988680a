import Mathlib.Algebra.Group.Nat.Defs
import Mathlib.Data.Int.Order.Basic
import Mathlib.Data.List.Lex

/-!
# Utils — VectorTime

`VSharp.Utils/VectorTime.fs`.  A time is a list of 32-bit integers, compared lexicographically;
addresses of the symbolic heap are times of allocation.
-/

namespace VSharp

abbrev VectorTime := List ℤ

namespace VectorTime

def zero : VectorTime := [0]

def minfty : VectorTime := [-2147483648]

/-- `VectorTime.next`, on the singletons it is asserted to be given: 32-bit addition wraps. -/
def next (t : VectorTime) : VectorTime := [Int.bmod (t.headI + 1) (2 ^ 32)]

def singletonsSum (t₁ t₂ : VectorTime) : VectorTime := [Int.bmod (t₁.headI + t₂.headI) (2 ^ 32)]

def less (t₁ t₂ : VectorTime) : Bool := decide (t₁ < t₂)

def lessOrEqual (t₁ t₂ : VectorTime) : Bool := decide (t₁ ≤ t₂)

def max (t₁ t₂ : VectorTime) : VectorTime := if lessOrEqual t₁ t₂ then t₂ else t₁

end VectorTime

end VSharp
