/-
Single-precision numbers, exactly.

Every finite single-precision number is a whole multiple of a power of two.
`Single.of` reads that multiple and that power off the bits, and the roundings
to whole numbers are then plain integer arithmetic: no rounding happens on the
way, and what falls outside the target range goes to the nearer end of it.
-/

namespace BehaviorTree

/-- The value of a single-precision number: a finite one is
`significand * 2 ^ exponent`, negated if it is `negative`. -/
inductive Single where
  | nan
  | infinite (negative : Bool)
  | finite (negative : Bool) (significand : Nat) (exponent : Int)
deriving DecidableEq, Repr

namespace Single

/-- Read the sign, the exponent field and the fraction field. An exponent field
of zero marks the subnormal numbers, which lack the leading one. -/
def of (x : Float32) : Single :=
  let bits := x.toBits.toNat
  let negative := bits.testBit 31
  let field : Nat := bits / Nat.pow 2 23 % Nat.pow 2 8
  let fraction : Nat := bits % Nat.pow 2 23
  if field = 255 then
    if fraction = 0 then infinite negative else nan
  else if field = 0 then finite negative fraction (-149)
  else finite negative (fraction + Nat.pow 2 23) ((field : Int) - 150)

/-- The whole part of `significand * 2 ^ exponent`. -/
def floor (significand : Nat) (exponent : Int) : Nat :=
  if 0 ≤ exponent then significand * Nat.pow 2 exponent.toNat
  else significand / Nat.pow 2 (-exponent).toNat

/-- The least whole number not below `significand * 2 ^ exponent`. -/
def ceil (significand : Nat) (exponent : Int) : Nat :=
  if 0 ≤ exponent then significand * Nat.pow 2 exponent.toNat
  else (significand + (Nat.pow 2 (-exponent).toNat - 1)) / Nat.pow 2 (-exponent).toNat

/-- Toward zero, into 32 bits; a number that is none becomes zero. -/
def truncate : Single → Int32
  | nan => 0
  | infinite negative => if negative then Int32.minValue else Int32.maxValue
  | finite negative m e =>
    Int32.ofIntClamp (if negative then -(floor m e : Int) else floor m e)

/-- The greatest count. -/
def maxCount : Nat := Nat.pow 2 32 - 1

/-- Upward, to a count of at most `maxCount`; what is negative, and a number that
is none, counts zero. -/
def count : Single → Nat
  | nan => 0
  | infinite negative => if negative then 0 else maxCount
  | finite negative m e => if negative then 0 else min (ceil m e) maxCount

end Single

end BehaviorTree
