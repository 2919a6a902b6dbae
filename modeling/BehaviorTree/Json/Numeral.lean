/-
Numbers as JSON spells them.

The spelling is kept, because what it stands for depends on what is asked of it: an
integer is taken exactly or not at all, and a real number is taken in two roundings,
the first one to double precision, where only as many digits count as fit in 64
bits.
-/
import BehaviorTree.Number.Shortest
import BehaviorTree.Number.Reading

namespace BehaviorTree.Json

/-- A number's parts: digits before the point and after it, and an exponent if there
is one. -/
structure Numeral where
  negative : Bool := false
  whole : List Char
  fraction : List Char := []
  exponent : Option Int := none
deriving DecidableEq, Repr

namespace Numeral

/-- Nonempty digits in front, and the rest. -/
def digits? (cs : List Char) : Option (List Char × List Char) :=
  match cs.takeWhile Char.isDigit with
  | [] => none
  | ds => some (ds, cs.dropWhile Char.isDigit)

/-- The digits before the point: a zero stands alone. -/
def readWhole (cs : List Char) : Option (List Char × List Char) :=
  match digits? cs with
  | some ('0' :: _ :: _, _) => none
  | parts => parts

def readFraction : List Char → Option (List Char × List Char)
  | '.' :: cs => digits? cs
  | cs => some ([], cs)

def readExponent : List Char → Option (Option Int × List Char)
  | mark :: cs =>
    if mark = 'e' ∨ mark = 'E' then
      let (negative, cs) := Reading.sign cs
      (digits? cs).map fun (ds, rest) =>
        (some (Reading.signed negative (Nat.ofDigitChars 10 ds 0)), rest)
    else some (none, mark :: cs)
  | [] => some (none, [])

/-- The number in front, and the rest. -/
def read (cs : List Char) : Option (Numeral × List Char) :=
  let (negative, cs) := match cs with
    | '-' :: cs => (true, cs)
    | cs => (false, cs)
  match readWhole cs with
  | none => none
  | some (whole, cs) => match readFraction cs with
    | none => none
    | some (fraction, cs) => match readExponent cs with
      | none => none
      | some (exponent, cs) => some ({ negative, whole, fraction, exponent }, cs)

def text (n : Numeral) : String :=
  let sign := if n.negative then "-" else ""
  let fraction := if n.fraction.isEmpty then "" else "." ++ String.ofList n.fraction
  let exponent := match n.exponent with
    | none => ""
    | some e => "e" ++ (if e < 0 then "-" else "+") ++ Nat.repr e.natAbs
  sign ++ String.ofList n.whole ++ fraction ++ exponent

def ofInt (i : Int) : Numeral where
  negative := i < 0
  whole := Nat.toDigits 10 i.natAbs

/-- The integer that is spelled, of 64 bits, with or without a sign. A negative zero is
none. -/
def toInt? (n : Numeral) : Option Int :=
  if n.fraction ≠ [] ∨ n.exponent.isSome then none
  else
    let magnitude := Nat.ofDigitChars 10 n.whole 0
    if n.negative then
      if 0 < magnitude ∧ magnitude ≤ Nat.pow 2 63 then some (-(magnitude : Int)) else none
    else if magnitude < Nat.pow 2 64 then some magnitude
    else none

/-- Take digits onto `significand` while it stays below `2 ^ 64`; the answer has how many
digits were taken. -/
def gather : Nat → List Char → Nat × Nat
  | significand, [] => (significand, 0)
  | significand, d :: ds =>
    let next := significand * 10 + (d.toNat - '0'.toNat)
    if Nat.pow 2 64 ≤ next then (significand, 0)
    else
      let (significand, taken) := gather next ds
      (significand, taken + 1)

/-- `x * 10 ^ exponent`, rounded at each step; the powers of ten go up to 308. -/
def scale (x : Float) (exponent : Int) : Option Float :=
  if 308 < exponent then if x == 0 then some x else none
  else if 0 ≤ exponent then
    let y := x * Float.ofScientific 1 false exponent.toNat
    if y.isInf then none else some y
  else if h : exponent < -308 then
    if x == 0 then some x else scale (x / Float.ofScientific 1 false 308) (exponent + 308)
  else some (x / Float.ofScientific 1 false (-exponent).toNat)
termination_by (-exponent).toNat

/-- The number in double precision; none if it is too great. -/
def toDouble? (n : Numeral) : Option Float :=
  let (front, taken) := gather 0 n.whole
  let dropped := n.whole.length - taken
  let (significand, places) := gather front n.fraction
  let exponent : Int := dropped - places + n.exponent.getD 0
  (scale (Float.ofNat significand) exponent).map fun x => if n.negative then -x else x

/-- The number in single precision, through double precision unless it is an integer. -/
def toSingle? (n : Numeral) : Option Float32 :=
  match n.toInt? with
  | some i => some (Float32.ofInt i)
  | none => n.toDouble?.map Float.toFloat32

/-- The number in single precision, rounded once. -/
def nearestSingle (n : Numeral) : Float32 :=
  Reading.Decimal.toFloat32
    { negative := n.negative
      digits := Nat.ofDigitChars 10 (n.whole ++ n.fraction) 0
      exponent := n.exponent.getD 0 - n.fraction.length }

/-- The spelling of a finite number: positional, with a place after the point, from
`10 ^ -6` up to `10 ^ 13`, and else one digit, a point and an exponent. -/
def ofShortest (negative : Bool) (d : Shortest.Decimal) : Numeral :=
  let ds := d.text
  let point : Int := ds.length + d.exponent
  if d.digits = 0 then { negative, whole := ['0'], fraction := ['0'] }
  else if 0 ≤ d.exponent ∧ point ≤ 13 then
    { negative, whole := ds ++ List.replicate d.exponent.toNat '0', fraction := ['0'] }
  else if 0 < point ∧ point ≤ 13 then
    { negative, whole := ds.take point.toNat, fraction := ds.drop point.toNat }
  else if -6 < point ∧ point ≤ 0 then
    { negative, whole := ['0'], fraction := List.replicate (-point).toNat '0' ++ ds }
  else { negative, whole := ds.take 1, fraction := ds.drop 1, exponent := some (point - 1) }

/-- The spelling of a number that is finite: its shortest decimal, ties to even. -/
def ofSingle? (x : Float32) : Option Numeral :=
  match Single.of x with
  | .finite negative m e =>
    some (ofShortest negative (Shortest.decimal .toEven m e))
  | _ => none

end Numeral

end BehaviorTree.Json
