/-
The shortest decimal of a single-precision number.

The reals that round to a given number form an interval around it. Among the
grids of spacing `10 ^ k`, the coarsest that has a point in that interval gives
the decimal with the fewest digits; of its points the one nearest to the number
is taken, and of two equally near ones the one that the format asks for. All tests
are on whole numbers: both sides are scaled by powers of two and ten until nothing is
left behind the point.
-/
import BehaviorTree.Number.Single

namespace BehaviorTree.Shortest

/-- The decimal `digits * 10 ^ exponent`. -/
structure Decimal where
  digits : Nat
  exponent : Int
deriving DecidableEq, Repr

/-- Which of two equally near points stands for the number. -/
inductive Tie where
  /-- The larger one. -/
  | up
  /-- The one with an even last digit. -/
  | toEven
deriving DecidableEq, Repr

/-- Of the points `below` and `below + 1`, the one to take if the number is as near to
the one as to the other. -/
def Tie.choose (tie : Tie) (below : Nat) : Nat :=
  match tie with
  | up => below + 1
  | toEven => if below % 2 = 0 then below else below + 1

/-- The interval that rounds to `significand * 2 ^ exponent`, in quarters of
`2 ^ exponent`: below a power of two the neighbour is half as far. The ends
belong to it if the significand is even, since a tie rounds to even. -/
structure Interval where
  low : Nat
  middle : Nat
  high : Nat
  closed : Bool
deriving DecidableEq, Repr

def Interval.around (significand : Nat) (exponent : Int) : Interval where
  low := if significand = Nat.pow 2 23 ∧ -149 < exponent then 4 * significand - 1
    else 4 * significand - 2
  middle := 4 * significand
  high := 4 * significand + 2
  closed := significand % 2 == 0

/-- Whether `point`, on a scale where the interval's ends are multiplied by `unit`,
lies in the interval. -/
def Interval.holds (i : Interval) (unit point : Nat) : Bool :=
  if i.closed then i.low * unit ≤ point && point ≤ i.high * unit
  else i.low * unit < point && point < i.high * unit

/-- The point of the grid of spacing `10 ^ k` that stands for the number, if the
grid has one in the interval. One quarter of `2 ^ exponent` is `unit` and one step
of the grid is `step` on the common scale. -/
def onGrid (tie : Tie) (i : Interval) (exponent k : Int) : Option Decimal :=
  let unit := Nat.pow 2 (exponent - 2).toNat * Nat.pow 10 (-k).toNat
  let step := Nat.pow 10 k.toNat * Nat.pow 2 (2 - exponent).toNat
  let value := i.middle * unit
  let below := value / step
  let above := below + 1
  match i.holds unit (below * step), i.holds unit (above * step) with
  | true, true =>
    some ⟨match compare (value - below * step) (above * step - value) with
      | .lt => below
      | .eq => tie.choose below
      | .gt => above, k⟩
  | true, false => some ⟨below, k⟩
  | false, true => some ⟨above, k⟩
  | false, false => none

/-- The first grid, from spacing `10 ^ (fuel - 55)` down, with a point in the
interval. -/
def search (tie : Tie) (i : Interval) (exponent : Int) : Nat → Decimal
  | 0 => ⟨0, 0⟩
  | fuel + 1 => (onGrid tie i exponent ((fuel : Int) - 54)).getD (search tie i exponent fuel)

/-- The shortest decimal of `significand * 2 ^ exponent`. Single-precision numbers
end below `10 ^ 39`, and above `10 ^ -54` their intervals are wider than a step. -/
def decimal (tie : Tie) (significand : Nat) (exponent : Int) : Decimal :=
  if significand = 0 then ⟨0, 0⟩
  else search tie (.around significand exponent) exponent 95

/-- The digits of a decimal, the most significant first. -/
def Decimal.text (d : Decimal) : List Char := Nat.toDigits 10 d.digits

/-- Written without an exponent, with a fraction only if there is one. -/
def Decimal.positional (d : Decimal) : String :=
  let ds := d.text
  if 0 ≤ d.exponent then String.ofList (ds ++ List.replicate d.exponent.toNat '0')
  else
    let places := (-d.exponent).toNat
    let padded := List.replicate (places + 1 - ds.length) '0' ++ ds
    String.ofList (padded.take (padded.length - places)) ++ "."
      ++ String.ofList (padded.drop (padded.length - places))

end BehaviorTree.Shortest

namespace BehaviorTree

open Shortest in
/-- The plain text of a number: the shortest decimal, ties up, never with an exponent. -/
def singleText (x : Float32) : String :=
  match Single.of x with
  | .nan => "NaN"
  | .infinite negative => if negative then "-inf" else "inf"
  | .finite negative m e => (if negative then "-" else "") ++ (decimal .up m e).positional

end BehaviorTree
