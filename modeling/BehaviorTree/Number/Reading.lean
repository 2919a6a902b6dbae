/-
Numbers read from text.

A whole number is a sign and digits; a real number may also have a point and an
exponent, or be one of three words. A real number is rounded once, from its exact
decimal value, so its exponent is checked against the range first: it decides
alone when it is far outside.
-/

namespace BehaviorTree.Reading

/-- Whether there is a minus sign in front, and what follows the sign. -/
def sign : List Char → Bool × List Char
  | '-' :: rest => (true, rest)
  | '+' :: rest => (false, rest)
  | rest => (false, rest)

/-- The value of a nonempty run of digits. -/
def natural? (ds : List Char) : Option Nat :=
  if ds.isEmpty || !ds.all Char.isDigit then none else some (Nat.ofDigitChars 10 ds 0)

def signed (negative : Bool) (n : Nat) : Int := if negative then -(n : Int) else n

/-- A whole number of 32 bits; one outside the range is refused. -/
def int32? (cs : List Char) : Option Int32 :=
  let (negative, ds) := sign cs
  match natural? ds with
  | none => none
  | some n =>
    let i := signed negative n
    if Int32.minValue.toInt ≤ i ∧ i ≤ Int32.maxValue.toInt then some (Int32.ofInt i) else none

def bool? (cs : List Char) : Option Bool :=
  if cs = "true".toList then some true
  else if cs = "false".toList then some false
  else none

/-- The decimal `digits * 10 ^ exponent`, negated if it is `negative`. -/
structure Decimal where
  negative : Bool
  digits : Nat
  exponent : Int
deriving DecidableEq, Repr

/-- An exponent: nothing at all, or a mark, a sign if any, and digits. -/
def exponent? : List Char → Option Int
  | [] => some 0
  | mark :: rest =>
    if mark = 'e' ∨ mark = 'E' then
      let (negative, ds) := sign rest
      (natural? ds).map (signed negative)
    else none

/-- Digits with at most one point among them, and an exponent. -/
def decimal? (cs : List Char) : Option Decimal :=
  let (negative, body) := sign cs
  let whole := body.takeWhile Char.isDigit
  let rest := body.dropWhile Char.isDigit
  let (fraction, tail) := match rest with
    | '.' :: more => (more.takeWhile Char.isDigit, more.dropWhile Char.isDigit)
    | _ => ([], rest)
  match natural? (whole ++ fraction), exponent? tail with
  | some digits, some e => some ⟨negative, digits, e - fraction.length⟩
  | _, _ => none

/-- The nearest single-precision number. A decimal of at least `10 ^ 39` is infinite and
one below `10 ^ (-46)` is zero. -/
def Decimal.toFloat32 (d : Decimal) : Float32 :=
  let magnitude : Int := (Nat.toDigits 10 d.digits).length + d.exponent
  let x : Float32 :=
    if d.digits = 0 ∨ magnitude ≤ -46 then 0
    else if 40 ≤ magnitude then Float32.ofBits 0x7f800000
    else if d.exponent < 0 then Float32.ofScientific d.digits true (-d.exponent).toNat
    else Float32.ofScientific d.digits false d.exponent.toNat
  if d.negative then -x else x

/-- A real number, or a word for what is none; case is free in the words. -/
def single? (cs : List Char) : Option Float32 :=
  let (negative, body) := sign cs
  let word := body.map Char.toLower
  if word = "nan".toList then some (Float32.ofBits 0x7fc00000)
  else if word = "inf".toList ∨ word = "infinity".toList then
    some (Float32.ofBits (if negative then 0xff800000 else 0x7f800000))
  else (decimal? cs).map Decimal.toFloat32

theorem natural?_eq_some_iff {ds : List Char} {n : Nat} :
    natural? ds = some n ↔ ds ≠ [] ∧ (∀ c ∈ ds, c.isDigit) ∧ n = Nat.ofDigitChars 10 ds 0 := by
  unfold natural?
  split <;> rename_i h
  · simp only [Bool.or_eq_true, List.isEmpty_iff, Bool.not_eq_true', List.all_eq_false] at h
    constructor
    · simp
    · rintro ⟨hne, hall, -⟩
      rcases h with h | ⟨c, hc, hd⟩
      · exact absurd h hne
      · exact absurd (hall c hc) hd
  · simp only [Bool.or_eq_true, List.isEmpty_iff, Bool.not_eq_true', not_or, Bool.not_eq_false,
      List.all_eq_true] at h
    constructor
    · intro hn
      exact ⟨h.1, h.2, (Option.some.inj hn).symm⟩
    · rintro ⟨-, -, rfl⟩
      rfl

theorem natural?_toDigits (n : Nat) : natural? (Nat.toDigits 10 n) = some n := by
  refine natural?_eq_some_iff.2 ⟨Nat.toDigits_ne_nil, fun c hc => ?_, ?_⟩
  · exact Nat.isDigit_of_mem_toDigits (by omega) (by omega) hc
  · exact (Nat.ofDigitChars_toDigits (by omega) (by omega)).symm

end BehaviorTree.Reading
