namespace Switchyard

/-- The positive value `mantissa * 2 ^ exponent` of a float, with the gaps to
its two neighbours in units of `2 ^ (exponent - 1)`. -/
structure Binary where
  mantissa : Nat
  exponent : Int
  gapBelow : Nat
  gapAbove : Nat

/-- The value of a finite float without its sign, from its bits. A power of two
is twice as close to the value below as to the value above. -/
def Binary.ofBits (bits : Nat) : Binary :=
  let fraction := bits % Nat.pow 2 52
  let biased := bits / Nat.pow 2 52 % Nat.pow 2 11
  if biased = 0 then ⟨fraction, -1074, 2, 2⟩
  else
    ⟨Nat.pow 2 52 + fraction, (biased : Int) - 1075, if fraction = 0 ∧ 1 < biased then 1 else 2, 2⟩

/-- The two whole numbers around `numerator / denominator` that lie less than
half a gap away from it, or half a gap away if `closed`, and the nearest one of
them, the upper one in the middle. -/
def nearestWithin (numerator denominator below above : Nat) (closed : Bool) : Option Nat :=
  let floor := numerator / denominator
  let down := numerator - floor * denominator
  let up := (floor + 1) * denominator - numerator
  let fits (distance gap : Nat) : Bool := 4 * distance < gap || closed && 4 * distance == gap
  match fits down below, fits up above with
  | true, true => some (if down < up then floor else floor + 1)
  | true, false => some floor
  | false, true => some (floor + 1)
  | false, false => none

/-- The multiple of `10 ^ e` that reads back as `b`, if there is one. -/
def Binary.multiple? (b : Binary) (e : Int) : Option Nat :=
  let up := Nat.pow 2 b.exponent.toNat * Nat.pow 10 (-e).toNat
  let down := Nat.pow 2 (-b.exponent).toNat * Nat.pow 10 e.toNat
  nearestWithin (b.mantissa * up) down (b.gapBelow * up) (b.gapAbove * up) (b.mantissa % 2 == 0)

/-- The fewest digits that read back as `b`, with their power of ten: the
highest power of ten that has a multiple close enough. -/
def Binary.shortest (b : Binary) : Nat × Int :=
  ((List.range 640).findSome? fun (i : Nat) =>
    let e := 310 - (i : Int)
    (b.multiple? e).map (·, e)).getD (0, 0)

/-- `digits * 10 ^ exponent` without an exponent. -/
def positional (digits : Nat) (exponent : Int) : String :=
  let written := toString digits
  if 0 ≤ exponent then
    written ++ String.ofList (List.replicate exponent.toNat '0')
  else
    let places := (-exponent).toNat
    let padded := List.replicate (places + 1 - written.length) '0' ++ written.toList
    let whole := padded.length - places
    String.ofList (padded.take whole) ++ "." ++ String.ofList (padded.drop whole)

/-- The shortest decimal that reads back as `x`, never with an exponent. -/
def decimalText (x : Float) : String :=
  if x.isNaN then "NaN"
  else
    let bits := x.toBits.toNat
    let sign := if bits < Nat.pow 2 63 then "" else "-"
    let size := bits % Nat.pow 2 63
    if size = 0 then sign ++ "0"
    else if 2047 * Nat.pow 2 52 ≤ size then sign ++ "inf"
    else
      let (digits, exponent) := (Binary.ofBits size).shortest
      sign ++ positional digits exponent

end Switchyard
