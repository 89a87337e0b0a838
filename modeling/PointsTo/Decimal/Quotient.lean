/-! The decimal text of a quotient that is kept with 53 binary digits: the fewest digits after the
point that tell it from the neighbouring numbers of this precision. -/
namespace PointsTo.Decimal

/-- The number nearest to `n / d`; a half goes to the even neighbour. -/
def roundDiv (n d : Nat) : Nat :=
  let q := n / d
  let r := n % d
  if 2 * r < d then q
  else if d < 2 * r then q + 1
  else if q % 2 = 0 then q else q + 1

/-- The number `mantissa * 2 ^ shift / 2 ^ scale`, where the mantissa has 53 binary digits. -/
structure Binary where
  mantissa : Nat
  shift : Nat
  scale : Nat

namespace Binary

/-- A quotient of two positive numbers. -/
def ofQuotient (n d : Nat) : Binary :=
  let scale := d.log2 + 53
  let scaled := n <<< scale
  let shift := (scaled / d).log2 - 52
  let mantissa := roundDiv scaled (d <<< shift)
  if mantissa = 1 <<< 53 then ⟨1 <<< 52, shift + 1, scale⟩ else ⟨mantissa, shift, scale⟩

/-- Four times the number, over `2 ^ scale`. -/
def quadruple (b : Binary) : Nat := 4 * b.mantissa <<< b.shift

/-- Whether `4 * c / 10 ^ digits` is read back as this number: it lies between the midpoints to
both neighbours, or on one of them if the mantissa is even. -/
def admits (b : Binary) (digits c : Nat) : Bool :=
  let below := if b.mantissa = 1 <<< 52 then 1 else 2
  let low := (b.quadruple - below <<< b.shift) * Nat.pow 10 digits
  let high := (b.quadruple + 2 <<< b.shift) * Nat.pow 10 digits
  let point := 4 * c <<< b.scale
  if b.mantissa % 2 = 0 then low ≤ point && point ≤ high else low < point && point < high

/-- The nearest number with that many digits after the point, in units of the last one, if it is
read back. -/
def rounded? (b : Binary) (digits : Nat) : Option Nat :=
  let exact := b.quadruple * Nat.pow 10 digits
  let c := exact / 4 <<< b.scale
  let isBelow := b.admits digits c
  let isAbove := b.admits digits (c + 1)
  let isNearer := exact - 4 * c <<< b.scale ≤ 4 * (c + 1) <<< b.scale - exact
  if isBelow && (isNearer || !isAbove) then some c
  else if isAbove then some (c + 1)
  else none

/-- The fewest digits after the point, from `digits` on, and the number in units of the last one.
The fuel bounds their number; `scale` digits are always enough. -/
def shortest (b : Binary) : (fuel : Nat) → (digits : Nat) → Nat × Nat
  | 0, digits => (digits, b.quadruple * Nat.pow 10 digits / 4 <<< b.scale)
  | fuel + 1, digits =>
    match b.rounded? digits with
    | some c => (digits, c)
    | none => b.shortest fuel (digits + 1)

end Binary

/-- A number of units of the last of so many digits after the point. -/
def fixed (digits units : Nat) : String :=
  if digits = 0 then toString units
  else
    let fraction := toString (units % Nat.pow 10 digits)
    toString (units / Nat.pow 10 digits) ++ "." ++
      String.ofList (List.replicate (digits - fraction.length) '0') ++ fraction

/-- The text of a quotient, zero if there is nothing to divide by. -/
def quotient (n d : Nat) : String :=
  if n = 0 ∨ d = 0 then "0"
  else
    let b := Binary.ofQuotient n d
    let (digits, units) := b.shortest b.scale 0
    fixed digits units

end PointsTo.Decimal
