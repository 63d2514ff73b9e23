import Camel.Literal.Decimal
import Camel.Literal.Rational

/-! # Values of Literals

    A value is exact: a rational part and an imaginary one, and the kind it was written
    with. Folding adds, divides and so on without rounding; the result is made afresh, in
    lowest terms. A fold may refuse, and what it would have computed is left to run time.
-/

namespace Camel.Literal

/-! ## Reading Values -/

inductive Kind where
  | integer | float | imaginary | complex
deriving DecidableEq

def kMaxBits : Nat := 2 ^ 17

/-- A value with its representation. A zero written with a minus keeps its sign. -/
structure Value where
  kind : Kind
  rational : Rational := {}
  negativeZero : Bool := false
  imaginary : Rational := {}
  imaginaryNegativeZero : Bool := false

/-- A double: `mantissa * 2 ^ exponent`, or no number. -/
inductive Double where
  | finite (negative : Bool) (mantissa : Fin (2 ^ 53)) (exponent : Int)
  | infinite (negative : Bool)
  | nan
deriving DecidableEq

/-- The sign of a text, and what follows it. -/
def takeSign : List Char → Bool × List Char
  | '+' :: text => (false, text)
  | '-' :: text => (true, text)
  | text => (false, text)

/-- The radix a text begins with, and its digits. A lone `0` is decimal. -/
def takePrefix : List Char → Int × List Char
  | '0' :: 'x' :: d :: text => (16, d :: text)
  | '0' :: 'X' :: d :: text => (16, d :: text)
  | '0' :: 'b' :: d :: text => (2, d :: text)
  | '0' :: 'B' :: d :: text => (2, d :: text)
  | '0' :: 'o' :: d :: text => (8, d :: text)
  | '0' :: 'O' :: d :: text => (8, d :: text)
  | '0' :: d :: text => (8, d :: text)
  | text => (10, text)

/-- The digits up to the exponent, at most one point among them: the digits, how many stand
    behind the point, and the rest. -/
def scanDigits (seenPoint : Bool) : List Char → List Char × Nat × List Char
  | [] => ([], 0, [])
  | c :: text =>
    if '0' ≤ c ∧ c ≤ '9' then
      let (digits, fractionDigits, rest) := scanDigits seenPoint text
      (c :: digits, if seenPoint then fractionDigits + 1 else fractionDigits, rest)
    else if c = '.' ∧ seenPoint = false then scanDigits true text
    else ([], 0, c :: text)

/-- The digits of an exponent, to the end of the text. -/
def exponentDigits : List Char → Int → Option Int
  | [], value => some value
  | c :: text, value =>
    if c < '0' ∨ '9' < c then none
    else if 1000000 < value then none
    else exponentDigits text (value * 10 + (c.toNat - '0'.toNat))

/-- The exponent, which is zero where there is none. -/
def realExponent : List Char → Option Int
  | [] => some 0
  | c :: text =>
    if c = 'e' ∨ c = 'E' then
      let (exponentNegative, text) := takeSign text
      if text = [] then none
      else (exponentDigits text 0).map fun value => if exponentNegative then -value else value
    else none

variable (left right : Value)

namespace Value

def hasImaginaryPart (v : Value) : Bool := v.kind = .imaginary || v.kind = .complex

def fromInt64 (value : Int) : Value where
  kind := .integer
  rational := ⟨.ofInt64 value, .ofInt64 1⟩

def fromDouble : Double → Value
  | .finite negative mantissa exponent =>
    if mantissa.val = 0 then fromInt64 0
    else
      -- `frexp`, and 53 bits of the fraction
      let shift := 53 - (mantissa.val.log2 + 1)
      let numerator := BigInt.ofInt64 (mantissa.val * 2 ^ shift)
      let exponent := exponent - shift
      let rational :=
        if 0 ≤ exponent then makeRational (numerator.shiftedLeft exponent.toNat) (.ofInt64 1)
        else makeRational numerator ((BigInt.ofInt64 1).shiftedLeft (-exponent).toNat)
      { kind := .float
        rational := if negative then { rational with num := rational.num.negated } else rational }
  | .infinite _ => fromInt64 0
  | .nan => fromInt64 0

def fromIntegerText (text : List Char) : Option Value :=
  let (negative, text) := takeSign text
  let (radix, text) := takePrefix text
  if text = [] then none
  else (BigInt.fromDigits text radix).map fun magnitude =>
    { kind := .integer
      rational := ⟨if negative then magnitude.negated else magnitude, .ofInt64 1⟩ }

def fromRealText (text : List Char) : Option Value :=
  let (negative, text) := takeSign text
  let (digits, fractionDigits, rest) := scanDigits false text
  match realExponent rest with
  | none => none
  | some exponent =>
    if digits = [] then none
    else (BigInt.fromDigits digits 10).bind fun mantissa =>
      let scale : Int := fractionDigits - exponent
      if 8192 < |scale| then none
      else
        let rational :=
          if 0 < scale then makeRational mantissa (powerOfLimb 10 scale.toNat)
          else makeRational (mantissa.mul (powerOfLimb 10 (-scale).toNat)) (.ofInt64 1)
        let rational :=
          if negative then { rational with num := rational.num.negated } else rational
        some { kind := .float, rational, negativeZero := negative && rational.num.isZero }

def fromImaginaryText (text : List Char) : Option Value :=
  let (negative, text) := takeSign text
  if text.getLast? ≠ some 'i' then none
  else
    let text := text.dropLast
    (fromRealText (if negative then '-' :: text else text)).map fun body =>
      { kind := .imaginary
        imaginary := body.rational
        imaginaryNegativeZero := body.negativeZero || (negative && body.rational.num.isZero) }

/-! ## Folding -/

/-- Complex when an operand has an imaginary part, integer only when both are integers. -/
def foldedKind (complex : Bool) : Kind :=
  if complex then .complex
  else if left.kind = .integer ∧ right.kind = .integer then .integer else .float

def complexValue (real imaginary : Rational) : Value where
  kind := .complex
  rational := real
  imaginary := imaginary

/-- The shape of a sum and a difference: both parts by the same operation. -/
def foldParts (op : Rational → Rational → Rational) (left right : Value) : Option Value :=
  let complex := left.hasImaginaryPart || right.hasImaginaryPart
  let real := op left.rational right.rational
  let imaginary := op left.imaginary right.imaginary
  if !complex then some { kind := foldedKind left right false, rational := real }
  else some (complexValue real imaginary)

def add : Option Value := foldParts rationalAdd left right

def sub : Option Value := foldParts rationalSub left right

def mul : Option Value :=
  let a := left.rational
  let b := right.rational
  let c := left.imaginary
  let d := right.imaginary
  if kMaxBits < a.num.bits + b.num.bits ∨ kMaxBits < c.num.bits + d.num.bits then none
  else
    let complex := left.hasImaginaryPart || right.hasImaginaryPart
    if !complex then
      some { kind := foldedKind left right false, rational := rationalMul a b }
    else
      -- (a + ci)(b + di) = (ab - cd) + (ad + cb)i
      some (complexValue (rationalSub (rationalMul a b) (rationalMul c d))
        (rationalAdd (rationalMul a d) (rationalMul c b)))

def div : Option Value :=
  let a := left.rational
  let b := right.rational
  let c := left.imaginary
  let d := right.imaginary
  let complex := left.hasImaginaryPart || right.hasImaginaryPart
  if !complex then
    if b.num.isZero then none
    else if left.kind = .integer ∧ right.kind = .integer then
      some { kind := .integer, rational := ⟨(a.num.divMod b.num).1, .ofInt64 1⟩ }
    else (rationalDiv a b).map fun quotient => { kind := .float, rational := quotient }
  else
    -- (a + ci) / (b + di) = ((ab + cd) + (cb - ad)i) / (b^2 + d^2)
    let denominator := rationalAdd (rationalMul b b) (rationalMul d d)
    if denominator.num.isZero then none
    else do
      let real ← rationalDiv (rationalAdd (rationalMul a b) (rationalMul c d)) denominator
      let imaginary ← rationalDiv (rationalSub (rationalMul c b) (rationalMul a d)) denominator
      some (complexValue real imaginary)

def mod : Option Value :=
  if left.hasImaginaryPart ∨ right.hasImaginaryPart then none
  else if left.kind ≠ .integer ∨ right.kind ≠ .integer then none
  else if right.rational.num.isZero then none
  else some {
    kind := .integer
    rational := ⟨(left.rational.num.divMod right.rational.num).2, .ofInt64 1⟩ }

def integerExponent (value : Rational) : Option Nat :=
  if value.den.isOne = false ∨ value.num.neg = true ∨ value.num.fitsInt64 = false then none
  else
    let exponent := value.num.toInt64
    if exponent < 0 then none else some exponent.toNat

def pow (base exponent : Value) : Option Value :=
  if base.hasImaginaryPart ∨ exponent.hasImaginaryPart then none
  else
    let b := base.rational
    match integerExponent exponent.rational with
    | none => none
    | some power =>
      if 4096 < power then none
      else
        let kind := foldedKind base exponent false
        if power = 0 then some { kind, rational := ⟨.ofInt64 1, .ofInt64 1⟩ }
        else if b.num.isZero then some (fromInt64 0)
        else if kMaxBits < b.num.bits * power then none
        else some { kind, rational := makeRational (powerOf b.num power) (powerOf b.den power) }

/-- One part negated; a zero part changes the sign it was written with. -/
def negatePart (part : Rational) (negativeZero : Bool) : Rational × Bool :=
  if part.num.isZero then (part, !negativeZero)
  else ({ part with num := part.num.negated }, negativeZero)

def negate (value : Value) : Option Value :=
  if value.hasImaginaryPart then
    let (imaginary, imaginaryNegativeZero) := negatePart value.imaginary value.imaginaryNegativeZero
    let (real, realNegativeZero) := negatePart value.rational value.negativeZero
    some ⟨value.kind, real, realNegativeZero, imaginary, imaginaryNegativeZero⟩
  else if value.rational.num.isZero then some { kind := value.kind, rational := value.rational }
  else some {
    kind := value.kind
    rational := { value.rational with num := value.rational.num.negated } }

end Value

inductive Fold where
  | add | sub | mul | div | mod | pow
deriving DecidableEq

def Value.fold : Fold → Value → Value → Option Value
  | .add => add
  | .sub => sub
  | .mul => mul
  | .div => div
  | .mod => mod
  | .pow => pow

end Camel.Literal
