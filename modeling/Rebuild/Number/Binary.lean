import Rebuild.Text.Digit
/-!
# Numbers of 53 bits

Fractional numbers are kept as an integer times a power of two, the integer having at most 53
bits. Results are the nearest such number, a tie going to the even neighbour. All arithmetic is
exact integer arithmetic followed by one rounding.
-/

namespace Rebuild

/-- A number of 53 bits, an infinity, or no number. -/
inductive Binary where
  | finite (mantissa : Int) (exponent : Int)
  | infinite (negative : Bool)
  | undefined
deriving DecidableEq, Repr

namespace Binary

/-- A number of binary digits as a fraction. -/
def fraction (n : Nat) (e : Int) : Nat × Nat :=
  if e < 0 then (n, Nat.pow 2 (-e).toNat) else (n * Nat.pow 2 e.toNat, 1)

/-- The quotient of two naturals, rounded to the nearest, a tie to the even one. -/
def divNearest (num den : Nat) : Nat :=
  let q := num / den
  let r := num % den
  if 2 * r < den then q
  else if den < 2 * r then q + 1
  else if q % 2 = 0 then q else q + 1

/-- The power of two by which a fraction has a 53-bit integer part; no lower than the least
power there is. -/
def scale (num den : Nat) : Int :=
  let e : Int := (Nat.log2 num : Int) - (Nat.log2 den : Int) - 52
  let p := fraction den e
  let e := if num * p.2 < Nat.pow 2 52 * p.1 then e - 1 else e
  max e (-1074)

/-- The 53-bit number nearest to a fraction, as mantissa and exponent. -/
def nearest (num den : Nat) : Nat × Int :=
  if num = 0 then (0, 0)
  else
    let e := scale num den
    let p := fraction den e
    (divNearest (num * p.2) p.1, e)

/-- The number nearest to a fraction. -/
def ofFraction (negative : Bool) (num den : Nat) : Binary :=
  let (m, e) := nearest num den
  if 1024 ≤ (Nat.log2 m : Int) + e ∧ m ≠ 0 then .infinite negative
  else .finite (if negative then -(m : Int) else m) e

/-- The number nearest to a decimal one. -/
def ofDecimal (negative : Bool) (n : Nat) (e : Int) : Binary :=
  if n = 0 then .finite 0 0
  else if 400 < e + (Nat.log2 n : Int) / 4 then .infinite negative
  else if e + (Nat.log2 n : Int) / 3 < -800 then .finite 0 0
  else if e < 0 then ofFraction negative n (Nat.pow 10 (-e).toNat)
  else ofFraction negative (n * Nat.pow 10 e.toNat) 1

/-- The number nearest to a binary one. -/
def ofScaled (m e : Int) : Binary :=
  let p := fraction m.natAbs e
  ofFraction (m < 0) p.1 p.2

/-- The sum, rounded. -/
def add : Binary → Binary → Binary
  | .finite m e, .finite n f =>
    let g := min e f
    ofScaled (m * Int.pow 2 (e - g).toNat + n * Int.pow 2 (f - g).toNat) g
  | .infinite a, .infinite b => if a = b then .infinite a else .undefined
  | .infinite a, .finite _ _ => .infinite a
  | .finite _ _, .infinite b => .infinite b
  | _, _ => .undefined

/-- The product with a natural number, rounded. -/
def mulNat (x : Binary) (n : Nat) : Binary :=
  match x with
  | .finite m e => ofScaled (m * n) e
  | .infinite a => if n = 0 then .undefined else .infinite a
  | .undefined => .undefined

/-- The number without its fraction; only finite numbers have one. -/
def truncate? : Binary → Option Int
  | .finite m e =>
    let p := fraction m.natAbs e
    some (if m < 0 then -((p.1 / p.2 : Nat) : Int) else ((p.1 / p.2 : Nat) : Int))
  | _ => none

/-- How many digits a positive fraction has before its point; not positive if it begins with
zeros after the point. -/
def decimalPoint (num den : Nat) : Int :=
  if den ≤ num then (Nat.toDigits 10 (num / den)).length
  else match (List.range 400).find? fun j => den ≤ num * Nat.pow 10 (j + 1) with
    | some j => -(j : Int)
    | none => -400

/-- `n / 10 ^ places`, for places of either sign, as a fraction. -/
def decimalFraction (n : Nat) (places : Int) : Nat × Nat :=
  if places < 0 then (n * Nat.pow 10 (-places).toNat, 1) else (n, Nat.pow 10 places.toNat)

/-- Is the 53-bit number nearest to `n / 10 ^ places` the fraction itself? -/
def readsBack (num den n : Nat) (places : Int) : Bool :=
  let d := decimalFraction n places
  let (m, e) := nearest d.1 d.2
  let p := fraction m e
  p.1 * den == num * p.2

/-- The decimal of `count` digits that reads back as the fraction, if there is one; of two, the
nearer, and of two as near, the even one. -/
def digitsOf? (num den : Nat) (point : Int) (count : Nat) : Option (Nat × Int) :=
  let places : Int := count - point
  let s := decimalFraction 1 places
  let low := num * s.2 / (den * s.1)
  let rest := num * s.2 % (den * s.1)
  let lowOk := readsBack num den low places
  let highOk := readsBack num den (low + 1) places
  let lowFirst := 2 * rest < den * s.1 || (2 * rest == den * s.1 && low % 2 == 0)
  if lowOk && (!highOk || lowFirst) then some (low, places)
  else if highOk then some (low + 1, places)
  else none

/-- The fewest digits that read back as a positive fraction, with the number of places after
the point. -/
def shortest (num den : Nat) : Nat × Int :=
  let point := decimalPoint num den
  ((List.range 17).findSome? fun i => digitsOf? num den point (i + 1)).getD (0, 0)

/-- Digits and the place of the point, as text: positional from 10^-4 up to 10^16, else with an
exponent of at least two digits. -/
def layout (digits : Text) (point : Int) : Text :=
  let n : Int := digits.length
  if point ≤ -4 ∨ 16 < point then
    let x := point - 1
    let ds := Text.ofNat x.natAbs
    let tail := match digits.drop 1 with
      | [] => []
      | rest => '.' :: rest
    digits.take 1 ++ tail ++ ['e', if x < 0 then '-' else '+'] ++ Text.copies (2 - ds.length) '0'
      ++ ds
  else if point ≤ 0 then ['0', '.'] ++ Text.copies (-point).toNat '0' ++ digits
  else if n ≤ point then digits ++ Text.copies (point - n).toNat '0' ++ ['.', '0']
  else digits.take point.toNat ++ ['.'] ++ digits.drop point.toNat

/-- The number as text: the fewest digits that read back. -/
def text : Binary → Text
  | .undefined => "nan"
  | .infinite negative => if negative then "-inf" else "inf"
  | .finite m e =>
    if m = 0 then "0.0"
    else
      let p := fraction m.natAbs e
      let (n, places) := shortest p.1 p.2
      let all := Text.ofNat n
      let digits := all.dropRight (· == '0')
      (if m < 0 then ['-'] else []) ++ layout digits ((all.length : Int) - places)

/-- Digits before an optional point and after it, with their number of places. -/
def readDigits? (s : Text) : Option (Nat × Nat) := do
  let whole := s.takeWhile (· != '.')
  let run (t : Text) : Option (List Nat) :=
    if t.isEmpty then some [] else Text.digitRun? Text.digitValue? t
  let a ← run whole
  let b ← match s.drop whole.length with
    | [] => some []
    | _ :: after => run after
  if a.isEmpty && b.isEmpty then none else some (Text.ofDigitValues 10 (a ++ b), b.length)

/-- The number that a text denotes: blanks, a sign, digits with an optional point, an optional
exponent, blanks; or the name of an infinity or of no number. -/
def read? (s : Text) : Option Binary := do
  let (negative, body) := Text.takeSign (Text.trim s)
  let lower := body.map Char.toLower
  if lower == "inf" || lower == "infinity" then return .infinite negative
  if lower == "nan" then return .undefined
  let isE (c : Char) : Bool := c == 'e' || c == 'E'
  let front := body.takeWhile (fun c => !isE c)
  let (n, places) ← readDigits? front
  match body.drop front.length with
  | [] => return ofDecimal negative n (-(places : Int))
  | _ :: after =>
    let (down, ds) := Text.takeSign after
    let x ← Text.digitRun? Text.digitValue? ds
    return ofDecimal negative n (Text.applySign down (Text.ofDigitValues 10 x) - places)

end Binary

end Rebuild
