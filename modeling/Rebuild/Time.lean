import Rebuild.Number.Binary
/-!
# File times

A time is a decimal number of seconds. Two times are compared by their thousandths, cut off
after multiplication, so that times closer than that count as equal. A file that does not exist
has no time: as a prerequisite it is later than everything, as a target it is not earlier than
anything.
-/

namespace Rebuild

/-- A time: `units / 10 ^ places` seconds. -/
structure Time where
  units : Int
  places : Nat
deriving DecidableEq, Repr

namespace Time

/-- A time in whole seconds. -/
def ofInt (n : Int) : Time := ⟨n, 0⟩

/-- The time a second later. -/
def next (t : Time) : Time := { t with units := t.units + Int.pow 10 t.places }

/-- The thousandths of a time. A fractional time is first the nearest number of 53 bits, and so
is the product. -/
def millis (t : Time) : Int :=
  if t.places = 0 then 1000 * t.units
  else ((Binary.mulNat (Binary.ofDecimal (t.units < 0) t.units.natAbs (-(t.places : Int)))
    1000).truncate?).getD 0

/-- Is a prerequisite's time later than a target's? -/
def later (dep target : Option Time) : Bool :=
  match dep, target with
  | none, _ => true
  | some _, none => false
  | some d, some t => t.millis < d.millis

end Time

end Rebuild
