/-!
# Widening floats

The pattern of eight bytes that has the value of a pattern of four: the sign
stays, the exponent is rebased from 127 to 1023, and the fraction gets 29 zeros
at its end. A number too small for a full fraction gets one, since its exponent
is in range after widening. A pattern that is not a number keeps its fraction
and becomes a quiet one.
-/

namespace ObjectStream

/-- The pattern of eight bytes with the value of a pattern of four. -/
def widenFloat (bits : UInt32) : UInt64 :=
  let sign : UInt64 := (bits >>> 31).toUInt64 <<< 63
  let exponent : UInt32 := (bits >>> 23) &&& 0xff
  let fraction : UInt64 := (bits &&& 0x7fffff).toUInt64
  if exponent = 0xff then
    let quiet : UInt64 := if fraction = 0 then 0x7ff0000000000000 else 0x7ff8000000000000
    sign ||| quiet ||| (fraction <<< 29)
  else if exponent = 0 then
    if fraction = 0 then sign
    else
      let shift := 23 - fraction.toNat.log2
      let trailing : UInt64 := (fraction <<< UInt64.ofNat shift) &&& 0x7fffff
      sign ||| (UInt64.ofNat (897 - shift) <<< 52) ||| (trailing <<< 29)
  else sign ||| ((exponent.toUInt64 + 896) <<< 52) ||| (fraction <<< 29)

end ObjectStream
