import Zelavis.Lib.Unicode

/-!
# Encoded texts

A text with escapes, three units each, that spell the UTF-8 bytes of what it stands for.
-/

namespace Zelavis.Lib

def PERCENT : CodeUnit := 0x25

def hexValue (u : CodeUnit) : Option ℕ :=
  if 0x30 ≤ u.val ∧ u.val ≤ 0x39 then some (u.val - 0x30)
  else if 0x41 ≤ u.val ∧ u.val ≤ 0x46 then some (u.val - 0x41 + 10)
  else if 0x61 ≤ u.val ∧ u.val ≤ 0x66 then some (u.val - 0x61 + 10)
  else none

def parseHexOctet : Utf16 → Option (Byte × Utf16)
  | a :: b :: rest =>
    (hexValue a).bind fun high => (hexValue b).map fun low => (Fin.ofNat 256 (high * 16 + low), rest)
  | _ => none

/-- How many bytes a code point has, from its first; 0 where it cannot be the first. -/
def octetsOf (b : Byte) : ℕ :=
  if b.val < 0x80 then 1
  else if b.val < 0xC0 then 0
  else if b.val < 0xE0 then 2
  else if b.val < 0xF0 then 3
  else if b.val < 0xF8 then 4
  else 0

def continuationOctets : ℕ → Utf16 → Option (Bytes × Utf16)
  | 0, rest => some ([], rest)
  | n + 1, u :: rest =>
    if u = PERCENT then
      (parseHexOctet rest).bind fun next =>
        (continuationOctets n next.2).map fun more => (next.1 :: more.1, more.2)
    else none
  | _ + 1, [] => none

def unitsOfOctets (octets : Bytes) : Option Utf16 :=
  match utf8Decode octets with
  | [c] => if isScalar c ∧ utf8Point c = octets then some (pointUnits c) else none
  | _ => none

def decodeComponentFrom : ℕ → Utf16 → Option Utf16
  | _, [] => some []
  | 0, _ :: _ => none
  | n + 1, u :: rest =>
    if u = PERCENT then
      (parseHexOctet rest).bind fun first =>
        if octetsOf first.1 = 0 then none
        else (continuationOctets (octetsOf first.1 - 1) first.2).bind fun more =>
          (unitsOfOctets (first.1 :: more.1)).bind fun units =>
            (decodeComponentFrom n more.2).map (units ++ ·)
    else (decodeComponentFrom n rest).map (u :: ·)

/-- What a text stands for. Source: `decodeURIComponent`; every step takes a unit at least. -/
def decodeURIComponent (s : Utf16) : Option Utf16 := decodeComponentFrom s.length s

example : decodeURIComponent (utf16 "a%2Fb") = some (utf16 "a/b") := by decide +kernel

example : decodeURIComponent (utf16 "%C3%A4") = some [0xE4] := by decide +kernel

example : decodeURIComponent (utf16 "%C3") = none := by decide +kernel

end Zelavis.Lib
