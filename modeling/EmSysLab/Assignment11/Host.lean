import Mathlib.Data.List.Basic

/-!
# The host client of assignment_11

The parts of `main.c` that fix the wire format: the two bytes of an LED command and
the packing the client expects of an encoder reading. Bytes and words are unsigned
C integers, computed in 32-bit `int` and truncated on assignment.
-/
namespace EmSysLab.Assignment11

def cmdLed : BitVec 8 := 0x03

/-- The bytes `send_led_command` transfers. -/
def sendLedCommand (on : BitVec 8) : List (BitVec 8) := [cmdLed, if on ≠ 0 then 1 else 0]

/-- Two incoming bytes with a flag in the top bit and seven data bits each. -/
def parseEncoderFromTwoBytes (b0 b1 : BitVec 8) : BitVec 16 :=
  let part0 : BitVec 16 := (b0 &&& 0x7F).setWidth 16
  let part1 : BitVec 16 := (b1 &&& 0x7F).setWidth 16
  ((part0.setWidth 32 <<< 7) ||| part1.setWidth 32).setWidth 16

end EmSysLab.Assignment11
