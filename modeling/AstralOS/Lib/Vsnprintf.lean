import AstralOS.Foundation.Memory
import AstralOS.Lib.Itoa

/-! `vsnprintf`, one turn of its loop for each literal or directive. -/
namespace AstralOS.Lib
open Foundation

/-- The arguments in slots of eight bytes, and the memory in which the strings among them are. -/
structure VaList where
  slots : Nat → BitVec 64
  mem : Memory

namespace VaList
variable (ap : VaList) (i : Nat)

/-- The string that `va_arg(ap, char*)` points to. -/
def pointer : CString := CString.ofField (2 ^ 64) (ap.mem.view (ap.slots i))

/-- `va_arg(ap, int)` -/
def int : BitVec 32 := (ap.slots i).setWidth 32

/-- `va_arg(ap, uint64_t)` -/
def word : BitVec 64 := ap.slots i

end VaList

/-- The local variables; `strPtr` and `format` are offsets from where `str` and the format begin, and
`reads` lists the offsets at which the format has been read. -/
structure Printf where
  str : Bytes
  strPtr : Nat
  written : Nat
  format : Nat
  ap : Nat
  reads : List Nat

namespace Printf
variable (p : Printf) (size : Nat)

/-- `*format` is read. -/
def look : Printf := { p with reads := p.reads ++ [p.format] }

/-- The characters of a string, as many as leave room for a terminator. The string and the buffer are
apart in one address space, so that `written + s_len` does not wrap. -/
def copy (s : List Byte) : Printf :=
  let sLen := if size ≤ p.written + s.length then size - p.written - 1 else s.length
  { p with
    str := lay p.str p.strPtr (s.take sLen)
    strPtr := p.strPtr + sLen
    written := p.written + sLen }

def put (c : Byte) : Printf :=
  { p with
    str := Function.update p.str p.strPtr c
    strPtr := p.strPtr + 1
    written := p.written + 1 }

/-- One character, if it leaves room for a terminator. -/
def putIfRoom (c : Byte) : Printf := if p.written + 1 < size then p.put c else p

end Printf

def percentSign : Byte := 0x25#8

/-- What follows a `%`. `numBuf` is what happens to be in the buffer for numerals. -/
def directive (ap : VaList) (numBuf : Bytes) (size : Nat) (letter : Byte) (p : Printf) : Printf :=
  if letter = 0x73#8 then
    { p.copy size (ap.pointer p.ap).chars with ap := p.ap + 1 }
  else if letter = 0x64#8 ∨ letter = 0x69#8 then
    { p.copy size (CString.ofField 32 (itoa (ap.int p.ap).toInt numBuf 10)).chars with ap := p.ap + 1 }
  else if letter = 0x78#8 ∨ letter = 0x70#8 then
    { p.copy size (CString.ofField 32 (itoa (ap.word p.ap).toInt numBuf 16)).chars with ap := p.ap + 1 }
  else if letter = 0x63#8 then
    { p.putIfRoom size ((ap.int p.ap).setWidth 8) with ap := p.ap + 1 }
  else if letter = percentSign then p.putIfRoom size percentSign
  else p

/-- The body of the loop. -/
def turn (f : Bytes) (ap : VaList) (numBuf : Bytes) (size : Nat) (p : Printf) : Printf :=
  let p :=
    if f p.format = percentSign then
      let p := { p with format := p.format + 1 }.look
      directive ap numBuf size (f p.format) p
    else p.put (f p.format)
  { p with format := p.format + 1 }

/-- The loop, cut off after `fuel` turns. -/
def printLoop (f : Bytes) (ap : VaList) (numBuf : Bytes) (size : Nat) : Nat → Printf → Option Printf
  | 0, _ => none
  | fuel + 1, p =>
      let p := p.look
      if f p.format ≠ 0#8 ∧ p.written < size then printLoop f ap numBuf size fuel (turn f ap numBuf size p)
      else some p

/-- The buffer, the return value, where the last terminator went, and the reads of the format. -/
structure Printed where
  str : Bytes
  result : Int
  terminator : Option Nat
  reads : List Nat

def Printf.finish (size : Nat) (p : Printf) : Printed :=
  let result := (BitVec.ofNat 32 p.written).toInt
  if p.written < size then ⟨Function.update p.str p.strPtr 0#8, result, some p.strPtr, p.reads⟩
  else if 0 < size then ⟨Function.update p.str (size - 1) 0#8, result, some (size - 1), p.reads⟩
  else ⟨p.str, result, none, p.reads⟩

def vsnprintf (fuel : Nat) (str : Bytes) (size : Nat) (format : Bytes) (ap : VaList) (numBuf : Bytes) :
    Option Printed :=
  (printLoop format ap numBuf size fuel ⟨str, 0, 0, 0, 0, []⟩).map (Printf.finish size)

end AstralOS.Lib
