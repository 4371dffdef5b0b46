import AstralOS.Foundation.Bytes

/-! The console font: the rows of pixels of each character from 32 to 126, the leftmost pixel
in the top bit. -/
namespace AstralOS.Lib
open Foundation

def fontWidth : BitVec 32 := 8#32
def fontHeight : BitVec 32 := 8#32

def proggyClean : List (List Byte) := [
  [0x00, 0x00, 0x00, 0x00, 0x00, 0x00, 0x00, 0x00],
  [0x18, 0x3C, 0x3C, 0x18, 0x18, 0x00, 0x18, 0x00],
  [0x66, 0x66, 0x24, 0x00, 0x00, 0x00, 0x00, 0x00],
  [0x6C, 0x6C, 0xFE, 0x6C, 0xFE, 0x6C, 0x6C, 0x00],
  [0x18, 0x3E, 0x60, 0x3C, 0x06, 0x7C, 0x18, 0x00],
  [0x00, 0xC6, 0xC6, 0x08, 0x10, 0x66, 0x66, 0x00],
  [0x3C, 0x66, 0x3C, 0x76, 0x66, 0x7C, 0x66, 0x00],
  [0x18, 0x18, 0x30, 0x00, 0x00, 0x00, 0x00, 0x00],
  [0x0C, 0x18, 0x30, 0x60, 0x60, 0x30, 0x18, 0x0C],
  [0x30, 0x18, 0x0C, 0x06, 0x06, 0x0C, 0x18, 0x30],
  [0x00, 0x66, 0x3C, 0xFF, 0x3C, 0x66, 0x00, 0x00],
  [0x00, 0x18, 0x18, 0x7E, 0x18, 0x18, 0x00, 0x00],
  [0x00, 0x00, 0x00, 0x00, 0x00, 0x18, 0x18, 0x30],
  [0x00, 0x00, 0x00, 0x7E, 0x00, 0x00, 0x00, 0x00],
  [0x00, 0x00, 0x00, 0x00, 0x00, 0x18, 0x18, 0x00],
  [0x06, 0x0C, 0x18, 0x30, 0x60, 0xC0, 0x80, 0x00],
  [0x3C, 0x66, 0x6E, 0x76, 0x66, 0x66, 0x3C, 0x00],
  [0x18, 0x38, 0x18, 0x18, 0x18, 0x18, 0x7E, 0x00],
  [0x3C, 0x66, 0x06, 0x0C, 0x18, 0x30, 0x7E, 0x00],
  [0x3C, 0x66, 0x06, 0x1C, 0x06, 0x66, 0x3C, 0x00],
  [0x0C, 0x1C, 0x3C, 0x6C, 0xFE, 0x0C, 0x0C, 0x00],
  [0x7E, 0x60, 0x7C, 0x06, 0x06, 0x66, 0x3C, 0x00],
  [0x3C, 0x60, 0x60, 0x7C, 0x66, 0x66, 0x3C, 0x00],
  [0x7E, 0x06, 0x0C, 0x18, 0x30, 0x30, 0x30, 0x00],
  [0x3C, 0x66, 0x66, 0x3C, 0x66, 0x66, 0x3C, 0x00],
  [0x3C, 0x66, 0x66, 0x3E, 0x06, 0x06, 0x3C, 0x00],
  [0x00, 0x18, 0x18, 0x00, 0x00, 0x18, 0x18, 0x00],
  [0x00, 0x18, 0x18, 0x00, 0x00, 0x18, 0x18, 0x30],
  [0x0C, 0x18, 0x30, 0x60, 0x30, 0x18, 0x0C, 0x00],
  [0x00, 0x00, 0x7E, 0x00, 0x7E, 0x00, 0x00, 0x00],
  [0x30, 0x18, 0x0C, 0x06, 0x0C, 0x18, 0x30, 0x00],
  [0x3C, 0x66, 0x06, 0x0C, 0x18, 0x00, 0x18, 0x00],
  [0x3C, 0x66, 0x60, 0x7C, 0x66, 0x66, 0x3C, 0x00],
  [0x7C, 0x66, 0x66, 0x7C, 0x66, 0x66, 0x66, 0x00],
  [0x7C, 0x66, 0x66, 0x7C, 0x66, 0x66, 0x7C, 0x00],
  [0x3C, 0x66, 0x60, 0x60, 0x60, 0x66, 0x3C, 0x00],
  [0x78, 0x6C, 0x66, 0x66, 0x66, 0x6C, 0x78, 0x00],
  [0x7E, 0x60, 0x60, 0x7C, 0x60, 0x60, 0x7E, 0x00],
  [0x7E, 0x60, 0x60, 0x7C, 0x60, 0x60, 0x60, 0x00],
  [0x3C, 0x66, 0x60, 0x60, 0x6E, 0x66, 0x3C, 0x00],
  [0x66, 0x66, 0x66, 0x7E, 0x66, 0x66, 0x66, 0x00],
  [0x7E, 0x18, 0x18, 0x18, 0x18, 0x18, 0x7E, 0x00],
  [0x0E, 0x06, 0x06, 0x06, 0x06, 0x66, 0x3C, 0x00],
  [0x66, 0x6C, 0x78, 0x70, 0x78, 0x6C, 0x66, 0x00],
  [0x60, 0x60, 0x60, 0x60, 0x60, 0x60, 0x7E, 0x00],
  [0xC6, 0xEE, 0xFE, 0xD6, 0xC6, 0xC6, 0xC6, 0x00],
  [0xC6, 0xE6, 0xF6, 0xDE, 0xCE, 0xC6, 0xC6, 0x00],
  [0x3C, 0x66, 0x66, 0x66, 0x66, 0x66, 0x3C, 0x00],
  [0x7C, 0x66, 0x66, 0x7C, 0x60, 0x60, 0x60, 0x00],
  [0x3C, 0x66, 0x66, 0x66, 0x6E, 0x3C, 0x0E, 0x00],
  [0x7C, 0x66, 0x66, 0x7C, 0x78, 0x6C, 0x66, 0x00],
  [0x3C, 0x66, 0x60, 0x3C, 0x06, 0x66, 0x3C, 0x00],
  [0x7E, 0x18, 0x18, 0x18, 0x18, 0x18, 0x18, 0x00],
  [0x66, 0x66, 0x66, 0x66, 0x66, 0x66, 0x3E, 0x00],
  [0x66, 0x66, 0x66, 0x66, 0x66, 0x3C, 0x18, 0x00],
  [0xC6, 0xC6, 0xC6, 0xD6, 0xFE, 0xEE, 0xC6, 0x00],
  [0x66, 0x66, 0x3C, 0x18, 0x3C, 0x66, 0x66, 0x00],
  [0x66, 0x66, 0x66, 0x3C, 0x18, 0x18, 0x18, 0x00],
  [0x7E, 0x06, 0x0C, 0x18, 0x30, 0x60, 0x7E, 0x00],
  [0x7E, 0x60, 0x60, 0x60, 0x60, 0x60, 0x7E, 0x00],
  [0x80, 0xC0, 0x60, 0x30, 0x18, 0x0C, 0x06, 0x00],
  [0x7E, 0x06, 0x06, 0x06, 0x06, 0x06, 0x7E, 0x00],
  [0x18, 0x3C, 0x66, 0x00, 0x00, 0x00, 0x00, 0x00],
  [0x00, 0x00, 0x00, 0x00, 0x00, 0x00, 0x00, 0xFF],
  [0x18, 0x0C, 0x06, 0x00, 0x00, 0x00, 0x00, 0x00],
  [0x00, 0x00, 0x3C, 0x06, 0x3E, 0x66, 0x3E, 0x00],
  [0x60, 0x60, 0x7C, 0x66, 0x66, 0x66, 0x7C, 0x00],
  [0x00, 0x00, 0x3C, 0x60, 0x60, 0x60, 0x3C, 0x00],
  [0x06, 0x06, 0x3E, 0x66, 0x66, 0x66, 0x3E, 0x00],
  [0x00, 0x00, 0x3C, 0x66, 0x7E, 0x60, 0x3C, 0x00],
  [0x1C, 0x36, 0x30, 0x7C, 0x30, 0x30, 0x30, 0x00],
  [0x00, 0x00, 0x3E, 0x66, 0x66, 0x3E, 0x06, 0x3C],
  [0x60, 0x60, 0x7C, 0x66, 0x66, 0x66, 0x66, 0x00],
  [0x18, 0x00, 0x38, 0x18, 0x18, 0x18, 0x3C, 0x00],
  [0x06, 0x00, 0x0E, 0x06, 0x06, 0x66, 0x3C, 0x00],
  [0x60, 0x60, 0x6C, 0x78, 0x70, 0x78, 0x6C, 0x00],
  [0x38, 0x18, 0x18, 0x18, 0x18, 0x18, 0x3C, 0x00],
  [0x00, 0x00, 0xCC, 0xFE, 0xD6, 0xC6, 0xC6, 0x00],
  [0x00, 0x00, 0x7C, 0x66, 0x66, 0x66, 0x66, 0x00],
  [0x00, 0x00, 0x3C, 0x66, 0x66, 0x66, 0x3C, 0x00],
  [0x00, 0x00, 0x7C, 0x66, 0x66, 0x7C, 0x60, 0x60],
  [0x00, 0x00, 0x3E, 0x66, 0x66, 0x3E, 0x06, 0x06],
  [0x00, 0x00, 0x6C, 0x76, 0x60, 0x60, 0x60, 0x00],
  [0x00, 0x00, 0x3E, 0x60, 0x3C, 0x06, 0x7C, 0x00],
  [0x30, 0x30, 0x7E, 0x30, 0x30, 0x36, 0x1C, 0x00],
  [0x00, 0x00, 0x66, 0x66, 0x66, 0x66, 0x3E, 0x00],
  [0x00, 0x00, 0x66, 0x66, 0x66, 0x3C, 0x18, 0x00],
  [0x00, 0x00, 0xC6, 0xD6, 0xFE, 0xEE, 0xC6, 0x00],
  [0x00, 0x00, 0x66, 0x3C, 0x18, 0x3C, 0x66, 0x00],
  [0x00, 0x00, 0x66, 0x66, 0x66, 0x3C, 0x18, 0x00],
  [0x00, 0x00, 0x7E, 0x0C, 0x18, 0x30, 0x7E, 0x00],
  [0x0E, 0x18, 0x18, 0x60, 0x18, 0x18, 0x0E, 0x00],
  [0x18, 0x18, 0x18, 0x18, 0x18, 0x18, 0x18, 0x18],
  [0x70, 0x18, 0x18, 0x06, 0x18, 0x18, 0x70, 0x00],
  [0x76, 0xDC, 0x00, 0x00, 0x00, 0x00, 0x00, 0x00]]

end AstralOS.Lib
