import AstralOS.Foundation.Memory
import AstralOS.Lib.CString

/-! The boot loader's device tree: `dtb_init` and the walks of `dtb_find_node` and `dtb_get_property`. -/
namespace AstralOS.Boot
open Foundation AstralOS.Lib

def fdtMagic : BitVec 32 := 0xd00dfeed#32
def fdtBeginNode : BitVec 32 := 1#32
def fdtEndNode : BitVec 32 := 2#32
def fdtProp : BitVec 32 := 3#32
def fdtNop : BitVec 32 := 4#32
def fdtEnd : BitVec 32 := 9#32

def bswap32 (val : BitVec 32) : BitVec 32 :=
  ((val <<< 24) &&& 0xFF000000#32) ||| ((val <<< 8) &&& 0x00FF0000#32) |||
    ((val >>> 8) &&& 0x0000FF00#32) ||| ((val >>> 24) &&& 0x000000FF#32)

def bswap64 (val : BitVec 64) : BitVec 64 :=
  ((val <<< 56) &&& 0xFF00000000000000#64) ||| ((val <<< 40) &&& 0x00FF000000000000#64) |||
    ((val <<< 24) &&& 0x0000FF0000000000#64) ||| ((val <<< 8) &&& 0x000000FF00000000#64) |||
    ((val >>> 8) &&& 0x00000000FF000000#64) ||| ((val >>> 24) &&& 0x0000000000FF0000#64) |||
    ((val >>> 40) &&& 0x000000000000FF00#64) ||| ((val >>> 56) &&& 0x00000000000000FF#64)

/-- `ALIGN_UP(p, 4)` -/
def alignUp4 (p : Addr) : Addr := (p + 3#64) &&& ~~~3#64

/-- `bswap32(*(uint32_t*)p)` -/
def cell (m : Memory) (p : Addr) : BitVec 32 := bswap32 (load 32 4 m p)

/-- The string a pointer points to. -/
def stringAt (m : Memory) (p : Addr) : CString := CString.ofField (2 ^ 64) (m.view p)

/-- `_dtb_base_address` and `_dt_strings_ptr` -/
structure Globals where
  dtbBaseAddress : Addr
  dtStringsPtr : Addr
  deriving DecidableEq

def Globals.start : Globals := ⟨0#64, 0#64⟩

def dtbInit (m : Memory) (dtbAddr : Addr) (g : Globals) : Globals :=
  if cell m dtbAddr ≠ fdtMagic then { g with dtbBaseAddress := 0#64 }
  else ⟨dtbAddr, dtbAddr + (cell m (dtbAddr + 12#64)).setWidth 64⟩

/-- The local variables of the walk. Pointers into the path are indices of it. -/
structure Walk where
  structPtr : Addr
  currentNodePath : Nat
  nextSlash : Option Nat
  nodeFound : Bool
  depth : Int
  deriving DecidableEq

/-- `strchr(path + i, '/')` -/
def slashFrom (path : CString) (i : Nat) : Option Nat := (strchr (path.drop i) 0x2F#8).map (i + ·)

/-- The node's name is compared with a segment of the path. -/
def matchNode (path nodeName : CString) (w : Walk) : Walk :=
  let nameEnd := strchr nodeName 0x40#8
  let nameLen := nameEnd.getD (strlen nodeName)
  match w.nextSlash with
  | some next =>
      let segment := next - w.currentNodePath
      if strncmp nodeName (path.drop w.currentNodePath) segment = 0 ∧ segment = nameLen then
        { w with
          currentNodePath := next + 1
          nextSlash := slashFrom path (next + 1)
          nodeFound := w.nodeFound || decide (path.bytes (next + 1) = 0#8) }
      else w
  | none =>
      let segment := path.drop w.currentNodePath
      if strcmp nodeName.bytes segment = 0 ∨
          (nameEnd.isSome ∧ strncmp nodeName segment nameLen = 0 ∧ strlen segment = nameLen) then
        { w with nodeFound := true }
      else w

/-- The pointer returned, and what is stored in `*len`. -/
abbrev Answer := Addr × Option (BitVec 32)

/-- One token. -/
def walkStep (m : Memory) (g : Globals) (path propName : CString) (targetDepth : Int) (w : Walk) :
    Walk ⊕ Answer :=
  let tag := cell m w.structPtr
  let p := w.structPtr + 4#64
  if tag = fdtBeginNode then
    let nodeName := stringAt m p
    let next := alignUp4 (p + BitVec.ofNat 64 (strlen nodeName + 1))
    let w := { w with structPtr := next, depth := w.depth + 1 }
    .inl (if w.nodeFound = false ∧ w.depth = targetDepth + 1 then matchNode path nodeName w else w)
  else if tag = fdtEndNode then
    if w.nodeFound then .inr (0#64, none)
    else .inl { w with structPtr := p, depth := w.depth - 1 }
  else if tag = fdtProp then
    let lenProp := cell m p
    let nameoffProp := cell m (p + 4#64)
    let propString := g.dtStringsPtr + nameoffProp.setWidth 64
    let propValue := p + 8#64
    if w.nodeFound = true ∧ strcmp (m.view propString) propName = 0 then .inr (propValue, some lenProp)
    else .inl { w with structPtr := alignUp4 (propValue + lenProp.setWidth 64) }
  else .inl { w with structPtr := p }

/-- The loop, cut off after `fuel` tokens. -/
def walkFrom (m : Memory) (g : Globals) (path propName : CString) (targetDepth : Int) :
    Nat → Walk → Option Answer
  | 0, _ => none
  | fuel + 1, w =>
      if cell m w.structPtr = fdtEnd then some (0#64, none)
      else match walkStep m g path propName targetDepth w with
        | .inl w => walkFrom m g path propName targetDepth fuel w
        | .inr answer => some answer

/-- The local variables of `dtb_find_node`, its pointer into the blob apart. -/
structure Seek where
  currentPathSegment : Nat
  nextSlash : Option Nat
  depth : Int
  pathMatchDepth : Int

/-- A node begins. It is the one that is looked for when there is no result. -/
def beginNode (path nodeName : CString) (s : Seek) : Option Seek :=
  let nameEnd := strchr nodeName 0x40#8
  let nameLen := nameEnd.getD (strlen nodeName)
  let compared : Option Seek :=
    if s.depth = s.pathMatchDepth then
      match s.nextSlash with
      | some next =>
          let segment := next - s.currentPathSegment
          if strncmp nodeName (path.drop s.currentPathSegment) segment = 0 ∧ segment = nameLen then
            some { s with
              currentPathSegment := next + 1
              nextSlash := slashFrom path (next + 1)
              pathMatchDepth := s.pathMatchDepth + 1 }
          else some s
      | none =>
          let segment := path.drop s.currentPathSegment
          if strcmp nodeName.bytes segment = 0 ∨
              (nameEnd.isSome ∧ strncmp nodeName segment nameLen = 0 ∧ strlen segment = nameLen) then none
          else some s
    else some s
  compared.map fun s => { s with depth := s.depth + 1 }

/-- The scan back from `last_slash` for a slash. -/
def scanBack (path : CString) : Nat → Nat
  | 0 => 0
  | i + 1 => if path.bytes (i + 1) = 0x2F#8 then i + 1 else scanBack path i

/-- A node ends. From a segment at 1 `last_slash` lies before the path, and the segment after it is
at 0, as it is when the scan comes to the path's start. -/
def endNode (path : CString) (s : Seek) : Seek :=
  let s := { s with depth := s.depth - 1 }
  if s.depth < s.pathMatchDepth then
    let s := { s with pathMatchDepth := s.depth }
    if s.currentPathSegment ≠ 0 then
      let lastSlash := scanBack path (s.currentPathSegment - 2)
      let segment := if lastSlash = 0 then 0 else lastSlash + 1
      { s with currentPathSegment := segment, nextSlash := slashFrom path segment }
    else s
  else s

/-- One token of `dtb_find_node`. -/
def findStep (m : Memory) (path : CString) (structPtr : Addr) (s : Seek) : (Addr × Seek) ⊕ Addr :=
  let tag := cell m structPtr
  let p := structPtr + 4#64
  if tag = fdtBeginNode then
    let nodeName := stringAt m p
    let next := alignUp4 (p + BitVec.ofNat 64 (strlen nodeName + 1))
    match beginNode path nodeName s with
    | none => .inr (next - 4#64)
    | some s => .inl (next, s)
  else if tag = fdtEndNode then .inl (p, endNode path s)
  else if tag = fdtProp then
    let lenProp := cell m p
    .inl (alignUp4 (p + 8#64 + lenProp.setWidth 64), s)
  else .inl (p, s)

/-- Its loop, cut off after `fuel` tokens. -/
def findFrom (m : Memory) (path : CString) : Nat → Addr × Seek → Option Addr
  | 0, _ => none
  | fuel + 1, (p, s) =>
      if cell m p = fdtEnd then some 0#64
      else match findStep m path p s with
        | .inl next => findFrom m path fuel next
        | .inr found => some found

def startSeek (path : CString) : Seek where
  currentPathSegment := 0
  nextSlash := slashFrom path 0
  depth := 0
  pathMatchDepth := 0

def dtbFindNode (fuel : Nat) (m : Memory) (g : Globals) (path : CString) : Option Addr :=
  if g.dtbBaseAddress = 0#64 then some 0#64
  else findFrom m path fuel (g.dtbBaseAddress + (cell m (g.dtbBaseAddress + 8#64)).setWidth 64, startSeek path)

/-- The number of slashes, a leading one not counted. -/
def targetDepth (path : CString) : Int :=
  (path.chars.count 0x2F#8 : Int) - if path.bytes 0 = 0x2F#8 then 1 else 0

def startWalk (m : Memory) (g : Globals) (path : CString) : Walk where
  structPtr := g.dtbBaseAddress + (cell m (g.dtbBaseAddress + 8#64)).setWidth 64
  currentNodePath := 0
  nextSlash := slashFrom path 0
  nodeFound := false
  depth := 0

def dtbGetProperty (fuel : Nat) (m : Memory) (g : Globals) (nodePath propName : CString) : Option Answer :=
  if g.dtbBaseAddress = 0#64 ∨ g.dtStringsPtr = 0#64 then some (0#64, none)
  else walkFrom m g nodePath propName (targetDepth nodePath) fuel (startWalk m g nodePath)

/-- The return value, and the four words or nothing stored through the pointers. -/
def dtbGetFramebufferInfo (fuel : Nat) (m : Memory) (g : Globals) :
    Option (Int × Option (BitVec 64 × BitVec 32 × BitVec 32 × BitVec 32)) :=
  if g.dtbBaseAddress = 0#64 then some (-1, none)
  else (dtbGetProperty fuel m g ⟨[0x2F#8, 0x63#8, 0x68#8, 0x6F#8, 0x73#8, 0x65#8, 0x6E#8], by decide⟩
    ⟨[0x66#8, 0x72#8, 0x61#8, 0x6D#8, 0x65#8, 0x62#8, 0x75#8, 0x66#8, 0x66#8, 0x65#8, 0x72#8], by decide⟩).map
    fun
      | (p, some len) =>
          if p ≠ 0#64 ∧ 16#32 ≤ len then
            (0, some ((cell m p).setWidth 64, cell m (p + 4#64), cell m (p + 8#64), cell m (p + 12#64)))
          else (-1, none)
      | (_, none) => (-1, none)

def dtbGetMemoryInfo (fuel : Nat) (m : Memory) (g : Globals) :
    Option (Int × Option (BitVec 64 × BitVec 64)) :=
  if g.dtbBaseAddress = 0#64 then some (-1, none)
  else (dtbGetProperty fuel m g ⟨[0x2F#8, 0x6D#8, 0x65#8, 0x6D#8, 0x6F#8, 0x72#8, 0x79#8], by decide⟩
    ⟨[0x72#8, 0x65#8, 0x67#8], by decide⟩).map
    fun
      | (p, some len) =>
          if p ≠ 0#64 ∧ 16#32 ≤ len then
            (0, some (bswap64 (load 64 8 m p), bswap64 (load 64 8 m (p + 8#64))))
          else (-1, none)
      | (_, none) => (-1, none)

end AstralOS.Boot
