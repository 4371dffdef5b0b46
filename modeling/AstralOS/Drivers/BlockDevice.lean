import AstralOS.Foundation.Memory

/-! The block device drivers and the two controllers they program. A UFS device moves the
blocks its command names; an eMMC device moves a word for each access to its data register. -/
namespace AstralOS.Drivers
open Foundation

def ufsBlockSize : Nat := 4096
def emmcBlockSize : Nat := 512

inductive BlockDeviceType where
  | none | ufs | emmc
  deriving DecidableEq

/-- Memory, what the devices store by block and by sector, and the place of an eMMC transfer
that is going on. -/
structure Machine where
  mem : Memory
  ufs : Nat → Bytes
  emmc : Nat → Bytes
  emmcSector : Nat
  emmcWord : Nat
  activeBlockDeviceType : BlockDeviceType

/-- Memory after `count` units of `size` bytes from unit `lba` on have come in at `buffer`. -/
def transferIn (size : Nat) (units : Nat → Bytes) (lba count : Nat) (m : Memory) (buffer : Addr) :
    Memory := fun x =>
  if (x - buffer).toNat < size * count then
    units (lba + (x - buffer).toNat / size) ((x - buffer).toNat % size)
  else m x

/-- The device after `count` units from `buffer` on have gone out to unit `lba` on. -/
def transferOut (size : Nat) (units : Nat → Bytes) (lba count : Nat) (m : Memory) (buffer : Addr) :
    Nat → Bytes := fun u j =>
  if lba ≤ u ∧ j < size ∧ size * (u - lba) + j < size * count then
    m (buffer + BitVec.ofNat 64 (size * (u - lba) + j))
  else units u j

/-! UFS: a descriptor with a SCSI command block, and one entry of the region table. -/

structure PrdtEntry where
  dword0 : BitVec 32
  dword1 : BitVec 32
  dword2 : BitVec 32
  dword3 : BitVec 32

/-- `cdb` is the bytes from `dword4` on. -/
structure UtpTrd where
  dword0 : BitVec 32
  dword1 : BitVec 32
  dword2 : BitVec 32
  dword3 : BitVec 32
  cdb : Bytes

def ufsTrlBase : Addr := 0xDEAE0000#64
def ufsPrdtBase : Addr := 0xDEAF0000#64
def utpTrdDdRead : BitVec 32 := 1#32
def utpTrdDdWrite : BitVec 32 := 2#32

def prdtOf (numBlocks : BitVec 32) (buffer : Addr) : PrdtEntry :=
  ⟨buffer.setWidth 32, (buffer >>> 32).setWidth 32, numBlocks * BitVec.ofNat 32 ufsBlockSize - 1#32, 0#32⟩

def trdOf (lba : BitVec 64) (numBlocks dataDirection : BitVec 32) : UtpTrd where
  dword0 := 0#32 <<< 29 ||| dataDirection <<< 24 ||| 1#32 <<< 16
  dword1 := ufsPrdtBase.setWidth 32
  dword2 := (ufsPrdtBase >>> 32).setWidth 32
  dword3 := 0#32
  cdb := fun
    | 0 => if dataDirection = utpTrdDdRead then 0x28#8 else 0x2A#8
    | 2 => ((lba >>> 24) &&& 0xFF#64).setWidth 8
    | 3 => ((lba >>> 16) &&& 0xFF#64).setWidth 8
    | 4 => ((lba >>> 8) &&& 0xFF#64).setWidth 8
    | 5 => (lba &&& 0xFF#64).setWidth 8
    | 7 => ((numBlocks >>> 8) &&& 0xFF#32).setWidth 8
    | 8 => (numBlocks &&& 0xFF#32).setWidth 8
    | _ => 0#8

def UtpTrd.lba (t : UtpTrd) : Nat :=
  (((t.cdb 2).toNat * 256 + (t.cdb 3).toNat) * 256 + (t.cdb 4).toNat) * 256 + (t.cdb 5).toNat

def UtpTrd.count (t : UtpTrd) : Nat := (t.cdb 7).toNat * 256 + (t.cdb 8).toNat

def PrdtEntry.address (p : PrdtEntry) : Addr := p.dword1 ++ p.dword0

def PrdtEntry.bytes (p : PrdtEntry) : Bytes := leByte (p.dword3 ++ p.dword2 ++ p.dword1 ++ p.dword0)

def UtpTrd.bytes (t : UtpTrd) : Bytes := fun i =>
  if i < 16 then leByte (t.dword3 ++ t.dword2 ++ t.dword1 ++ t.dword0) i else t.cdb (i - 16)

/-- Memory with `n` bytes at an address. -/
def putBytes (n : Nat) (bytes : Bytes) (a : Addr) (m : Memory) : Memory := fun x =>
  if (x - a).toNat < n then bytes (x - a).toNat else m x

/-- What the two `memset`s and the stores behind them leave at the driver's two places. -/
def Machine.putDescriptors (m : Machine) (t : UtpTrd) (p : PrdtEntry) : Machine :=
  { m with mem := putBytes 32 t.bytes ufsTrlBase (putBytes 16 p.bytes ufsPrdtBase m.mem) }

/-- What the device does on the doorbell: it moves the programmed number of blocks. -/
def Machine.doorbell (m : Machine) (t : UtpTrd) (p : PrdtEntry) : Machine :=
  if t.cdb 0 = 0x28#8 then
    { m with mem := transferIn ufsBlockSize m.ufs t.lba t.count m.mem p.address }
  else if t.cdb 0 = 0x2A#8 then
    { m with ufs := transferOut ufsBlockSize m.ufs t.lba t.count m.mem p.address }
  else m

def ufsSendCommand (lba : BitVec 64) (numBlocks : BitVec 32) (buffer : Addr)
    (dataDirection : BitVec 32) (m : Machine) : Int × Machine :=
  let trd := trdOf lba numBlocks dataDirection
  let prdt := prdtOf numBlocks buffer
  (0, (m.putDescriptors trd prdt).doorbell trd prdt)

def ufsReadBlocks (lba : BitVec 64) (numBlocks : BitVec 32) (buffer : Addr) :
    Machine → Int × Machine := ufsSendCommand lba numBlocks buffer utpTrdDdRead

def ufsWriteBlocks (lba : BitVec 64) (numBlocks : BitVec 32) (buffer : Addr) :
    Machine → Int × Machine := ufsSendCommand lba numBlocks buffer utpTrdDdWrite

/-! eMMC: a command sets the sector, and the words go through the data register. -/

def emmcCmdReadMultipleBlock : BitVec 32 := 0x12#32
def emmcCmdWriteMultipleBlock : BitVec 32 := 0x19#32
def emmcCmdStopTransmission : BitVec 32 := 0x0C#32

def emmcSendCommand (cmd arg : BitVec 32) (m : Machine) : Machine :=
  if cmd = emmcCmdReadMultipleBlock ∨ cmd = emmcCmdWriteMultipleBlock then
    { m with emmcSector := arg.toNat, emmcWord := 0 }
  else m

/-- After a word the transfer goes on to the next one, and after 128 to the next sector. -/
def Machine.nextWord (m : Machine) : Machine :=
  if m.emmcWord + 1 = emmcBlockSize / 4 then
    { m with emmcSector := m.emmcSector + 1, emmcWord := 0 }
  else { m with emmcWord := m.emmcWord + 1 }

/-- `buffer[k] = *EMMC_HCI_DATA_REG`, for 32-bit elements. -/
def Machine.readData (buffer : Addr) (m : Machine) (k : Nat) : Machine :=
  Machine.nextWord { m with
    mem := store 4 m.mem (buffer + BitVec.ofNat 64 (4 * k))
      (le 32 4 ((m.emmc m.emmcSector).drop (4 * m.emmcWord))) }

/-- `*EMMC_HCI_DATA_REG = buffer[k]` -/
def Machine.writeData (buffer : Addr) (m : Machine) (k : Nat) : Machine :=
  Machine.nextWord { m with
    emmc := Function.update m.emmc m.emmcSector ((m.emmc m.emmcSector).splice (4 * m.emmcWord) 4
      (leByte (load 32 4 m.mem (buffer + BitVec.ofNat 64 (4 * k))))) }

/-- The two nested loops over sectors and words. -/
def emmcLoop (access : Machine → Nat → Machine) (numBlocks : Nat) (m : Machine) : Machine :=
  (List.range numBlocks).foldl (fun m i =>
    (List.range (emmcBlockSize / 4)).foldl (fun m j => access m (i * (emmcBlockSize / 4) + j)) m) m

def emmcReadBlocks (lba numBlocks : BitVec 32) (buffer : Addr) (m : Machine) : Int × Machine :=
  if numBlocks = 0#32 then (0, m)
  else
    let m := emmcSendCommand emmcCmdReadMultipleBlock lba m
    let m := emmcLoop (Machine.readData buffer) numBlocks.toNat m
    (0, emmcSendCommand emmcCmdStopTransmission 0#32 m)

def emmcWriteBlocks (lba numBlocks : BitVec 32) (buffer : Addr) (m : Machine) : Int × Machine :=
  if numBlocks = 0#32 then (0, m)
  else
    let m := emmcSendCommand emmcCmdWriteMultipleBlock lba m
    let m := emmcLoop (Machine.writeData buffer) numBlocks.toNat m
    (0, emmcSendCommand emmcCmdStopTransmission 0#32 m)

/-- The block number is cut to 32 bits on the way to the eMMC functions. -/
def blockDeviceRead (lba : BitVec 64) (numBlocks : BitVec 32) (buffer : Addr) (m : Machine) :
    Int × Machine :=
  match m.activeBlockDeviceType with
  | .ufs => ufsReadBlocks lba numBlocks buffer m
  | .emmc => emmcReadBlocks (lba.setWidth 32) numBlocks buffer m
  | .none => (-1, m)

def blockDeviceWrite (lba : BitVec 64) (numBlocks : BitVec 32) (buffer : Addr) (m : Machine) :
    Int × Machine :=
  match m.activeBlockDeviceType with
  | .ufs => ufsWriteBlocks lba numBlocks buffer m
  | .emmc => emmcWriteBlocks (lba.setWidth 32) numBlocks buffer m
  | .none => (-1, m)

/-- `read_block` and `write_block` of the file system ask for one block. -/
def readBlock (blockNum : BitVec 32) (buffer : Addr) : Machine → Int × Machine :=
  blockDeviceRead (blockNum.setWidth 64) 1#32 buffer

def writeBlock (blockNum : BitVec 32) (buffer : Addr) : Machine → Int × Machine :=
  blockDeviceWrite (blockNum.setWidth 64) 1#32 buffer

end AstralOS.Drivers
