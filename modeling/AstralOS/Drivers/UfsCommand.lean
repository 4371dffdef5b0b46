import AstralOS.Drivers.BlockRoundTrip

/-! A UFS command as the device decodes it, and the requests a descriptor can stand for. -/
namespace AstralOS.Drivers
open Foundation

inductive Direction where
  | read | write
  deriving DecidableEq

def Direction.code : Direction → BitVec 32
  | .read => utpTrdDdRead
  | .write => utpTrdDdWrite

def ufsBlocks : Direction → BitVec 64 → BitVec 32 → Addr → Machine → Int × Machine
  | .read => ufsReadBlocks
  | .write => ufsWriteBlocks

structure UfsRequest where
  direction : Direction
  lba : Nat
  count : Nat
  bytes : Nat
  address : Addr
  deriving DecidableEq

/-- What a caller of `ufs_read_blocks` or `ufs_write_blocks` asks for. -/
def ufsRequest (direction : Direction) (lba : BitVec 64) (numBlocks : BitVec 32) (buffer : Addr) :
    UfsRequest :=
  ⟨direction, lba.toNat, numBlocks.toNat, numBlocks.toNat * ufsBlockSize, buffer⟩

def UtpTrd.direction (t : UtpTrd) : Option Direction :=
  if t.cdb 0 = 0x28#8 then some .read else if t.cdb 0 = 0x2A#8 then some .write else none

/-- The count of a region is stored less one. -/
def PrdtEntry.byteCount (p : PrdtEntry) : Nat := p.dword2.toNat + 1

def decodeCommand (t : UtpTrd) (p : PrdtEntry) : Option UfsRequest :=
  t.direction.map fun direction => ⟨direction, t.lba, t.count, p.byteCount, p.address⟩

/-- The request fits the encoding: some descriptor stands for it. -/
def UfsRequest.Encodable (r : UfsRequest) : Prop := ∃ t p, decodeCommand t p = some r

structure EncodesFaithfully (direction : Direction) (lba : BitVec 64) (numBlocks : BitVec 32)
    (buffer : Addr) (m : Machine) : Prop where
  accepted : (ufsBlocks direction lba numBlocks buffer m).1 = 0 →
    decodeCommand (trdOf lba numBlocks direction.code) (prdtOf numBlocks buffer) =
      some (ufsRequest direction lba numBlocks buffer)
  refused : ¬ (ufsRequest direction lba numBlocks buffer).Encodable →
    (ufsBlocks direction lba numBlocks buffer m).1 ≠ 0

/-- The device gets the descriptor the two encoders build, and the status is always 0. -/
theorem ufsBlocks_eq (direction : Direction) (lba : BitVec 64) (numBlocks : BitVec 32)
    (buffer : Addr) (m : Machine) : ufsBlocks direction lba numBlocks buffer m =
      (0, (m.putDescriptors (trdOf lba numBlocks direction.code) (prdtOf numBlocks buffer)).doorbell
        (trdOf lba numBlocks direction.code) (prdtOf numBlocks buffer)) := by
  cases direction with
  | read => rfl
  | write => rfl

theorem trdOf_direction (lba : BitVec 64) (numBlocks : BitVec 32) (direction : Direction) :
    (trdOf lba numBlocks direction.code).direction = some direction := by
  cases direction with
  | read => rfl
  | write => rfl

theorem prdtOf_byteCount (numBlocks : BitVec 32) (buffer : Addr) :
    (prdtOf numBlocks buffer).byteCount = (numBlocks.toNat * 4096 + (2 ^ 32 - 1)) % 2 ^ 32 + 1 := by
  change (numBlocks * 4096#32 - 1#32).toNat + 1 = _
  rw [BitVec.toNat_sub, BitVec.toNat_mul]
  simp only [BitVec.toNat_ofNat]
  omega

/-- A field holds what was put into it if it was small enough. -/
theorem decode_encode_iff (direction : Direction) (lba : BitVec 64) (numBlocks : BitVec 32)
    (buffer : Addr) :
    decodeCommand (trdOf lba numBlocks direction.code) (prdtOf numBlocks buffer) =
        some (ufsRequest direction lba numBlocks buffer) ↔
      lba.toNat < 2 ^ 32 ∧ 1 ≤ numBlocks.toNat ∧ numBlocks.toNat < 2 ^ 16 := by
  simp only [decodeCommand, trdOf_direction, Option.map_some, ufsRequest, trdOf_lba, trdOf_count,
    prdtOf_byteCount, prdtOf_address, ufsBlockSize, Option.some.injEq, UfsRequest.mk.injEq,
    true_and, and_true]
  have small := lba.isLt
  have few := numBlocks.isLt
  constructor
  · intro fields
    omega
  · intro fits
    omega

theorem UtpTrd.lba_lt (t : UtpTrd) : t.lba < 2 ^ 32 := by
  have := (t.cdb 2).isLt
  have := (t.cdb 3).isLt
  have := (t.cdb 4).isLt
  have := (t.cdb 5).isLt
  unfold UtpTrd.lba
  omega

theorem UtpTrd.count_lt (t : UtpTrd) : t.count < 2 ^ 16 := by
  have := (t.cdb 7).isLt
  have := (t.cdb 8).isLt
  unfold UtpTrd.count
  omega

theorem encodable_iff (direction : Direction) (lba : BitVec 64) (numBlocks : BitVec 32)
    (buffer : Addr) : (ufsRequest direction lba numBlocks buffer).Encodable ↔
      lba.toNat < 2 ^ 32 ∧ 1 ≤ numBlocks.toNat ∧ numBlocks.toNat < 2 ^ 16 := by
  constructor
  · rintro ⟨t, p, decoded⟩
    obtain ⟨_, _, same⟩ := Option.map_eq_some_iff.mp decoded
    have address : t.lba = lba.toNat := congrArg UfsRequest.lba same
    have count : t.count = numBlocks.toNat := congrArg UfsRequest.count same
    have bytes : p.dword2.toNat + 1 = numBlocks.toNat * 4096 := congrArg UfsRequest.bytes same
    have := t.lba_lt
    have := t.count_lt
    omega
  · intro fits
    exact ⟨_, _, (decode_encode_iff direction lba numBlocks buffer).mpr fits⟩

/-- A command stands for the request if and only if the block number has 32 bits and the count
16 and is not 0; nothing is ever refused. -/
theorem encodesFaithfully_iff (direction : Direction) (lba : BitVec 64) (numBlocks : BitVec 32)
    (buffer : Addr) (m : Machine) : EncodesFaithfully direction lba numBlocks buffer m ↔
      lba.toNat < 2 ^ 32 ∧ 1 ≤ numBlocks.toNat ∧ numBlocks.toNat < 2 ^ 16 := by
  have status : (ufsBlocks direction lba numBlocks buffer m).1 = 0 :=
    congrArg Prod.fst (ufsBlocks_eq direction lba numBlocks buffer m)
  constructor
  · intro faithful
    exact (decode_encode_iff direction lba numBlocks buffer).mp (faithful.accepted status)
  · intro fits
    refine ⟨fun _ => (decode_encode_iff direction lba numBlocks buffer).mpr fits, ?_⟩
    intro refused
    exact absurd ((encodable_iff direction lba numBlocks buffer).mpr fits) refused

/-- A write to block 2 ^ 32 goes out as a write to block 0. -/
theorem write_lands_on_other_block :
    ¬ EncodesFaithfully .write 0x100000000#64 1#32 0x1000#64 emmcMachine := by
  intro faithful
  have request := faithful.accepted rfl
  exact absurd request (by decide)

end AstralOS.Drivers
