import AstralOS.Drivers.BlockDevice
import AstralOS.Fs.World

/-! What the two drivers move when the file system asks for one block: a UFS device all of it,
an eMMC device one sector. -/
namespace AstralOS.Drivers
open Foundation

section
variable {m : Machine} {buffer : Addr}

theorem low_byte {w : Nat} (byte : 8 ≤ w) (x : BitVec w) (k : Nat) :
    (((x >>> k) &&& 0xFF#w).setWidth 8).toNat = x.toNat / 2 ^ k % 256 := by
  have mask := Nat.and_two_pow_sub_one_eq_mod (x.toNat / 2 ^ k) 8
  have fits : 2 ^ 8 ≤ 2 ^ w := Nat.pow_le_pow_right (by decide) byte
  have whole : 255 % 2 ^ w = 2 ^ 8 - 1 := Nat.mod_eq_of_lt (by omega)
  rw [BitVec.toNat_setWidth, BitVec.toNat_and, BitVec.toNat_ushiftRight, Nat.shiftRight_eq_div_pow,
    BitVec.toNat_ofNat, whole, mask]
  exact Nat.mod_mod _ _

/-- The two halves of the buffer's address come together again. -/
theorem prdtOf_address (n : BitVec 32) (buffer : Addr) : (prdtOf n buffer).address = buffer := by
  change (buffer >>> 32).setWidth 32 ++ buffer.setWidth 32 = buffer
  apply BitVec.eq_of_getLsbD_eq
  intro i inside
  rw [BitVec.getLsbD_append]
  by_cases low : i < 32
  · simp [low]
  · have high : i - 32 < 32 := by omega
    have place : 32 + (i - 32) = i := by omega
    simp [low, high, place]

/-- The command names the low 32 bits of the block number. -/
theorem trdOf_lba (lba : BitVec 64) (numBlocks direction : BitVec 32) :
    (trdOf lba numBlocks direction).lba = lba.toNat % 2 ^ 32 := by
  have last := low_byte (by decide) lba 0
  rw [BitVec.ushiftRight_zero] at last
  simp only [UtpTrd.lba, trdOf, low_byte (show 8 ≤ 64 by decide), last]
  omega

/-- And the low 16 bits of the count. -/
theorem trdOf_count (lba : BitVec 64) (numBlocks direction : BitVec 32) :
    (trdOf lba numBlocks direction).count = numBlocks.toNat % 2 ^ 16 := by
  have last := low_byte (by decide) numBlocks 0
  rw [BitVec.ushiftRight_zero] at last
  simp only [UtpTrd.count, trdOf, low_byte (show 8 ≤ 32 by decide), last]
  omega

/-- Memory when a UFS command is given, with its descriptors in it. -/
def Machine.ufsMemory (m : Machine) (lba : BitVec 64) (n : BitVec 32) (buffer : Addr) (direction : BitVec 32) : Memory :=
  (m.putDescriptors (trdOf lba n direction) (prdtOf n buffer)).mem

/-- A UFS command moves the blocks its fields name, however many were asked for. -/
theorem ufsRead_spec (lba : BitVec 64) (n : BitVec 32) : ufsReadBlocks lba n buffer m = (0, { m with
    mem := transferIn ufsBlockSize m.ufs (lba.toNat % 2 ^ 32) (n.toNat % 2 ^ 16)
      (m.ufsMemory lba n buffer utpTrdDdRead) buffer }) := by
  rw [ufsReadBlocks, ufsSendCommand]
  rw [Machine.doorbell, prdtOf_address, trdOf_lba, trdOf_count]
  rfl

theorem ufsWrite_spec (lba : BitVec 64) (n : BitVec 32) : ufsWriteBlocks lba n buffer m = (0, { m with
    mem := m.ufsMemory lba n buffer utpTrdDdWrite
    ufs := transferOut ufsBlockSize m.ufs (lba.toNat % 2 ^ 32) (n.toNat % 2 ^ 16)
      (m.ufsMemory lba n buffer utpTrdDdWrite) buffer }) := by
  rw [ufsWriteBlocks, ufsSendCommand]
  rw [Machine.doorbell, prdtOf_address, trdOf_lba, trdOf_count]
  rfl

theorem narrow_lba (blockNum : BitVec 32) :
    (blockNum.setWidth 64).toNat % 2 ^ 32 = blockNum.toNat := by
  rw [BitVec.toNat_setWidth_of_le (show 32 ≤ 64 by decide)]
  exact Nat.mod_eq_of_lt blockNum.isLt

theorem ufsRead_one (blockNum : BitVec 32) : ufsReadBlocks (blockNum.setWidth 64) 1#32 buffer m =
    (0, { m with
      mem := transferIn ufsBlockSize m.ufs blockNum.toNat 1
        (m.ufsMemory (blockNum.setWidth 64) 1#32 buffer utpTrdDdRead) buffer }) := by
  rw [ufsRead_spec, narrow_lba]
  rfl

theorem ufsWrite_one (blockNum : BitVec 32) : ufsWriteBlocks (blockNum.setWidth 64) 1#32 buffer m =
    (0, { m with
      mem := m.ufsMemory (blockNum.setWidth 64) 1#32 buffer utpTrdDdWrite
      ufs := transferOut ufsBlockSize m.ufs blockNum.toNat 1
        (m.ufsMemory (blockNum.setWidth 64) 1#32 buffer utpTrdDdWrite) buffer }) := by
  rw [ufsWrite_spec, narrow_lba]
  rfl

/-! The eMMC loops, word by word. -/

theorem emmcLoop_eq (access : Machine → Nat → Machine) (n : Nat) :
    emmcLoop access n m = (List.range (128 * n)).foldl access m := by
  induction n with
  | zero => rfl
  | succ n ih =>
      have place : ∀ j, n * 128 + j = 128 * n + j := by omega
      rw [emmcLoop, List.range_succ, List.foldl_append, ← emmcLoop, ih, Nat.mul_succ, List.range_add,
        List.foldl_append, List.foldl_map]
      simp only [List.foldl_cons, List.foldl_nil]
      change (List.range 128).foldl (fun m j => access m (n * 128 + j)) _ = _
      simp only [place]

/-- Memory after the first `k` words of a transfer have come in. -/
def wordsIn (m : Machine) (lba k : Nat) (buffer : Addr) : Memory := fun x =>
  if (x - buffer).toNat < 4 * k then
    m.emmc (lba + (x - buffer).toNat / 512) ((x - buffer).toNat % 512)
  else m.mem x

theorem distance_word (x buffer : Addr) {k : Nat} (small : 4 * k + 4 ≤ 2 ^ 64) :
    (x - (buffer + BitVec.ofNat 64 (4 * k))).toNat < 4 ↔
      4 * k ≤ (x - buffer).toNat ∧ (x - buffer).toNat < 4 * k + 4 := by
  have bound := (x - buffer).isLt
  have distance : (x - (buffer + BitVec.ofNat 64 (4 * k))).toNat =
      (2 ^ 64 - 4 * k % 2 ^ 64 + (x - buffer).toNat) % 2 ^ 64 := by
    rw [sub_add_eq_sub_sub, BitVec.toNat_sub, BitVec.toNat_ofNat]
  rw [distance]
  omega

theorem distance_inside (x buffer : Addr) {k : Nat} (small : 4 * k + 4 ≤ 2 ^ 64)
    (low : 4 * k ≤ (x - buffer).toNat) :
    (x - (buffer + BitVec.ofNat 64 (4 * k))).toNat = (x - buffer).toNat - 4 * k := by
  have bound := (x - buffer).isLt
  rw [sub_add_eq_sub_sub, BitVec.toNat_sub, BitVec.toNat_ofNat]
  omega

theorem store_wordsIn (m : Machine) (lba : Nat) (buffer : Addr) {k : Nat}
    (small : 4 * k + 4 ≤ 2 ^ 64) :
    store 4 (wordsIn m lba k buffer) (buffer + BitVec.ofNat 64 (4 * k))
      (le 32 4 ((m.emmc (lba + k / 128)).drop (4 * (k % 128)))) = wordsIn m lba (k + 1) buffer := by
  funext x
  unfold store wordsIn
  by_cases inside : 4 * k ≤ (x - buffer).toNat ∧ (x - buffer).toNat < 4 * k + 4
  · rw [if_pos ((distance_word x buffer small).mpr inside), if_pos (by omega),
      distance_inside x buffer small inside.1, leByte_le _ (by decide) (by omega), Bytes.drop]
    congr 1
    · congr 1
      omega
    · omega
  · rw [if_neg fun near => inside ((distance_word x buffer small).mp near)]
    by_cases low : (x - buffer).toNat < 4 * k
    · rw [if_pos low, if_pos (by omega)]
    · rw [if_neg low, if_neg (by omega)]

theorem nextWord_at (m : Machine) {lba k : Nat} (sector : m.emmcSector = lba + k / 128)
    (word : m.emmcWord = k % 128) :
    m.nextWord = { m with emmcSector := lba + (k + 1) / 128, emmcWord := (k + 1) % 128 } := by
  obtain ⟨mem, ufs, emmc, s, w, type⟩ := m
  obtain rfl : s = lba + k / 128 := sector
  obtain rfl : w = k % 128 := word
  by_cases last : k % 128 + 1 = 128
  · have sector : lba + k / 128 + 1 = lba + (k + 1) / 128 := by omega
    have word : 0 = (k + 1) % 128 := by omega
    rw [← sector, ← word]
    exact if_pos last
  · have sector : lba + k / 128 = lba + (k + 1) / 128 := by omega
    have word : k % 128 + 1 = (k + 1) % 128 := by omega
    rw [← sector, ← word]
    exact if_neg last

/-- After `k` words of a read: their bytes are in the buffer, and the transfer stands behind. -/
theorem readData_words (buffer : Addr) (lba : Nat) (sector : m.emmcSector = lba) (word : m.emmcWord = 0) {k : Nat}
    (small : 4 * k ≤ 2 ^ 64) : (List.range k).foldl (Machine.readData buffer) m = { m with
      mem := wordsIn m lba k buffer
      emmcSector := lba + k / 128
      emmcWord := k % 128 } := by
  induction k with
  | zero =>
      obtain ⟨mem, ufs, emmc, s, w, type⟩ := m
      obtain rfl : s = lba := sector
      obtain rfl : w = 0 := word
      have none : wordsIn ⟨mem, ufs, emmc, s, 0, type⟩ s 0 buffer = mem := by
        funext x
        exact if_neg (Nat.not_lt_zero _)
      rw [none]
      rfl
  | succ k ih =>
      rw [List.range_succ, List.foldl_append, ih (by omega)]
      simp only [List.foldl_cons, List.foldl_nil, Machine.readData]
      rw [nextWord_at _ rfl rfl]
      simp only [store_wordsIn m lba buffer (k := k) (by omega)]

/-- The sectors after the first `k` words of a transfer have gone out. -/
def wordsOut (m : Machine) (lba k : Nat) (buffer : Addr) : Nat → Bytes := fun u j =>
  if lba ≤ u ∧ j < 512 ∧ 512 * (u - lba) + j < 4 * k then
    m.mem (buffer + BitVec.ofNat 64 (512 * (u - lba) + j))
  else m.emmc u j

theorem splice_wordsOut (m : Machine) (lba k : Nat) (buffer : Addr) :
    Function.update (wordsOut m lba k buffer) (lba + k / 128)
      ((wordsOut m lba k buffer (lba + k / 128)).splice (4 * (k % 128)) 4
        (leByte (load 32 4 m.mem (buffer + BitVec.ofNat 64 (4 * k))))) =
      wordsOut m lba (k + 1) buffer := by
  funext u j
  by_cases here : u = lba + k / 128
  · subst here
    rw [Function.update_self]
    by_cases inside : 4 * (k % 128) ≤ j ∧ j < 4 * (k % 128) + 4
    · have place : 4 * k + (j - 4 * (k % 128)) = 512 * (lba + k / 128 - lba) + j := by omega
      rw [Bytes.splice, if_pos inside, load, leByte_le _ (by decide) (by omega), Memory.view,
        BitVec.add_assoc, ← BitVec.ofNat_add, place, wordsOut, if_pos (by omega)]
    · rw [Bytes.splice, if_neg inside]
      unfold wordsOut
      by_cases earlier : lba ≤ lba + k / 128 ∧ j < 512 ∧ 512 * (lba + k / 128 - lba) + j < 4 * k
      · rw [if_pos earlier, if_pos (by omega)]
      · rw [if_neg earlier, if_neg (by omega)]
  · rw [Function.update_of_ne here]
    unfold wordsOut
    by_cases earlier : lba ≤ u ∧ j < 512 ∧ 512 * (u - lba) + j < 4 * k
    · rw [if_pos earlier, if_pos (by omega)]
    · rw [if_neg earlier, if_neg (by omega)]

theorem writeData_words (buffer : Addr) (lba : Nat) (sector : m.emmcSector = lba) (word : m.emmcWord = 0) (k : Nat) :
    (List.range k).foldl (Machine.writeData buffer) m = { m with
      emmc := wordsOut m lba k buffer
      emmcSector := lba + k / 128
      emmcWord := k % 128 } := by
  induction k with
  | zero =>
      obtain ⟨mem, ufs, emmc, s, w, type⟩ := m
      obtain rfl : s = lba := sector
      obtain rfl : w = 0 := word
      have none : wordsOut ⟨mem, ufs, emmc, s, 0, type⟩ s 0 buffer = emmc := by
        funext u j
        exact if_neg (by omega)
      rw [none]
      rfl
  | succ k ih =>
      rw [List.range_succ, List.foldl_append, ih]
      simp only [List.foldl_cons, List.foldl_nil, Machine.writeData]
      rw [nextWord_at _ rfl rfl]
      simp only [splice_wordsOut]

/-- The read loops deliver whole sectors from the command's argument on. -/
theorem emmcRead_spec (lba numBlocks : BitVec 32) (some : numBlocks ≠ 0#32) :
    emmcReadBlocks lba numBlocks buffer m = (0, { m with
      mem := transferIn emmcBlockSize m.emmc lba.toNat numBlocks.toNat m.mem buffer
      emmcSector := lba.toNat + numBlocks.toNat
      emmcWord := 0 }) := by
  have few := numBlocks.isLt
  have loops := readData_words (m := emmcSendCommand emmcCmdReadMultipleBlock lba m)
    buffer (lba.toNat) rfl rfl (k := 128 * numBlocks.toNat) (by omega)
  have bytes : wordsIn (emmcSendCommand emmcCmdReadMultipleBlock lba m) lba.toNat
      (128 * numBlocks.toNat) buffer =
      transferIn emmcBlockSize m.emmc lba.toNat numBlocks.toNat m.mem buffer := by
    funext x
    unfold wordsIn transferIn emmcBlockSize
    rw [← Nat.mul_assoc]
    rfl
  rw [emmcReadBlocks, if_neg some]
  simp only [emmcLoop_eq, loops, bytes, Nat.mul_div_cancel_left _ (show 0 < 128 by decide),
    Nat.mul_mod_right]
  rfl

/-- The write loops deliver whole sectors too. -/
theorem emmcWrite_spec (lba numBlocks : BitVec 32) (some : numBlocks ≠ 0#32) :
    emmcWriteBlocks lba numBlocks buffer m = (0, { m with
      emmc := transferOut emmcBlockSize m.emmc lba.toNat numBlocks.toNat m.mem buffer
      emmcSector := lba.toNat + numBlocks.toNat
      emmcWord := 0 }) := by
  have loops := writeData_words (m := emmcSendCommand emmcCmdWriteMultipleBlock lba m)
    buffer (lba.toNat) rfl rfl (128 * numBlocks.toNat)
  have bytes : wordsOut (emmcSendCommand emmcCmdWriteMultipleBlock lba m) lba.toNat
      (128 * numBlocks.toNat) buffer =
      transferOut emmcBlockSize m.emmc lba.toNat numBlocks.toNat m.mem buffer := by
    funext u j
    unfold wordsOut transferOut emmcBlockSize
    rw [← Nat.mul_assoc]
    rfl
  rw [emmcWriteBlocks, if_neg some]
  simp only [emmcLoop_eq, loops, bytes, Nat.mul_div_cancel_left _ (show 0 < 128 by decide),
    Nat.mul_mod_right]
  rfl

/-! Both devices alike: units of the device's own size, one for each call. -/

def BlockDeviceType.unitSize : BlockDeviceType → Nat
  | .ufs => ufsBlockSize
  | .emmc => emmcBlockSize
  | .none => 0

def Machine.units (m : Machine) : Nat → Bytes :=
  match m.activeBlockDeviceType with
  | .ufs => m.ufs
  | .emmc => m.emmc
  | .none => fun _ _ => 0#8

/-- Memory when the command for one block is given: the UFS driver has built it there. -/
def Machine.commandMemory (m : Machine) (n : BitVec 32) (buffer : Addr) (direction : BitVec 32) : Memory :=
  match m.activeBlockDeviceType with
  | .ufs => m.ufsMemory (n.setWidth 64) 1#32 buffer direction
  | _ => m.mem

theorem readBlock_spec (active : m.activeBlockDeviceType ≠ .none) (n : BitVec 32) (buffer : Addr) :
    (readBlock n buffer m).1 = 0 ∧ (readBlock n buffer m).2.mem =
      transferIn m.activeBlockDeviceType.unitSize m.units n.toNat 1 (m.commandMemory n buffer utpTrdDdRead) buffer := by
  obtain ⟨mem, ufs, emmc, s, w, type⟩ := m
  cases type with
  | none => exact absurd rfl active
  | ufs =>
      change (ufsReadBlocks (n.setWidth 64) 1#32 buffer _).1 = 0 ∧
        (ufsReadBlocks (n.setWidth 64) 1#32 buffer _).2.mem = _
      rw [ufsRead_one]
      exact ⟨rfl, rfl⟩
  | emmc =>
      have narrow : (n.setWidth 64).setWidth 32 = n := by
        rw [BitVec.setWidth_setWidth_of_le _ (by decide), BitVec.setWidth_eq]
      change (emmcReadBlocks ((n.setWidth 64).setWidth 32) 1#32 buffer _).1 = 0 ∧
        (emmcReadBlocks ((n.setWidth 64).setWidth 32) 1#32 buffer _).2.mem = _
      rw [narrow, emmcRead_spec n 1#32 (by decide)]
      exact ⟨rfl, rfl⟩

theorem writeBlock_spec (active : m.activeBlockDeviceType ≠ .none) (n : BitVec 32) (buffer : Addr) :
    (writeBlock n buffer m).1 = 0 ∧ (writeBlock n buffer m).2.mem = m.commandMemory n buffer utpTrdDdWrite ∧
    (writeBlock n buffer m).2.activeBlockDeviceType = m.activeBlockDeviceType ∧
    (writeBlock n buffer m).2.units = transferOut m.activeBlockDeviceType.unitSize m.units n.toNat 1
      (m.commandMemory n buffer utpTrdDdWrite) buffer := by
  obtain ⟨mem, ufs, emmc, s, w, type⟩ := m
  cases type with
  | none => exact absurd rfl active
  | ufs =>
      rw [show writeBlock n buffer ⟨mem, ufs, emmc, s, w, .ufs⟩ =
        ufsWriteBlocks (n.setWidth 64) 1#32 buffer ⟨mem, ufs, emmc, s, w, .ufs⟩ from rfl, ufsWrite_one]
      exact ⟨rfl, rfl, rfl, rfl⟩
  | emmc =>
      have narrow : (n.setWidth 64).setWidth 32 = n := by
        rw [BitVec.setWidth_setWidth_of_le _ (by decide), BitVec.setWidth_eq]
      rw [show writeBlock n buffer ⟨mem, ufs, emmc, s, w, .emmc⟩ = emmcWriteBlocks
        ((n.setWidth 64).setWidth 32) 1#32 buffer ⟨mem, ufs, emmc, s, w, .emmc⟩ from rfl, narrow,
        emmcWrite_spec n 1#32 (by decide)]
      exact ⟨rfl, rfl, rfl, rfl⟩

/-- What a file system block written by `write_block` and read by `read_block` should do. -/
structure RoundTrips (m : Machine) (n : BitVec 32) (b out : Addr) : Prop where
  same : ∀ i < 4096, (readBlock n out (writeBlock n b m).2).2.mem (out + BitVec.ofNat 64 i) =
    m.mem (b + BitVec.ofNat 64 i)
  others : ∀ k, k ≠ n → ∀ buffer,
    (readBlock k buffer (writeBlock n b m).2).1 = (readBlock k buffer m).1 ∧ ∀ i < 4096,
      (readBlock k buffer (writeBlock n b m).2).2.mem (buffer + BitVec.ofNat 64 i) =
        (readBlock k buffer m).2.mem (buffer + BitVec.ofNat 64 i)

/-- The descriptors of the command that writes the block leave the buffer as it is: none of its
bytes lies in one of them, unless it is the byte that is stored there. -/
def CommandKeeps (m : Machine) (n : BitVec 32) (b : Addr) : Prop := ∀ i < 4096,
  let x := b + BitVec.ofNat 64 i
  ((x - ufsTrlBase).toNat < 32 →
    m.mem x = (trdOf (n.setWidth 64) 1#32 utpTrdDdWrite).bytes (x - ufsTrlBase).toNat) ∧
  ((x - ufsPrdtBase).toNat < 16 → m.mem x = (prdtOf 1#32 b).bytes (x - ufsPrdtBase).toNat)

/-- The buffer lies nowhere in the descriptors. -/
def OffDescriptors (b : Addr) : Prop := ∀ i < 4096,
  32 ≤ (b + BitVec.ofNat 64 i - ufsTrlBase).toNat ∧ 16 ≤ (b + BitVec.ofNat 64 i - ufsPrdtBase).toNat

theorem OffDescriptors.keeps {b : Addr} (off : OffDescriptors b) (m : Machine) (n : BitVec 32) : CommandKeeps m n b := by
  intro i inside
  obtain ⟨trd, prdt⟩ := off i inside
  exact ⟨fun near => absurd near (Nat.not_lt.mpr trd), fun near => absurd near (Nat.not_lt.mpr prdt)⟩

theorem offDescriptors_below {b : Addr} (below : b.toNat + 4096 ≤ 0xDEAE0000) : OffDescriptors b := by
  intro i inside
  have place := toNat_add_ofNat (a := b) (i := i) (by omega)
  have first : ufsTrlBase.toNat = 0xDEAE0000 := rfl
  have second : ufsPrdtBase.toNat = 0xDEAF0000 := rfl
  refine ⟨Nat.le_of_not_lt fun near => ?_, Nat.le_of_not_lt fun near => ?_⟩
  · have := (toNat_sub_lt_iff (a := ufsTrlBase) (by decide)).mp near
    omega
  · have := (toNat_sub_lt_iff (a := ufsPrdtBase) (by decide)).mp near
    omega

/-- The two places are 64 kB apart. -/
theorem descriptors_apart {x : Addr} (near : (x - ufsTrlBase).toNat < 32) : ¬ (x - ufsPrdtBase).toNat < 16 := by
  intro close
  have low := (toNat_sub_lt_iff (a := ufsTrlBase) (by decide)).mp near
  have high := (toNat_sub_lt_iff (a := ufsPrdtBase) (by decide)).mp close
  have first : ufsTrlBase.toNat = 0xDEAE0000 := rfl
  have second : ufsPrdtBase.toNat = 0xDEAF0000 := rfl
  omega

theorem commandKeeps_iff {n : BitVec 32} {b : Addr} : CommandKeeps m n b ↔ ∀ i < 4096,
    m.ufsMemory (n.setWidth 64) 1#32 b utpTrdDdWrite (b + BitVec.ofNat 64 i) = m.mem (b + BitVec.ofNat 64 i) := by
  refine forall₂_congr fun i _ => ?_
  unfold Machine.ufsMemory Machine.putDescriptors putBytes
  dsimp only
  by_cases trd : (b + BitVec.ofNat 64 i - ufsTrlBase).toNat < 32
  · rw [if_pos trd, forall_prop_of_true trd, and_iff_left fun prdt => absurd prdt (descriptors_apart trd)]
    exact eq_comm
  · rw [if_neg trd, and_iff_right fun near => absurd near trd]
    by_cases prdt : (b + BitVec.ofNat 64 i - ufsPrdtBase).toNat < 16
    · rw [if_pos prdt, forall_prop_of_true prdt]
      exact eq_comm
    · rw [if_neg prdt]
      exact iff_of_true (fun near => absurd near prdt) rfl

theorem transferIn_one {size k : Nat} {units : Nat → Bytes} {mem : Memory} {buffer : Addr} {i : Nat}
    (small : i < 2 ^ 64) : transferIn size units k 1 mem buffer (buffer + BitVec.ofNat 64 i) =
      if i < size then units k i else mem (buffer + BitVec.ofNat 64 i) := by
  have place := toNat_sub_self_add buffer small
  unfold transferIn
  rw [place, Nat.mul_one]
  by_cases inside : i < size
  · rw [if_pos inside, if_pos inside, Nat.div_eq_of_lt inside, Nat.mod_eq_of_lt inside, Nat.add_zero]
  · rw [if_neg inside, if_neg inside]

theorem transferOut_same {size n : Nat} {units : Nat → Bytes} {mem : Memory} {b : Addr} {i : Nat} (inside : i < size) :
    transferOut size units n 1 mem b n i = mem (b + BitVec.ofNat 64 i) := by
  have offset : size * (n - n) + i = i := by rw [Nat.sub_self, Nat.mul_zero, Nat.zero_add]
  rw [transferOut, offset, if_pos ⟨Nat.le_refl n, inside, by rwa [Nat.mul_one]⟩]

theorem transferOut_other {size n k : Nat} {units : Nat → Bytes} {mem : Memory} {b : Addr} (other : k ≠ n) (i : Nat) :
    transferOut size units n 1 mem b k i = units k i := by
  rw [transferOut, if_neg]
  rintro ⟨le, _, near⟩
  have := Nat.le_mul_of_pos_right size (show 0 < k - n by omega)
  omega

/-- A block written and read again comes back if and only if the UFS command did not change the
buffer, or, with eMMC, the output buffer already held everything behind the first sector. -/
theorem block_round_trip_iff (m : Machine) (active : m.activeBlockDeviceType ≠ .none)
    (n : BitVec 32) (b out : Addr) : RoundTrips m n b out ↔
      (m.activeBlockDeviceType = .ufs ∧ CommandKeeps m n b) ∨
      (m.activeBlockDeviceType = .emmc ∧ ∀ i, 512 ≤ i → i < 4096 →
        m.mem (out + BitVec.ofNat 64 i) = m.mem (b + BitVec.ofNat 64 i)) := by
  obtain ⟨_, mem, type, units⟩ := writeBlock_spec active n b
  have active' : (writeBlock n b m).2.activeBlockDeviceType ≠ .none := type ▸ active
  have others : ∀ k, k ≠ n → ∀ buffer,
      (readBlock k buffer (writeBlock n b m).2).1 = (readBlock k buffer m).1 ∧ ∀ i < 4096,
        (readBlock k buffer (writeBlock n b m).2).2.mem (buffer + BitVec.ofNat 64 i) =
          (readBlock k buffer m).2.mem (buffer + BitVec.ofNat 64 i) := by
    intro k other buffer
    have apart : k.toNat ≠ n.toNat := fun eq => other (BitVec.eq_of_toNat_eq eq)
    obtain ⟨status, after⟩ := readBlock_spec active' k buffer
    obtain ⟨status', before⟩ := readBlock_spec active k buffer
    refine ⟨status.trans status'.symm, fun i inside => ?_⟩
    rw [after, before, transferIn_one (by omega), transferIn_one (by omega), units, type, transferOut_other apart]
    by_cases unit : i < m.activeBlockDeviceType.unitSize
    · rw [if_pos unit, if_pos unit]
    · rw [if_neg unit, if_neg unit, Machine.commandMemory, Machine.commandMemory, type, mem]
      cases isType : m.activeBlockDeviceType with
      | none => exact absurd isType active
      | ufs =>
          rw [isType] at unit
          exact absurd inside unit
      | emmc =>
          dsimp only
          rw [Machine.commandMemory, isType]
  have back : ∀ i < 4096, (readBlock n out (writeBlock n b m).2).2.mem (out + BitVec.ofNat 64 i) =
      if i < m.activeBlockDeviceType.unitSize then m.commandMemory n b utpTrdDdWrite (b + BitVec.ofNat 64 i)
      else (writeBlock n b m).2.commandMemory n out utpTrdDdRead (out + BitVec.ofNat 64 i) := by
    intro i inside
    rw [(readBlock_spec active' n out).2, transferIn_one (by omega), units, type]
    by_cases unit : i < m.activeBlockDeviceType.unitSize
    · rw [if_pos unit, if_pos unit, transferOut_same unit]
    · rw [if_neg unit, if_neg unit]
  have trips : RoundTrips m n b out ↔ ∀ i < 4096, _ = m.mem (b + BitVec.ofNat 64 i) :=
    ⟨fun trips i inside => (back i inside).symm.trans (trips.same i inside),
      fun same => ⟨fun i inside => (back i inside).trans (same i inside), others⟩⟩
  rw [trips]
  cases isType : m.activeBlockDeviceType with
  | none => exact absurd isType active
  | ufs =>
      rw [commandKeeps_iff]
      have whole : ∀ i < 4096, i < BlockDeviceType.ufs.unitSize := fun i inside => inside
      simp +contextual [Machine.commandMemory, isType, whole]
  | emmc =>
      have kept : ∀ x, m.commandMemory n b utpTrdDdWrite x = m.mem x := fun x => by rw [Machine.commandMemory, isType]
      have after : ∀ x, (writeBlock n b m).2.commandMemory n out utpTrdDdRead x = m.mem x := fun x => by
        rw [Machine.commandMemory, type, isType, mem]
        exact kept x
      have size : BlockDeviceType.emmc.unitSize = 512 := rfl
      simp only [kept, after, size, reduceCtorEq, false_and, true_and, false_or]
      refine ⟨fun same i low inside => ?_, fun tail i inside => ?_⟩
      · have here := same i inside
        rwa [if_neg (Nat.not_lt.mpr low)] at here
      · by_cases first : i < 512
        · rw [if_pos first]
        · rw [if_neg first]
          exact tail i (Nat.le_of_not_lt first) inside

end

/-- An eMMC device, a buffer full of ones at 0x1000 and zeros behind it. -/
def emmcMachine : Machine :=
  ⟨fun x => if x.toNat < 0x2000 then 1#8 else 0#8, fun _ _ => 0#8, fun _ _ => 0#8, 0, 0, .emmc⟩

theorem emmc_loses_block_tail : ¬ RoundTrips emmcMachine 0#32 0x1000#64 0x10000#64 := by
  intro trips
  have same := trips.same 512 (by decide)
  obtain ⟨_, mem, type, units⟩ := writeBlock_spec (m := emmcMachine) (by decide) 0#32 0x1000#64
  rw [(readBlock_spec (by rw [type]; decide) 0#32 0x10000#64).2, transferIn_one (by decide), Machine.commandMemory,
    type, mem] at same
  exact absurd same (by decide)

theorem ufs_block_round_trips : RoundTrips { emmcMachine with activeBlockDeviceType := .ufs } 7#32
    0x1000#64 0x10000#64 :=
  (block_round_trip_iff _ (by decide) 7#32 0x1000#64 0x10000#64).mpr
    (.inl ⟨rfl, (offDescriptors_below (by decide)).keeps _ _⟩)

/-! The disk the file system's model works on is a UFS device's. -/

def diskOf (m : Machine) : Fs.BlockNum → Fs.Block := fun n => Fs.Block.ofBytes (m.ufs n.toNat)

/-- The block in a buffer. -/
def blockAt (m : Machine) (buffer : Addr) : Fs.Block := Fs.Block.ofBytes (m.mem.view buffer)

theorem ufs_read_refines {m : Machine} {w : Fs.World} (isUfs : m.activeBlockDeviceType = .ufs)
    (same : w.disk = diskOf m) (healthy : w.readFaults 0 = none) (n : BitVec 32) (buffer : Addr) :
    (Fs.readBlock n w).1 = ((readBlock n buffer m).1, blockAt (readBlock n buffer m).2 buffer) := by
  obtain ⟨status, mem⟩ := readBlock_spec (by rw [isUfs]; decide) n buffer
  rw [Fs.readBlock, healthy, status, blockAt, mem, isUfs, same]
  refine congrArg (Prod.mk 0) (Fs.Block.ofBytes_congr fun i inside => ?_)
  have place := toNat_sub_self_add buffer (i := i) (by omega)
  have size : BlockDeviceType.ufs.unitSize = 4096 := rfl
  have units : m.units = m.ufs := by rw [Machine.units, isUfs]
  rw [Memory.view, transferIn, place, size, if_pos (by omega), units, Nat.div_eq_of_lt inside,
    Nat.mod_eq_of_lt inside, Nat.add_zero]

theorem ufs_write_refines {m : Machine} {w : Fs.World} (isUfs : m.activeBlockDeviceType = .ufs)
    (same : w.disk = diskOf m) (healthy : w.writeFaults 0 = false) (n : BitVec 32) (buffer : Addr)
    (keeps : CommandKeeps m n buffer) :
    (Fs.writeBlock n (blockAt m buffer) w).1 = (writeBlock n buffer m).1 ∧
      (Fs.writeBlock n (blockAt m buffer) w).2.disk = diskOf (writeBlock n buffer m).2 := by
  obtain ⟨status, mem, type, units⟩ := writeBlock_spec (by rw [isUfs]; decide) n buffer
  have after : (writeBlock n buffer m).2.ufs = transferOut ufsBlockSize m.ufs n.toNat 1
      (m.ufsMemory (n.setWidth 64) 1#32 buffer utpTrdDdWrite) buffer := by
    rw [Machine.units, type, Machine.units, Machine.commandMemory, isUfs] at units
    exact units
  have kept := commandKeeps_iff.mp keeps
  rw [Fs.writeBlock, healthy, status, same]
  refine ⟨rfl, ?_⟩
  funext k
  change Function.update (diskOf m) n (blockAt m buffer) k = diskOf _ k
  rw [diskOf, after]
  by_cases here : k = n
  · rw [here, Function.update_self]
    refine Fs.Block.ofBytes_congr fun i inside => ?_
    exact ((transferOut_same inside).trans (kept i inside)).symm
  · rw [Function.update_of_ne here]
    have apart : k.toNat ≠ n.toNat := fun eq => here (BitVec.eq_of_toNat_eq eq)
    exact Fs.Block.ofBytes_congr fun i inside => (transferOut_other apart i).symm

end AstralOS.Drivers
