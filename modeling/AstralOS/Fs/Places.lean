import AstralOS.Fs.Directory
import AstralOS.Fs.ReadBack
import AstralOS.Foundation.Residue

/-! Where on the device the bytes of a file lie: the loops of `fs_read` and `fs_write` go
through the same places, also for offsets whose block index wraps around. -/
namespace AstralOS.Fs
open Foundation AstralOS.Lib

/-- A block and a position in it. -/
abbrev Place := BlockNum × Nat

/-- Where byte `p` of an access at `offset` lies, if the inode has a block for it. -/
def Inode.place (r : Inode) (offset p : Nat) : Option Place :=
  if h : blockIndex offset p < 10 then
    if r.directBlocks ⟨blockIndex offset p, h⟩ = 0#32 then none
    else some (r.directBlocks ⟨blockIndex offset p, h⟩, blockOffset offset p)
  else none

/-- The places of the bytes of an access, up to the first that has none. -/
def Inode.covers (r : Inode) (offset count : Nat) : Set Place :=
  {x | ∃ p < count, r.place offset p = some x ∧ ∀ q < p, r.place offset q ≠ none}

/-- The places of the bytes `done` to `last - 1`. -/
def Inode.stretch (r : Inode) (offset done last : Nat) : Set Place :=
  {x | ∃ p, done ≤ p ∧ p < last ∧ r.place offset p = some x}

/-- Where a loop over the bytes from `done` on stops. -/
structure Reaches (r : Inode) (offset count done last : Nat) : Prop where
  low : done ≤ last
  high : done ≤ count → last ≤ count
  placed : ∀ p, done ≤ p → p < last → r.place offset p ≠ none
  stop : last < count → r.place offset last = none

namespace Volume

def byteAt (v : Volume) (x : Place) : Byte := (v.disk x.1).bytes x.2

/-- Byte `p` of an access at `offset`. -/
def byteOf (v : Volume) (r : Inode) (offset p : Nat) : Byte :=
  match r.place offset p with
  | none => 0#8
  | some x => v.byteAt x

end Volume

section
variable {v : Volume} {r r' : Inode} {offset count done last last' p : Nat} {x : Place}

/-- The bytes of one chunk lie in one block, one after another. -/
theorem chunk_place (offset count : Nat) {i : Nat} (inside : i < chunk offset count done) :
    blockIndex offset (done + i) = blockIndex offset done ∧
      blockOffset offset (done + i) = blockOffset offset done + i := by
  have fits := chunk_fits offset count done
  have short : blockOffset offset done + i < 4096 := by omega
  rw [blockOffset, fsBlockSize] at short
  have sum : (offset + (done + i)) % 2 ^ 64 = (offset + done) % 2 ^ 64 + i := by omega
  rw [blockIndex, blockIndex, blockOffset, blockOffset, sum, fsBlockSize]
  refine ⟨?_, by omega⟩
  congr 1
  omega

theorem place_some {k : Fin 10} (index : blockIndex offset p = k) (used : r.directBlocks k ≠ 0#32) :
    r.place offset p = some (r.directBlocks k, blockOffset offset p) := by
  have bound : blockIndex offset p < 10 := index ▸ k.isLt
  obtain rfl : k = ⟨blockIndex offset p, bound⟩ := Fin.ext index.symm
  rw [Inode.place, dif_pos bound, if_neg used]

theorem place_beyond (beyond : ¬ blockIndex offset p < 10) : r.place offset p = none := dif_neg beyond

theorem place_vacant (index : blockIndex offset p < 10)
    (vacant : r.directBlocks ⟨blockIndex offset p, index⟩ = 0#32) : r.place offset p = none := by
  rw [Inode.place, dif_pos index, if_pos vacant]

/-- Blocks that are kept keep their places. -/
theorem place_congr (blocks : ∀ k, r.directBlocks k ≠ 0#32 → r'.directBlocks k = r.directBlocks k)
    (found : r.place offset p = some x) : r'.place offset p = some x := by
  by_cases index : blockIndex offset p < 10
  · by_cases vacant : r.directBlocks ⟨blockIndex offset p, index⟩ = 0#32
    · rw [place_vacant index vacant] at found
      cases found
    · rw [place_some rfl vacant] at found
      have same := blocks _ vacant
      rw [place_some rfl (same ▸ vacant), same]
      exact found
  · rw [place_beyond index] at found
    cases found

theorem place_block (found : r.place offset p = some x) :
    ∃ k, r.directBlocks k = x.1 ∧ x.1 ≠ 0#32 ∧ x.2 < 4096 := by
  by_cases index : blockIndex offset p < 10
  · by_cases vacant : r.directBlocks ⟨blockIndex offset p, index⟩ = 0#32
    · rw [place_vacant index vacant] at found
      cases found
    · rw [place_some rfl vacant] at found
      obtain rfl := Option.some.inj found
      exact ⟨_, rfl, vacant, Nat.mod_lt _ (by decide)⟩
  · rw [place_beyond index] at found
    cases found

theorem Reaches.unique (reaches : Reaches r offset count done last)
    (reaches' : Reaches r offset count done last') (some_ : done ≤ count) : last = last' := by
  have high := reaches.high some_
  have high' := reaches'.high some_
  rcases Nat.lt_trichotomy last last' with less | equal | more
  · exact absurd (reaches.stop (by omega)) (reaches'.placed last reaches.low less)
  · exact equal
  · exact absurd (reaches'.stop (by omega)) (reaches.placed last' reaches'.low more)

/-- From the first byte on, the bytes reached are all that are covered. -/
theorem Reaches.covers_eq (reaches : Reaches r offset count 0 last) :
    r.covers offset count = r.stretch offset 0 last := by
  have high := reaches.high (Nat.zero_le count)
  ext x
  constructor
  · rintro ⟨p, below, found, before⟩
    refine ⟨p, Nat.zero_le p, ?_, found⟩
    by_contra beyond
    rcases Nat.lt_or_ge last p with less | equal
    · exact before last less (reaches.stop (by omega))
    · obtain rfl : p = last := by omega
      rw [reaches.stop below] at found
      cases found
  · rintro ⟨p, _, below, found⟩
    exact ⟨p, by omega, found, fun q less => reaches.placed q (Nat.zero_le q) (less.trans below)⟩

theorem stretch_empty : r.stretch offset done done = ∅ :=
  Set.eq_empty_of_forall_notMem fun _ ⟨_, low, high, _⟩ => absurd high (Nat.not_lt.mpr low)

theorem stretch_append {middle : Nat} (low : done ≤ middle) (high : middle ≤ last) :
    r.stretch offset done middle ∪ r.stretch offset middle last = r.stretch offset done last := by
  ext x
  constructor
  · rintro (⟨p, lowP, highP, found⟩ | ⟨p, lowP, highP, found⟩)
    · exact ⟨p, lowP, by omega, found⟩
    · exact ⟨p, by omega, highP, found⟩
  · rintro ⟨p, lowP, highP, found⟩
    rcases Nat.lt_or_ge p middle with early | late
    · exact .inl ⟨p, lowP, early, found⟩
    · exact .inr ⟨p, late, highP, found⟩

/-- One chunk is a run of bytes in one block. -/
theorem stretch_chunk {k : Fin 10} (index : blockIndex offset done = k) (used : r.directBlocks k ≠ 0#32) :
    r.stretch offset done (done + chunk offset count done) =
      {x | x.1 = r.directBlocks k ∧ blockOffset offset done ≤ x.2 ∧
        x.2 < blockOffset offset done + chunk offset count done} := by
  have place : ∀ i < chunk offset count done,
      r.place offset (done + i) = some (r.directBlocks k, blockOffset offset done + i) := by
    intro i inside
    obtain ⟨block, position⟩ := chunk_place offset count inside
    rw [place_some (block.trans index) used, position]
  ext ⟨n, j⟩
  constructor
  · rintro ⟨p, low, high, found⟩
    have inside : p - done < chunk offset count done := by omega
    have eq : done + (p - done) = p := by omega
    have here := place (p - done) inside
    rw [eq, found] at here
    obtain ⟨rfl, rfl⟩ := Prod.mk.inj (Option.some.inj here)
    exact ⟨rfl, Nat.le_add_right _ _, Nat.add_lt_add_left inside _⟩
  · rintro ⟨block, low, high⟩
    dsimp only at block low high
    subst block
    refine ⟨done + (j - blockOffset offset done), by omega, by omega, ?_⟩
    rw [place _ (by omega)]
    congr 2
    omega

/-- `fs_read` copies the bytes it reaches. -/
theorem readFrom_bytes (v : Volume) (inode : Inode) (offset count done : Nat) (out : List Byte) :
    ∃ last, Reaches inode offset count done last ∧ v.readFrom inode offset count done out =
      out ++ (List.range (last - done)).map fun i => v.byteOf inode offset (done + i) := by
  have nothing : ∀ done (out : List Byte), out =
      out ++ (List.range (done - done)).map fun i => v.byteOf inode offset (done + i) := by
    intro done out
    rw [Nat.sub_self, List.range_zero, List.map_nil, List.append_nil]
  induction done, out using Volume.readFrom.induct v inode offset count with
  | case1 done out more index unused =>
      rw [Volume.readFrom, dif_pos more, dif_pos index, if_pos unused]
      exact ⟨done, ⟨le_rfl, id, fun p low high => absurd high (by omega),
        fun _ => place_vacant index unused⟩, nothing done out⟩
  | case2 done out more index used ih =>
      obtain ⟨last, rest, copied⟩ := ih
      have low := rest.low
      have place : ∀ i < chunk offset count done, inode.place offset (done + i) =
          some (inode.directBlocks ⟨blockIndex offset done, index⟩, blockOffset offset done + i) := by
        intro i inside
        obtain ⟨block, position⟩ := chunk_place offset count inside
        rw [place_some (k := ⟨blockIndex offset done, index⟩) block used, position]
      have first : (List.range (chunk offset count done)).map (fun i =>
          (v.disk (inode.directBlocks ⟨blockIndex offset done, index⟩)).bytes
            (blockOffset offset done + i)) =
          (List.range (chunk offset count done)).map fun i => v.byteOf inode offset (done + i) := by
        refine List.map_congr_left fun i member => ?_
        rw [Volume.byteOf, place i (List.mem_range.mp member)]
        rfl
      have split_ : last - done =
          chunk offset count done + (last - (done + chunk offset count done)) := by omega
      refine ⟨last, ⟨by omega, fun _ => rest.high (chunk_le offset more), fun p lowP highP => ?_,
        rest.stop⟩, ?_⟩
      · rcases Nat.lt_or_ge p (done + chunk offset count done) with early | late
        · have eq : done + (p - done) = p := by omega
          have here := place (p - done) (by omega)
          rw [eq] at here
          rw [here]
          exact Option.some_ne_none _
        · exact rest.placed p late highP
      · rw [Volume.readFrom, dif_pos more, dif_pos index, if_neg used, copied, first,
          List.append_assoc, split_, List.range_add, List.map_append, List.map_map]
        congr 2
        refine List.map_congr_left fun i _ => ?_
        rw [Function.comp_apply, Nat.add_assoc]
  | case3 done out more beyond =>
      rw [Volume.readFrom, dif_pos more, dif_neg beyond]
      exact ⟨done, ⟨le_rfl, id, fun p low high => absurd high (by omega),
        fun _ => place_beyond beyond⟩, nothing done out⟩
  | case4 done out finished =>
      rw [Volume.readFrom, dif_neg finished]
      exact ⟨done, ⟨le_rfl, id, fun p low high => absurd high (by omega),
        fun more => absurd more finished⟩, nothing done out⟩

/-- The count of a read once it is clamped. -/
def clamped (size offset count : BitVec 64) : BitVec 64 :=
  if size < offset + count then size - offset else count

/-- `fs_read` copies the bytes it reaches of the clamped range. -/
theorem read_clamped {id : BitVec 32} {offset count : BitVec 64} (valid : ValidId id)
    (file : isFile (v.inode id)) :
    ∃ last, Reaches (v.inode id) offset.toNat (clamped (v.inode id).size offset count).toNat 0 last ∧
      v.read id offset count =
        (toInt last, (List.range last).map fun i => v.byteOf (v.inode id) offset.toNat i) := by
  obtain ⟨last, reaches, copied⟩ := readFrom_bytes v (v.inode id) offset.toNat
    (clamped (v.inode id).size offset count).toNat 0 []
  refine ⟨last, reaches, ?_⟩
  rw [Volume.read, Volume.openAs_some valid file]
  dsimp only
  rw [← clamped]
  by_cases none_ : clamped (v.inode id).size offset count = 0#64
  · rw [none_] at reaches
    obtain rfl : last = 0 := Nat.le_zero.mp (reaches.high (Nat.zero_le _))
    rw [if_pos none_]
    rfl
  · rw [if_neg none_, copied, List.nil_append, List.length_map, List.length_range, Nat.sub_zero]
    simp only [Nat.zero_add]

/-! The places a write fills. -/

variable {live : Set (BitVec 32)} {blocks : Set BlockNum} {inodes : Set (BitVec 32)} {id : BitVec 32}
  {inode : Inode}

/-- The loop keeps the blocks the file has, and the file has a block for every byte it writes. -/
theorem writeFrom_reaches (buffer : Bytes) (offset count : Nat) (inode : Inode) (done : Nat)
    (c : Consistent ⟨live, blocks, inodes⟩ v) (member : id ∈ live) (file : isFile (v.inode id))
    (cached : v.inode id = inode) :
    let r := v.writeFrom id buffer offset count inode done
    (∀ k, inode.directBlocks k ≠ 0#32 → r.1.directBlocks k = inode.directBlocks k) ∧
      Reaches r.1 offset count done r.2.1 := by
  induction v, inode, done using Volume.writeFrom.induct id buffer offset count with
  | case1 v inode done more index full =>
      rw [Volume.writeFrom, dif_pos more, dif_pos index, full]
      exact ⟨fun _ _ => rfl, le_rfl, fun h => h, fun p low high => absurd high (by dsimp only; omega),
        fun _ => place_vacant index (Volume.target_none.mp full).1⟩
  | case2 v inode done more index n owner us found u ih =>
      subst cached
      obtain ⟨_, filled, ownerFile, record⟩ := track_iteration c member file found
        (((v.applyAll us).disk n).patch (blockOffset offset done) (chunk offset count done)
          (buffer.drop done))
      obtain ⟨_, _, rfl, nonzero, _⟩ := track_target c member file found
      obtain ⟨_, _, kept, _⟩ := target_frame c (c.valid id member) found
      obtain ⟨keptLater, rest⟩ := ih filled ownerFile record
      have low := rest.low
      rw [Volume.writeFrom, dif_pos more, dif_pos index, found]
      dsimp only
      refine ⟨fun k used => ?_, (Nat.le_add_right _ _).trans low, fun _ => rest.high (chunk_le offset more),
        fun p lowP highP => ?_, rest.stop⟩
      · rw [keptLater k (by rwa [kept k used]), kept k used]
      · rcases Nat.lt_or_ge p (done + chunk offset count done) with early | late
        · have eq : done + (p - done) = p := by omega
          have inside : p - done < chunk offset count done := by omega
          obtain ⟨block, _⟩ := chunk_place offset count inside
          rw [eq] at block
          rw [place_congr keptLater (place_some (k := ⟨blockIndex offset done, index⟩) block nonzero)]
          exact Option.some_ne_none _
        · exact rest.placed p late highP
  | case3 v inode done more beyond =>
      rw [Volume.writeFrom, dif_pos more, dif_neg beyond]
      exact ⟨fun _ _ => rfl, le_rfl, fun h => h, fun p low high => absurd high (by dsimp only; omega),
        fun _ => place_beyond beyond⟩
  | case4 v inode done finished =>
      rw [Volume.writeFrom, dif_neg finished]
      exact ⟨fun _ _ => rfl, le_rfl, fun h => h, fun p low high => absurd high (by dsimp only; omega),
        fun more => absurd more finished⟩

end

end AstralOS.Fs
