import AstralOS.Memory.Kmalloc
import AstralOS.Foundation.FirstFit

/-! The headers in memory follow the first-fit list: one loop of `kmalloc` or `kfree`
performs one operation on the list. -/
namespace AstralOS.Kmalloc
open Foundation Foundation.FirstFit

def head : List Block → Addr
  | [] => 0#64
  | b :: _ => BitVec.ofNat 64 b.addr

/-- The header at `b.addr` holds what `b` says, and the list goes on at `n`. -/
structure Header (m : Memory) (b : Block) (n : Addr) : Prop where
  size : Kmalloc.size m (BitVec.ofNat 64 b.addr) = BitVec.ofNat 64 b.size
  next : Kmalloc.next m (BitVec.ofNat 64 b.addr) = n
  free : Kmalloc.free m (BitVec.ofNat 64 b.addr) ≠ 0#32 ↔ b.free = true

/-- The `next` pointers of the headers run through the blocks and end in null. -/
def Linked (m : Memory) : List Block → Prop
  | [] => True
  | b :: rest => Header m b (head rest) ∧ Linked m rest

section Fields
variable {m m' : Memory} {b : Block} {n : Addr} {a k i : Nat}

theorem toNat_field (fits : a + k < 2 ^ 64) :
    (BitVec.ofNat 64 a + BitVec.ofNat 64 k).toNat = a + k := by
  rw [← BitVec.ofNat_add, BitVec.toNat_ofNat, Nat.mod_eq_of_lt fits]

theorem load_field_congr {w len : Nat} (fits : a + k + len ≤ 2 ^ 64) (pos : 0 < len)
    (same : ∀ x : Addr, a + k ≤ x.toNat → x.toNat < a + k + len → m' x = m x) :
    load w len m' (BitVec.ofNat 64 a + BitVec.ofNat 64 k) =
      load w len m (BitVec.ofNat 64 a + BitVec.ofNat 64 k) := by
  have base := toNat_field (a := a) (k := k) (by omega)
  refine load_congr fun j hj => ?_
  have := toNat_add_ofNat (a := BitVec.ofNat 64 a + BitVec.ofNat 64 k) (i := j) (by omega)
  exact same _ (by omega) (by omega)

theorem load_store_field {w w' len len' : Nat} {v : BitVec w} (fits : a + 24 ≤ 2 ^ 64)
    (inside : k + len ≤ 24) (inside' : i + len' ≤ 24) (pos : 0 < len) (pos' : 0 < len')
    (apart : k + len ≤ i ∨ i + len' ≤ k) :
    load w' len' (store len m (BitVec.ofNat 64 a + BitVec.ofNat 64 k) v)
      (BitVec.ofNat 64 a + BitVec.ofNat 64 i) =
      load w' len' m (BitVec.ofNat 64 a + BitVec.ofNat 64 i) := by
  have atK := toNat_field (a := a) (k := k) (by omega)
  have atI := toNat_field (a := a) (k := i) (by omega)
  exact load_store_disjoint (by omega) (by omega) (by omega)

theorem store_field_apply {w len : Nat} {v : BitVec w} {x : Addr} (fits : a + 24 ≤ 2 ^ 64)
    (inside : k + len ≤ 24) (pos : 0 < len) (outside : x.toNat < a ∨ a + 24 ≤ x.toNat) :
    store len m (BitVec.ofNat 64 a + BitVec.ofNat 64 k) v x = m x := by
  have base := toNat_field (a := a) (k := k) (by omega)
  exact store_apply (by omega) (by omega)

theorem Header.transport (header : Header m b n) (fits : b.addr + 24 ≤ 2 ^ 64)
    (same : ∀ x : Addr, b.addr ≤ x.toNat → x.toNat < b.addr + 24 → m' x = m x) :
    Header m' b n := by
  have congr {w len k : Nat} (inside : k + len ≤ 24) (pos : 0 < len) :
      load w len m' (BitVec.ofNat 64 b.addr + BitVec.ofNat 64 k) =
        load w len m (BitVec.ofNat 64 b.addr + BitVec.ofNat 64 k) :=
    load_field_congr (by omega) pos fun x low high => same x (by omega) (by omega)
  constructor
  · exact (congr (by omega) (by omega)).trans header.size
  · exact (congr (by omega) (by omega)).trans header.next
  · rw [← header.free, Kmalloc.free, congr (by omega) (by omega), ← Kmalloc.free]

theorem Header.setSize (header : Header m b n) (fits : b.addr + 24 ≤ 2 ^ 64) (s : Nat) :
    Header (Kmalloc.setSize m (BitVec.ofNat 64 b.addr) (BitVec.ofNat 64 s))
      { b with size := s } n := by
  constructor
  · exact load_store_same (by omega) (by omega) _ _ _
  · exact (load_store_field fits (by omega) (by omega) (by omega) (by omega)
      (by omega)).trans header.next
  · rw [← header.free, Kmalloc.free, Kmalloc.setSize, load_store_field fits (by omega) (by omega)
      (by omega) (by omega) (by omega), ← Kmalloc.free]

theorem Header.setNext (header : Header m b n) (fits : b.addr + 24 ≤ 2 ^ 64) (n' : Addr) :
    Header (Kmalloc.setNext m (BitVec.ofNat 64 b.addr) n') b n' := by
  constructor
  · exact (load_store_field fits (by omega) (by omega) (by omega) (by omega)
      (by omega)).trans header.size
  · exact load_store_same (by omega) (by omega) _ _ _
  · rw [← header.free, Kmalloc.free, Kmalloc.setNext, load_store_field fits (by omega) (by omega)
      (by omega) (by omega) (by omega), ← Kmalloc.free]

theorem Header.setFree (header : Header m b n) (fits : b.addr + 24 ≤ 2 ^ 64) (v : BitVec 32) :
    Header (Kmalloc.setFree m (BitVec.ofNat 64 b.addr) v) { b with free := decide (v ≠ 0#32) } n := by
  constructor
  · exact (load_store_field fits (by omega) (by omega) (by omega) (by omega)
      (by omega)).trans header.size
  · exact (load_store_field fits (by omega) (by omega) (by omega) (by omega)
      (by omega)).trans header.next
  · have read : Kmalloc.free (Kmalloc.setFree m (BitVec.ofNat 64 b.addr) v)
        (BitVec.ofNat 64 b.addr) = v := load_store_same (by omega) (by omega) _ _ _
    simp only [read, decide_eq_true_eq]

/-- Whatever 24 bytes hold, they read as the header of some block. -/
theorem header_of_bytes (m : Memory) (a : Nat) :
    Header m ⟨a, (Kmalloc.size m (BitVec.ofNat 64 a)).toNat,
      decide (Kmalloc.free m (BitVec.ofNat 64 a) ≠ 0#32)⟩ (Kmalloc.next m (BitVec.ofNat 64 a)) :=
  ⟨(BitVec.ofNat_toNat 64 _).symm ▸ (BitVec.setWidth_eq _).symm, rfl, decide_eq_true_iff.symm⟩

theorem setSize_apply {v : BitVec 64} {x : Addr} (fits : a + 24 ≤ 2 ^ 64)
    (outside : x.toNat < a ∨ a + 24 ≤ x.toNat) :
    Kmalloc.setSize m (BitVec.ofNat 64 a) v x = m x :=
  store_field_apply fits (by omega) (by omega) outside

theorem setNext_apply {v : BitVec 64} {x : Addr} (fits : a + 24 ≤ 2 ^ 64)
    (outside : x.toNat < a ∨ a + 24 ≤ x.toNat) :
    Kmalloc.setNext m (BitVec.ofNat 64 a) v x = m x :=
  store_field_apply fits (by omega) (by omega) outside

theorem setFree_apply {v : BitVec 32} {x : Addr} (fits : a + 24 ≤ 2 ^ 64)
    (outside : x.toNat < a ∨ a + 24 ≤ x.toNat) :
    Kmalloc.setFree m (BitVec.ofNat 64 a) v x = m x :=
  store_field_apply fits (by omega) (by omega) outside

end Fields

section Lists
variable {m m' : Memory} {blocks : List Block} {a e : Nat}

theorem head_of_tiles (t : Tiles 24 a blocks e) (nonempty : blocks ≠ []) :
    head blocks = BitVec.ofNat 64 a := by
  cases blocks with
  | nil => exact absurd rfl nonempty
  | cons b rest => rw [head, t.1]

theorem Linked.transport (linked : Linked m blocks) (t : Tiles 24 a blocks e) (bound : e < 2 ^ 64)
    (same : ∀ x : Addr, a ≤ x.toNat → x.toNat < e → m' x = m x) : Linked m' blocks := by
  induction blocks generalizing a with
  | nil => trivial
  | cons b rest ih =>
      have inside := t.inside List.mem_cons_self
      refine ⟨linked.1.transport (by omega) fun x low high => same x (by omega) (by omega),
        ih linked.2 t.2 fun x low high => same x (by omega) high⟩

/-- Headers do not lie in the payload of any block. -/
theorem Linked.of_payload (linked : Linked m blocks) (t : Tiles 24 a blocks e) (bound : e < 2 ^ 64)
    {b : Block} (member : b ∈ blocks)
    (same : ∀ x : Addr, x.toNat < b.addr + 24 ∨ b.addr + 24 + b.size ≤ x.toNat → m' x = m x) :
    Linked m' blocks := by
  induction blocks generalizing a with
  | nil => trivial
  | cons c rest ih =>
      have inside := t.inside List.mem_cons_self
      have start := t.1
      rcases List.mem_cons.mp member with rfl | later
      · refine ⟨linked.1.transport (by omega) fun x _ high => same x (.inl high),
          linked.2.transport t.2 bound fun x low _ => same x (.inr (by omega))⟩
      · have := t.2.inside later
        exact ⟨linked.1.transport (by omega) fun x _ high => same x (.inl (by omega)),
          ih linked.2 t.2 later⟩

/-- Outside the tiled interval and in the payloads of allocated blocks nothing changes. -/
def Frame (a e : Nat) (blocks : List Block) (m m' : Memory) : Prop :=
  ∀ x : Addr, (x.toNat < a ∨ e ≤ x.toNat ∨ ∃ b, Held blocks b ∧ b.addr + 24 ≤ x.toNat ∧
    x.toNat < b.addr + 24 + b.size) → m' x = m x

theorem Frame.refl (a e : Nat) (blocks : List Block) (m : Memory) : Frame a e blocks m m :=
  fun _ _ => rfl

theorem Frame.cons {b : Block} {rest : List Block} (t : Tiles 24 a (b :: rest) e)
    (frame : Frame (a + 24 + b.size) e rest m m') : Frame a e (b :: rest) m m' := by
  intro x where_
  have start := t.1
  rcases where_ with low | high | ⟨c, ⟨member, held⟩, low, high⟩
  · exact frame x (.inl (by omega))
  · exact frame x (.inr (.inl high))
  · rcases List.mem_cons.mp member with rfl | later
    · exact frame x (.inl (by omega))
    · exact frame x (.inr (.inr ⟨c, ⟨later, held⟩, low, high⟩))

/-- A change inside one free block is within the frame. -/
theorem Frame.of_free {b : Block} {rest : List Block} (t : Tiles 24 a (b :: rest) e)
    (isFree : b.free = true)
    (same : ∀ x : Addr, x.toNat < b.addr ∨ b.addr + 24 + b.size ≤ x.toNat → m' x = m x) :
    Frame a e (b :: rest) m m' := by
  intro x where_
  have start := t.1
  have inside := t.inside List.mem_cons_self
  rcases where_ with low | high | ⟨c, ⟨member, held⟩, low, high⟩
  · exact same x (.inl (by omega))
  · exact same x (.inr (by omega))
  · rcases List.mem_cons.mp member with rfl | later
    · rw [isFree] at held
      cases held
    · have := t.2.inside later
      exact same x (.inr (by omega))

end Lists

/-! Splitting a free block. -/

theorem split_spec {m : Memory} {b : Block} {n : Addr} {need : Nat} (header : Header m b n)
    (bound : b.addr + 24 + b.size < 2 ^ 64) (room : need + 24 < b.size) :
    Header (split m (BitVec.ofNat 64 b.addr) (BitVec.ofNat 64 need)) ⟨b.addr, need, b.free⟩
        (BitVec.ofNat 64 (b.addr + 24 + need)) ∧
      Header (split m (BitVec.ofNat 64 b.addr) (BitVec.ofNat 64 need))
        ⟨b.addr + 24 + need, b.size - need - 24, true⟩ n ∧
      ∀ x : Addr, x.toNat < b.addr ∨ b.addr + 24 + b.size ≤ x.toNat →
        split m (BitVec.ofNat 64 b.addr) (BitVec.ofNat 64 need) x = m x := by
  have place : BitVec.ofNat 64 b.addr + headerSize + BitVec.ofNat 64 need =
      BitVec.ofNat 64 (b.addr + 24 + need) := by
    rw [BitVec.ofNat_add, BitVec.ofNat_add]
    rfl
  have left : size m (BitVec.ofNat 64 b.addr) - BitVec.ofNat 64 need - headerSize =
      BitVec.ofNat 64 (b.size - need - 24) := by
    rw [header.size]
    apply BitVec.eq_of_toNat_eq
    simp only [headerSize, BitVec.toNat_sub, BitVec.toNat_ofNat]
    omega
  simp only [split, place, left]
  have fits : b.addr + 24 + need + 24 ≤ 2 ^ 64 := by omega
  have here : b.addr + 24 ≤ 2 ^ 64 := by omega
  -- the stores to the new header leave the old one, and the other way round
  have sized := header.transport here fun x _ high =>
    setSize_apply (v := BitVec.ofNat 64 (b.size - need - 24)) fits (.inl (by omega))
  rw [sized.next]
  have fresh : Header (setFree (setNext (setSize m (BitVec.ofNat 64 (b.addr + 24 + need))
      (BitVec.ofNat 64 (b.size - need - 24))) (BitVec.ofNat 64 (b.addr + 24 + need)) n)
      (BitVec.ofNat 64 (b.addr + 24 + need)) 1#32) ⟨b.addr + 24 + need, b.size - need - 24, true⟩ n :=
    (((header_of_bytes m (b.addr + 24 + need)).setSize fits _).setNext fits n).setFree fits 1#32
  have old := (sized.transport here fun x _ high =>
    setNext_apply (v := n) fits (.inl (by omega))).transport here fun x _ high =>
    setFree_apply (v := 1#32) fits (.inl (by omega))
  refine ⟨(old.setNext here _).setSize here need, ?_, fun x outside => ?_⟩
  · refine fresh.transport fits fun x low _ => ?_
    simp only at low
    rw [setSize_apply here (.inr (by omega)), setNext_apply here (.inr (by omega))]
  · rw [setSize_apply here (by omega), setNext_apply here (by omega), setFree_apply fits (by omega),
      setNext_apply fits (by omega), setSize_apply fits (by omega)]

section Loops
variable {m : Memory} {blocks : List Block} {a e need fuel : Nat}

theorem head_ne_zero (t : Tiles 24 a blocks e) (pos : 0 < a) (bound : e < 2 ^ 64)
    {b : Block} (member : b ∈ blocks) : BitVec.ofNat 64 b.addr ≠ 0#64 := by
  have inside := t.inside member
  intro zero
  have := congrArg BitVec.toNat zero
  rw [BitVec.toNat_ofNat, BitVec.toNat_ofNat] at this
  omega

theorem takes_iff {b : Block} {n : Addr} (header : Header m b n)
    (bound : b.addr + 24 + b.size < 2 ^ 64) (small : need < 2 ^ 64) :
    (free m (BitVec.ofNat 64 b.addr) ≠ 0#32 ∧
      BitVec.ofNat 64 need ≤ size m (BitVec.ofNat 64 b.addr)) ↔
      (b.free = true ∧ need ≤ b.size) := by
  rw [header.free, header.size, BitVec.le_def, BitVec.toNat_ofNat, BitVec.toNat_ofNat,
    Nat.mod_eq_of_lt small, Nat.mod_eq_of_lt (by omega)]

theorem splits_iff {b : Block} {n : Addr} (header : Header m b n)
    (bound : b.addr + 24 + b.size < 2 ^ 64) (fits : need ≤ b.size) :
    BitVec.ofNat 64 need + headerSize < size m (BitVec.ofNat 64 b.addr) ↔ need + 24 < b.size := by
  rw [header.size, headerSize, ← BitVec.ofNat_add, BitVec.lt_def, BitVec.toNat_ofNat,
    BitVec.toNat_ofNat, Nat.mod_eq_of_lt (by omega), Nat.mod_eq_of_lt (by omega)]

/-- When no block fits, the loop runs off the list. -/
theorem kmallocLoop_none (t : Tiles 24 a blocks e) (pos : 0 < a) (bound : e < 2 ^ 64)
    (linked : Linked m blocks) (enough : blocks.length < fuel) (small : need < 2 ^ 64)
    (full : allocate 24 need blocks = none) :
    kmallocLoop (BitVec.ofNat 64 need) fuel m (head blocks) = some (0#64, m) := by
  induction blocks generalizing a fuel with
  | nil =>
      obtain ⟨fuel, rfl⟩ := Nat.exists_eq_succ_of_ne_zero (Nat.ne_of_gt enough)
      rfl
  | cons b rest ih =>
      obtain ⟨fuel, rfl⟩ := Nat.exists_eq_succ_of_ne_zero (Nat.ne_zero_of_lt enough)
      have inside := t.inside List.mem_cons_self
      have nonzero := head_ne_zero t pos bound List.mem_cons_self
      rw [allocate] at full
      split at full
      · split at full
        · cases full
        · cases full
      · rename_i passes
        rw [head, kmallocLoop, if_neg nonzero, if_neg, linked.1.next]
        · exact ih t.2 (by omega) linked.2 (by simpa using enough) (by simpa using full)
        · rwa [takes_iff linked.1 (by omega) small]

/-- When a block fits, the loop takes the first, and the headers are those of the new list. -/
theorem kmallocLoop_some (t : Tiles 24 a blocks e) (pos : 0 < a) (bound : e < 2 ^ 64)
    (linked : Linked m blocks) (enough : blocks.length < fuel) (small : need < 2 ^ 64)
    {result : Nat × List Block} (found : allocate 24 need blocks = some result) :
    ∃ m', kmallocLoop (BitVec.ofNat 64 need) fuel m (head blocks) =
        some (BitVec.ofNat 64 result.1, m') ∧ Linked m' result.2 ∧ Frame a e blocks m m' := by
  induction blocks generalizing a fuel result with
  | nil => cases found
  | cons b rest ih =>
      obtain ⟨fuel, rfl⟩ := Nat.exists_eq_succ_of_ne_zero (Nat.ne_zero_of_lt enough)
      have inside := t.inside List.mem_cons_self
      have here : b.addr + 24 ≤ 2 ^ 64 := by omega
      have start := t.1
      have nonzero := head_ne_zero t pos bound List.mem_cons_self
      have payload : BitVec.ofNat 64 b.addr + headerSize = BitVec.ofNat 64 (b.addr + 24) := by
        rw [BitVec.ofNat_add]
        rfl
      rw [allocate] at found
      split at found
      · rename_i fits
        rw [head, kmallocLoop, if_neg nonzero,
          if_pos ((takes_iff linked.1 (by omega) small).mpr fits), payload]
        split at found
        · rename_i room
          obtain rfl := Option.some.inj found
          obtain ⟨taken, rest_, outside⟩ := split_spec linked.1 (by omega) room
          rw [if_pos ((splits_iff linked.1 (by omega) fits.2).mpr room)]
          refine ⟨_, rfl, ⟨taken.setFree here 0#32, ?_, ?_⟩, .of_free t fits.1 fun x apart => ?_⟩
          · exact rest_.transport (by simp only; omega) fun x low _ =>
              setFree_apply here (.inr (by simp only at low; omega))
          · refine linked.2.transport t.2 bound fun x low _ => ?_
            rw [setFree_apply here (.inr (by omega)), outside x (.inr (by omega))]
          · rw [setFree_apply here (by omega), outside x apart]
        · rename_i whole
          obtain rfl := Option.some.inj found
          rw [if_neg (mt (splits_iff linked.1 (by omega) fits.2).mp whole)]
          refine ⟨_, rfl, ⟨linked.1.setFree here 0#32, ?_⟩, .of_free t fits.1 fun x apart => ?_⟩
          · exact linked.2.transport t.2 bound fun x low _ => setFree_apply here (.inr (by omega))
          · exact setFree_apply here (by omega)
      · rename_i passes
        obtain ⟨later, eq, rfl⟩ := Option.map_eq_some_iff.mp found
        obtain ⟨m', loop, linked', frame⟩ := ih t.2 (by omega) linked.2 (by simpa using enough) eq
        refine ⟨m', ?_, ⟨?_, linked'⟩, frame.cons t⟩
        · rw [head, kmallocLoop, if_neg nonzero, if_neg, linked.1.next]
          · exact loop
          · rwa [takes_iff linked.1 (by omega) small]
        · have nonempty : rest ≠ [] := by
            rintro rfl
            cases eq
          have nonempty' : later.2 ≠ [] := by
            intro empty
            have t' := tiles_allocate t.2 eq
            rw [empty] at t'
            have := t.2.length_le (by omega)
            have := List.length_pos_iff.mpr nonempty
            have : a + 24 + b.size = e := t'
            omega
          rw [head_of_tiles (tiles_allocate t.2 eq) nonempty', ← head_of_tiles t.2 nonempty]
          exact linked.1.transport here fun x _ high => frame x (.inl (by omega))

/-! Releasing a block and the sweep that follows. -/

theorem head_sweep (blocks : List Block) : head (sweep 24 blocks) = head blocks := by
  match blocks with
  | [] => rfl
  | [_] => rfl
  | b :: c :: rest =>
      rw [sweep]
      split
      · rfl
      · rfl

theorem mergeable_iff {b c : Block} {n : Addr} (current : Header m b (BitVec.ofNat 64 c.addr))
    (successor : Header m c n) (nonzero : BitVec.ofNat 64 c.addr ≠ 0#64)
    (adjacent : c.addr = b.addr + 24 + b.size) :
    Mergeable m (BitVec.ofNat 64 b.addr) ↔ (b.free = true ∧ c.free = true) := by
  have place : BitVec.ofNat 64 b.addr + headerSize + size m (BitVec.ofNat 64 b.addr) =
      BitVec.ofNat 64 c.addr := by
    rw [current.size, adjacent, BitVec.ofNat_add, BitVec.ofNat_add]
    rfl
  rw [Mergeable, place, current.next, current.free, successor.free]
  exact ⟨fun h => ⟨h.1, h.2.2.1⟩, fun h => ⟨h.1, nonzero, h.2, rfl⟩⟩

theorem merge_spec {b c : Block} {n : Addr} (current : Header m b (BitVec.ofNat 64 c.addr))
    (successor : Header m c n) (adjacent : c.addr = b.addr + 24 + b.size)
    (bound : c.addr + 24 + c.size < 2 ^ 64) :
    Header (merge m (BitVec.ofNat 64 b.addr)) { b with size := b.size + (24 + c.size) } n ∧
      ∀ x : Addr, x.toNat < b.addr ∨ b.addr + 24 ≤ x.toNat →
        merge m (BitVec.ofNat 64 b.addr) x = m x := by
  have here : b.addr + 24 ≤ 2 ^ 64 := by omega
  have sum : size m (BitVec.ofNat 64 b.addr) + (headerSize + size m (BitVec.ofNat 64 c.addr)) =
      BitVec.ofNat 64 (b.size + (24 + c.size)) := by
    rw [current.size, successor.size, BitVec.ofNat_add, BitVec.ofNat_add]
    rfl
  have sized := current.setSize here (b.size + (24 + c.size))
  have kept := successor.transport (by omega) fun x low _ =>
    setSize_apply (v := BitVec.ofNat 64 (b.size + (24 + c.size))) here (.inr (by omega))
  have reads : merge m (BitVec.ofNat 64 b.addr) =
      setNext (setSize m (BitVec.ofNat 64 b.addr) (BitVec.ofNat 64 (b.size + (24 + c.size))))
        (BitVec.ofNat 64 b.addr) n := by
    simp only [merge, current.next, sum]
    rw [sized.next, kept.next]
  rw [reads]
  refine ⟨sized.setNext here n, fun x outside => ?_⟩
  rw [setNext_apply here outside, setSize_apply here outside]

/-! What a turn of the loop of `kfree` makes of the list. -/
section
variable {b c : Block} {rest : List Block}

theorem adjacent_of_tiles (t : Tiles 24 a (b :: c :: rest) e) : c.addr = b.addr + 24 + b.size := by
  rw [t.1]
  exact t.2.1

theorem kfreeLoop_last (t : Tiles 24 a [b] e) (pos : 0 < a) (bound : e < 2 ^ 64) (linked : Linked m [b])
    (fuel : Nat) : kfreeLoop (fuel + 2) m (head [b]) = some m := by
  have nonzero := head_ne_zero t pos bound List.mem_cons_self
  have last : ¬ Mergeable m (BitVec.ofNat 64 b.addr) := fun able => able.2.1 linked.1.next
  rw [head, kfreeLoop, if_neg nonzero, if_neg last]
  change kfreeLoop (fuel + 1) m (next m (BitVec.ofNat 64 b.addr)) = some m
  rw [linked.1.next]
  rfl

/-- Two free blocks are made one, the loop goes on after both, and only the first header has changed. -/
theorem kfreeLoop_merge (t : Tiles 24 a (b :: c :: rest) e) (pos : 0 < a) (bound : e < 2 ^ 64)
    (linked : Linked m (b :: c :: rest)) (able : b.free = true ∧ c.free = true) (fuel : Nat) :
    kfreeLoop (fuel + 1) m (head (b :: c :: rest)) = kfreeLoop fuel (merge m (BitVec.ofNat 64 b.addr)) (head rest) ∧
      Header (merge m (BitVec.ofNat 64 b.addr)) { b with size := b.size + (24 + c.size) } (head rest) ∧
      ∀ x : Addr, x.toNat < b.addr ∨ b.addr + 24 ≤ x.toNat → merge m (BitVec.ofNat 64 b.addr) x = m x := by
  have nonzero := head_ne_zero t pos bound List.mem_cons_self
  have nonzeroC := head_ne_zero t pos bound (List.mem_cons_of_mem b List.mem_cons_self)
  have insideC := t.inside (List.mem_cons_of_mem b List.mem_cons_self)
  have adjacent := adjacent_of_tiles t
  obtain ⟨current, successor, _⟩ := linked
  obtain ⟨merged, outside⟩ := merge_spec current successor adjacent (by omega)
  refine ⟨?_, merged, outside⟩
  rw [head, kfreeLoop, if_neg nonzero, if_pos ((mergeable_iff current successor nonzeroC adjacent).mpr able)]
  change kfreeLoop fuel _ (next (merge m (BitVec.ofNat 64 b.addr)) _) = _
  rw [merged.next]

/-- Otherwise the loop goes on with the second block. -/
theorem kfreeLoop_keep (t : Tiles 24 a (b :: c :: rest) e) (pos : 0 < a) (bound : e < 2 ^ 64)
    (linked : Linked m (b :: c :: rest)) (kept : ¬ (b.free = true ∧ c.free = true)) (fuel : Nat) :
    kfreeLoop (fuel + 1) m (head (b :: c :: rest)) = kfreeLoop fuel m (head (c :: rest)) := by
  have nonzero := head_ne_zero t pos bound List.mem_cons_self
  have nonzeroC := head_ne_zero t pos bound (List.mem_cons_of_mem b List.mem_cons_self)
  obtain ⟨current, successor, _⟩ := linked
  rw [head, kfreeLoop, if_neg nonzero,
    if_neg (mt (mergeable_iff current successor nonzeroC (adjacent_of_tiles t)).mp kept)]
  change kfreeLoop fuel m (next m (BitVec.ofNat 64 b.addr)) = _
  rw [current.next]

end

/-- The loop of `kfree` is the sweep of the list. -/
theorem kfreeLoop_spec (t : Tiles 24 a blocks e) (pos : 0 < a) (bound : e < 2 ^ 64)
    (linked : Linked m blocks) (enough : blocks.length < fuel) :
    ∃ m', kfreeLoop fuel m (head blocks) = some m' ∧ Linked m' (sweep 24 blocks) ∧
      Frame a e blocks m m' := by
  induction blocks using sweep.induct generalizing a fuel m with
  | case1 =>
      obtain ⟨fuel, rfl⟩ := Nat.exists_eq_succ_of_ne_zero (Nat.ne_of_gt enough)
      exact ⟨m, rfl, trivial, .refl _ _ _ _⟩
  | case2 b =>
      obtain ⟨fuel, rfl⟩ := Nat.exists_eq_add_of_le' (show 2 ≤ fuel from enough)
      exact ⟨m, kfreeLoop_last t pos bound linked fuel, linked, .refl _ _ _ _⟩
  | case3 b c rest able ih =>
      obtain ⟨fuel, rfl⟩ := Nat.exists_eq_succ_of_ne_zero (Nat.ne_zero_of_lt enough)
      have insideB := t.inside List.mem_cons_self
      have insideC := t.inside (List.mem_cons_of_mem b List.mem_cons_self)
      have start := t.1
      obtain ⟨turn, merged, outside⟩ := kfreeLoop_merge t pos bound linked able fuel
      have others := linked.2.2.transport t.2.2 bound fun x low _ => outside x (.inr (by omega))
      have fewer : rest.length < fuel := by
        simp only [List.length_cons] at enough
        omega
      obtain ⟨m', loop, linked', frame⟩ := ih t.2.2 (by omega) others fewer
      refine ⟨m', turn.trans loop, ?_, fun x where_ => ?_⟩
      · rw [sweep, if_pos able]
        refine ⟨?_, linked'⟩
        rw [head_sweep]
        exact merged.transport (by simp only; omega) fun x _ high =>
          frame x (.inl (by simp only at high; omega))
      · have inner := Frame.cons t (Frame.cons t.2 frame) x where_
        have outer : Frame a e (b :: c :: rest) m (merge m (BitVec.ofNat 64 b.addr)) :=
          Frame.of_free t able.1 fun y apart => outside y (by omega)
        exact inner.trans (outer x where_)
  | case4 b c rest kept ih =>
      obtain ⟨fuel, rfl⟩ := Nat.exists_eq_succ_of_ne_zero (Nat.ne_zero_of_lt enough)
      have inside := t.inside List.mem_cons_self
      have start := t.1
      have turn := kfreeLoop_keep t pos bound linked kept fuel
      obtain ⟨current, others⟩ := linked
      obtain ⟨m', loop, linked', frame⟩ := ih t.2 (by omega) others (by simpa using enough)
      refine ⟨m', turn.trans loop, ?_, frame.cons t⟩
      rw [sweep, if_neg kept]
      refine ⟨?_, linked'⟩
      rw [head_sweep]
      exact current.transport (by omega) fun x _ high => frame x (.inl (by omega))

/-- `block->free = 1` through the payload pointer of a block of the list. -/
theorem linked_markFree (t : Tiles 24 a blocks e) (bound : e < 2 ^ 64) (linked : Linked m blocks)
    {b : Block} (member : b ∈ blocks) :
    Linked (setFree m (BitVec.ofNat 64 b.addr) 1#32) (markFree 24 (b.addr + 24) blocks) := by
  induction blocks generalizing a with
  | nil => trivial
  | cons c rest ih =>
      have start := t.1
      have inside := t.inside List.mem_cons_self
      have tail := t.2.le
      rw [markFree, List.map_cons, ← markFree]
      have head_map : head (markFree 24 (b.addr + 24) rest) = head rest := by
        cases rest with
        | nil => rfl
        | cons d rest =>
            rw [markFree, List.map_cons]
            split
            · rfl
            · rfl
      rcases List.mem_cons.mp member with rfl | later
      · have unmarked : markFree 24 (b.addr + 24) rest = rest := by
          refine (List.map_congr_left fun d memberD => if_neg fun same => ?_).trans rest.map_id
          have := t.2.inside memberD
          omega
        rw [if_pos rfl, unmarked]
        refine ⟨linked.1.setFree (by omega) 1#32, linked.2.transport t.2 bound fun x low _ => ?_⟩
        exact setFree_apply (by omega) (.inr (by omega))
      · have insideB := t.2.inside later
        rw [if_neg (by omega)]
        refine ⟨?_, ih t.2 linked.2 later⟩
        rw [head_map]
        exact linked.1.transport (by omega) fun x _ high =>
          setFree_apply (by omega) (.inl (by omega))

end Loops

end AstralOS.Kmalloc
