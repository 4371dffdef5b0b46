import AstralOS.Foundation.Bytes

/-! C strings and the string functions of the kernel library. -/
namespace AstralOS.Lib
open Foundation

@[ext] structure CString where
  chars : List Byte
  nonzero : ∀ c ∈ chars, c ≠ 0#8
  deriving DecidableEq

/-- The characters, the terminator, and zeros after it. -/
def CString.bytes (s : CString) : Bytes := fun i => s.chars.getD i 0#8

def strlen (s : CString) : Nat := s.chars.length

def compareFrom : Bytes → List Byte → Int
  | f, [] => (f 0).toNat
  | f, c :: rest =>
      if f 0 ≠ 0#8 ∧ f 0 = c then compareFrom (f.drop 1) rest
      else ((f 0).toNat : Int) - c.toNat

/-- `strcmp`, the second string known to be terminated. -/
def strcmp (s1 : Bytes) (s2 : CString) : Int := compareFrom s1 s2.chars

/-- The string `k` characters on. -/
def CString.drop (s : CString) (k : Nat) : CString :=
  ⟨s.chars.drop k, fun c member => s.nonzero c (List.mem_of_mem_drop member)⟩

def indexFrom (c : Byte) : List Byte → Option Nat
  | [] => if c = 0#8 then some 0 else none
  | x :: rest => if x = c then some 0 else (indexFrom c rest).map (· + 1)

/-- `strchr`, the result as an index; the terminator counts as a character. -/
def strchr (s : CString) (c : Byte) : Option Nat := indexFrom c s.chars

def compareUpTo : Nat → Bytes → Bytes → Int
  | 0, _, _ => 0
  | n + 1, f, g =>
      if f 0 ≠ 0#8 ∧ f 0 = g 0 then compareUpTo n (f.drop 1) (g.drop 1)
      else ((f 0).toNat : Int) - (g 0).toNat

def strncmp (s1 s2 : CString) (n : Nat) : Int := compareUpTo n s1.bytes s2.bytes

/-- Copies up to the terminator and pads with zeros up to `n`. -/
def strncpy (dest : Bytes) (src : CString) (n : Nat) : Bytes := fun i =>
  if i < n then src.bytes i else dest i

theorem compareFrom_eq_zero {chars : List Byte} (nonzero : ∀ c ∈ chars, c ≠ 0#8) {f : Bytes} :
    compareFrom f chars = 0 ↔ ∀ i ≤ chars.length, f i = chars.getD i 0#8 := by
  induction chars generalizing f with
  | nil =>
      have zero : (f 0).toNat = 0 ↔ f 0 = 0#8 :=
        ⟨fun h => BitVec.eq_of_toNat_eq h, fun h => by rw [h]; rfl⟩
      simp [compareFrom, zero]
  | cons c rest ih =>
      have later := ih (fun d member => nonzero d (List.mem_cons_of_mem c member)) (f := f.drop 1)
      by_cases same : f 0 = c
      · have notEnd : f 0 ≠ 0#8 := same ▸ nonzero c List.mem_cons_self
        rw [compareFrom, if_pos ⟨notEnd, same⟩, later]
        constructor
        · intro matched i bound
          cases i with
          | zero => exact same
          | succ i =>
              have := matched i (by simpa using bound)
              rwa [Bytes.drop, Nat.add_comm] at this
        · intro matched i bound
          rw [Bytes.drop, Nat.add_comm]
          exact matched (i + 1) (by simpa using bound)
      · rw [compareFrom, if_neg fun both => same both.2]
        refine iff_of_false (fun zero => same (BitVec.eq_of_toNat_eq (by omega))) fun matched => ?_
        exact same (matched 0 (Nat.zero_le _))

theorem strcmp_eq_zero {f : Bytes} {s : CString} :
    strcmp f s = 0 ↔ ∀ i ≤ strlen s, f i = s.bytes i :=
  compareFrom_eq_zero s.nonzero

/-- A string is determined by its bytes up to a terminator. -/
theorem CString.eq_of_bytes {s t : CString} (same : ∀ i ≤ strlen s, t.bytes i = s.bytes i) : s = t := by
  have ended : t.bytes (strlen s) = 0#8 := by
    rw [same _ (Nat.le_refl _)]
    simp [CString.bytes, strlen]
  have short : strlen t ≤ strlen s := by
    by_contra long
    have inside : strlen s < t.chars.length := Nat.lt_of_not_le long
    refine t.nonzero _ (List.getElem_mem inside) ?_
    rw [CString.bytes, List.getD_eq_getElem _ _ inside] at ended
    exact ended
  have long : strlen s ≤ strlen t := by
    by_contra shorter
    have inside : strlen t < s.chars.length := Nat.lt_of_not_le shorter
    refine s.nonzero _ (List.getElem_mem inside) ?_
    have := same (strlen t) (by omega)
    have ended : t.bytes (strlen t) = 0#8 := List.getD_eq_default _ _ (Nat.le_refl _)
    rw [ended, CString.bytes, List.getD_eq_getElem _ _ inside] at this
    exact this.symm
  ext1
  refine List.ext_getElem (Nat.le_antisymm long short) fun i hs ht => ?_
  have := same i (Nat.le_of_lt hs)
  rw [CString.bytes, CString.bytes, List.getD_eq_getElem _ _ hs, List.getD_eq_getElem _ _ ht] at this
  exact this.symm

/-- The characters before the terminator, at most `limit` of them. -/
def charsIn : Nat → Bytes → List Byte
  | 0, _ => []
  | limit + 1, f => if f 0 = 0#8 then [] else f 0 :: charsIn limit (f.drop 1)

theorem charsIn_nonzero (limit : Nat) (f : Bytes) : ∀ c ∈ charsIn limit f, c ≠ 0#8 := by
  induction limit generalizing f with
  | zero => exact List.forall_mem_nil _
  | succ limit ih =>
      rw [charsIn]
      split
      · exact List.forall_mem_nil _
      · rename_i used
        exact List.forall_mem_cons.mpr ⟨used, ih _⟩

/-- The string in a field of `limit` bytes. -/
def CString.ofField (limit : Nat) (f : Bytes) : CString := ⟨charsIn limit f, charsIn_nonzero limit f⟩

theorem charsIn_congr {limit : Nat} {f g : Bytes} (same : ∀ i < limit, f i = g i) :
    charsIn limit f = charsIn limit g := by
  induction limit generalizing f g with
  | zero => rfl
  | succ limit ih =>
      have rest := ih (f := f.drop 1) (g := g.drop 1) fun i hi => same (1 + i) (by omega)
      rw [charsIn, charsIn, same 0 (Nat.succ_pos limit), rest]

theorem CString.ofField_congr {limit : Nat} {f g : Bytes} (same : ∀ i < limit, f i = g i) :
    CString.ofField limit f = CString.ofField limit g :=
  CString.ext (charsIn_congr same)

theorem compareFrom_charsIn {chars : List Byte} (nonzero : ∀ c ∈ chars, c ≠ 0#8) {limit : Nat}
    (short : chars.length < limit) {f : Bytes} :
    compareFrom f chars = 0 ↔ charsIn limit f = chars := by
  induction chars generalizing f limit with
  | nil =>
      obtain ⟨limit, rfl⟩ := Nat.exists_eq_add_one.mpr short
      have zero : (f 0).toNat = 0 ↔ f 0 = 0#8 :=
        ⟨fun h => BitVec.eq_of_toNat_eq h, fun h => by rw [h]; rfl⟩
      simp [compareFrom, charsIn, zero]
  | cons c rest ih =>
      obtain ⟨limit, rfl⟩ := Nat.exists_eq_add_one.mpr (Nat.zero_lt_of_lt short)
      have later := ih (fun d member => nonzero d (List.mem_cons_of_mem c member))
        (Nat.lt_of_succ_lt_succ short) (f := f.drop 1)
      by_cases same : f 0 = c
      · have notEnd : f 0 ≠ 0#8 := same ▸ nonzero c List.mem_cons_self
        rw [compareFrom, if_pos ⟨notEnd, same⟩, later, charsIn, if_neg notEnd, same]
        simp
      · rw [compareFrom, if_neg fun both => same both.2]
        refine iff_of_false (fun zero => same (BitVec.eq_of_toNat_eq (by omega))) fun equal => ?_
        rw [charsIn] at equal
        split at equal
        · cases equal
        · exact same (List.cons.inj equal).1

/-- A string that fits its field is compared equal exactly when it is the one stored there. -/
theorem strcmp_eq_zero_iff_ofField {f : Bytes} {s : CString} {limit : Nat} (short : strlen s < limit) :
    strcmp f s = 0 ↔ CString.ofField limit f = s := by
  rw [strcmp, compareFrom_charsIn s.nonzero short, CString.ext_iff]
  rfl

theorem compareUpTo_succ {n : Nat} {f g : Bytes} :
    compareUpTo (n + 1) f g = 0 ↔ f 0 = g 0 ∧ (f 0 = 0#8 ∨ compareUpTo n (f.drop 1) (g.drop 1) = 0) := by
  rw [compareUpTo]
  split_ifs with going
  · rw [and_iff_right going.2, or_iff_right going.1]
  · constructor
    · intro zero
      have same : f 0 = g 0 := BitVec.eq_of_toNat_eq (by omega)
      exact ⟨same, .inl (not_not.mp fun some_ => going ⟨some_, same⟩)⟩
    · rintro ⟨same, _⟩
      rw [same]
      exact Int.sub_self _

/-- Strings are equal up to `n` when their first `n` characters are. -/
theorem compareUpTo_eq_zero {a b : List Byte} (nonzero : ∀ c ∈ a, c ≠ 0#8) (nonzero' : ∀ c ∈ b, c ≠ 0#8) (n : Nat) :
    compareUpTo n (a.getD · 0#8) (b.getD · 0#8) = 0 ↔ a.take n = b.take n := by
  induction n generalizing a b with
  | zero => exact iff_of_true rfl rfl
  | succ n ih =>
      have rest {c : Byte} {l : List Byte} : Bytes.drop ((c :: l).getD · 0#8) 1 = (l.getD · 0#8) := by
        funext i
        rw [Bytes.drop, Nat.add_comm]
        rfl
      rw [compareUpTo_succ]
      cases a with
      | nil =>
          cases b with
          | nil => exact iff_of_true ⟨rfl, .inl rfl⟩ rfl
          | cons d b => exact iff_of_false (fun both => nonzero' d List.mem_cons_self both.1.symm) (List.cons_ne_nil _ _).symm
      | cons c a =>
          have some_ : c ≠ 0#8 := nonzero c List.mem_cons_self
          cases b with
          | nil => exact iff_of_false (fun both => some_ both.1) (List.cons_ne_nil _ _)
          | cons d b =>
              have later := ih (fun x member => nonzero x (List.mem_cons_of_mem c member))
                (fun x member => nonzero' x (List.mem_cons_of_mem d member))
              rw [rest, rest, later, List.take_succ_cons, List.take_succ_cons, List.cons.injEq]
              exact and_congr_right fun _ => or_iff_right some_

end AstralOS.Lib
