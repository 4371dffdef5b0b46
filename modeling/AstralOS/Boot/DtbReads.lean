import AstralOS.Boot.Dtb
import AstralOS.Foundation.Traced

/-! The reads that `dtb_get_property` makes of the blob, as the events of a traced walk. -/
namespace AstralOS.Boot
open Foundation Foundation.Traced AstralOS.Lib

/-- A number of bytes from an address on. -/
structure Read where
  start : Addr
  bytes : Nat

/-- All of them are where they may be. -/
def Read.Within (ok : Addr → Prop) (r : Read) : Prop := ∀ i < r.bytes, ok (r.start + BitVec.ofNat 64 i)

/-- The bytes of the first string that `strcmp` reads. -/
def compared : Bytes → List Byte → Nat
  | _, [] => 1
  | f, c :: rest => if f 0 ≠ 0#8 ∧ f 0 = c then compared (f.drop 1) rest + 1 else 1

/-- The bytes of the first string that `strncmp` reads. -/
def comparedUpTo : Nat → Bytes → Bytes → Nat
  | 0, _, _ => 0
  | n + 1, f, g => if f 0 ≠ 0#8 ∧ f 0 = g 0 then comparedUpTo n (f.drop 1) (g.drop 1) + 1 else 1

namespace Traced

abbrev cell (m : Memory) (p : Addr) : Traced Read (BitVec 32) := event ⟨p, 4⟩ (Boot.cell m p)

/-! The string functions, on a string at `p`. -/

abbrev strlen (p : Addr) (s : CString) : Traced Read Nat := event ⟨p, Lib.strlen s + 1⟩ (Lib.strlen s)

abbrev strchr (p : Addr) (s : CString) (c : Byte) : Traced Read (Option Nat) :=
  event ⟨p, (Lib.strchr s c).getD (Lib.strlen s) + 1⟩ (Lib.strchr s c)

abbrev strcmp (p : Addr) (s1 : Bytes) (s2 : CString) : Traced Read Int :=
  event ⟨p, compared s1 s2.chars⟩ (Lib.strcmp s1 s2)

abbrev strncmp (p : Addr) (s1 s2 : CString) (n : Nat) : Traced Read Int :=
  event ⟨p, comparedUpTo n s1.bytes s2.bytes⟩ (Lib.strncmp s1 s2 n)

/-! The functions of the walk, read by read. -/

/-- `name_len` -/
def nameLength (p : Addr) (nodeName : CString) (nameEnd : Option Nat) : Traced Read Nat :=
  match nameEnd with
  | some e => pure e
  | none => strlen p nodeName

/-- The name of the node is at `p`. -/
def matchNode (path : CString) (p : Addr) (nodeName : CString) (w : Walk) : Traced Read Walk := do
  let nameEnd ← strchr p nodeName 0x40#8
  let nameLen ← nameLength p nodeName nameEnd
  match w.nextSlash with
  | some next =>
      let segment := next - w.currentNodePath
      let difference ← strncmp p nodeName (path.drop w.currentNodePath) segment
      let matched : Walk := { w with
        currentNodePath := next + 1
        nextSlash := slashFrom path (next + 1)
        nodeFound := w.nodeFound || decide (path.bytes (next + 1) = 0#8) }
      pure (if difference = 0 ∧ segment = nameLen then matched else w)
  | none =>
      let segment := path.drop w.currentNodePath
      let difference ← strcmp p nodeName.bytes segment
      let matched : Walk := { w with nodeFound := true }
      if difference = 0 then pure matched
      else if nameEnd.isSome then do
        let difference ← strncmp p nodeName segment nameLen
        pure (if difference = 0 ∧ Lib.strlen segment = nameLen then matched else w)
      else pure w

def walkStep (m : Memory) (g : Globals) (path propName : CString) (targetDepth : Int) (w : Walk) :
    Traced Read (Walk ⊕ Answer) := do
  let tag ← cell m w.structPtr
  let p := w.structPtr + 4#64
  if tag = fdtBeginNode then do
    let nodeName := stringAt m p
    let length ← strlen p nodeName
    let next := alignUp4 (p + BitVec.ofNat 64 (length + 1))
    let w := { w with structPtr := next, depth := w.depth + 1 }
    if w.nodeFound = false ∧ w.depth = targetDepth + 1 then do
      let w ← matchNode path p nodeName w
      pure (.inl w)
    else pure (.inl w)
  else if tag = fdtEndNode then
    pure (if w.nodeFound then .inr (0#64, none) else .inl { w with structPtr := p, depth := w.depth - 1 })
  else if tag = fdtProp then do
    let lenProp ← cell m p
    let nameoffProp ← cell m (p + 4#64)
    let propString := g.dtStringsPtr + nameoffProp.setWidth 64
    let propValue := p + 8#64
    let skipped : Walk := { w with structPtr := alignUp4 (propValue + lenProp.setWidth 64) }
    if w.nodeFound = true then do
      let difference ← strcmp propString (m.view propString) propName
      pure (if difference = 0 then .inr (propValue, some lenProp) else .inl skipped)
    else pure (.inl skipped)
  else pure (.inl { w with structPtr := p })

def walkFrom (m : Memory) (g : Globals) (path propName : CString) (targetDepth : Int) :
    Nat → Walk → Traced Read (Option Answer)
  | 0, _ => pure none
  | fuel + 1, w => do
      let tag ← cell m w.structPtr
      if tag = fdtEnd then pure (some (0#64, none))
      else do
        let next ← walkStep m g path propName targetDepth w
        match next with
        | .inl w => walkFrom m g path propName targetDepth fuel w
        | .inr answer => pure (some answer)

def dtbGetProperty (fuel : Nat) (m : Memory) (g : Globals) (nodePath propName : CString) :
    Traced Read (Option Answer) :=
  if g.dtbBaseAddress = 0#64 ∨ g.dtStringsPtr = 0#64 then pure (some (0#64, none))
  else do
    let _offDtStruct ← cell m (g.dtbBaseAddress + 8#64)
    walkFrom m g nodePath propName (targetDepth nodePath) fuel (startWalk m g nodePath)

/-! Without its reads each is the function it is named after. -/

variable {m : Memory} {g : Globals} {path propName name : CString} {target : Int} {p : Addr} {w : Walk}

@[simp] theorem value_cell (m : Memory) (p : Addr) : (cell m p).value = Boot.cell m p := rfl

@[simp] theorem value_strlen (p : Addr) (s : CString) : (strlen p s).value = Lib.strlen s := rfl

@[simp] theorem value_strchr (p : Addr) (s : CString) (c : Byte) : (strchr p s c).value = Lib.strchr s c := rfl

@[simp] theorem value_strcmp (p : Addr) (s1 : Bytes) (s2 : CString) : (strcmp p s1 s2).value = Lib.strcmp s1 s2 := rfl

@[simp] theorem value_strncmp (p : Addr) (s1 s2 : CString) (n : Nat) :
    (strncmp p s1 s2 n).value = Lib.strncmp s1 s2 n := rfl

theorem matchNode_value : (matchNode path p name w).value = Boot.matchNode path name w := by
  rw [matchNode, Boot.matchNode]
  cases nameEnd : Lib.strchr name 0x40#8 <;> cases next : w.nextSlash
  · simp [nameEnd, nameLength, value_ite]
  · simp [nameEnd, nameLength]
  · simp [nameEnd, nameLength, value_ite, ite_or]
  · simp [nameEnd, nameLength]

theorem walkStep_value : (walkStep m g path propName target w).value = Boot.walkStep m g path propName target w := by
  rw [walkStep, Boot.walkStep]
  simp [value_ite, matchNode_value, apply_ite Sum.inl, ite_and]

theorem walkFrom_value (fuel : Nat) :
    (walkFrom m g path propName target fuel w).value = Boot.walkFrom m g path propName target fuel w := by
  induction fuel generalizing w with
  | zero => rfl
  | succ fuel ih =>
      rw [walkFrom, Boot.walkFrom, value_bind, value_cell]
      split_ifs with ended
      · rfl
      · rw [value_bind, walkStep_value]
        cases Boot.walkStep m g path propName target w with
        | inl w => exact ih
        | inr answer => rfl

theorem dtbGetProperty_value (fuel : Nat) :
    (dtbGetProperty fuel m g path propName).value = Boot.dtbGetProperty fuel m g path propName := by
  rw [dtbGetProperty, Boot.dtbGetProperty]
  split_ifs
  · rfl
  · exact walkFrom_value fuel

end Traced

/-! How far the reads go. -/

section
variable {m : Memory} {g : Globals} {path propName name : CString} {target : Int} {p : Addr} {w : Walk}
  {ok : Addr → Prop}

theorem Read.Within.mono {few many : Nat} (all : Read.Within ok ⟨p, many⟩) (le : few ≤ many) :
    Read.Within ok ⟨p, few⟩ := fun i inside => all i (lt_of_lt_of_le inside le)

/-- `strcmp` stops at a terminator of its first string, if not before. -/
theorem compared_le {f : Bytes} {k : Nat} (ended : f k = 0#8) (chars : List Byte) : compared f chars ≤ k + 1 := by
  induction k generalizing f chars with
  | zero =>
      cases chars with
      | nil => exact le_rfl
      | cons c rest => rw [compared, if_neg fun both => both.1 ended]
  | succ k ih =>
      cases chars with
      | nil => exact Nat.le_add_left 1 _
      | cons c rest =>
          have later := ih (show f.drop 1 k = 0#8 by rw [Bytes.drop, Nat.add_comm]; exact ended) rest
          rw [compared]
          split_ifs <;> omega

theorem comparedUpTo_le {f : Bytes} {k : Nat} (ended : f k = 0#8) (n : Nat) (h : Bytes) : comparedUpTo n f h ≤ k + 1 := by
  induction n generalizing f h k with
  | zero => exact Nat.zero_le _
  | succ n ih =>
      rw [comparedUpTo]
      split_ifs with going
      · cases k with
        | zero => exact absurd ended going.1
        | succ k =>
            have later := ih (show f.drop 1 k = 0#8 by rw [Bytes.drop, Nat.add_comm]; exact ended) (h.drop 1)
            omega
      · omega

theorem indexFrom_le {c : Byte} {chars : List Byte} {i : Nat} (found : indexFrom c chars = some i) :
    i ≤ chars.length := by
  induction chars generalizing i with
  | nil =>
      rw [indexFrom] at found
      split_ifs at found
      cases found
      exact le_rfl
  | cons x rest ih =>
      rw [indexFrom] at found
      split_ifs at found
      · cases found
        exact Nat.zero_le _
      · obtain ⟨j, later, rfl⟩ := Option.map_eq_some_iff.mp found
        exact Nat.succ_le_succ (ih later)

theorem strchr_getD_le (s : CString) (c : Byte) : (strchr s c).getD (strlen s) ≤ strlen s := by
  cases found : strchr s c with
  | none => exact le_rfl
  | some i => exact indexFrom_le found

theorem bytes_strlen (s : CString) : s.bytes (strlen s) = 0#8 := List.getD_eq_default _ _ le_rfl

namespace Traced

/-- A name is compared within itself. -/
theorem matchNode_logs (inside : Read.Within ok ⟨p, Lib.strlen name + 1⟩) :
    Logs (Read.Within ok) (matchNode path p name w) := by
  have chr := inside.mono (Nat.succ_le_succ (strchr_getD_le name 0x40#8))
  have ncmp (s : CString) (n : Nat) := inside.mono (comparedUpTo_le (bytes_strlen name) n s.bytes)
  have cmp (s : CString) := inside.mono (compared_le (bytes_strlen name) s.chars)
  rw [matchNode, logs_bind, logs_event, logs_bind]
  refine ⟨chr, ?_, ?_⟩
  · cases (strchr p name 0x40#8).value with
    | some e => exact logs_pure e
    | none => exact (logs_event _ _).mpr inside
  · cases w.nextSlash with
    | some next =>
        rw [logs_bind, logs_event]
        exact ⟨ncmp _ _, logs_pure _⟩
    | none =>
        rw [logs_bind, logs_event]
        refine ⟨cmp _, ?_⟩
        split_ifs
        · exact logs_pure _
        · rw [logs_bind, logs_event]
          exact ⟨ncmp _ _, logs_pure _⟩
        · exact logs_pure _

/-- The reads of one turn: its word, a node's name, and a property's words and, once the node is found, its name. -/
theorem walkStep_logs : Logs (Read.Within ok) (walkStep m g path propName target w) ↔
    Read.Within ok ⟨w.structPtr, 4⟩ ∧
      (Boot.cell m w.structPtr = fdtBeginNode →
        Read.Within ok ⟨w.structPtr + 4#64, Lib.strlen (stringAt m (w.structPtr + 4#64)) + 1⟩) ∧
      (Boot.cell m w.structPtr = fdtProp →
        Read.Within ok ⟨w.structPtr + 4#64, 4⟩ ∧ Read.Within ok ⟨w.structPtr + 4#64 + 4#64, 4⟩ ∧
          (w.nodeFound = true → Read.Within ok
            ⟨g.dtStringsPtr + (Boot.cell m (w.structPtr + 4#64 + 4#64)).setWidth 64,
              compared (m.view (g.dtStringsPtr + (Boot.cell m (w.structPtr + 4#64 + 4#64)).setWidth 64))
                propName.chars⟩)) := by
  rw [walkStep, logs_bind, logs_event]
  refine and_congr_right fun _ => ?_
  by_cases beginNode : Boot.cell m w.structPtr = fdtBeginNode
  · have other : ¬ Boot.cell m w.structPtr = fdtProp := by rw [beginNode]; decide
    rw [if_pos beginNode, logs_bind, logs_event]
    refine ⟨fun logs => ⟨fun _ => logs.1, fun here => absurd here other⟩, fun ⟨named, _⟩ => ⟨named beginNode, ?_⟩⟩
    dsimp only
    split_ifs
    · rw [logs_bind]
      exact ⟨matchNode_logs (named beginNode), logs_pure _⟩
    · exact logs_pure _
  rw [if_neg beginNode]
  by_cases endNode : Boot.cell m w.structPtr = fdtEndNode
  · have other : ¬ Boot.cell m w.structPtr = fdtProp := by rw [endNode]; decide
    rw [if_pos endNode]
    exact iff_of_true (logs_pure _) ⟨fun here => absurd here beginNode, fun here => absurd here other⟩
  rw [if_neg endNode]
  by_cases prop : Boot.cell m w.structPtr = fdtProp
  · rw [if_pos prop, logs_bind, logs_event, logs_bind, logs_event]
    refine ⟨fun logs => ⟨fun here => absurd here beginNode, fun _ => ⟨logs.1, logs.2.1, fun found => ?_⟩⟩,
      fun ⟨_, named⟩ => ⟨(named prop).1, (named prop).2.1, ?_⟩⟩
    · have logs := logs.2.2
      dsimp only at logs
      rw [if_pos found, logs_bind, logs_event] at logs
      exact logs.1
    · dsimp only
      split_ifs with found
      · rw [logs_bind, logs_event]
        exact ⟨(named prop).2.2 found, logs_pure _⟩
      · exact logs_pure _
  · rw [if_neg prop]
    exact iff_of_true (logs_pure _) ⟨fun here => absurd here beginNode, fun here => absurd here prop⟩

end Traced
end
end AstralOS.Boot
