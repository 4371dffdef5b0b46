import AstralOS.Boot.FdtBlob
import AstralOS.Foundation.Subsequence

/-! Where a lookup stops, and whose property it gives. -/
namespace AstralOS.Boot
open Foundation Foundation.Traced AstralOS.Lib

/-- The parts of a path between its slashes, and whether a part is the last with no slash after it. -/
def partsFrom : List Byte → List Byte → List (Bool × List Byte)
  | part, [] => [(true, part)]
  | part, c :: rest =>
      if c = 0x2F#8 then (false, part) :: (if rest = [] then [] else partsFrom [] rest)
      else partsFrom (part ++ [c]) rest

def parts (path : CString) : List (Bool × List Byte) := partsFrom [] path.chars

/-- A part takes a name without its unit address, and a last part also the whole name. -/
def Takes (part : Bool × List Byte) (name : CString) : Prop :=
  baseName name = part.2 ∨ (part.1 = true ∧ name.chars = part.2)

instance (part : Bool × List Byte) (name : CString) : Decidable (Takes part name) :=
  inferInstanceAs (Decidable (_ ∨ _))

def levelStep (target : Int) (s : List CString × List CString) (t : Token) : List CString × List CString :=
  (openStep s.1 t, match t with
    | .beginNode name => if (s.1.length : Int) = target then s.2 ++ [name] else s.2
    | _ => s.2)

/-- The names of the nodes at a depth, in the order of the blob. -/
def level (target : Int) (tokens : List Token) : List CString := (tokens.foldl (levelStep target) ([], [])).2

/-- The parts of the path have all been met by nodes at its depth, in order and one a node. -/
def Met (path : CString) (tokens : List Token) : Prop :=
  List.SublistForall₂ Takes (parts path) (level (targetDepth path) tokens)

/-- The search stops at the node that begins after some tokens: it is the first with which the path is met. -/
def Stops (path : CString) (pre : List Token) (name : CString) : Prop :=
  ¬ Met path pre ∧ Met path (pre ++ [.beginNode name])

/-- No node ends here, and no property has the name. -/
def Token.Passed (propName : CString) : Token → Prop
  | .endNode => False
  | .prop q => q.name ≠ propName
  | _ => True

/-- The segments of a path: what is between its slashes, where there is anything. -/
def segments (path : CString) : List (List Byte) := (path.chars.splitOn 0x2F#8).filter (· ≠ [])

/-- The path leads to the node whose name is the last of these, the root's being the first. -/
def Designates (path : CString) (names : List CString) : Prop :=
  ∃ root below, names = root :: below ∧
    List.Forall₂ (fun segment name => name.chars = segment ∨ baseName name = segment) (segments path) below

/-- The address of the value of a property that comes after some tokens. -/
def valueAt (m : Memory) (base : Addr) (before : List Token) : Addr :=
  structBlock m base + BitVec.ofNat 64 (width before) + 12#64

/-- The pointer is to the value of a property of that name in a node that the path leads to. -/
def SoundAnswer {m : Memory} {base : Addr} (blob : FdtBlob m base) (path propName : CString) (answer : Answer) : Prop :=
  ∃ before q after, blob.tokens = before ++ .prop q :: after ∧ answer.1 = valueAt m base before ∧
    HoldsBytes m answer.1 q.value ∧ q.name = propName ∧ answer.2 = some (BitVec.ofNat 32 q.value.length) ∧
      Designates path (opened before)

section
variable {path propName name : CString} {target : Int} {w : Walk} {part chars : List Byte} {tokens : List Token}

theorem partsFrom_ne_nil : partsFrom part chars ≠ [] := by
  induction chars generalizing part with
  | nil => exact List.cons_ne_nil _ _
  | cons c rest ih =>
      rw [partsFrom]
      split_ifs
      · exact List.cons_ne_nil _ _
      · exact List.cons_ne_nil _ _
      · exact ih

theorem partsFrom_none (whole : indexFrom 0x2F#8 chars = none) : partsFrom part chars = [(true, part ++ chars)] := by
  induction chars generalizing part with
  | nil => rw [partsFrom, List.append_nil]
  | cons c rest ih =>
      rw [indexFrom] at whole
      split_ifs at whole with slash
      rw [partsFrom, if_neg slash, ih (Option.map_eq_none_iff.mp whole), List.append_assoc]
      rfl

theorem partsFrom_some (part : List Byte) {i : Nat} (slash : indexFrom 0x2F#8 chars = some i) :
    i < chars.length ∧ partsFrom part chars = (false, part ++ chars.take i) ::
      (if chars.drop (i + 1) = [] then [] else partsFrom [] (chars.drop (i + 1))) := by
  induction chars generalizing part i with
  | nil => cases slash
  | cons c rest ih =>
      rw [indexFrom] at slash
      split_ifs at slash with here
      · cases slash
        rw [partsFrom, if_pos here, List.take_zero, List.append_nil]
        exact ⟨Nat.zero_lt_succ _, rfl⟩
      · obtain ⟨j, later, rfl⟩ := Option.map_eq_some_iff.mp slash
        obtain ⟨inside, split⟩ := ih (part ++ [c]) later
        rw [partsFrom, if_neg here, split, List.append_assoc]
        exact ⟨Nat.succ_lt_succ inside, rfl⟩

theorem level_concat (target : Int) (tokens : List Token) (t : Token) :
    level target (tokens ++ [t]) = match t with
      | .beginNode name => if ((opened tokens).length : Int) = target then level target tokens ++ [name] else level target tokens
      | _ => level target tokens := by
  have names : ∀ s : List CString × List CString,
      (tokens.foldl (levelStep target) s).1 = tokens.foldl openStep s.1 := by
    induction tokens with
    | nil => exact fun _ => rfl
    | cons t rest ih => exact fun s => ih (levelStep target s t)
  rw [level, List.foldl_concat]
  cases t with
  | beginNode name =>
      rw [levelStep, names]
      rfl
  | _ => rfl

/-- A segment of the path is compared with the part of the name before its unit address. -/
theorem segment_takes (name : CString) {i : Nat} (inside : i ≤ chars.length) (nonzero : ∀ c ∈ chars, c ≠ 0#8) :
    (compareUpTo i name.bytes (chars.getD · 0#8) = 0 ∧ i = (baseName name).length) ↔ baseName name = chars.take i := by
  have prefix_ : ∀ k, k = (baseName name).length → name.chars.take k = baseName name := by
    rintro k rfl
    exact (List.prefix_iff_eq_take.mp (List.takeWhile_prefix _)).symm
  have compared := compareUpTo_eq_zero name.nonzero nonzero i
  have compared : compareUpTo i name.bytes (chars.getD · 0#8) = 0 ↔ _ := compared
  rw [compared]
  constructor
  · rintro ⟨same, length⟩
    rw [← same, prefix_ i length]
  · intro same
    have length : i = (baseName name).length := by
      rw [same, List.length_take, Nat.min_eq_left inside]
    exact ⟨by rw [prefix_ i length, same], length⟩

theorem baseName_whole (plain : strchr name 0x40#8 = none) : baseName name = name.chars := by
  have length := nameLen_eq name
  rw [plain] at length
  exact (List.takeWhile_prefix _).eq_of_length length.symm

/-- The last part of the path is compared with the whole name, or with the part before the unit address. -/
theorem whole_takes (name segment : CString) :
    (strcmp name.bytes segment = 0 ∨ (strchr name 0x40#8).isSome ∧
      strncmp name segment ((strchr name 0x40#8).getD (strlen name)) = 0 ∧
      strlen segment = (strchr name 0x40#8).getD (strlen name)) ↔ Takes (true, segment.chars) name := by
  have same : strcmp name.bytes segment = 0 ↔ name.chars = segment.chars :=
    (strcmp_held fun _ _ => rfl).trans CString.ext_iff
  have short := segment_takes name (le_refl segment.chars.length) segment.nonzero
  rw [List.take_length] at short
  have base : (strncmp name segment (baseName name).length = 0 ∧ strlen segment = (baseName name).length) ↔
      baseName name = segment.chars := by
    rw [← short]
    refine and_congr_left fun length => ?_
    have length : segment.chars.length = (baseName name).length := length
    rw [length]
    rfl
  rw [nameLen_eq, base, same, Takes]
  constructor
  · rintro (equal | ⟨_, equal⟩)
    · exact .inr ⟨rfl, equal⟩
    · exact .inl equal
  · rintro (equal | ⟨_, equal⟩)
    · cases unit : strchr name 0x40#8 with
      | none => exact .inl ((baseName_whole unit).symm.trans equal)
      | some i => exact .inr ⟨rfl, equal⟩
    · exact .inl equal

theorem slashFrom_eq (path : CString) (i : Nat) : slashFrom path i = (indexFrom 0x2F#8 (path.chars.drop i)).map (i + ·) := rfl

theorem drop_nonzero (path : CString) (i : Nat) : ∀ c ∈ path.chars.drop i, c ≠ 0#8 :=
  fun c member => path.nonzero c (List.mem_of_mem_drop member)

theorem bytes_eq_zero_iff (path : CString) (i : Nat) : path.bytes i = 0#8 ↔ path.chars.drop i = [] := by
  rw [List.drop_eq_nil_iff, CString.bytes]
  constructor
  · intro zero
    by_contra inside
    rw [List.getD_eq_getElem _ _ (Nat.lt_of_not_le inside)] at zero
    exact path.nonzero _ (List.getElem_mem _) zero
  · exact fun past => List.getD_eq_default _ _ past

/-- What is left of the path, for a walk that has not found its node. -/
def leftParts (path : CString) (w : Walk) : List (Bool × List Byte) := partsFrom [] (path.chars.drop w.currentNodePath)

/-- The walk has met the parts of the path that it should have. -/
structure Looking (path : CString) (left : List (Bool × List Byte)) (w : Walk) : Prop where
  missing : w.nodeFound = false
  slash : w.nextSlash = slashFrom path w.currentNodePath
  left : leftParts path w = left

/-- A name that is compared meets the next part if it can. -/
theorem Looking.matchNode {left : List (Bool × List Byte)} (looking : Looking path left w) (name : CString) :
    (advance Takes left name = [] ∧ (matchNode path name w).nodeFound = true) ∨
      Looking path (advance Takes left name) (matchNode path name w) := by
  obtain ⟨missing, slash, rfl⟩ := looking
  cases found : indexFrom 0x2F#8 (path.chars.drop w.currentNodePath) with
  | none =>
      have none_ : w.nextSlash = none := by rw [slash, slashFrom_eq, found]; rfl
      have whole : leftParts path w = [(true, path.chars.drop w.currentNodePath)] := partsFrom_none found
      have takes := whole_takes name (path.drop w.currentNodePath)
      rw [whole, advance, Boot.matchNode, none_]
      dsimp only
      by_cases fits : Takes (true, path.chars.drop w.currentNodePath) name
      · rw [if_pos fits, if_pos (takes.mpr fits)]
        exact .inl ⟨rfl, rfl⟩
      · rw [if_neg fits, if_neg fun code => fits (takes.mp code)]
        exact .inr ⟨missing, slash, whole⟩
  | some i =>
      have some_ : w.nextSlash = some (w.currentNodePath + i) := by rw [slash, slashFrom_eq, found]; rfl
      obtain ⟨inside, split⟩ := partsFrom_some [] found
      have split : leftParts path w = _ := split
      have takes := segment_takes name (Nat.le_of_lt inside) (drop_nonzero path w.currentNodePath)
      have takes : (strncmp name (path.drop w.currentNodePath) i = 0 ∧
          i = (strchr name 0x40#8).getD (strlen name)) ↔ _ := nameLen_eq name ▸ takes
      have last := bytes_eq_zero_iff path (w.currentNodePath + i + 1)
      rw [split, advance, Boot.matchNode, some_]
      dsimp only
      rw [Nat.add_sub_cancel_left]
      by_cases fits : Takes (false, [] ++ (path.chars.drop w.currentNodePath).take i) name
      · have same := fits.resolve_right fun both => Bool.noConfusion both.1
        rw [if_pos fits, if_pos (takes.mpr same), List.drop_drop]
        by_cases ended : path.chars.drop (w.currentNodePath + (i + 1)) = []
        · rw [if_pos ended, decide_eq_true (last.mpr ended), Bool.or_true]
          exact .inl ⟨rfl, rfl⟩
        · rw [if_neg ended, decide_eq_false fun zero => ended (last.mp zero), Bool.or_false]
          exact .inr ⟨missing, rfl, rfl⟩
      · rw [if_neg fits, if_neg fun code => fits (.inl (takes.mp code))]
        exact .inr ⟨missing, slash, split⟩

end

section
variable {m : Memory} {base : Addr} {blob : FdtBlob m base} {path propName name : CString} {w w' : Walk}
  {before rest mid : List Token} {t : Token}

/-- The path is met sooner or not at all. -/
theorem level_append (target : Int) (before rest : List Token) : level target before <+: level target (before ++ rest) := by
  induction rest using List.reverseRecOn with
  | nil => rw [List.append_nil]
  | append_singleton rest t ih =>
      rw [← List.append_assoc, level_concat]
      cases t with
      | beginNode name =>
          dsimp only
          split_ifs
          · exact ih.trans (List.prefix_append _ _)
          · exact ih
      | _ => exact ih

theorem Met.append (met : Met path before) (rest : List Token) : Met path (before ++ rest) := by
  obtain ⟨names, taken, among⟩ := List.sublistForall₂_iff.mp met
  exact List.sublistForall₂_iff.mpr ⟨names, taken, among.trans (level_append _ _ _).sublist⟩

/-- The parts of the path that some tokens leave to be met. -/
def remaining (path : CString) (tokens : List Token) : List (Bool × List Byte) :=
  (level (targetDepth path) tokens).foldl (advance Takes) (parts path)

theorem remaining_eq_nil_iff : remaining path before = [] ↔ Met path before := foldl_advance_eq_nil_iff Takes

theorem remaining_concat (path : CString) (before : List Token) (t : Token) :
    remaining path (before ++ [t]) = match t with
      | .beginNode name =>
          if ((opened before).length : Int) = targetDepth path then advance Takes (remaining path before) name
          else remaining path before
      | _ => remaining path before := by
  rw [remaining, level_concat]
  cases t with
  | beginNode name =>
      dsimp only
      split_ifs
      · exact List.foldl_concat _ _ _ _
      · rfl
  | _ => rfl

/-- One turn of a walk that has not found its node. -/
theorem Looking.turn (looking : Looking path (remaining path before) w) (inStep : InStep blob w before (t :: rest))
    (propName : CString) (p : Addr) : ∃ w', t.step path propName (targetDepth path) p w = .inl w' ∧
      ((∃ name, t = .beginNode name ∧ Stops path before name ∧ w'.nodeFound = true) ∨
        Looking path (remaining path (before ++ [t])) w') := by
  have unmet : ¬ Met path before := fun met => by
    have left := looking.left
    rw [remaining_eq_nil_iff.mpr met] at left
    exact partsFrom_ne_nil left
  have remains := remaining_concat path before t
  cases t with
  | nop => exact ⟨_, rfl, .inr (remains ▸ ⟨looking.missing, looking.slash, looking.left⟩)⟩
  | endNode =>
      refine ⟨_, if_neg (by rw [looking.missing]; decide), .inr (remains ▸ ⟨looking.missing, looking.slash, looking.left⟩)⟩
  | prop q =>
      refine ⟨_, if_neg fun both => ?_, .inr (remains ▸ ⟨looking.missing, looking.slash, looking.left⟩)⟩
      rw [looking.missing] at both
      exact Bool.noConfusion both.1
  | beginNode name =>
      refine ⟨_, rfl, ?_⟩
      set moved : Walk := { w with structPtr := p, depth := w.depth + 1 }
      have there : Looking path (remaining path before) moved := ⟨looking.missing, looking.slash, looking.left⟩
      rw [← inStep.depth] at remains
      by_cases level : w.depth = targetDepth path
      · rw [if_pos ⟨looking.missing, level⟩]
        have remains : remaining path (before ++ [.beginNode name]) = advance Takes (remaining path before) name :=
          remains.trans (if_pos level)
        rcases there.matchNode name with ⟨met, found⟩ | still
        · exact .inl ⟨name, rfl, ⟨unmet, remaining_eq_nil_iff.mp (remains.trans met)⟩, found⟩
        · exact .inr (remains ▸ still)
      · rw [if_neg fun both => level both.2]
        have remains : remaining path (before ++ [.beginNode name]) = remaining path before := remains.trans (if_neg level)
        exact .inr (remains ▸ there)

/-- The loop of a lookup in the blob. -/
def loop (m : Memory) (base : Addr) (path propName : CString) : Nat → Walk → Option Answer :=
  walkFrom m ⟨base, stringsBlock m base⟩ path propName (targetDepth path)

theorem loop_turn (inStep : InStep blob w before (t :: rest)) (path propName : CString) (fuel : Nat) :
    loop m base path propName (fuel + 1) w =
      match t.step path propName (targetDepth path) (w.structPtr + BitVec.ofNat 64 t.width) w with
      | .inl w => loop m base path propName fuel w
      | .inr answer => some answer := by
  have stepped := inStep.step base path propName (targetDepth path)
  cases turn : t.step path propName (targetDepth path) (w.structPtr + BitVec.ofNat 64 t.width) w with
  | inl next => simp only [loop, walkFrom, if_neg inStep.lies.going, stepped, turn]
  | inr answer => simp only [loop, walkFrom, if_neg inStep.lies.going, stepped, turn]

/-- The walk goes on past the tokens with which the path is not met. -/
theorem Looking.run (looking : Looking path (remaining path before) w) (inStep : InStep blob w before (mid ++ rest))
    (unmet : ¬ Met path (before ++ mid)) (propName : CString) : ∃ w', Looking path (remaining path (before ++ mid)) w' ∧
      InStep blob w' (before ++ mid) rest ∧
      ∀ fuel, loop m base path propName (mid.length + fuel) w = loop m base path propName fuel w' := by
  induction mid generalizing before w with
  | nil =>
      rw [List.append_nil]
      exact ⟨w, looking, inStep, fun fuel => by rw [List.length_nil, Nat.zero_add]⟩
  | cons t mid ih =>
      have split : before ++ t :: mid = before ++ [t] ++ mid := (List.append_assoc before [t] mid).symm
      rw [split] at unmet ⊢
      obtain ⟨w', stepped, turn⟩ := looking.turn inStep propName (w.structPtr + BitVec.ofNat 64 t.width)
      rcases turn with ⟨name, rfl, stops, _⟩ | looking'
      · exact absurd (stops.2.append mid) unmet
      · obtain ⟨last, looking'', inStep'', run⟩ := ih looking' (inStep.next stepped) unmet
        refine ⟨last, looking'', inStep'', fun fuel => ?_⟩
        rw [List.length_cons, show mid.length + 1 + fuel = mid.length + fuel + 1 by omega, loop_turn inStep, stepped]
        exact run fuel

/-- Once the node is found the walk goes on past what comes before the property. -/
theorem found_run (found : w.nodeFound = true) (inStep : InStep blob w before (mid ++ rest))
    (passed : ∀ t ∈ mid, t.Passed propName) (path : CString) : ∃ w', w'.nodeFound = true ∧
      InStep blob w' (before ++ mid) rest ∧
      ∀ fuel, loop m base path propName (mid.length + fuel) w = loop m base path propName fuel w' := by
  induction mid generalizing before w with
  | nil =>
      rw [List.append_nil]
      exact ⟨w, found, inStep, fun fuel => by rw [List.length_nil, Nat.zero_add]⟩
  | cons t mid ih =>
      obtain ⟨first, later⟩ := List.forall_mem_cons.mp passed
      have turn : ∃ w', t.step path propName (targetDepth path) (w.structPtr + BitVec.ofNat 64 t.width) w = .inl w' ∧
          w'.nodeFound = true := by
        cases t with
        | nop => exact ⟨_, rfl, found⟩
        | endNode => exact first.elim
        | prop q => exact ⟨_, if_neg fun both => first both.2, found⟩
        | beginNode name =>
            refine ⟨_, rfl, ?_⟩
            rw [if_neg fun both => by rw [found] at both; exact Bool.noConfusion both.1]
            exact found
      obtain ⟨w', stepped, found'⟩ := turn
      obtain ⟨last, found'', inStep'', run⟩ := ih found' (inStep.next stepped) later
      rw [List.append_assoc] at inStep''
      refine ⟨last, found'', inStep'', fun fuel => ?_⟩
      rw [List.length_cons, show mid.length + 1 + fuel = mid.length + fuel + 1 by omega, loop_turn inStep, stepped]
      exact run fuel

/-- The property that a lookup comes to: the search stops at a node, and it is the first of its name from
there on, before any node ends. -/
structure Reaches (blob : FdtBlob m base) (path propName : CString) (pre : List Token) (name : CString)
    (mid : List Token) (q : Property) (after : List Token) : Prop where
  split : blob.tokens = pre ++ .beginNode name :: (mid ++ .prop q :: after)
  stops : Stops path pre name
  passed : ∀ t ∈ mid, t.Passed propName
  named : q.name = propName

theorem looking_start (g : Globals) (path : CString) : Looking path (remaining path []) (startWalk m g path) :=
  ⟨rfl, rfl, rfl⟩

variable {pre after : List Token} {q : Property}

theorem lookup_loop (blob : FdtBlob m base) (g : Globals) (path propName : CString) (fuel : Nat) :
    dtbGetProperty fuel m (dtbInit m base g) path propName =
      loop m base path propName fuel (startWalk m ⟨base, stringsBlock m base⟩ path) := by
  rw [dtbInit_blob blob, dtbGetProperty, if_neg (not_or.mpr ⟨blob.nonnull, blob.strings_nonnull⟩)]
  rfl

/-- What the lookup comes to is what it gives. -/
theorem Reaches.found (reaches : Reaches blob path propName pre name mid q after) :
    ∃ fuel, loop m base path propName fuel (startWalk m ⟨base, stringsBlock m base⟩ path) =
      some (valueAt m base (pre ++ .beginNode name :: mid), some (BitVec.ofNat 32 q.value.length)) := by
  obtain ⟨split, stops, passed, rfl⟩ := reaches
  have start := InStep.start blob (stringsBlock m base) path
  rw [split] at start
  obtain ⟨w1, looking, inStep, run1⟩ := (looking_start _ path).run start stops.1 q.name
  obtain ⟨w2, stepped, turn⟩ := looking.turn inStep q.name (w1.structPtr + BitVec.ofNat 64 (Token.beginNode name).width)
  have found : w2.nodeFound = true := by
    rcases turn with ⟨_, _, _, found⟩ | still
    · exact found
    · have left := still.left
      rw [List.nil_append, remaining_eq_nil_iff.mpr stops.2] at left
      exact absurd left partsFrom_ne_nil
  obtain ⟨w3, found3, inStep3, run3⟩ := found_run found (inStep.next stepped) passed path
  have place : [] ++ pre ++ [Token.beginNode name] ++ mid = pre ++ .beginNode name :: mid := by
    rw [List.nil_append, List.append_assoc]
    rfl
  refine ⟨pre.length + (mid.length + 1 + 1), ?_⟩
  rw [run1, loop_turn inStep, stepped]
  refine (run3 1).trans ?_
  rw [loop_turn inStep3, Token.step, if_pos ⟨found3, rfl⟩, inStep3.pointer, place]
  rfl

/-- Where the walk is in its search. -/
inductive Tracks (path propName : CString) (before : List Token) (w : Walk) : Prop
  | looking (looking : Looking path (remaining path before) w)
  | found (pre : List Token) (name : CString) (mid : List Token) (split : before = pre ++ .beginNode name :: mid)
      (stops : Stops path pre name) (passed : ∀ t ∈ mid, t.Passed propName) (found : w.nodeFound = true)

theorem Tracks.turn (tracks : Tracks path propName before w) (inStep : InStep blob w before (t :: rest)) (p : Addr) :
    (∃ w', t.step path propName (targetDepth path) p w = .inl w' ∧ Tracks path propName (before ++ [t]) w') ∨
      (t.step path propName (targetDepth path) p w = .inr (0#64, none)) ∨
      ∃ pre name mid q, before = pre ++ .beginNode name :: mid ∧ Reaches blob path propName pre name mid q rest ∧
        t.step path propName (targetDepth path) p w =
          .inr (w.structPtr + 12#64, some (BitVec.ofNat 32 q.value.length)) := by
  cases tracks with
  | looking looking =>
      obtain ⟨w', stepped, turn⟩ := looking.turn inStep propName p
      rcases turn with ⟨name, rfl, stops, found⟩ | still
      · exact .inl ⟨w', stepped, .found before name [] rfl stops (List.forall_mem_nil _) found⟩
      · exact .inl ⟨w', stepped, .looking still⟩
  | found pre name mid split stops passed found =>
      have on (first : t.Passed propName) {w' : Walk} (found' : w'.nodeFound = true) :
          Tracks path propName (before ++ [t]) w' := by
        refine .found pre name (mid ++ [t]) ?_ stops ?_ found'
        · rw [split, List.append_assoc]
          rfl
        · exact List.forall_mem_append.mpr ⟨passed, List.forall_mem_singleton.mpr first⟩
      cases t with
      | nop => exact .inl ⟨_, rfl, on trivial found⟩
      | endNode => exact .inr (.inl (if_pos found))
      | beginNode other =>
          refine .inl ⟨_, rfl, on trivial ?_⟩
          rw [if_neg fun both => by rw [found] at both; exact Bool.noConfusion both.1]
          exact found
      | prop q =>
          by_cases named : q.name = propName
          · refine .inr (.inr ⟨pre, name, mid, q, split, ⟨?_, stops, passed, named⟩, if_pos ⟨found, named⟩⟩)
            rw [inStep.split, split, List.append_assoc]
            rfl
          · exact .inl ⟨_, if_neg fun both => named both.2, on named found⟩

/-- An answer that is not null is the property that the lookup comes to. -/
theorem Tracks.answer (tracks : Tracks path propName before w) (inStep : InStep blob w before rest) {fuel : Nat}
    {answer : Answer} (found : loop m base path propName fuel w = some answer) (nonnull : answer.1 ≠ 0#64) :
    ∃ pre name mid q after, Reaches blob path propName pre name mid q after ∧
      answer = (valueAt m base (pre ++ .beginNode name :: mid), some (BitVec.ofNat 32 q.value.length)) := by
  induction fuel generalizing w before rest with
  | zero => cases found
  | succ fuel ih =>
      cases rest with
      | nil =>
          rw [loop, walkFrom, if_pos inStep.ended] at found
          cases found
          exact absurd rfl nonnull
      | cons t rest =>
          rw [loop_turn inStep] at found
          rcases tracks.turn inStep (w.structPtr + BitVec.ofNat 64 t.width) with
            ⟨w', stepped, tracks'⟩ | stepped | ⟨pre, name, mid, q, split, reaches, stepped⟩
          · rw [stepped] at found
            exact ih tracks' (inStep.next stepped) found
          · rw [stepped] at found
            cases found
            exact absurd rfl nonnull
          · rw [stepped] at found
            refine ⟨pre, name, mid, q, rest, reaches, ?_⟩
            rw [← Option.some.inj found, inStep.pointer, split]
            rfl

theorem width_eq_zero (empty : width before = 0) : before = [] := by
  cases before with
  | nil => rfl
  | cons t rest =>
      have first : width (t :: rest) = t.width + width rest := List.sum_cons
      have wide := t.width_ge
      omega

/-- Tokens are told apart by where they are. -/
theorem before_unique {before' rest' : List Token} (split : before ++ rest = before' ++ rest')
    (same : width before = width before') : before = before' := by
  rcases List.append_eq_append_iff.mp split with ⟨more, rfl, _⟩ | ⟨more, rfl, _⟩
  · rw [width_append] at same
    rw [width_eq_zero (by omega : width more = 0), List.append_nil]
  · rw [width_append] at same
    rw [width_eq_zero (by omega : width more = 0), List.append_nil]

theorem valueAt_toNat (split : blob.tokens = before ++ .prop q :: after) :
    (valueAt m base before).toNat = (structBlock m base).toNat + width before + 12 := by
  have inStep := inStep_of_split split
  have place : (structBlock m base + BitVec.ofNat 64 (width before)).toNat = _ := inStep.toNat
  have fits : (structBlock m base + BitVec.ofNat 64 (width before)).toNat + _ < 2 ^ 64 := inStep.fits
  rw [Token.width] at fits
  rw [← place]
  exact toNat_add_ofNat (i := 12) (by omega)

theorem valueAt_holds (split : blob.tokens = before ++ .prop q :: after) : HoldsBytes m (valueAt m base before) q.value :=
  (inStep_of_split split).lies.2.2.2.2

theorem Reaches.at_ (reaches : Reaches blob path propName pre name mid q after) :
    blob.tokens = (pre ++ .beginNode name :: mid) ++ .prop q :: after := by
  rw [reaches.split, List.append_assoc]
  rfl

theorem Reaches.nonnull (reaches : Reaches blob path propName pre name mid q after) :
    valueAt m base (pre ++ .beginNode name :: mid) ≠ 0#64 := by
  have place := valueAt_toNat reaches.at_
  intro null
  rw [null] at place
  cases place

/-- A sound answer can only be about the node that the property is in. -/
theorem Reaches.designates (reaches : Reaches blob path propName pre name mid q after) {length : Option (BitVec 32)}
    (sound : SoundAnswer blob path propName (valueAt m base (pre ++ .beginNode name :: mid), length)) :
    Designates path (opened (pre ++ .beginNode name :: mid)) := by
  obtain ⟨before, q', after', split, same, _, _, _, designates⟩ := sound
  have place := valueAt_toNat reaches.at_
  have place' := valueAt_toNat split
  rw [← same, place] at place'
  rw [before_unique (reaches.at_.symm.trans split) (by omega)]
  exact designates

end

/-- Every answer is sound exactly when the property that the lookup comes to, if there is one, is in a node
that the path leads to. -/
theorem lookup_sound_iff {m : Memory} {base : Addr} (blob : FdtBlob m base) (g : Globals) (path propName : CString) :
    (∀ fuel answer, dtbGetProperty fuel m (dtbInit m base g) path propName = some answer → answer.1 ≠ 0#64 →
      SoundAnswer blob path propName answer) ↔
      ∀ pre name mid q after, Reaches blob path propName pre name mid q after →
        Designates path (opened (pre ++ .beginNode name :: mid)) := by
  have run := lookup_loop blob g path propName
  constructor
  · intro sound pre name mid q after reaches
    obtain ⟨fuel, found⟩ := reaches.found
    exact reaches.designates (sound fuel _ ((run fuel).trans found) reaches.nonnull)
  · intro designates fuel answer found nonnull
    rw [run] at found
    obtain ⟨pre, name, mid, q, after, reaches, rfl⟩ :=
      (Tracks.looking (looking_start _ path)).answer (InStep.start blob _ path) found nonnull
    exact ⟨_, q, after, reaches.at_, rfl, valueAt_holds reaches.at_, reaches.named, rfl, designates _ _ _ _ _ reaches⟩

def rootPath : CString := ⟨[0x2F#8], by decide⟩

/-- The root has no framebuffer, but a lookup of "/" gives the one of its first subnode. -/
theorem root_answers_for_chosen : ¬ ∀ (m : Memory) (base : Addr) (blob : FdtBlob m base) (path propName : CString)
    (fuel : Nat) (answer : Answer), dtbGetProperty fuel m (dtbInit m base .start) path propName = some answer →
      answer.1 ≠ 0#64 → SoundAnswer blob path propName answer := by
  intro sound
  have reaches : Reaches chosenFdtBlob rootPath framebuffer.name [] ⟨[], List.forall_mem_nil _⟩
      [.beginNode chosenName] framebuffer [.endNode, .endNode] := by
    refine ⟨rfl, ⟨fun met => ?_, remaining_eq_nil_iff.mp (by decide)⟩, List.forall_mem_singleton.mpr trivial, rfl⟩
    exact absurd (remaining_eq_nil_iff.mpr met) (by decide)
  obtain ⟨fuel, found⟩ := reaches.found
  have got := (lookup_loop chosenFdtBlob .start rootPath framebuffer.name fuel).trans found
  obtain ⟨root, below, names, leads⟩ := reaches.designates (sound _ _ _ _ _ _ _ got reaches.nonnull)
  have none_ : segments rootPath = [] := by decide
  rw [none_] at leads
  cases leads
  cases names

end AstralOS.Boot
