import AstralOS.Boot.Lookup

/-! The search of `dtb_find_node` over a tree, and which nodes it finds. -/
namespace AstralOS.Boot
open Foundation AstralOS.Lib

/-- What the search makes of a token. -/
def Token.seek (path : CString) (s : Seek) : Token → Option Seek
  | .beginNode name => Boot.beginNode path name s
  | .endNode => some (Boot.endNode path s)
  | _ => some s

/-- What it makes of some tokens. -/
def seekAll (path : CString) (tokens : List Token) (s : Seek) : Option Seek := tokens.foldlM (Token.seek path) s

/-- Some segments lead to a node, beginning with the name of this one: every segment but the last is the part
of a name before its unit address, the last may also be the whole name. -/
def MatchesAt : List (List Byte) → Node → Prop
  | [], _ => False
  | [segment], n => Fits true segment n.name
  | segment :: next :: rest, n => baseName n.name = segment ∧ ∃ below ∈ n.subnodes, MatchesAt (next :: rest) below

/-- `/s1/.../sk` -/
structure AbsolutePath where
  path : CString
  first : List Byte
  rest : List (List Byte)
  spelled : path.chars = pathChars (first :: rest)
  whole : ∀ segment ∈ first :: rest, 0x2F#8 ∉ segment

section
variable {m : Memory} {base p : Addr} {blob : FdtBlob m base} {path name : CString} {s : Seek} {t : Token}
  {before rest tokens : List Token} {strings : Addr} {sizeStrings : Nat}

theorem findStep_token (lies : t.LiesAt m strings sizeStrings p) (aligned : p.toNat % 4 = 0)
    (fits : p.toNat + t.width < 2 ^ 64) : findStep m path p s = match t.seek path s with
      | some s => .inl (p + BitVec.ofNat 64 t.width, s)
      | none => .inr (p + BitVec.ofNat 64 t.width - 4#64) := by
  cases t with
  | nop =>
      rw [findStep, cell_eq, show be32 m p = fdtNop from lies]
      rfl
  | endNode =>
      rw [findStep, cell_eq, show be32 m p = fdtEndNode from lies]
      rfl
  | beginNode name =>
      obtain ⟨here, held⟩ := lies
      obtain ⟨short, next⟩ := beginNode_next aligned fits
      rw [findStep, cell_eq, here, if_pos rfl, stringAt_eq held short]
      dsimp only
      rw [next, Token.seek]
      cases Boot.beginNode path name s <;> rfl
  | prop q =>
      obtain ⟨here, length, _⟩ := lies
      rw [findStep, cell_eq, here, if_neg (by decide), if_neg (by decide), if_pos rfl, cell_eq, length]
      dsimp only
      rw [prop_next aligned fits]
      rfl

theorem seekAll_cons (t : Token) (rest : List Token) (s : Seek) :
    seekAll path (t :: rest) s = (t.seek path s).bind (seekAll path rest) := rfl

theorem seekAll_append (before rest : List Token) (s : Seek) :
    seekAll path (before ++ rest) s = (seekAll path before s).bind (seekAll path rest) := List.foldlM_append

/-- What is found is after a token, so it is not null. -/
theorem found_nonnull (split : blob.tokens = before ++ t :: rest) :
    structBlock m base + BitVec.ofNat 64 (width before) + BitVec.ofNat 64 t.width - 4#64 ≠ 0#64 := by
  intro null
  have inStep := inStep_of_split split
  set p := structBlock m base + BitVec.ofNat 64 (width before)
  have fits : p.toNat + t.width < 2 ^ 64 := inStep.fits
  have start := blob.structBlock_toNat
  have place : p.toNat = (structBlock m base).toNat + width before := inStep.toNat
  have past := toNat_add_ofNat fits
  have wide := t.width_ge
  have four : (4#64).toNat = 4 := rfl
  refine blob.nonnull (BitVec.eq_of_toNat_eq ?_)
  have zero := congrArg BitVec.toNat null
  rw [BitVec.toNat_sub_of_le (by rw [BitVec.le_def]; omega), past] at zero
  change _ = 0 at zero
  change _ = 0
  omega

/-- The loop over the blob finds a node when the search over its tokens does. -/
theorem findFrom_tokens (split : blob.tokens = before ++ rest) (path : CString) (s : Seek) :
    ∃ answer, findFrom m path (rest.length + 1) (structBlock m base + BitVec.ofNat 64 (width before), s) = some answer ∧
      (answer ≠ 0#64 ↔ seekAll path rest s = none) := by
  induction rest generalizing before s with
  | nil =>
      have ended := (inStep_of_split split).ended
      refine ⟨0#64, ?_, iff_of_false (fun nonnull => nonnull rfl) (Option.some_ne_none _)⟩
      rw [findFrom]
      exact if_pos ended
  | cons t rest ih =>
      have inStep := inStep_of_split split
      have moved := pointer_next (structBlock m base) before t
      have nonnull := found_nonnull split
      set p := structBlock m base + BitVec.ofNat 64 (width before)
      have lies : t.LiesAt m (stringsBlock m base) (headerWord m base 32#64).toNat p := inStep.lies
      have fits : p.toNat + t.width < 2 ^ 64 := inStep.fits
      rw [findFrom, if_neg lies.going, findStep_token lies inStep.aligned fits, seekAll_cons]
      cases next : t.seek path s with
      | none => exact ⟨_, rfl, iff_of_true nonnull rfl⟩
      | some s' =>
          have later := ih (split_next split) s'
          rw [← moved] at later
          exact later

/-- Tokens that do not count are gone past. -/
theorem seekAll_filter (tokens : List Token) (s : Seek) :
    seekAll path tokens s = seekAll path (tokens.filter Token.Counts) s := by
  induction tokens generalizing s with
  | nil => rfl
  | cons t rest ih =>
      cases t with
      | nop => exact ih s
      | endNode => exact ih _
      | prop q => exact ih s
      | beginNode name =>
          rw [seekAll_cons]
          change _ = (Boot.beginNode path name s).bind (seekAll path (rest.filter Token.Counts))
          exact congrArg _ (funext ih)

theorem seekAll_properties (properties : List Property) (s : Seek) :
    seekAll path (properties.map Token.prop) s = some s := by
  induction properties with
  | nil => rfl
  | cons q properties ih => exact ih

theorem seekAll_node (name : CString) (properties : List Property) (subnodes : List Node) (s : Seek) :
    seekAll path (Node.mk name properties subnodes).tokens s = (Boot.beginNode path name s).bind fun s =>
      (seekAll path (subnodes.flatMap Node.tokens) s).map (Boot.endNode path) := by
  rw [Node.tokens, seekAll_cons]
  refine congrArg _ (funext fun s => ?_)
  rw [seekAll_append, seekAll_properties, Option.bind_some, seekAll_append]
  cases seekAll path (subnodes.flatMap Node.tokens) s <;> rfl

theorem seekAll_nodes (n : Node) (nodes : List Node) (s : Seek) :
    seekAll path ((n :: nodes).flatMap Node.tokens) s =
      (seekAll path n.tokens s).bind (seekAll path (nodes.flatMap Node.tokens)) := by
  rw [List.flatMap_cons, seekAll_append]

/-- Some tokens end the search when something holds, and otherwise leave it as it was. -/
def EndsWhen (path : CString) (s : Seek) (tokens : List Token) (here : Prop) : Prop :=
  (here ∧ seekAll path tokens s = none) ∨ (¬ here ∧ seekAll path tokens s = some s)

/-- Nodes one by one, none of which changes the search unless it ends it. -/
theorem seekAll_each {nodes : List Node} {P : Node → Prop} (each : ∀ n ∈ nodes, EndsWhen path s n.tokens (P n)) :
    EndsWhen path s (nodes.flatMap Node.tokens) (∃ n ∈ nodes, P n) := by
  induction nodes with
  | nil => exact .inr ⟨fun ⟨_, member, _⟩ => List.not_mem_nil member, rfl⟩
  | cons n nodes ih =>
      obtain ⟨first, later⟩ := List.forall_mem_cons.mp each
      rw [EndsWhen, seekAll_nodes, List.exists_mem_cons_iff]
      rcases first with ⟨here, found⟩ | ⟨elsewhere, on⟩
      · rw [found]
        exact .inl ⟨.inl here, rfl⟩
      · rw [on, or_iff_right elsewhere]
        exact ih later

theorem seekAll_same {nodes : List Node} (each : ∀ n ∈ nodes, seekAll path n.tokens s = some s) :
    seekAll path (nodes.flatMap Node.tokens) s = some s := by
  induction nodes with
  | nil => rfl
  | cons n nodes ih =>
      obtain ⟨first, later⟩ := List.forall_mem_cons.mp each
      rw [seekAll_nodes, first]
      exact ih later

/-- A node that is not matched is gone past, where nothing in it can be matched. -/
theorem skip_node {name : CString} {properties : List Property} {subnodes : List Node}
    (level : s.pathMatchDepth ≤ s.depth) (skipped : Boot.beginNode path name s = some { s with depth := s.depth + 1 })
    (inside : ∀ n ∈ subnodes, seekAll path n.tokens { s with depth := s.depth + 1 } = some { s with depth := s.depth + 1 }) :
    seekAll path (Node.mk name properties subnodes).tokens s = some s := by
  have back : s.depth + 1 - 1 = s.depth := Int.add_sub_cancel _ _
  rw [seekAll_node, skipped, Option.bind_some, seekAll_same inside, Option.map_some, Boot.endNode]
  dsimp only
  rw [back, if_neg (not_lt.mpr level)]

/-- Deeper than the segments that are matched, nothing is compared. -/
theorem idle_node {n : Node} (named : WellNamed n) (deep : s.pathMatchDepth < s.depth) : seekAll path n.tokens s = some s := by
  induction named generalizing s with
  | mk _ _ _ ih =>
      refine skip_node deep.le ?_ fun n member => ih n member (Int.lt_add_one_of_le deep.le)
      rw [Boot.beginNode, if_neg deep.ne']
      rfl

theorem unmatched_node {n : Node} (named : WellNamed n) (level : s.pathMatchDepth ≤ s.depth)
    (skipped : Boot.beginNode path n.name s = some { s with depth := s.depth + 1 }) : seekAll path n.tokens s = some s := by
  cases named with
  | mk _ _ below => exact skip_node level skipped fun n member => idle_node (below n member) (Int.lt_add_one_of_le level)

end

section
variable {path name : CString} {done rest : List (List Byte)} {segment next : List Byte} {n : Node}

/-- The search compares a segment: those before it have been matched by the open nodes. -/
def active (done : List (List Byte)) (segment : List Byte) (rest : List (List Byte)) : Seek where
  currentPathSegment := (pathChars done).length + 1
  nextSlash := if rest = [] then none else some ((pathChars done).length + 1 + segment.length)
  depth := done.length + 1
  pathMatchDepth := done.length + 1

/-- The search compares the empty segment before the first slash with the names below the root. -/
def stuck : Seek := ⟨0, some 0, 1, 1⟩

/-- The path is spelled by its segments, none of which holds a slash. -/
structure SpelledBy (path : CString) (segments : List (List Byte)) : Prop where
  spelled : path.chars = pathChars segments
  whole : ∀ segment ∈ segments, 0x2F#8 ∉ segment

theorem SpelledBy.drop (spelled : SpelledBy path (done ++ segment :: rest)) :
    path.chars.drop ((pathChars done).length + 1) = segment ++ pathChars rest := by
  have chars : path.chars = pathChars done ++ 0x2F#8 :: (segment ++ pathChars rest) := by
    rw [spelled.spelled, pathChars, List.flatMap_append]
    rfl
  rw [chars, ← List.drop_drop, List.drop_left]
  rfl

theorem indexFrom_append {c : Byte} {chars tail : List Byte} (free : c ∉ chars) :
    indexFrom c (chars ++ tail) = (indexFrom c tail).map (chars.length + ·) := by
  induction chars with
  | nil => simp
  | cons x chars ih =>
      have other := List.ne_of_not_mem_cons free
      rw [List.cons_append, indexFrom, if_neg other.symm, ih (List.not_mem_of_not_mem_cons free), Option.map_map]
      refine congrFun (congrArg _ (funext fun k => ?_)) _
      change chars.length + k + 1 = chars.length + 1 + k
      omega

theorem SpelledBy.slash (spelled : SpelledBy path (done ++ segment :: rest)) :
    slashFrom path ((pathChars done).length + 1) = (active done segment rest).nextSlash := by
  have free := spelled.whole segment (List.mem_append_right _ List.mem_cons_self)
  rw [slashFrom_eq, spelled.drop, indexFrom_append free, active]
  cases rest with
  | nil => rfl
  | cons next rest => rfl

theorem pathChars_concat (done : List (List Byte)) (segment : List Byte) :
    (pathChars (done ++ [segment])).length = (pathChars done).length + 1 + segment.length := by
  rw [pathChars, List.flatMap_append, List.length_append]
  change _ + (segment ++ []).length.succ = _
  rw [List.append_nil]
  change (pathChars done).length + _ = _
  omega

/-- A scan back over a segment stops at the slash before it. -/
theorem scanBack_segment {l k : Nat} (slash : path.bytes l = 0x2F#8) (free : ∀ i < k, path.bytes (l + 1 + i) ≠ 0x2F#8) :
    scanBack path (l + k) = l := by
  induction k with
  | zero =>
      cases l with
      | zero => rfl
      | succ l => exact if_pos slash
  | succ k ih =>
      have other : path.bytes (l + k + 1) ≠ 0x2F#8 := by
        have := free k (Nat.lt_succ_self k)
        rwa [show l + 1 + k = l + k + 1 by omega] at this
      rw [← Nat.add_assoc, scanBack, if_neg other]
      exact ih fun i below => free i (by omega)

theorem bytes_add (path : CString) (k i : Nat) : path.bytes (k + i) = (path.chars.drop k).getD i 0#8 := by
  rw [CString.bytes, List.getD_eq_getElem?_getD, List.getD_eq_getElem?_getD, List.getElem?_drop]

theorem SpelledBy.scanBack (spelled : SpelledBy path (done ++ segment :: rest)) :
    Boot.scanBack path ((pathChars done).length + segment.length) = (pathChars done).length := by
  have free := spelled.whole segment (List.mem_append_right _ List.mem_cons_self)
  refine scanBack_segment ?_ fun i below slash => ?_
  · have chars : path.chars = pathChars done ++ 0x2F#8 :: (segment ++ pathChars rest) := by
      rw [spelled.spelled, pathChars, List.flatMap_append]
      rfl
    rw [CString.bytes, chars, List.getD_append_right _ _ _ _ le_rfl, Nat.sub_self]
    rfl
  · rw [bytes_add, spelled.drop, List.getD_append _ _ _ _ below, List.getD_eq_getElem _ _ below] at slash
    exact free (slash ▸ List.getElem_mem below)

/-- Leaving a node that was matched takes the search back to its segment, but for the first to the path's start. -/
theorem SpelledBy.leave (spelled : SpelledBy path (done ++ segment :: next :: rest)) :
    endNode path (active (done ++ [segment]) next rest) = if done = [] then stuck else active done segment (next :: rest) := by
  have back : (active (done ++ [segment]) next rest).depth - 1 = done.length + 1 := by
    rw [active, List.length_append]
    change ((done.length + 1 : Nat) : Int) + 1 - 1 = _
    omega
  have left : (done.length : Int) + 1 < (active (done ++ [segment]) next rest).pathMatchDepth := by
    rw [active, List.length_append]
    change _ < ((done.length + 1 : Nat) : Int) + 1
    omega
  have place : (active (done ++ [segment]) next rest).currentPathSegment - 2 = (pathChars done).length + segment.length := by
    rw [active, pathChars_concat]
    change (pathChars done).length + 1 + segment.length + 1 - 2 = _
    omega
  have start : (active (done ++ [segment]) next rest).currentPathSegment ≠ 0 := Nat.succ_ne_zero _
  rw [endNode]
  dsimp only
  rw [back, if_pos left, if_pos start, place, spelled.scanBack]
  by_cases none_ : done = []
  · subst none_
    have slash : slashFrom path 0 = some 0 := slashFrom_start (by rw [CString.bytes, spelled.spelled]; rfl)
    rw [if_pos rfl]
    change Seek.mk 0 (slashFrom path 0) 1 1 = stuck
    rw [slash, stuck]
  · have some_ : (pathChars done).length ≠ 0 := by
      cases done with
      | nil => exact absurd rfl none_
      | cons first done => exact Nat.succ_ne_zero _
    rw [if_neg none_, if_neg some_, spelled.slash]
    rfl

theorem SpelledBy.begin_last (spelled : SpelledBy path (done ++ [segment])) (name : CString) :
    beginNode path name (active done segment []) =
      if Takes (true, segment) name then none else some { active done segment [] with depth := done.length + 1 + 1 } := by
  have chars : (path.drop ((pathChars done).length + 1)).chars = segment := spelled.drop.trans (List.append_nil segment)
  have takes := whole_takes name (path.drop ((pathChars done).length + 1))
  rw [chars] at takes
  have level : (active done segment []).depth = (active done segment []).pathMatchDepth := rfl
  have last : (active done segment []).nextSlash = none := rfl
  rw [beginNode, if_pos level, last]
  by_cases fits : Takes (true, segment) name
  · rw [if_pos fits]
    exact congrArg _ (if_pos (takes.mpr fits))
  · rw [if_neg fits]
    exact congrArg _ (if_neg fun code => fits (takes.mp code))

theorem SpelledBy.concat (spelled : SpelledBy path (done ++ segment :: rest)) :
    SpelledBy path ((done ++ [segment]) ++ rest) := by
  rw [List.append_assoc]
  exact spelled

theorem SpelledBy.begin_inner (spelled : SpelledBy path (done ++ segment :: next :: rest)) (name : CString) :
    beginNode path name (active done segment (next :: rest)) =
      if baseName name = segment then some (active (done ++ [segment]) next rest)
      else some { active done segment (next :: rest) with depth := done.length + 1 + 1 } := by
  have chars := spelled.drop
  have inside : segment.length ≤ (path.chars.drop ((pathChars done).length + 1)).length := by
    rw [chars, List.length_append]
    exact Nat.le_add_right _ _
  have first : (path.chars.drop ((pathChars done).length + 1)).take segment.length = segment := by
    rw [chars, List.take_left]
  have takes : (strncmp name (path.drop ((pathChars done).length + 1)) segment.length = 0 ∧
      segment.length = (strchr name 0x40#8).getD (strlen name)) ↔ _ :=
    nameLen_eq name ▸ segment_takes name inside (drop_nonzero path _)
  rw [first] at takes
  have level : (active done segment (next :: rest)).depth = (active done segment (next :: rest)).pathMatchDepth := rfl
  have slash : (active done segment (next :: rest)).nextSlash = some ((pathChars done).length + 1 + segment.length) := rfl
  have start : (active done segment (next :: rest)).currentPathSegment = (pathChars done).length + 1 := rfl
  rw [beginNode, if_pos level, slash]
  dsimp only
  rw [start, Nat.add_sub_cancel_left]
  by_cases fits : baseName name = segment
  · have deeper : ((done ++ [segment]).length : Int) = done.length + 1 := by
      rw [List.length_append]
      rfl
    have later := spelled.concat.slash
    rw [pathChars_concat] at later
    rw [if_pos fits, if_pos (takes.mpr fits), Option.map_some, later, active, pathChars_concat, deeper]
    rfl
  · rw [if_neg fits]
    exact congrArg _ (if_neg fun code => fits (takes.mp code))

theorem takes_iff_fits (segment : List Byte) (name : CString) : Takes (true, segment) name ↔ Fits true segment name := by
  rw [Takes, Fits, or_comm, and_iff_right rfl, and_iff_right rfl]

theorem WellNamed.subnodes (named : WellNamed n) : ∀ below ∈ n.subnodes, WellNamed below := by
  cases named with
  | mk _ _ below => exact below

/-- A node that has an inner segment is searched for the next one, and left again. -/
theorem SpelledBy.enter (spelled : SpelledBy path (done ++ segment :: next :: rest)) (fits : baseName n.name = segment) :
    seekAll path n.tokens (active done segment (next :: rest)) =
      (seekAll path (n.subnodes.flatMap Node.tokens) (active (done ++ [segment]) next rest)).map (endNode path) := by
  have compared := spelled.begin_inner n.name
  rw [if_pos fits] at compared
  cases n with
  | mk name properties subnodes =>
      rw [seekAll_node, show beginNode path name _ = _ from compared]
      rfl

/-- A node that does not have it is gone past. -/
theorem SpelledBy.pass (spelled : SpelledBy path (done ++ segment :: next :: rest)) (other : baseName n.name ≠ segment)
    (named : WellNamed n) :
    seekAll path n.tokens (active done segment (next :: rest)) = some (active done segment (next :: rest)) := by
  have compared := spelled.begin_inner n.name
  rw [if_neg other] at compared
  exact unmatched_node named le_rfl compared

/-- Below the first level a node ends the search or leaves it as it was. -/
theorem seek_node (spelled : SpelledBy path (done ++ segment :: rest)) (deep : done ≠ [] ∨ rest = []) {n : Node}
    (named : WellNamed n) : EndsWhen path (active done segment rest) n.tokens (MatchesAt (segment :: rest) n) := by
  induction rest generalizing done segment n with
  | nil =>
      have compared := spelled.begin_last n.name
      by_cases fits : Takes (true, segment) n.name
      · rw [if_pos fits] at compared
        refine .inl ⟨(takes_iff_fits _ _).mp fits, ?_⟩
        cases n with
        | mk name properties subnodes =>
            rw [seekAll_node, show beginNode path name _ = none from compared]
            rfl
      · rw [if_neg fits] at compared
        exact .inr ⟨fun here => fits ((takes_iff_fits _ _).mpr here), unmatched_node named le_rfl compared⟩
  | cons next rest ih =>
      by_cases fits : baseName n.name = segment
      · have inside := seekAll_each fun below member =>
          ih spelled.concat (.inl (List.append_ne_nil_of_right_ne_nil done (List.cons_ne_nil segment []))) (named.subnodes below member)
        have back := spelled.leave
        rw [if_neg (deep.resolve_right (List.cons_ne_nil _ _))] at back
        rw [EndsWhen, spelled.enter fits]
        rcases inside with ⟨leads, found⟩ | ⟨nowhere, on⟩
        · rw [found]
          exact .inl ⟨⟨fits, leads⟩, rfl⟩
        · rw [on, Option.map_some, back]
          exact .inr ⟨fun both => nowhere both.2, rfl⟩
      · exact .inr ⟨fun both => fits both.1, spelled.pass fits named⟩

/-- Once the first segment is lost nothing below the root is found. -/
theorem stuck_node {n : Node} (named : WellNamed n) : seekAll path n.tokens stuck = some stuck := by
  refine unmatched_node named le_rfl ?_
  have level : stuck.depth = stuck.pathMatchDepth := rfl
  have slash : stuck.nextSlash = some 0 := rfl
  have longer : ¬ 0 - stuck.currentPathSegment = (baseName n.name).length := fun zero =>
    named.named (List.eq_nil_of_length_eq_zero zero.symm)
  rw [beginNode, if_pos level, slash, nameLen_eq]
  exact congrArg _ (if_neg fun both => longer both.2)

/-- The first node that has the first segment decides. -/
theorem seek_below_root (spelled : SpelledBy path (segment :: next :: rest)) {nodes : List Node}
    (named : ∀ n ∈ nodes, WellNamed n) :
    seekAll path (nodes.flatMap Node.tokens) (active [] segment (next :: rest)) = none ↔
      ∃ n, nodes.find? (baseName ·.name = segment) = some n ∧ ∃ below ∈ n.subnodes, MatchesAt (next :: rest) below := by
  induction nodes with
  | nil => exact iff_of_false (Option.some_ne_none _) fun ⟨_, none_, _⟩ => Option.some_ne_none _ none_.symm
  | cons n nodes ih =>
      obtain ⟨first, later⟩ := List.forall_mem_cons.mp named
      have spelled0 : SpelledBy path ([] ++ segment :: next :: rest) := spelled
      rw [seekAll_nodes]
      by_cases fits : baseName n.name = segment
      · have head : (n :: nodes).find? (baseName ·.name = segment) = some n := List.find?_cons_of_pos (decide_eq_true fits)
        have inside := seekAll_each fun below member =>
          seek_node spelled0.concat (.inl (List.cons_ne_nil segment [])) (first.subnodes below member)
        have back := spelled0.leave
        rw [if_pos rfl] at back
        rw [head, spelled0.enter fits]
        rcases inside with ⟨leads, found⟩ | ⟨nowhere, on⟩
        · rw [found]
          exact iff_of_true rfl ⟨_, rfl, leads⟩
        · rw [on, Option.map_some, back, Option.bind_some, seekAll_same fun n member => stuck_node (later n member)]
          refine iff_of_false (Option.some_ne_none _) ?_
          rintro ⟨_, ⟨⟩, leads⟩
          exact nowhere leads
      · have tail : (n :: nodes).find? (baseName ·.name = segment) = nodes.find? (baseName ·.name = segment) :=
          List.find?_cons_of_neg fun yes => fits (of_decide_eq_true yes)
        rw [tail, spelled0.pass fits first]
        exact ih later

/-- The search over the whole tree. -/
theorem seek_root {properties : List Property} {nodes : List Node} (spelled : SpelledBy path (segment :: rest)) :
    seekAll path (Node.mk ⟨[], List.forall_mem_nil _⟩ properties nodes).tokens (startSeek path) = none ↔
      seekAll path (nodes.flatMap Node.tokens) (active [] segment rest) = none := by
  have spelled0 : SpelledBy path ([] ++ segment :: rest) := spelled
  have slash : slashFrom path 0 = some 0 := slashFrom_start (by rw [CString.bytes, spelled.spelled]; rfl)
  have begun : beginNode path ⟨[], List.forall_mem_nil _⟩ (startSeek path) = some (active [] segment rest) := by
    have level : (startSeek path).depth = (startSeek path).pathMatchDepth := rfl
    have first : (startSeek path).nextSlash = some 0 := slash
    have later : slashFrom path (0 + 1) = (active [] segment rest).nextSlash := spelled0.slash
    rw [beginNode, if_pos level, first]
    refine (congrArg _ (if_pos ⟨rfl, rfl⟩)).trans ?_
    rw [Option.map_some, later]
    rfl
  rw [seekAll_node, begun, Option.bind_some]
  cases seekAll path (nodes.flatMap Node.tokens) (active [] segment rest) with
  | none => exact iff_of_true rfl rfl
  | some s => exact iff_of_false (Option.some_ne_none _) (Option.some_ne_none s)

theorem AbsolutePath.spelledBy (p : AbsolutePath) : SpelledBy p.path (p.first :: p.rest) := ⟨p.spelled, p.whole⟩

/-- Whether the search over the tree finds a node. -/
theorem seek_tree {root : Node} (p : AbsolutePath) (rootName : root.name = ⟨[], List.forall_mem_nil _⟩)
    (named : ∀ n ∈ root.subnodes, WellNamed n) :
    seekAll p.path root.tokens (startSeek p.path) = none ↔
      (p.rest = [] ∧ ∃ n ∈ root.subnodes, MatchesAt (p.first :: p.rest) n) ∨ (p.rest ≠ [] ∧
        ∃ n, root.subnodes.find? (baseName ·.name = p.first) = some n ∧ ∃ below ∈ n.subnodes, MatchesAt p.rest below) := by
  have spelled := p.spelledBy
  obtain ⟨name, properties, nodes⟩ := root
  obtain rfl : name = _ := rootName
  have named : ∀ n ∈ nodes, WellNamed n := named
  rw [seek_root spelled, Node.subnodes]
  cases rest : p.rest with
  | nil =>
      rw [rest] at spelled
      have spelled0 : SpelledBy p.path ([] ++ p.first :: []) := spelled
      rw [and_iff_right rfl, or_iff_left fun both => both.1 rfl]
      rcases seekAll_each fun n member => seek_node spelled0 (.inr rfl) (named n member) with ⟨leads, found⟩ | ⟨nowhere, on⟩
      · exact iff_of_true found leads
      · exact iff_of_false (fun none_ => Option.some_ne_none _ (on.symm.trans none_)) nowhere
  | cons next rest' =>
      rw [rest] at spelled
      rw [seek_below_root spelled named, or_iff_right fun both => List.cons_ne_nil _ _ both.1,
        and_iff_right (List.cons_ne_nil _ _)]

/-- What is found in the first node that has the first segment does match. -/
theorem matches_of_first {nodes : List Node} (found : nodes.find? (baseName ·.name = segment) = some n)
    (leads : ∃ below ∈ n.subnodes, MatchesAt rest below) : ∃ n ∈ nodes, MatchesAt (segment :: rest) n := by
  refine ⟨n, List.mem_of_find?_eq_some found, ?_⟩
  cases rest with
  | nil => exact leads.elim fun _ both => both.2.elim
  | cons next rest => exact ⟨of_decide_eq_true (List.find?_some found :), leads⟩

theorem findFrom_eq_turns {m : Memory} (fuel : Nat) (at_ : Addr × Seek) : findFrom m path fuel at_ =
    turns (fun at_ => if cell m at_.1 = fdtEnd then .inr 0#64 else findStep m path at_.1 at_.2) fuel at_ := by
  induction fuel generalizing at_ with
  | zero => rfl
  | succ fuel ih =>
      obtain ⟨p, s⟩ := at_
      rw [findFrom, turns]
      dsimp only
      split_ifs
      · rfl
      · cases findStep m path p s with
        | inl next => exact ih next
        | inr found => rfl

theorem dtbFindNode_unique {m : Memory} {g : Globals} {fuel fuel' : Nat} {answer answer' : Addr}
    (found : dtbFindNode fuel m g path = some answer) (found' : dtbFindNode fuel' m g path = some answer') :
    answer = answer' := by
  rw [dtbFindNode] at found found'
  by_cases unset : g.dtbBaseAddress = 0#64
  · rw [if_pos unset] at found found'
    exact Option.some.inj (found.symm.trans found')
  · rw [if_neg unset, findFrom_eq_turns] at found found'
    exact turns_unique found found'

/-- The search comes to an end, with a node when the search over the tree finds one. -/
theorem dtbFindNode_tree {m : Memory} {base : Addr} (blob : FdtBlob m base) (g : Globals) (path : CString) :
    ∃ fuel answer, dtbFindNode fuel m (dtbInit m base g) path = some answer ∧
      (answer ≠ 0#64 ↔ seekAll path blob.root.tokens (startSeek path) = none) := by
  obtain ⟨answer, found, null⟩ := findFrom_tokens (show blob.tokens = [] ++ blob.tokens from rfl) path (startSeek path)
  rw [seekAll_filter, blob.encoded] at null
  refine ⟨blob.tokens.length + 1, answer, ?_, null⟩
  rw [dtbInit_blob blob, dtbFindNode, if_neg blob.nonnull, ← found]
  refine congrArg (fun p => findFrom m path _ (p, startSeek path)) ?_
  rw [cell_eq]
  exact (BitVec.add_zero _).symm

/-- A node whose path matches is found, and otherwise none. -/
def FindsRight {m : Memory} {base : Addr} (blob : FdtBlob m base) (g : Globals) (p : AbsolutePath) : Prop :=
  ∃ fuel answer, dtbFindNode fuel m (dtbInit m base g) p.path = some answer ∧
    (answer ≠ 0#64 ↔ ∃ n ∈ blob.root.subnodes, MatchesAt (p.first :: p.rest) n)

/-- A node is found as it should be unless it is below the second or a later node with the first segment. -/
theorem find_node_iff {m : Memory} {base : Addr} (blob : FdtBlob m base) (g : Globals) (p : AbsolutePath) :
    FindsRight blob g p ↔ p.rest = [] ∨ (¬ ∃ n ∈ blob.root.subnodes, MatchesAt (p.first :: p.rest) n) ∨
      ∃ n, blob.root.subnodes.find? (baseName ·.name = p.first) = some n ∧
        ∃ below ∈ n.subnodes, MatchesAt p.rest below := by
  obtain ⟨fuel, answer, found, null⟩ := dtbFindNode_tree blob g p.path
  have rightWhen : FindsRight blob g p ↔ (answer ≠ 0#64 ↔ ∃ n ∈ blob.root.subnodes, MatchesAt (p.first :: p.rest) n) := by
    constructor
    · rintro ⟨fuel', answer', found', right⟩
      rwa [dtbFindNode_unique found found']
    · exact fun right => ⟨fuel, answer, found, right⟩
  rw [rightWhen, null, seek_tree p blob.rootName blob.wellNamed]
  by_cases one : p.rest = []
  · rw [and_iff_right one, or_iff_left fun both => both.1 one]
    exact iff_of_true Iff.rfl (.inl one)
  · rw [and_iff_right one, or_iff_right fun both => one both.1, or_iff_right one]
    constructor
    · intro right
      exact (em _).symm.imp_right right.mpr
    · rintro (nowhere | ⟨n, found, leads⟩)
      · refine iff_of_false ?_ nowhere
        rintro ⟨n, found, leads⟩
        exact nowhere (matches_of_first found leads)
      · exact iff_of_true ⟨n, found, leads⟩ (matches_of_first found leads)

end

/-! A blob with two nodes of one base name, `/ { a@0 { }; a@1 { b { } } }`. -/

def twinWords : List (BitVec 32) :=
  [0xd00dfeed#32, 108#32, 56#32, 108#32, 40#32, 17#32, 16#32, 0#32, 0#32, 52#32,
    0#32, 0#32, 0#32, 0#32,
    1#32, 0#32, 1#32, 0x61403000#32, 2#32, 1#32, 0x61403100#32, 1#32, 0x62000000#32,
    2#32, 2#32, 2#32, 9#32]

def firstTwin : CString := ⟨[0x61#8, 0x40#8, 0x30#8], by decide⟩
def secondTwin : CString := ⟨[0x61#8, 0x40#8, 0x31#8], by decide⟩

theorem childName_nonzero : ∀ c ∈ [0x62#8], c ≠ 0#8 := by decide
theorem rootName_nonzero : ∀ c ∈ ([] : List Byte), c ≠ 0#8 := List.forall_mem_nil _

def childName : CString := ⟨[0x62#8], childName_nonzero⟩
def twinChild : Node := .mk childName [] []

/-- The root node. -/
def twinTree : Node := .mk ⟨[], rootName_nonzero⟩ [] [.mk firstTwin [] [], .mk secondTwin [] [twinChild]]

theorem twinTree_wellNamed : ∀ n ∈ twinTree.subnodes, WellNamed n :=
  List.forall_mem_cons.mpr ⟨.mk (by decide) (by decide) (List.forall_mem_nil _),
    List.forall_mem_singleton.mpr (.mk (by decide) (by decide)
      (List.forall_mem_singleton.mpr (.mk (by decide) (by decide) (List.forall_mem_nil _))))⟩

def twinTokens : List Token :=
  [.beginNode ⟨[], rootName_nonzero⟩, .beginNode firstTwin, .endNode, .beginNode secondTwin,
    .beginNode childName, .endNode, .endNode, .endNode]

theorem twinTokens_encoded : twinTokens.filter Token.Counts = twinTree.tokens := by
  simp [twinTokens, twinTree, twinChild, Node.tokens, Token.Counts]

def twinBlob : FdtBlob (wordsMemory chosenBase twinWords) chosenBase where
  root := twinTree
  tokens := twinTokens
  rootName := rfl
  wellNamed := twinTree_wellNamed
  encoded := twinTokens_encoded
  nonnull := chosenBase_nonnull
  aligned := chosenBase_aligned
  magic := by decide +kernel
  header := by decide +kernel
  whole := by decide +kernel
  structAligned := by decide +kernel
  structSize := by decide +kernel
  structInside := by decide +kernel
  stringsInside := by decide +kernel
  laid := by decide +kernel
  namesInside := by decide +kernel

/-- `/a/b` -/
def twinPath : AbsolutePath where
  path := ⟨[0x2F#8, 0x61#8, 0x2F#8, 0x62#8], by decide⟩
  first := [0x61#8]
  rest := [[0x62#8]]
  spelled := rfl
  whole := by decide

/-- The node below the second of the two is not found. -/
theorem second_twin_missed : ¬ ∀ (m : Memory) (base : Addr) (blob : FdtBlob m base) (p : AbsolutePath),
    FindsRight blob .start p := by
  intro right
  obtain ⟨fuel, answer, found, found_iff⟩ := right _ _ twinBlob twinPath
  have null : dtbFindNode 9 (wordsMemory chosenBase twinWords) (dtbInit (wordsMemory chosenBase twinWords) chosenBase .start)
      twinPath.path = some 0#64 := by
    decide +kernel
  obtain rfl := dtbFindNode_unique found null
  refine found_iff.mpr ⟨.mk secondTwin [] [twinChild], List.mem_cons_of_mem _ List.mem_cons_self, ?_⟩ rfl
  exact ⟨rfl, twinChild, List.mem_cons_self, .inl rfl⟩

end AstralOS.Boot
