import FirebirdCore.Clumplet.Writer

/-!
# Searching for a clumplet

A search that fails puts the offset back. The state of the service block is what the walk through the
rest of the block has made of it.
-/
namespace FirebirdCore.Clumplet.ClumpletReader

/-- Whether there is another clumplet with the tag behind the current one. -/
def next (tag : UInt8) (r : ClumpletReader) : Option (Except ClumpletError (Bool × ClumpletReader)) :=
  if r.isEof then some (.ok (false, r))
  else
    match r.getClumpTag with
    | .error e => some (.error e)
    | .ok clumpTag =>
        match if tag = clumpTag then r.moveNext else .ok r with
        | .error e => some (.error e)
        | .ok start => findFrom tag r.curOffset (r.buffer.length + 1) start

/-- The reader is at the clumplet that names the action of a service. -/
structure Names (r : ClumpletReader) (tag : UInt8) : Prop where
  kind : r.kind = .spbStart
  state : r.spbState = 0
  notEof : r.isEof = false
  size : r.getClumpletSize true true true = .ok 1
  named : r.getClumpTag = .ok tag
  ne : tag ≠ 0

/-- The walk from here to the end leaves the state: that of the action that it comes to, and the old
one when it comes to none. -/
def Leaves (r : ClumpletReader) (state : UInt8) : Prop :=
  (∃ r', Visited r r' ∧ r'.Names state) ∨
    state = r.spbState ∧ ∀ r' tag, Visited r r' → ¬ r'.Names tag

variable {r r' start : ClumpletReader} {tag tag' state : UInt8}

/-! ## One step -/

theorem Names.unique (h : r.Names tag) (h' : r.Names tag') : tag = tag' := by
  have htag := h.named
  rw [h'.named] at htag
  cases htag
  rfl

theorem not_names_of_state (h : r.spbState ≠ 0) : ¬ r.Names tag :=
  fun hn => h hn.state

theorem not_names_of_isEof (h : r.isEof = true) : ¬ r.Names tag := by
  intro hn
  rw [hn.notEof] at h
  exact Bool.false_ne_true h

theorem visited_cases (heof : r.isEof = false) (hnext : r.moveNext = .ok r') {last : ClumpletReader} :
    Visited r last ↔ last = r ∨ Visited r' last := by
  constructor
  · intro h
    induction h with
    | start => exact .inl rfl
    | moveNext _ heof' hnext' ih =>
      right
      obtain rfl | ih := ih
      · rw [hnext] at hnext'
        cases hnext'
        exact .start
      · exact .moveNext ih heof' hnext'
  · rintro (rfl | h)
    · exact .start
    · exact (Visited.start.moveNext heof hnext).trans h

theorem visited_of_isEof (heof : r.isEof = true) (h : Visited r r') : r' = r := by
  induction h with
  | start => rfl
  | moveNext _ heof' _ ih =>
    rw [ih, heof] at heof'
    exact absurd heof' (by decide)

/-- A step takes the tag of the action as the state, and keeps the state otherwise. -/
theorem moveNext_state (heof : r.isEof = false) (h : r.moveNext = .ok r') :
    r.Names r'.spbState ∨ r'.spbState = r.spbState ∧ ∀ tag, ¬ r.Names tag := by
  rw [moveNext, if_neg (by simp [heof]), adjustSpbState] at h
  cases hsize : r.getClumpletSize true true true with
  | error e => rw [hsize] at h; cases h
  | ok size =>
    rw [hsize] at h
    simp only [bind, Except.bind, pure, Except.pure] at h
    split at h
    · rename_i adjusted hadjusted
      cases h
    · rename_i adjusted hadjusted
      cases h
      dsimp only
      split at hadjusted
      · rename_i hfirst
        split at hadjusted
        · rename_i hone
          cases htag : r.getClumpTag with
          | error e => rw [htag] at hadjusted; cases hadjusted
          | ok tag =>
            rw [htag] at hadjusted
            cases hadjusted
            by_cases hzero : tag = 0
            · right
              refine ⟨by rw [hzero, hfirst.2], fun tag' hn => hn.ne ?_⟩
              have h := hn.named
              rw [htag, hzero] at h
              cases h
              rfl
            · exact .inl ⟨hfirst.1, hfirst.2, heof, by rw [hsize, hone], htag, hzero⟩
        · rename_i hone
          cases hadjusted
          refine .inr ⟨rfl, fun tag hn => hone ?_⟩
          have h := hn.size
          rw [hsize] at h
          cases h
          rfl
      · rename_i hfirst
        cases hadjusted
        exact .inr ⟨rfl, fun tag hn => hfirst ⟨hn.kind, hn.state⟩⟩

/-! ## The whole walk -/

/-- A service that is named stays. -/
theorem Visited.state_eq (h : Visited start r) (hs : start.spbState ≠ 0) :
    r.spbState = start.spbState := by
  induction h with
  | start => rfl
  | moveNext _ heof hnext ih =>
    obtain hn | ⟨hkeep, -⟩ := moveNext_state heof hnext
    · exact absurd (ih ▸ hn.state) hs
    · rw [hkeep, ih]

theorem Visited.not_names (h : Visited start r) (hs : start.spbState ≠ 0) : ¬ r.Names tag :=
  not_names_of_state (by rwa [h.state_eq hs])

theorem leaves_of_isEof (heof : r.isEof = true) : r.Leaves state ↔ state = r.spbState := by
  constructor
  · rintro (⟨last, h, hn⟩ | ⟨h, -⟩)
    · rw [visited_of_isEof heof h] at hn
      exact absurd hn (not_names_of_isEof heof)
    · exact h
  · intro h
    refine .inr ⟨h, fun last tag hv hn => ?_⟩
    rw [visited_of_isEof heof hv] at hn
    exact not_names_of_isEof heof hn

/-- A step leaves to the walk what is left. -/
theorem leaves_moveNext (heof : r.isEof = false) (hnext : r.moveNext = .ok r') :
    r.Leaves state ↔ r'.Leaves state := by
  unfold Leaves
  simp only [visited_cases heof hnext]
  obtain hn | ⟨hkeep, hnone⟩ := moveNext_state heof hnext
  · have hafter : ∀ last tag, Visited r' last → ¬ last.Names tag :=
      fun last tag hv => hv.not_names hn.ne
    constructor
    · rintro (⟨last, rfl | hv, hl⟩ | ⟨-, hnone⟩)
      · exact .inr ⟨hl.unique hn, hafter⟩
      · exact absurd hl (hafter last state hv)
      · exact absurd hn (hnone r _ (.inl rfl))
    · rintro (⟨last, hv, hl⟩ | ⟨rfl, -⟩)
      · exact absurd hl (hafter last state hv)
      · exact .inl ⟨r, .inl rfl, hn⟩
  · constructor
    · rintro (⟨last, rfl | hv, hl⟩ | ⟨rfl, h⟩)
      · exact absurd hl (hnone state)
      · exact .inl ⟨last, hv, hl⟩
      · exact .inr ⟨hkeep.symm, fun last tag hv => h last tag (.inr hv)⟩
    · rintro (⟨last, hv, hl⟩ | ⟨rfl, h⟩)
      · exact .inl ⟨last, .inr hv, hl⟩
      · refine .inr ⟨hkeep, fun last tag hv => ?_⟩
        obtain rfl | hv := hv
        · exact hnone tag
        · exact h last tag hv

/-- A search that fails has walked to the end. -/
theorem findFrom_false {fuel curOffset : ℕ}
    (h : findFrom tag curOffset fuel r = some (.ok (false, r'))) :
    r'.kind = r.kind ∧ r'.buffer = r.buffer ∧ r'.curOffset = curOffset ∧
      ∀ state, r.Leaves state ↔ state = r'.spbState := by
  induction fuel generalizing r with
  | zero => cases h
  | succ fuel ih =>
    rw [findFrom] at h
    cases heof : r.isEof with
    | true =>
      rw [if_pos heof] at h
      cases h
      exact ⟨rfl, rfl, rfl, fun state => leaves_of_isEof heof⟩
    | false =>
      rw [if_neg (by simp [heof])] at h
      cases htag : r.getClumpTag with
      | error e => rw [htag] at h; cases h
      | ok clumpTag =>
        rw [htag] at h
        dsimp only at h
        split_ifs at h with heq
        · cases h
        · cases hnext : r.moveNext with
          | error e => rw [hnext] at h; cases h
          | ok following =>
            rw [hnext] at h
            obtain ⟨hkind, hbuffer, hoffset, hleaves⟩ := ih h
            obtain ⟨_, _, _, hkind', hbuffer', _⟩ := moveNext_eq heof hnext
            refine ⟨hkind.trans hkind', hbuffer.trans hbuffer', hoffset, fun state => ?_⟩
            rw [leaves_moveNext heof hnext, hleaves]

theorem eq_of_fields (hkind : r'.kind = r.kind) (hbuffer : r'.buffer = r.buffer)
    (hoffset : r'.curOffset = r.curOffset) : r' = r ↔ r.spbState = r'.spbState := by
  constructor
  · rintro rfl
    rfl
  · intro hstate
    cases r
    cases r'
    simp only at hkind hbuffer hoffset hstate
    rw [hkind, hbuffer, hoffset, hstate]

/-- The state that is left is the old one if and only if no action is named on the way. -/
theorem leaves_spbState_iff : r.Leaves r.spbState ↔ ∀ r' tag, Visited r r' → ¬ r'.Names tag := by
  constructor
  · rintro (⟨last, hv, hn⟩ | ⟨-, h⟩)
    · exact absurd hn (hv.not_names hn.ne)
    · exact h
  · intro h
    exact .inr ⟨rfl, h⟩

theorem find_false_iff (h : find tag r = some (.ok (false, r'))) :
    r' = r ↔ r.rewind.Leaves r.spbState := by
  obtain ⟨hkind, hbuffer, hoffset, hleaves⟩ := findFrom_false h
  rw [hleaves]
  exact eq_of_fields hkind hbuffer hoffset

theorem next_false_iff (h : next tag r = some (.ok (false, r'))) :
    r' = r ↔ ∀ last named, Visited r last → ¬ last.Names named := by
  rw [← leaves_spbState_iff]
  rw [next] at h
  cases heof : r.isEof with
  | true =>
    rw [if_pos heof] at h
    cases h
    rw [leaves_of_isEof heof]
    exact iff_of_true rfl rfl
  | false =>
    rw [if_neg (by simp [heof])] at h
    cases htag : r.getClumpTag with
    | error e => rw [htag] at h; cases h
    | ok clumpTag =>
      rw [htag] at h
      dsimp only at h
      split_ifs at h with heq
      · cases hnext : r.moveNext with
        | error e => rw [hnext] at h; cases h
        | ok following =>
          rw [hnext] at h
          obtain ⟨hkind, hbuffer, hoffset, hleaves⟩ := findFrom_false h
          obtain ⟨_, _, _, hkind', hbuffer', _⟩ := moveNext_eq heof hnext
          rw [leaves_moveNext heof hnext, hleaves,
            eq_of_fields (hkind.trans hkind') (hbuffer.trans hbuffer') hoffset]
      · obtain ⟨hkind, hbuffer, hoffset, hleaves⟩ := findFrom_false h
        rw [hleaves, eq_of_fields hkind hbuffer hoffset]

/-- A failed search leaves the reader as it was: `find`, if and only if the reader already had the
state that the walk through the whole block leaves, and `next`, if and only if no action is named from
the current clumplet on. -/
theorem find_next_frame_iff (r : ClumpletReader) (tag : UInt8) :
    (∀ r', find tag r = some (.ok (false, r')) → (r' = r ↔ r.rewind.Leaves r.spbState)) ∧
    ∀ r', next tag r = some (.ok (false, r')) →
      (r' = r ↔ ∀ last named, Visited r last → ¬ last.Names named) :=
  ⟨fun _ => find_false_iff, fun _ => next_false_iff⟩

/-- The start of a service that adds the user `A`. -/
def addUser : ClumpletReader := create .spbStart [iscActionSvcAddUser, iscSpbSecUsername, 1, 0, 65]

/-- A search for a tag that is not there: the clumplet that named the action is no longer one. -/
theorem addUser_find :
    find 99 addUser = some (.ok (false, { addUser with spbState := iscActionSvcAddUser })) ∧
    next 99 addUser = some (.ok (false, { addUser with spbState := iscActionSvcAddUser })) ∧
    addUser.getClumpletSize true true true = .ok 1 ∧
    ({ addUser with spbState := iscActionSvcAddUser }).getClumpletSize true true true ≠ .ok 1 := by
  decide +kernel

theorem find_next_frame_iff_addUser :
    ¬ addUser.rewind.Leaves addUser.spbState ∧
      ¬ ∀ last named, Visited addUser last → ¬ last.Names named := by
  obtain ⟨hf, hn⟩ := find_next_frame_iff addUser 99
  have hfind := hf { addUser with spbState := iscActionSvcAddUser } (by decide +kernel)
  have hnext := hn { addUser with spbState := iscActionSvcAddUser } (by decide +kernel)
  rw [← hfind, ← hnext]
  decide +kernel

end FirebirdCore.Clumplet.ClumpletReader
