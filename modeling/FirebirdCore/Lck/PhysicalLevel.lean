import FirebirdCore.Lck.Identical

/-!
# The level that identical locks share

The request of the identical locks should block what any of them has to block and nothing else, and name
one of them for the blocking AST. The steps of `lck.cpp` see to that by the number of a level; this is
right except where a protected read meets a shared write, which block each other, and where the lock
that goes is the first in the list or the one that the request names.
-/
namespace FirebirdCore.Lck
open Lock Run Path

/-! ## What a level blocks -/

def Blocks (level other : Level) : Prop := compatibility level other = false

instance (level other : Level) : Decidable (Blocks level other) :=
  inferInstanceAs (Decidable (_ = _))

/-- `level` blocks nothing that `than` does not block. -/
def Weaker (level than : Level) : Prop := ∀ other, Blocks level other → Blocks than other

instance (level than : Level) : Decidable (Weaker level than) :=
  inferInstanceAs (Decidable (∀ other, Blocks level other → Blocks than other))

/-- Whatever `level` blocks is blocked by one of the levels. -/
def Needed (level : Level) (levels : List Level) : Prop :=
  ∀ other, Blocks level other → ∃ one ∈ levels, Blocks one other

instance (level : Level) (levels : List Level) : Decidable (Needed level levels) :=
  inferInstanceAs (Decidable (∀ other, Blocks level other → ∃ one ∈ levels, Blocks one other))

/-- The number of a level tells what it blocks, but for a protected read and a shared write. -/
theorem weaker_of_le : ∀ {a b : Level}, a ≤ b → ¬ (a = .PR ∧ b = .SW) → Weaker a b := by
  decide

theorem Weaker.le : ∀ {a b : Level}, Weaker a b → b ≠ .none → a ≤ b := by
  decide

theorem Weaker.sharedWrite : ∀ {a : Level}, Weaker a .PR → a ≠ .PR → Weaker a .SW := by
  decide

theorem Weaker.trans {a b c : Level} (h : Weaker a b) (h' : Weaker b c) : Weaker a c :=
  fun other hother => h' other (h other hother)

theorem Weaker.refl (a : Level) : Weaker a a := fun _ h => h

theorem needed_self {level : Level} {levels : List Level} (h : level ∈ levels) :
    Needed level levels :=
  fun _ hother => ⟨level, h, hother⟩

theorem not_blocks_none : ∀ other : Level, ¬ Blocks .none other := by
  decide

variable {logical : ℕ → Level} {locks : List ℕ}

theorem highest_cons (logical : ℕ → Level) (level : Level) (locks : List ℕ) :
    level ≤ locks.foldl (fun level lock => max level (logical lock)) level ∧
      (∀ lock ∈ locks, logical lock ≤ locks.foldl (fun level lock => max level (logical lock)) level) ∧
      (locks.foldl (fun level lock => max level (logical lock)) level = level ∨
        ∃ lock ∈ locks, locks.foldl (fun level lock => max level (logical lock)) level = logical lock) := by
  induction locks generalizing level with
  | nil => exact ⟨le_rfl, by simp, .inl rfl⟩
  | cons lock locks ih =>
    obtain ⟨hle, hall, hmem⟩ := ih (max level (logical lock))
    rw [List.foldl_cons]
    refine ⟨(le_max_left ..).trans hle, fun other hother => ?_, ?_⟩
    · rcases List.mem_cons.1 hother with rfl | hother
      · exact (le_max_right ..).trans hle
      · exact hall other hother
    · rcases hmem with heq | ⟨other, hother, heq⟩
      · rcases max_choice level (logical lock) with hmax | hmax
        · exact .inl (heq.trans hmax)
        · exact .inr ⟨lock, List.mem_cons_self, heq.trans hmax⟩
      · exact .inr ⟨other, List.mem_cons_of_mem _ hother, heq⟩

theorem le_highest {lock : ℕ} (h : lock ∈ locks) : logical lock ≤ highest logical locks :=
  (highest_cons logical .none locks).2.1 lock h

/-- The highest level is needed. -/
theorem needed_highest : Needed (highest logical locks) (locks.map logical) := by
  rcases (highest_cons logical .none locks).2.2 with heq | ⟨lock, hmem, heq⟩
  · intro other hother
    rw [highest, heq] at hother
    exact absurd hother (not_blocks_none other)
  · exact needed_self (List.mem_map.2 ⟨lock, hmem, heq.symm⟩)

/-! ## The request and the locks -/

variable {count : ℕ} {settings : ℕ → Settings} {deliver : Delivery} {s : Locks} {r : Request}

/-- The request blocks what the locks have to block and no more, and its AST argument is one of them. -/
structure Fits (s : Locks) (locks : List ℕ) (r : Request) : Prop where
  blocks : ∀ lock ∈ locks, Weaker (s.logical lock) r.level
  needed : Needed r.level (locks.map s.logical)
  argument : r.astArgument ∈ locks
  held : ∀ lock ∈ locks, s.physical lock = r.level ∧ s.id lock = r.id

/-- There is no lock, or a request that fits the locks there are. -/
def Sound (count : ℕ) (s : Locks) : Prop :=
  s.all count = [] ∨ ∃ r, s.request = some r ∧ Fits s (s.all count) r

structure Ok (count : ℕ) (s : Locks) (locks : List ℕ) : Prop where
  path : IsSeg s.identical s.first locks none
  nodup : locks.Nodup
  bound : ∀ lock ∈ locks, lock < count
  fits : locks = [] ∨ ∃ r, s.request = some r ∧ r.id ≠ 0 ∧ Fits s locks r

theorem length_le_of_bound (hnodup : locks.Nodup) (hbound : ∀ lock ∈ locks, lock < count) :
    locks.length ≤ count := by
  have hsub : locks ⊆ List.range count := fun lock h => List.mem_range.2 (hbound lock h)
  simpa using (hnodup.subperm hsub).length_le

theorem Ok.all_eq (h : Ok count s locks) : s.all count = locks :=
  h.path.walk_eq (length_le_of_bound h.nodup h.bound)

theorem Ok.sound (h : Ok count s locks) : Sound count s := by
  rw [Sound, h.all_eq]
  rcases h.fits with hnil | ⟨r, hr, -, hfits⟩
  · exact .inl hnil
  · exact .inr ⟨r, hr, hfits⟩

/-- The level of the request. -/
def Locks.held (s : Locks) : Level :=
  match s.request with
  | none => .none
  | some r => r.level

theorem held_eq (h : s.request = some r) : s.held = r.level := by
  rw [Locks.held, h]

/-! ## The conditions -/

/-- An operation on identical, internally compatible locks: a conversion is one of a lock that is there,
an enqueuing one of a lock that is not, no blocking AST is due among the locks, and the lock manager
grants what blocks less than before. -/
def Proper (count : ℕ) (settings : ℕ → Settings) (s : Locks) : Op → Prop
  | .enqueue lock _ convertFlg _ =>
      lock < count ∧ (convertFlg = true ↔ lock ∈ s.all count) ∧
        ∀ first ∈ s.first, blocking count settings s first = []
  | .downgrade lock answer =>
      lock ∈ s.all count ∧
        (Weaker (highest s.logical (walk s.identical count (some lock))) s.held → answer ≠ 0)
  | .dequeue lock answer =>
      lock ∈ s.all count ∧
        (Weaker (highest s.logical ((s.all count).erase lock)) s.held → answer ≠ 0)

/-- A shared write is the highest level of the locks and hides a protected read. -/
def HidesRead (logical : ℕ → Level) (locks : List ℕ) : Prop :=
  highest logical locks = .SW ∧ ∃ lock ∈ locks, logical lock = .PR

/-- A lock that is the first to be enqueued is not linked with another, and one that joins raises the
level or leaves it where it is needed. -/
def KeepsEnqueue (count : ℕ) (settings : ℕ → Settings) (deliver : Delivery) (s : Locks) (lock : ℕ)
    (level : Level) (answer : ℕ) : Option ℕ → Prop
  | none => answer ≠ 0 → s.identical lock = none
  | some first =>
      (internalCompatible count settings deliver s first lock level).2 = true →
        if s.held < level then
          answer ≠ 0 → ¬ (s.held = .PR ∧ level = .SW ∧
            ∃ other ∈ (s.all count).erase lock, s.logical other = .PR)
        else
          ¬ (s.held = .SW ∧ level = .PR) ∧
            Needed s.held (level :: ((s.all count).erase lock).map s.logical)

/-- The steps after which the request still fits. -/
def Keeps (count : ℕ) (settings : ℕ → Settings) (deliver : Delivery) (s : Locks) : Op → Prop
  | .enqueue lock level _ answer => KeepsEnqueue count settings deliver s lock level answer s.first
  | .downgrade lock _ =>
      let locks := walk s.identical count (some lock)
      highest s.logical locks < s.held → s.first = some lock ∧ ¬ HidesRead s.logical locks
  | .dequeue lock _ =>
      let others := (s.all count).erase lock
      others = [] ∨
        if s.first = some lock then
          s.held ≤ highest s.logical (s.all count) ∧ s.request.map (·.astArgument) ≠ some lock ∧
            Needed s.held (others.map s.logical)
        else if highest s.logical others < s.held then ¬ HidesRead s.logical others
        else s.request.map (·.astArgument) ≠ some lock

instance : (op : Op) → Decidable (Proper count settings s op)
  | .enqueue lock _ convertFlg _ => inferInstanceAs (Decidable (lock < count ∧
      (convertFlg = true ↔ lock ∈ s.all count) ∧ ∀ first ∈ s.first, blocking count settings s first = []))
  | .downgrade lock answer => inferInstanceAs (Decidable (lock ∈ s.all count ∧
      (Weaker (highest s.logical (walk s.identical count (some lock))) s.held → answer ≠ 0)))
  | .dequeue lock answer => inferInstanceAs (Decidable (lock ∈ s.all count ∧
      (Weaker (highest s.logical ((s.all count).erase lock)) s.held → answer ≠ 0)))

instance (logical : ℕ → Level) (locks : List ℕ) : Decidable (HidesRead logical locks) :=
  inferInstanceAs (Decidable (_ ∧ _))

instance (lock : ℕ) (level : Level) (answer : ℕ) :
    (first : Option ℕ) → Decidable (KeepsEnqueue count settings deliver s lock level answer first)
  | none => inferInstanceAs (Decidable (_ → _))
  | some first => by
    unfold KeepsEnqueue
    infer_instance

instance : (op : Op) → Decidable (Keeps count settings deliver s op)
  | .enqueue .. => by
    unfold Keeps
    infer_instance
  | .downgrade .. => by
    unfold Keeps
    infer_instance
  | .dequeue .. => by
    unfold Keeps
    infer_instance

/-! ## The steps -/

variable {first lock level answer : ℕ} {rest : List ℕ}

theorem Fits.congr {t : Locks} (h : Fits s locks r) (hlogical : ∀ lock ∈ locks, t.logical lock = s.logical lock)
    (hphysical : ∀ lock ∈ locks, t.physical lock = s.physical lock)
    (hid : ∀ lock ∈ locks, t.id lock = s.id lock) : Fits t locks r := by
  refine ⟨fun lock hlock => hlogical lock hlock ▸ h.blocks lock hlock, ?_, h.argument,
    fun lock hlock => ⟨?_, ?_⟩⟩
  · rw [List.map_congr_left hlogical]
    exact h.needed
  · rw [hphysical lock hlock]
    exact (h.held lock hlock).1
  · rw [hid lock hlock]
    exact (h.held lock hlock).2

/-- The first of all locks takes the highest of their levels if it is lower. -/
theorem Ok.downgrade {locks : List ℕ} (hpath : IsSeg s.identical (some first) locks none)
    (hfirst : s.first = some first) (hnodup : locks.Nodup) (hbound : ∀ lock ∈ locks, lock < count)
    (hrequest : s.request = some r) (hid : r.id ≠ 0)
    (hblocks : ∀ lock ∈ locks, Weaker (s.logical lock) r.level)
    (hheld : ∀ lock ∈ locks, s.physical lock = r.level ∧ s.id lock = r.id)
    (hgranted : Weaker (highest s.logical locks) r.level → answer ≠ 0)
    (hlower : highest s.logical locks < r.level → ¬ HidesRead s.logical locks)
    (hsame : r.level ≤ highest s.logical locks →
      r.astArgument ∈ locks ∧ Needed r.level (locks.map s.logical)) :
    Ok count (internalDowngrade count s first answer).1 locks := by
  have hwalk : walk s.identical count (some first) = locks :=
    hpath.walk_eq (length_le_of_bound hnodup hbound)
  have hmem : first ∈ locks := List.mem_of_head? hpath.head?
  obtain ⟨hphysical, hfirstId⟩ := hheld first hmem
  rw [internalDowngrade, hwalk, hphysical]
  by_cases hlt : highest s.logical locks < r.level
  · have hweaker : Weaker (highest s.logical locks) r.level := by
      rcases (highest_cons s.logical .none locks).2.2 with heq | ⟨lock, hlock, heq⟩
      · intro other hother
        rw [highest, heq] at hother
        exact absurd hother (not_blocks_none other)
      · rw [highest, heq]
        exact hblocks lock hlock
    have hconvert : managerConvert s (s.id first) (highest s.logical locks) first answer =
        some { s with request := some ⟨s.id first, highest s.logical locks, first⟩ } := by
      rw [managerConvert, hrequest]
      exact if_pos ⟨hfirstId.symm, hgranted hweaker⟩
    rw [if_pos hlt, hconvert]
    refine ⟨hfirst ▸ hpath, hnodup, hbound, .inr ⟨_, rfl, hfirstId ▸ hid, ?_, needed_highest, hmem,
      fun lock hlock => ⟨if_pos hlock, (hheld lock hlock).2.trans hfirstId.symm⟩⟩⟩
    intro lock hlock
    refine weaker_of_le (le_highest hlock) fun hboth => hlower hlt ⟨hboth.2, lock, hlock, hboth.1⟩
  · rw [if_neg hlt]
    obtain ⟨hargument, hneeded⟩ := hsame (not_lt.1 hlt)
    exact ⟨hfirst ▸ hpath, hnodup, hbound,
      .inr ⟨r, hrequest, hid, hblocks, hneeded, hargument, hheld⟩⟩

theorem Ok.stepDowngrade (h : Ok count s locks) (hproper : Proper count settings s (.downgrade lock answer))
    (hkeeps : Keeps count settings deliver s (.downgrade lock answer)) :
    Ok count (internalDowngrade count s lock answer).1 locks := by
  obtain ⟨hlock, hgranted⟩ := hproper
  rw [h.all_eq] at hlock
  obtain hnil | ⟨r, hrequest, hid, hfits⟩ := h.fits
  · rw [hnil] at hlock
    cases hlock
  rw [held_eq hrequest] at hgranted
  simp only [Keeps, held_eq hrequest] at hkeeps
  by_cases hlt : highest s.logical (walk s.identical count (some lock)) < r.level
  · obtain ⟨hfirst, hhides⟩ := hkeeps hlt
    have hpath := hfirst ▸ h.path
    have hwalk := hpath.walk_eq (length_le_of_bound h.nodup h.bound)
    rw [hwalk] at hhides hgranted hlt
    exact Ok.downgrade hpath hfirst h.nodup h.bound hrequest hid hfits.blocks hfits.held hgranted
      (fun _ => hhides) fun hle => absurd hlt (not_lt.2 hle)
  · rw [internalDowngrade, (hfits.held lock hlock).1, if_neg hlt]
    exact h

theorem Ok.stepDequeue (h : Ok count s locks) (hproper : Proper count settings s (.dequeue lock answer))
    (hkeeps : Keeps count settings deliver s (.dequeue lock answer)) :
    Ok count (internalDequeue count s lock answer) (locks.erase lock) := by
  obtain ⟨hlock, hgranted⟩ := hproper
  simp only [Keeps, h.all_eq] at hlock hgranted hkeeps
  obtain hnil | ⟨r, hrequest, hid, hfits⟩ := h.fits
  · rw [hnil] at hlock
    cases hlock
  simp only [held_eq hrequest, hrequest, Option.map_some] at hgranted hkeeps
  have hothers : ∀ other ∈ locks.erase lock, other ∈ locks := fun other => List.mem_of_mem_erase
  by_cases hfirst : s.first = some lock
  · -- the first lock leaves, and `internal_downgrade` starts from it
    cases locks with
    | nil => cases hlock
    | cons head others =>
      obtain rfl : lock = head := Option.some.inj (hfirst.symm.trans h.path.1)
      rw [List.erase_cons_head] at hkeeps hothers ⊢
      cases others with
      | nil =>
        have hlast : s.identical lock = none := h.path.2
        simp only [internalDequeue, hashRemoveLock, hfirst, if_true, hlast]
        exact ⟨rfl, List.nodup_nil, by simp, .inl rfl⟩
      | cons next others =>
        have hnext : s.identical lock = some next := h.path.2.1
        have hwalk : walk s.identical count (some lock) = lock :: next :: others :=
          (hfirst ▸ h.path).walk_eq (length_le_of_bound h.nodup h.bound)
        rw [if_pos hfirst] at hkeeps
        obtain ⟨hlevel, hargument, hneeded⟩ := hkeeps.resolve_left (List.cons_ne_nil _ _)
        have hsame : ¬ highest s.logical (lock :: next :: others) < s.physical lock := by
          rw [(hfits.held lock hlock).1]
          exact not_lt.2 hlevel
        simp only [internalDequeue, hashRemoveLock, hfirst, if_true, hnext, internalDowngrade, hwalk,
          if_neg hsame]
        have hpath : IsSeg s.identical (some next) (next :: others) none := hnext ▸ h.path.2
        refine ⟨hpath, (List.nodup_cons.1 h.nodup).2, fun other hother => h.bound other
          (hothers other hother), .inr ⟨r, hrequest, hid, ?_, hneeded, ?_, ?_⟩⟩
        · exact fun other hother => hfits.blocks other (hothers other hother)
        · exact (List.mem_cons.1 hfits.argument).resolve_left fun heq => hargument (heq ▸ rfl)
        · exact fun other hother => hfits.held other (hothers other hother)
  · obtain ⟨front, prior, back, hsplit, hfind⟩ := h.path.find_prior h.nodup hlock hfirst
    have hnodup := h.nodup
    have hpath := h.path
    rw [hsplit] at hnodup hpath
    have hnotMem : lock ∉ front ++ [prior] := by
      have hnodup' : (front ++ [prior] ++ lock :: back).Nodup := by simpa using hnodup
      exact fun hmem => (List.nodup_append.1 hnodup').2.2 lock hmem lock List.mem_cons_self rfl
    have herase : locks.erase lock = front ++ prior :: back := by
      rw [hsplit, List.append_cons, List.erase_append_right _ hnotMem, List.erase_cons_head,
        List.append_assoc, List.singleton_append]
    obtain ⟨head, hhead⟩ : ∃ head, s.first = some head := by
      cases hempty : s.first with
      | none =>
        have hnil := h.path.head?
        rw [hempty, List.head?_eq_none_iff] at hnil
        rw [hnil] at hlock
        cases hlock
      | some head => exact ⟨head, rfl⟩
    have hne : head ≠ lock := fun heq => hfirst (heq ▸ hhead)
    have hstep : internalDequeue count s lock answer = (internalDowngrade count
        { s with identical := Function.update s.identical prior (s.identical lock) } head answer).1 := by
      simp only [internalDequeue, hashRemoveLock, hhead, if_neg hne, h.all_eq, hfind]
    rw [if_neg hfirst] at hkeeps
    rw [hstep]
    have hothersne : locks.erase lock ≠ [] := by
      rw [herase]
      simp
    have hkeeps := hkeeps.resolve_left hothersne
    have hblocks : ∀ other ∈ locks.erase lock, Weaker (s.logical other) r.level :=
      fun other hother => hfits.blocks other (hothers other hother)
    refine Ok.downgrade (r := r) (s := { s with
        identical := Function.update s.identical prior (s.identical lock) })
      ?_ hhead (h.nodup.erase lock) (fun other hother => h.bound other (hothers other hother)) hrequest
      hid hblocks (fun other hother => hfits.held other (hothers other hother)) hgranted ?_ ?_
    · rw [herase, ← hhead]
      exact hpath.unlink hnodup
    · intro hlt
      rwa [if_pos hlt] at hkeeps
    · intro hle
      rw [if_neg (not_lt.2 hle)] at hkeeps
      have hargument : r.astArgument ∈ locks.erase lock :=
        (List.mem_erase_of_ne fun heq => hkeeps (congrArg some heq)).2 hfits.argument
      refine ⟨hargument, ?_⟩
      -- the highest of the others is the level of the request
      rcases (highest_cons s.logical .none (locks.erase lock)).2.2 with heq | ⟨other, hother, heq⟩
      · have hnone : r.level = .none := le_antisymm (hle.trans_eq heq) (by cases r.level <;> decide)
        rw [hnone]
        exact fun other hother => absurd hother (not_blocks_none other)
      · by_cases hnone : r.level = .none
        · rw [hnone]
          exact fun other hother => absurd hother (not_blocks_none other)
        · have hlevel : s.logical other = r.level :=
            le_antisymm ((hblocks other hother).le hnone) (hle.trans_eq heq)
          exact needed_self (List.mem_map.2 ⟨other, hother, hlevel⟩)

/-- The members after a lock has joined. -/
def joined (locks : List ℕ) (lock : ℕ) : Bool → List ℕ
  | true => locks
  | false =>
      match locks with
      | [] => [lock]
      | first :: others => first :: lock :: others

theorem mem_joined {locks : List ℕ} {other : ℕ} {convertFlg : Bool}
    (hflag : convertFlg = true ↔ lock ∈ locks) :
    other ∈ joined locks lock convertFlg ↔ other = lock ∨ other ∈ locks.erase lock := by
  cases convertFlg with
  | true =>
    have hlock := hflag.1 rfl
    by_cases heq : other = lock
    · simpa [joined, heq] using hlock
    · simp [joined, heq, List.mem_erase_of_ne heq]
  | false =>
    have hlock : lock ∉ locks := fun hmem => absurd (hflag.2 hmem) (by decide)
    rw [List.erase_of_not_mem hlock]
    cases locks with
    | nil => simp [joined]
    | cons first others =>
      simp only [joined, List.mem_cons]
      tauto

/-- The lock becomes one of the identical ones, whose request already has the level it is to have. -/
theorem Ok.join {convertFlg : Bool} (hpath : IsSeg s.identical s.first locks none)
    (hfirst : s.first = some first) (hnodup : locks.Nodup) (hbound : ∀ other ∈ locks, other < count)
    (hlock : lock < count) (hflag : convertFlg = true ↔ lock ∈ locks) {level : Level}
    (hrequest : s.request = some r) (hid : r.id ≠ 0)
    (hheld : ∀ other ∈ locks, s.physical other = r.level ∧ s.id other = r.id)
    (hlevel : Weaker level r.level)
    (hblocks : ∀ other ∈ locks.erase lock, Weaker (s.logical other) r.level)
    (hneeded : Needed r.level (level :: (locks.erase lock).map s.logical))
    (hargument : r.astArgument = lock ∨ r.astArgument ∈ locks) :
    Ok count (join s first lock level convertFlg) (joined locks lock convertFlg) := by
  obtain ⟨rest, rfl⟩ : ∃ rest, locks = first :: rest := by
    cases locks with
    | nil =>
      have hnone : s.first = none := hpath
      rw [hfirst] at hnone
      cases hnone
    | cons head rest => exact ⟨rest, by rw [Option.some.inj (hfirst.symm.trans hpath.1)]⟩
  obtain ⟨hphysical, hfirstId⟩ := hheld first List.mem_cons_self
  have hmem : ∀ other, other ∈ joined (first :: rest) lock convertFlg →
      other = lock ∨ (other ≠ lock ∧ other ∈ (first :: rest).erase lock) := by
    intro other hother
    by_cases heq : other = lock
    · exact .inl heq
    · exact .inr ⟨heq, ((mem_joined hflag).1 hother).resolve_left heq⟩
  -- the fields after the join, whether the lock is entered into the list or not
  have hfields : (Lck.join s first lock level convertFlg).request = some r ∧
      (Lck.join s first lock level convertFlg).logical = Function.update s.logical lock level ∧
      (Lck.join s first lock level convertFlg).physical =
        Function.update s.physical lock (s.physical first) ∧
      (Lck.join s first lock level convertFlg).id = Function.update s.id lock (s.id first) := by
    cases convertFlg with
    | true => exact ⟨hrequest, rfl, rfl, rfl⟩
    | false => simp [Lck.join, hashInsertLock, hfirst, hrequest]
  obtain ⟨hrequest', hlogical', hphysical', hid'⟩ := hfields
  refine ⟨?_, ?_, fun other hother => ?_, .inr ⟨r, hrequest', hid, fun other hother => ?_, ?_, ?_,
    fun other hother => ?_⟩⟩
  · cases convertFlg with
    | true => exact hpath
    | false =>
      have hnew : lock ∉ first :: rest := fun hmem => absurd (hflag.2 hmem) (by decide)
      simpa [Lck.join, hashInsertLock, hfirst] using
        (hfirst ▸ hpath).insertSecond hnodup hnew
  · cases convertFlg with
    | true => exact hnodup
    | false =>
      have hnew : lock ∉ first :: rest := fun hmem => absurd (hflag.2 hmem) (by decide)
      obtain ⟨hfirstRest, hrest⟩ := List.nodup_cons.1 hnodup
      refine List.nodup_cons.2 ⟨fun hmem => ?_, List.nodup_cons.2
        ⟨fun hmem => hnew (List.mem_cons_of_mem _ hmem), hrest⟩⟩
      rcases List.mem_cons.1 hmem with heq | hmem
      · exact hnew (heq ▸ List.mem_cons_self)
      · exact hfirstRest hmem
  · rcases hmem other hother with rfl | ⟨-, hother⟩
    · exact hlock
    · exact hbound other (List.mem_of_mem_erase hother)
  · rw [hlogical']
    rcases hmem other hother with rfl | ⟨hne, hother⟩
    · rwa [Function.update_self]
    · rw [Function.update_of_ne hne]
      exact hblocks other hother
  · intro other hother
    obtain ⟨one, hone, hblock⟩ := hneeded other hother
    rw [hlogical']
    rcases List.mem_cons.1 hone with rfl | hone
    · exact ⟨_, List.mem_map.2 ⟨lock, (mem_joined hflag).2 (.inl rfl), Function.update_self ..⟩, hblock⟩
    · obtain ⟨x, hx, rfl⟩ := List.mem_map.1 hone
      by_cases heq : x = lock
      · -- a nodup list has no second occurrence of the lock
        exact absurd (heq ▸ hx) hnodup.not_mem_erase
      · exact ⟨_, List.mem_map.2 ⟨x, (mem_joined hflag).2 (.inr hx), Function.update_of_ne heq ..⟩,
          hblock⟩
  · rcases hargument with heq | hargument
    · exact (mem_joined hflag).2 (.inl heq)
    · by_cases heq : r.astArgument = lock
      · exact (mem_joined hflag).2 (.inl heq)
      · exact (mem_joined hflag).2 (.inr ((List.mem_erase_of_ne heq).2 hargument))
  · rw [hphysical', hid']
    rcases hmem other hother with rfl | ⟨hne, hother⟩
    · rw [Function.update_self, Function.update_self]
      exact ⟨hphysical, hfirstId⟩
    · rw [Function.update_of_ne hne, Function.update_of_ne hne]
      exact hheld other (List.mem_of_mem_erase hother)

theorem Ok.enqueueFirst {level : Level} (h : Ok count s locks) (hfirst : s.first = none)
    (hlock : lock < count) (hidentical : answer ≠ 0 → s.identical lock = none) :
    ∃ locks, Ok count (enqueueFirst s lock level answer).1 locks := by
  have hnil : locks = [] := by
    have hhead := h.path.head?
    rwa [hfirst, List.head?_eq_none_iff] at hhead
  by_cases hanswer : answer = 0
  · refine ⟨[], ?_⟩
    simp only [Lck.enqueueFirst, managerEnqueue, if_pos hanswer]
    exact ⟨hfirst, List.nodup_nil, by simp, .inl rfl⟩
  · refine ⟨[lock], ?_⟩
    simp only [Lck.enqueueFirst, managerEnqueue, if_neg hanswer, hashInsertLock, hfirst]
    refine ⟨⟨rfl, hidentical hanswer⟩, List.nodup_singleton lock, ?_,
      .inr ⟨⟨answer, level, lock⟩, rfl, hanswer, ?_, ?_, List.mem_singleton_self lock, ?_⟩⟩
    · intro other hother
      exact List.mem_singleton.1 hother ▸ hlock
    · intro other hother
      rw [List.mem_singleton.1 hother]
      change Weaker (Function.update s.logical lock level lock) level
      rw [Function.update_self]
      exact Weaker.refl level
    · simpa using needed_self (List.mem_singleton_self level)
    · intro other hother
      rw [List.mem_singleton.1 hother]
      exact ⟨Function.update_self .., Function.update_self ..⟩

/-- Without an AST to be posted, asking for compatibility changes nothing. -/
theorem internalCompatible_fst {level : Level} (hquiet : blocking count settings s first = []) :
    (internalCompatible count settings deliver s first lock level).1 = s := by
  rw [internalCompatible]
  split
  · rfl
  · rw [internalAst, hquiet]

theorem Ok.enqueueIdentical {level : Level} {convertFlg : Bool} (h : Ok count s locks)
    (hfirst : s.first = some first) (hlock : lock < count) (hflag : convertFlg = true ↔ lock ∈ locks)
    (hraise : s.held < level → answer ≠ 0 →
      ¬ (s.held = .PR ∧ level = .SW ∧ ∃ other ∈ locks.erase lock, s.logical other = .PR))
    (hkeep : ¬ s.held < level → ¬ (s.held = .SW ∧ level = .PR) ∧
      Needed s.held (level :: (locks.erase lock).map s.logical)) :
    ∃ locks, Ok count (enqueueIdentical count s first lock level convertFlg answer).1 locks := by
  have hmem : first ∈ locks := List.mem_of_head? (h.path.head?.trans hfirst)
  obtain hnil | ⟨r, hrequest, hid, hfits⟩ := h.fits
  · rw [hnil] at hmem
    cases hmem
  rw [held_eq hrequest] at hraise hkeep
  obtain ⟨hphysical, hfirstId⟩ := hfits.held first hmem
  have hwalk : walk s.identical count (some first) = locks :=
    (hfirst ▸ h.path).walk_eq (length_le_of_bound h.nodup h.bound)
  have hothers : ∀ other ∈ locks.erase lock, Weaker (s.logical other) r.level :=
    fun other hother => hfits.blocks other (List.mem_of_mem_erase hother)
  rw [Lck.enqueueIdentical, hphysical]
  by_cases hlt : r.level < level
  · rw [if_pos hlt]
    by_cases hanswer : answer = 0
    · have hrefused : managerConvert s (s.id first) level lock answer = none := by
        rw [managerConvert, hrequest]
        exact if_neg fun hboth => hboth.2 hanswer
      rw [hrefused]
      exact ⟨locks, h⟩
    · have hconvert : managerConvert s (s.id first) level lock answer =
          some { s with request := some ⟨s.id first, level, lock⟩ } := by
        rw [managerConvert, hrequest]
        exact if_pos ⟨hfirstId.symm, hanswer⟩
      rw [hconvert]
      dsimp only
      rw [hwalk]
      refine ⟨joined locks lock convertFlg, Ok.join (r := ⟨s.id first, level, lock⟩)
        (s := setPhysical { s with request := some ⟨s.id first, level, lock⟩ } locks level)
        h.path hfirst h.nodup h.bound hlock hflag rfl (hfirstId ▸ hid) ?_ (Weaker.refl level) ?_
        (needed_self List.mem_cons_self) (.inl rfl)⟩
      · exact fun other hother => ⟨if_pos hother, (hfits.held other hother).2.trans hfirstId.symm⟩
      · intro other hother
        by_cases hread : r.level = .PR ∧ level = .SW
        · have hother' : s.logical other ≠ .PR := fun heq =>
            hraise hlt hanswer ⟨hread.1, hread.2, other, hother, heq⟩
          rw [hread.2]
          exact (hread.1 ▸ hothers other hother).sharedWrite hother'
        · exact (hothers other hother).trans (weaker_of_le hlt.le hread)
  · rw [if_neg hlt]
    obtain ⟨hread, hneeded⟩ := hkeep hlt
    refine ⟨joined locks lock convertFlg, Ok.join h.path hfirst h.nodup h.bound hlock hflag hrequest hid
      hfits.held (weaker_of_le (not_lt.1 hlt) fun hboth => hread ⟨hboth.2, hboth.1⟩) hothers hneeded
      (.inr hfits.argument)⟩

theorem Ok.step (h : Ok count s locks) {op : Op} (hproper : Proper count settings s op)
    (hkeeps : Keeps count settings deliver s op) :
    ∃ locks, Ok count (step count settings deliver s op) locks := by
  cases op with
  | downgrade lock answer => exact ⟨_, h.stepDowngrade hproper hkeeps⟩
  | dequeue lock answer => exact ⟨_, h.stepDequeue hproper hkeeps⟩
  | enqueue lock level convertFlg answer =>
    obtain ⟨hlock, hflag, hquiet⟩ := hproper
    simp only [Keeps] at hkeeps
    rw [Lck.step, internalEnqueue]
    cases hfirst : s.first with
    | none =>
      rw [hfirst] at hkeeps
      exact h.enqueueFirst hfirst hlock hkeeps
    | some first =>
      rw [h.all_eq] at hflag
      rw [hfirst] at hkeeps
      simp only [KeepsEnqueue, h.all_eq] at hkeeps ⊢
      have hsame : (internalCompatible count settings deliver s first lock level).1 = s :=
        internalCompatible_fst (hquiet first hfirst)
      generalize hresult : internalCompatible count settings deliver s first lock level = result at *
      obtain ⟨t, goesOn⟩ := result
      obtain rfl : t = s := hsame
      cases goesOn with
      | false => exact ⟨locks, h⟩
      | true =>
        simp only [hfirst]
        have hkeeps := hkeeps rfl
        refine h.enqueueIdentical hfirst hlock hflag (fun hlt => ?_) (fun hlt => ?_)
        · rwa [if_pos hlt] at hkeeps
        · rwa [if_neg hlt] at hkeeps

theorem ok_noLocks (count : ℕ) : Ok count noLocks [] :=
  ⟨rfl, List.nodup_nil, by simp, .inl rfl⟩

/-- In every run the request fits the locks that are there, as long as each step keeps it so. -/
theorem levels_along (count : ℕ) (settings : ℕ → Settings) (deliver : Delivery) (ops : List Op)
    (hproper : AlongRun (step count settings deliver) (Proper count settings) noLocks ops)
    (hkeeps : AlongRun (step count settings deliver) (Keeps count settings deliver) noLocks ops) :
    Sound count (run (step count settings deliver) noLocks ops) := by
  have hrun : ∀ (ops : List Op) (s : Locks), (∃ locks, Ok count s locks) →
      AlongRun (Lck.step count settings deliver) (Proper count settings) s ops →
        AlongRun (Lck.step count settings deliver) (Keeps count settings deliver) s ops →
          ∃ locks, Ok count (run (Lck.step count settings deliver) s ops) locks := by
    intro ops
    induction ops with
    | nil => exact fun s h _ _ => h
    | cons op ops ih =>
      rintro s ⟨locks, h⟩ hproper hkeeps
      exact ih _ (h.step hproper.1 hkeeps.1) hproper.2 hkeeps.2
  obtain ⟨locks, h⟩ := hrun ops noLocks ⟨[], ok_noLocks count⟩ hproper hkeeps
  exact h.sound

/-! ## A first lock that leaves -/

/-- Two locks of one attachment for two transactions. -/
def twoTransactions : ℕ → Settings
  | 0 => ⟨1, 1, false⟩
  | _ => ⟨1, 2, false⟩

/-- Both write; the first one is released, and the request still names it. -/
theorem released_argument : ¬ ∀ (count : ℕ) (settings : ℕ → Settings) (deliver : Delivery)
    (ops : List Op), AlongRun (step count settings deliver) (Proper count settings) noLocks ops →
      Sound count (run (step count settings deliver) noLocks ops) := by
  intro h
  have hsound := h 2 twoTransactions (fun _ s => s)
    [.enqueue 0 .SW false 7, .enqueue 1 .SW false 7, .dequeue 0 7] (by decide)
  rcases hsound with hnil | ⟨r, hr, hfits⟩
  · exact absurd hnil (by decide)
  · obtain rfl : (⟨7, .SW, 0⟩ : Request) = r := Option.some.inj hr
    exact absurd hfits.argument (by decide)

/-- Two locks that one transaction holds, in two blocks. -/
def oneTransaction : ℕ → Settings := fun _ => ⟨1, 1, false⟩

example : (run (step 2 oneTransaction fun _ s => s) noLocks
    [.enqueue 0 .PR false 7, .enqueue 1 .SW false 7]).request = some ⟨7, .SW, 1⟩ := by
  decide

theorem levels_along_exclusive : Sound 2 (run (step 2 oneTransaction fun _ s => s) noLocks
    [.enqueue 0 .SR false 7, .enqueue 1 .EX false 7, .dequeue 1 7]) :=
  levels_along _ _ _ _ (by decide) (by decide)

end FirebirdCore.Lck
