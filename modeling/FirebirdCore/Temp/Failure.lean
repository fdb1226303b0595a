import FirebirdCore.Temp.Contents

/-!
# A space that could not be extended

The sizes are advanced, and the initial buffer is given up, before a new block is looked for. Nothing is put
back where there is none.
-/
namespace FirebirdCore.Temp

/-! ## Where a block comes from -/

/-- A directory for temporary files: the file of the space in it, if there is one or one can be created,
and how much the file can still grow. -/
structure TempDirectory where
  file : Option ℕ
  room : ℕ
  deriving DecidableEq, Repr

/-- `setupFile`: the first directory with a file that can be extended. -/
def setupFile (size : ℕ) : List TempDirectory → Option ℕ
  | [] => none
  | directory :: directories =>
      match directory.file with
      | none => setupFile size directories
      | some file => if size ≤ directory.room then some file else setupFile size directories

/-- What blocks are allocated from: the cache, with the memory that is given for a block if there is any, and
the directories. -/
structure Environment where
  tempCacheLimit : ℕ
  globalCacheUsage : ℕ
  memory : Option (List UInt8)
  tempDirs : List TempDirectory
  deriving DecidableEq, Repr

/-- What there is for a block of `size` bytes. -/
def Environment.backing (env : Environment) (size : ℕ) : Backing :=
  match if env.globalCacheUsage + size ≤ env.tempCacheLimit then env.memory else none with
  | some junk => .memory junk
  | none =>
      match setupFile size env.tempDirs with
      | some file => .file file
      | none => .noRoom

/-- No directory has a file that can grow so much. -/
theorem setupFile_eq_none_iff {size : ℕ} {directories : List TempDirectory} :
    setupFile size directories = none ↔
      ∀ directory ∈ directories, directory.file = none ∨ directory.room < size := by
  induction directories with
  | nil => simp [setupFile]
  | cons directory directories ih =>
    rw [setupFile, List.forall_mem_cons]
    cases hfile : directory.file with
    | none =>
      dsimp only
      rw [ih]
      exact (and_iff_right (.inl rfl)).symm
    | some file =>
      dsimp only
      split_ifs with hroom
      · refine iff_of_false not_false ?_
        rintro ⟨hcon | hlt, -⟩
        · cases hcon
        · omega
      · rw [ih]
        exact (and_iff_right (.inr (not_le.1 hroom))).symm

namespace TempSpace

variable {s s' : TempSpace} {size minBlockSize : ℕ} {env : Environment}

/-- `extend` with what the environment gives for the block that it asks for. -/
def extendIn (minBlockSize : ℕ) (env : Environment) (s : TempSpace) (size : ℕ) : TempSpace × Bool :=
  s.extend minBlockSize size (env.backing (s.blockSize minBlockSize size % 2 ^ 32))

/-! ## What is left of a failed extension -/

/-- The flag of `newBlock` is that of the backing. -/
theorem newBlock_done (s : TempSpace) (size : ℕ) (backing : Backing) :
    (s.newBlock size backing).2 = false ↔ backing = .noRoom := by
  cases backing with
  | memory junk => simp [newBlock]
  | noRoom => simp [newBlock]
  | file file =>
    rw [newBlock]
    dsimp only
    split
    · split_ifs <;> simp
    · simp

/-- An extension fails if and only if it needs a block and there is no room for it. -/
theorem extend_failed_iff {backing : Backing} :
    (s.extend minBlockSize size backing).2 = false ↔ s.NeedsBlock size ∧ backing = .noRoom := by
  rw [TempSpace.extend, NeedsBlock]
  dsimp only
  by_cases hmore : s.logicalSize + size > s.physicalSize
  · rw [if_pos hmore]
    by_cases hdynamic : s.initiallyDynamic ∧ s.logicalSize + size < minTempBlockSize
    · rw [if_pos hdynamic]
      simp [hdynamic]
    · rw [if_neg hdynamic]
      split_ifs <;> simp [newBlock_done, hmore, hdynamic]
  · rw [if_neg hmore]
    simp [hmore]

/-- The space as a failed extension leaves it. -/
def abandoned (s : TempSpace) (minBlockSize size : ℕ) : TempSpace :=
  { s with
    logicalSize := s.logicalSize + size
    physicalSize :=
      (if s.media.initialBuffer = [] then s.physicalSize else 0) + s.blockSize minBlockSize size % 2 ^ 32
    blocks := if s.media.initialBuffer = [] then s.blocks else [] }

theorem extend_noRoom (hneeds : s.NeedsBlock size) :
    (s.extend minBlockSize size .noRoom).1 = s.abandoned minBlockSize size := by
  rw [TempSpace.extend, abandoned, blockSize]
  dsimp only
  rw [if_pos hneeds.1, if_neg hneeds.2]
  by_cases hbuffer : s.media.initialBuffer = []
  · rw [if_neg (by rw [hbuffer]; exact not_not.2 rfl)]
    simp only [hbuffer, if_true]
    rfl
  · rw [if_pos (mt List.length_eq_zero_iff.1 hbuffer)]
    simp only [hbuffer, if_false, Nat.zero_add]
    rfl

/-! ## The contract -/

/-- The space is as it was: its sizes, its chain and what can be read from it. -/
structure Restored (s s' : TempSpace) : Prop where
  logicalSize : s'.logicalSize = s.logicalSize
  physicalSize : s'.physicalSize = s.physicalSize
  blocks : s'.blocks = s.blocks
  contents : s'.contents = s.contents

/-- What is read inside of the logical size is read whole. -/
def ReadsWhole (s : TempSpace) : Prop :=
  ∀ offset length, offset + length ≤ s.logicalSize → (s.read offset length).length = length

theorem length_read_le (m : Media) (b : Block) (offset length : ℕ) :
    (b.read m offset length).length ≤ b.size := by
  have hslice (bytes : List UInt8) (position : ℕ) :
      (Buffer.slice bytes ⟨position,
        if offset + length > b.size then b.size - offset else length⟩).length ≤ b.size := by
    rw [Buffer.slice, List.length_take]
    dsimp only
    split_ifs <;> omega
  rw [Block.read]
  cases b.store <;> exact hslice ..

/-- Reading stops with the chain. -/
theorem length_readLoop_le (m : Media) (bs : List Block) (offset l : ℕ) :
    (readLoop m bs offset l).length ≤ totalSize bs := by
  induction bs generalizing offset l with
  | nil => exact Nat.zero_le _
  | cons b bs ih =>
    rw [readLoop]
    split_ifs
    · exact Nat.zero_le _
    · have hfirst := length_read_le m b offset l
      have hrest := ih 0 (l - (b.read m offset l).length)
      simp only [List.length_append, totalSize, List.map_cons, List.sum_cons] at hrest ⊢
      omega

theorem totalSize_drop_le (bs : List Block) (i : ℕ) : totalSize (bs.drop i) ≤ totalSize bs := by
  have hsum := congrArg totalSize (List.take_append_drop i bs)
  rw [totalSize, List.map_append, List.sum_append] at hsum
  simp only [totalSize] at hsum ⊢
  omega

/-- A logical size that the chain does not reach breaks the contract of reading. -/
theorem not_readsWhole (h : totalSize s.blocks < s.logicalSize) : ¬ s.ReadsWhole := by
  intro hreads
  have hlength := hreads 0 s.logicalSize (Nat.zero_add _).le
  rw [TempSpace.read, if_neg (Nat.ne_zero_of_lt h)] at hlength
  split at hlength
  · rename_i i offset hfind
    have hle := length_readLoop_le s.media (s.blocks.drop i) offset s.logicalSize
    have hdrop := totalSize_drop_le s.blocks i
    omega
  · rw [List.length_nil] at hlength
    omega

/-- Before the extension the contract holds. -/
theorem Valid.readsWhole (h : s.Valid) : s.ReadsWhole := by
  intro offset length hroom
  have hlength := h.contents_length
  have hlogical := h.logical
  rw [h.read_eq hroom, List.length_take, List.length_drop]
  omega

/-- A failed extension never leaves the space as it was: the logical size is advanced, the chain is lost
where it was the initial buffer, and what counts as inside of the space can no longer be read. -/
theorem extend_failed (h : s.Valid) (hfail : (s.extendIn minBlockSize env size).2 = false) :
    ¬ s.Restored (s.extendIn minBlockSize env size).1 ∧
    (s.extendIn minBlockSize env size).1 = s.abandoned minBlockSize size ∧
    s.ReadsWhole ∧ ¬ (s.extendIn minBlockSize env size).1.ReadsWhole := by
  obtain ⟨hneeds, hbacking⟩ := extend_failed_iff.1 hfail
  have heq : (s.extendIn minBlockSize env size).1 = s.abandoned minBlockSize size := by
    rw [extendIn, hbacking]
    exact extend_noRoom hneeds
  have hlarger := hneeds.1
  have hlogical := h.logical
  have hphysical := h.physical
  rw [heq]
  refine ⟨fun hrestored => ?_, rfl, h.readsWhole, not_readsWhole ?_⟩
  · have hsame : s.logicalSize + size = s.logicalSize := hrestored.logicalSize
    omega
  · rw [abandoned]
    dsimp only
    split_ifs
    · omega
    · change 0 < s.logicalSize + size
      omega

/-- No cache, and a full disk. -/
def noSpace : Environment := ⟨0, 0, none, [⟨some 0, 1000⟩]⟩

/-- A dynamic space with three bytes in its initial buffer. -/
def threeBytes : TempSpace :=
  ((empty true).write minTempBlockSize 0 [65, 66, 67] .noRoom).1

/-- The three bytes are lost. -/
theorem threeBytes_extend :
    threeBytes.read 0 3 = [65, 66, 67] ∧
    (threeBytes.extendIn minTempBlockSize noSpace 65536).2 = false ∧
    (threeBytes.extendIn minTempBlockSize noSpace 65536).1.logicalSize = 65539 ∧
    (threeBytes.extendIn minTempBlockSize noSpace 65536).1.physicalSize = 131072 ∧
    (threeBytes.extendIn minTempBlockSize noSpace 65536).1.blocks = [] ∧
    (threeBytes.extendIn minTempBlockSize noSpace 65536).1.read 0 3 = [] := by
  decide +kernel

theorem extend_failed_empty :
    ¬ (empty false).Restored ((empty false).extendIn minTempBlockSize noSpace 1).1 :=
  (extend_failed (empty_valid false) (by decide +kernel)).1

end TempSpace

end FirebirdCore.Temp
