import FirebirdCore.Temp.Contents

/-!
# Writing, extending and reading

A `Session` is a space together with the byte that was written last at each offset. The space gives
these bytes back, as long as a large block that is needed has a size of 32 bits and there is room for
it.
-/
namespace FirebirdCore.Temp
open FirebirdCore.Buffer FirebirdCore.Run

/-- What a caller does. -/
inductive Op where
  | write (offset : ℕ) (data : List UInt8) (backing : Backing)
  | extend (size : ℕ) (backing : Backing)
  deriving DecidableEq, Repr

/-- The bytes written last, after a write of `data` at `offset`. -/
def overwrite (written : ℕ → Option UInt8) (offset : ℕ) (data : List UInt8) (x : ℕ) : Option UInt8 :=
  if offset ≤ x ∧ x < offset + data.length then data[x - offset]? else written x

/-- The space, and what was written to it last. -/
structure Session where
  space : TempSpace
  written : ℕ → Option UInt8

namespace Session

def empty (dynamic : Bool) : Session := ⟨.empty dynamic, fun _ => none⟩

def step (minBlockSize : ℕ) (s : Session) : Op → Session
  | .write offset data backing =>
      let r := s.space.write minBlockSize offset data backing
      ⟨r.1, if r.2 then overwrite s.written offset data else s.written⟩
  | .extend size backing => { s with space := (s.space.extend minBlockSize size backing).1 }

/-- A write starts inside the space, or at its end. -/
def Proper (s : Session) : Op → Prop
  | .write offset _ _ => offset ≤ s.space.logicalSize
  | .extend _ _ => True

/-- There is room for what the operation needs. -/
def HasRoom (minBlockSize : ℕ) (s : Session) : Op → Prop
  | .write offset data backing =>
      s.space.HasRoom minBlockSize (offset + data.length - s.space.logicalSize) backing
  | .extend size backing => s.space.HasRoom minBlockSize size backing

instance (s : Session) (op : Op) : Decidable (s.Proper op) := by
  cases op <;> dsimp only [Proper] <;> infer_instance

instance (minBlockSize : ℕ) (s : Session) (op : Op) : Decidable (s.HasRoom minBlockSize op) := by
  cases op <;> dsimp only [HasRoom] <;> infer_instance

/-- What was written last is read, and `findBlock` finds the block of an offset by either walk. -/
structure Faithful (s : Session) : Prop where
  read : ∀ offset length, offset + length ≤ s.space.logicalSize →
    (s.space.read offset length).length = length ∧
      ∀ i < length, ∀ v, s.written (offset + i) = some v → (s.space.read offset length)[i]? = some v
  find : ∀ offset < s.space.physicalSize, ∃ i off,
    s.space.findBlock offset = some (i, off) ∧
      walkForward s.space.blocks 0 offset = some (i, off) ∧
      walkBackward s.space.physicalSize s.space.blocks.reverse offset = some (i, off) ∧
      Places s.space.blocks offset i off

/-- The invariant of a session. -/
structure Valid (s : Session) : Prop where
  space : s.space.Valid
  written : ∀ x v, s.written x = some v → s.space.contents[x]? = some v

variable {s : Session}

theorem Valid.faithful (h : s.Valid) : s.Faithful where
  read offset length hroom := by
    have hlogical := h.space.logical
    have hlength := h.space.contents_length
    rw [h.space.read_eq hroom]
    refine ⟨?_, fun i hi v hv => ?_⟩
    · rw [List.length_take, List.length_drop]
      omega
    · rw [List.getElem?_take_of_lt hi, List.getElem?_drop]
      exact h.written _ _ hv
  find offset hoffset := by
    obtain ⟨n, m, hfind, hplaces⟩ := h.space.findBlock hoffset
    rw [h.space.physical] at hoffset ⊢
    obtain ⟨i, off, hforward, hforward'⟩ := walkForward_places hoffset 0
    obtain ⟨j, off', hbackward, hbackward'⟩ := walkBackward_places hoffset 0
    obtain ⟨rfl, rfl⟩ := hplaces.unique hforward'
    obtain ⟨rfl, rfl⟩ := hplaces.unique hbackward'
    exact ⟨n, m, hfind, by rw [hforward, Nat.zero_add], hbackward, hplaces⟩

theorem empty_valid (dynamic : Bool) : (empty dynamic).Valid where
  space := TempSpace.empty_valid dynamic
  written _ _ h := nomatch h

/-- What is in front stays where it is. -/
theorem Valid.extended (h : s.Valid) {space : TempSpace} {size : ℕ}
    (hext : s.space.Extended space size) : Valid { s with space := space } where
  space := hext.valid
  written x v hx := by
    obtain ⟨more, hmore⟩ := hext.contents
    have hx := h.written x v hx
    rw [← hmore, List.getElem?_append_left (List.getElem?_eq_some_iff.1 hx).1]
    exact hx

/-- A write to bytes that are there. -/
theorem Valid.writeInside (h : s.Valid) {offset : ℕ} {data : List UInt8}
    (hroom : offset + data.length ≤ s.space.logicalSize) :
    Valid ⟨s.space.writeInside offset data, overwrite s.written offset data⟩ := by
  obtain ⟨hshape, hcontents⟩ := h.space.writeInside hroom
  have hlogical := h.space.logical
  refine ⟨hshape.valid h.space, fun x v hx => ?_⟩
  dsimp only [overwrite] at hx ⊢
  rw [hcontents, getElem?_blit (by rw [h.space.contents_length]; omega)]
  by_cases hin : offset ≤ x ∧ x < offset + data.length
  · rw [if_pos hin] at hx
    rw [if_neg (by omega), if_pos hin.2, hx]
  · rw [if_neg hin] at hx
    split_ifs
    · exact h.written x v hx
    · omega
    · exact h.written x v hx

theorem step_valid (minBlockSize : ℕ) (s : Session) (op : Op) (h : s.Valid)
    (hop : s.Proper op ∧ s.HasRoom minBlockSize op) : (step minBlockSize s op).Valid := by
  obtain ⟨hproper, hroom⟩ := hop
  cases op with
  | extend size backing => exact h.extended (h.space.extend hroom).2
  | write offset data backing =>
    have hoffset : offset ≤ s.space.logicalSize := hproper
    by_cases hmore : offset + data.length > s.space.logicalSize
    · obtain ⟨hdone, hext⟩ := h.space.extend hroom
      have hlogical := hext.logicalSize
      have hinside := (h.extended hext).writeInside
        (show offset + data.length ≤ _ by dsimp only; omega)
      have hwrite : s.space.write minBlockSize offset data backing = _ :=
        (if_pos hmore).trans (if_pos hdone)
      simp only [step, hwrite, if_true]
      exact hinside
    · have hwrite : s.space.write minBlockSize offset data backing = _ := if_neg hmore
      simp only [step, hwrite, if_true]
      exact h.writeInside (Nat.le_of_not_lt hmore)

/-- In a run that always has room, every byte is read as it was written last. -/
theorem faithful_along (dynamic : Bool) (minBlockSize : ℕ) (ops : List Op)
    (hops : AlongRun (step minBlockSize)
      (fun s op => s.Proper op ∧ s.HasRoom minBlockSize op) (empty dynamic) ops) :
    (run (step minBlockSize) (empty dynamic) ops).Faithful :=
  (run_invariant Valid (step_valid minBlockSize) (empty_valid dynamic) hops).faithful

/-- The second operation replaces the initial buffer by a block in a file. -/
def growingOps : List Op :=
  [.write 0 [65, 66] .noRoom, .extend 70000 (.file 0), .write 1 [67] .noRoom]

theorem growingOps_faithful :
    (run (step 1048576) (empty true) growingOps).Faithful :=
  faithful_along true 1048576 growingOps (by decide +kernel)

/-- The size of the block is cut to zero, and the byte that is written after it gets lost. -/
def cutOps : List Op := [.extend (2 ^ 32 - 1) (.memory []), .write 0 [65] (.memory [])]

theorem cutOps_not_faithful :
    AlongRun (step 1048576) Proper (empty false) cutOps ∧
      ¬ (run (step 1048576) (empty false) cutOps).Faithful := by
  refine ⟨by decide +kernel, fun h => ?_⟩
  obtain ⟨-, hread⟩ := h.read 0 1 (by decide +kernel)
  exact absurd (hread 0 Nat.one_pos 65 (by decide +kernel)) (by decide +kernel)

end Session

end FirebirdCore.Temp
