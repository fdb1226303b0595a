import FirebirdCore.Temp.Segments

/-!
# Allocating and releasing

`Holdings` are a space and the ranges of it that are allocated. They and the free segments tile the
space in every run in which an extension finds room.
-/
namespace FirebirdCore.Temp
open FirebirdCore.Buffer FirebirdCore.Run FirebirdCore.Temp.TempSpace

inductive SegmentOp where
  | allocateSpace (size : ℕ) (backing : Backing)
  | releaseSpace (position size : ℕ)
  | allocateBatch (count minSize maxSize : ℕ)
  deriving DecidableEq, Repr

structure Holdings where
  space : TempSpace
  allocated : List Extent

namespace Holdings

def empty (dynamic : Bool) : Holdings := ⟨.empty dynamic, []⟩

/-- The range is taken from the one that it is a part of. -/
def giveBack (allocated : List Extent) (r : Extent) : List Extent :=
  allocated.flatMap fun e => if e.start ≤ r.start ∧ r.finish ≤ e.finish then e.without r else [e]

/-- What is allocated is recorded, unless it is empty. -/
def step (minBlockSize : ℕ) (h : Holdings) : SegmentOp → Holdings
  | .allocateSpace size backing =>
      let r := h.space.allocateSpace minBlockSize size backing
      match r.2 with
      | some position => ⟨r.1, Extent.ifAny ⟨position, size⟩ ++ h.allocated⟩
      | none => ⟨r.1, h.allocated⟩
  | .releaseSpace position size =>
      ⟨h.space.releaseSpace position size, giveBack h.allocated ⟨position, size⟩⟩
  | .allocateBatch count minSize maxSize =>
      let r := h.space.allocateBatch minBlockSize count minSize maxSize
      ⟨r.1, r.2.map SegmentInMemory.extent ++ h.allocated⟩

/-- What callers see to: a part of an allocated range is released, and chunks are wanted, of a size
that is left after alignment. -/
def Proper (h : Holdings) : SegmentOp → Prop
  | .allocateSpace _ _ => True
  | .releaseSpace position size =>
      0 < size ∧ ∃ e ∈ h.allocated, e.start ≤ position ∧ position + size ≤ e.finish
  | .allocateBatch count minSize _ => 0 < count ∧ fbAlignment ≤ minSize

/-- An allocation that no free segment is large enough for finds room. -/
def HasRoom (minBlockSize : ℕ) (h : Holdings) : SegmentOp → Prop
  | .allocateSpace size backing =>
      (∀ space ∈ h.space.freeSegments, space.size < size) →
        h.space.HasRoom minBlockSize size backing
  | _ => True

instance (h : Holdings) (op : SegmentOp) : Decidable (h.Proper op) := by
  cases op <;> dsimp only [Proper] <;> infer_instance

instance (minBlockSize : ℕ) (h : Holdings) (op : SegmentOp) :
    Decidable (h.HasRoom minBlockSize op) := by
  cases op <;> dsimp only [HasRoom] <;> infer_instance

/-- No byte is allocated twice, and none is lost. -/
structure Sound (h : Holdings) : Prop where
  allocated : h.allocated.Pairwise Extent.Apart
  free : ∀ e ∈ h.allocated, ∀ s ∈ h.space.freeSegments, e.Apart s.extent
  nonempty : ∀ s ∈ h.space.freeSegments, 0 < s.size
  increasing : h.space.freeSegments.Pairwise fun a b => a.position < b.position
  disjoint : h.space.freeSegments.Pairwise fun a b => a.extent.Apart b.extent
  notAdjacent : h.space.freeSegments.Pairwise fun a b => a.extent.finish ≠ b.extent.start
  sum : (h.space.freeSegments.map (·.size)).sum + (h.allocated.map Extent.size).sum =
    h.space.logicalSize

variable {h : Holdings}

theorem sound_of_shared (hs : Shared h.space h.allocated) : h.Sound := by
  obtain ⟨hfree, -, hboth⟩ := List.pairwise_append.1 hs.tiles.apart
  have hbefore : ∀ {a b : Segment}, a.Before b → a.position + a.size < b.position := id
  refine ⟨(List.pairwise_append.1 hs.tiles.apart).2.1,
    fun e he s hmem => (hboth _ (List.mem_map_of_mem hmem) e he).symm, fun s hmem => ?_,
    hs.spread.imp fun h => h.lt, hs.spread.imp fun h => .inl (hbefore h).le,
    hs.spread.imp fun h => (hbefore h).ne, ?_⟩
  · exact (hs.tiles.inside s.extent (List.mem_append_left _ (List.mem_map_of_mem hmem))).1
  · have hsum := hs.tiles.sum
    rw [List.map_append, List.sum_append, List.map_map] at hsum
    exact hsum

/-- A part of an allocated range becomes free. -/
theorem releaseSpace_shared (hs : Shared h.space h.allocated) {position size : ℕ} (hsize : 0 < size)
    {e : Extent} (he : e ∈ h.allocated) (hstart : e.start ≤ position)
    (hfinish : position + size ≤ e.finish) :
    Shared (h.space.releaseSpace position size) (giveBack h.allocated ⟨position, size⟩) := by
  obtain ⟨front, behind, hallocated⟩ := List.append_of_mem he
  have hapart := (List.pairwise_append.1 hs.tiles.apart).2.1
  have htiles := hs.tiles
  rw [hallocated, List.pairwise_append] at hapart
  obtain ⟨-, hbehind, hfront⟩ := hapart
  have hkept : ∀ es : List Extent, (∀ f ∈ es, f.Apart e) →
      es.flatMap (fun f => if f.start ≤ position ∧ (⟨position, size⟩ : Extent).finish ≤ f.finish
        then f.without ⟨position, size⟩ else [f]) = es := by
    intro es hes
    refine (List.flatMap_congr fun f hf => ?_).trans (List.flatMap_singleton' es)
    have hf := hes f hf
    refine if_neg fun hin => ?_
    simp only [Extent.Apart, Extent.finish] at hf hin hfinish
    omega
  have hgiven : giveBack h.allocated ⟨position, size⟩ =
      front ++ (e.without ⟨position, size⟩ ++ behind) := by
    rw [giveBack, hallocated, List.flatMap_append, List.flatMap_cons, if_pos ⟨hstart, hfinish⟩,
      hkept front fun f hf => hfront f hf e List.mem_cons_self,
      hkept behind fun f hf => ((List.pairwise_cons.1 hbehind).1 f hf).symm]
  have hout : Tiles (⟨position, size⟩ :: (h.space.freeSegments.map Segment.extent ++
      (front ++ (e.without ⟨position, size⟩ ++ behind)))) h.space.logicalSize := by
    rw [hallocated, ← List.append_assoc] at htiles
    have hcut := (htiles.perm List.perm_middle).takeOut (r := ⟨position, size⟩) hsize hstart hfinish
    refine hcut.perm (List.Perm.cons _ ?_)
    simpa only [List.append_assoc] using List.perm_append_comm_assoc (e.without ⟨position, size⟩)
      (h.space.freeSegments.map Segment.extent ++ front) behind
  obtain ⟨hspread, hreleased⟩ := release_spec hs.spread hsize hout
  rw [hgiven]
  exact ⟨hs.valid.withFree _, hspread, hreleased⟩

theorem step_shared {minBlockSize : ℕ} (hblock : fbAlignment ≤ minBlockSize) (h : Holdings)
    (op : SegmentOp) (hs : Shared h.space h.allocated)
    (hop : h.Proper op ∧ h.HasRoom minBlockSize op) :
    Shared (step minBlockSize h op).space (step minBlockSize h op).allocated := by
  obtain ⟨hproper, hroom⟩ := hop
  cases op with
  | allocateSpace size backing =>
    obtain ⟨position, hposition, hshared⟩ := allocateSpace_spec hs hroom
    simp only [step, hposition]
    exact hshared
  | releaseSpace position size =>
    obtain ⟨hsize, e, he, hstart, hfinish⟩ := hproper
    exact releaseSpace_shared hs hsize he hstart hfinish
  | allocateBatch count minSize maxSize => exact allocateBatch_spec hs hblock hproper.2

theorem fbAlignment_le_initMinBlockSize (tempBlockSize : ℕ) :
    fbAlignment ≤ initMinBlockSize tempBlockSize := by
  rw [initMinBlockSize]
  split_ifs with hsmall
  · decide
  · refine le_trans ?_ (fbAlign_le tempBlockSize minTempBlockSize)
    exact le_trans (by decide) (Nat.le_of_not_lt hsmall)

/-- In a run in which extensions find room, no byte is allocated twice and none is lost. -/
theorem sound_along (dynamic : Bool) (tempBlockSize : ℕ) (ops : List SegmentOp)
    (hops : AlongRun (step (initMinBlockSize tempBlockSize))
      (fun h op => h.Proper op ∧ h.HasRoom (initMinBlockSize tempBlockSize) op) (empty dynamic) ops) :
    (run (step (initMinBlockSize tempBlockSize)) (empty dynamic) ops).Sound :=
  have hempty : Shared (empty dynamic).space (empty dynamic).allocated :=
    ⟨TempSpace.empty_valid dynamic, List.Pairwise.nil, Tiles.nil⟩
  sound_of_shared (run_invariant (fun h => Shared h.space h.allocated)
    (step_shared (fbAlignment_le_initMinBlockSize tempBlockSize)) hempty hops)

/-- Parts of two allocations are released and used for a batch. -/
def sharingOps : List SegmentOp :=
  [.allocateSpace 100000 (.memory []), .allocateSpace 100000 .noRoom, .releaseSpace 50000 50000,
    .releaseSpace 100000 30000, .allocateBatch 2 1000 2000]

theorem sharingOps_sound :
    (run (step (initMinBlockSize 1048576)) (empty false) sharingOps).Sound :=
  sound_along false 1048576 sharingOps (by decide +kernel)

/-- There is no room for the first allocation, but the size stays increased. -/
theorem noRoom_not_sound :
    AlongRun (step (initMinBlockSize 1048576)) Proper (empty false) [.allocateSpace 100 .noRoom] ∧
      ¬ (run (step (initMinBlockSize 1048576)) (empty false) [.allocateSpace 100 .noRoom]).Sound := by
  refine ⟨by decide +kernel, fun h => ?_⟩
  exact absurd h.sum (by decide +kernel)

end Holdings

end FirebirdCore.Temp
