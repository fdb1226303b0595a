import FirebirdCore.Temp.Space

/-!
# The image of a chain of blocks

`image` is the flat sequence of bytes that a chain of blocks holds. Reading from the chain is reading
from its image, writing is writing to it, and both walks find the block of an offset.
-/
namespace FirebirdCore.Temp
open FirebirdCore.Buffer

namespace Block

/-- The bytes of a block. -/
def bytes (m : Media) (b : Block) : List UInt8 :=
  match b.store with
  | .initial => m.initialBuffer
  | .memory bytes => bytes
  | .file file seek => slice (m.files file) ⟨seek, b.size⟩

/-- What the block refers to is there. -/
def Fits (m : Media) (b : Block) : Prop :=
  match b.store with
  | .initial => m.initialBuffer.length = b.size
  | .memory bytes => bytes.length = b.size
  | .file file seek => seek + b.size ≤ (m.files file).length

/-- Two blocks do not share bytes. -/
def Separate (a b : Block) : Prop :=
  match a.store, b.store with
  | .initial, .initial => False
  | .file file seek, .file file' seek' =>
      file ≠ file' ∨ Extent.Apart ⟨seek, a.size⟩ ⟨seek', b.size⟩
  | _, _ => True

/-- The block without its bytes. -/
def shape (b : Block) : Block :=
  match b.store with
  | .initial => b
  | .memory _ => { b with store := .memory [] }
  | .file _ _ => b

end Block

/-- The sizes of what blocks refer to are the same. -/
structure Media.SameSizes (m m' : Media) : Prop where
  files : ∀ file, (m'.files file).length = (m.files file).length
  initialBuffer : m'.initialBuffer.length = m.initialBuffer.length

theorem Media.SameSizes.refl (m : Media) : m.SameSizes m := ⟨fun _ => rfl, rfl⟩

theorem Media.SameSizes.trans {m m' m'' : Media} (h : m.SameSizes m') (h' : m'.SameSizes m'') :
    m.SameSizes m'' :=
  ⟨fun file => (h'.files file).trans (h.files file), h'.initialBuffer.trans h.initialBuffer⟩

def image (m : Media) (blocks : List Block) : List UInt8 := blocks.flatMap (·.bytes m)

/-- The sum of the sizes of the blocks. -/
def totalSize (blocks : List Block) : ℕ := (blocks.map (·.size)).sum

@[simp] theorem totalSize_nil : totalSize [] = 0 := rfl

@[simp] theorem totalSize_cons (b : Block) (bs : List Block) :
    totalSize (b :: bs) = b.size + totalSize bs := rfl

@[simp] theorem totalSize_append (bs cs : List Block) :
    totalSize (bs ++ cs) = totalSize bs + totalSize cs := by
  simp [totalSize]

theorem image_append (m : Media) (bs cs : List Block) :
    image m (bs ++ cs) = image m bs ++ image m cs :=
  List.flatMap_append

namespace Block

variable {m m' : Media} {b c : Block}

theorem bytes_length (h : b.Fits m) : (b.bytes m).length = b.size := by
  rcases b with ⟨store, size⟩
  cases store with
  | initial => exact h
  | memory bytes => exact h
  | file file seek => exact slice_length h

theorem Fits.congr (h : b.Fits m) (hsizes : m.SameSizes m') : b.Fits m' := by
  rcases b with ⟨store, size⟩
  cases store with
  | initial => exact hsizes.initialBuffer.trans h
  | memory bytes => exact h
  | file file seek => exact le_of_le_of_eq h (hsizes.files file).symm

theorem shape_size (b : Block) : b.shape.size = b.size := by
  rcases b with ⟨store, size⟩
  cases store <;> rfl

/-- A block that has no memory of its own is known from its shape. -/
theorem eq_of_shape (h : b.shape = c) (hc : ∀ bytes, c.store ≠ .memory bytes) : b = c := by
  rcases b with ⟨store, size⟩
  cases store with
  | initial => exact h
  | memory bytes => exact absurd (congrArg Block.store h).symm (hc [])
  | file file seek => exact h

theorem store_initial_of_shape (h : b.shape = c.shape) (hb : b.store = .initial) :
    c.store = .initial := by
  rcases b with ⟨store, size⟩
  rcases c with ⟨store', size'⟩
  subst hb
  cases store' with
  | initial => rfl
  | memory bytes => exact absurd (congrArg Block.store h) (fun h => nomatch h)
  | file file seek => exact absurd (congrArg Block.store h) (fun h => nomatch h)

/-- Blocks elsewhere do not need the initial buffer. -/
theorem dropInitial (m : Media) (h : b.store ≠ .initial) :
    (b.Fits { m with initialBuffer := [] } ↔ b.Fits m) ∧
      b.bytes { m with initialBuffer := [] } = b.bytes m := by
  rcases b with ⟨store, size⟩
  cases store with
  | initial => exact absurd rfl h
  | memory bytes => exact ⟨Iff.rfl, rfl⟩
  | file file seek => exact ⟨Iff.rfl, rfl⟩

theorem separate_shape : b.shape.Separate c.shape ↔ b.Separate c := by
  rcases b with ⟨store, size⟩
  rcases c with ⟨store', size'⟩
  cases store <;> cases store' <;> rfl

theorem Separate.symm (h : b.Separate c) : c.Separate b := by
  rcases b with ⟨store, size⟩
  rcases c with ⟨store', size'⟩
  cases store with
  | initial => cases store' <;> exact h
  | memory bytes => cases store' <;> trivial
  | file file seek =>
    cases store' with
    | initial => trivial
    | memory bytes => trivial
    | file file' seek' => exact Or.imp Ne.symm Extent.Apart.symm h

theorem read_eq (h : b.Fits m) {offset : ℕ} (hoffset : offset ≤ b.size) (length : ℕ) :
    b.read m offset length = ((b.bytes m).drop offset).take length := by
  have hcut : (if offset + length > b.size then b.size - offset else length) =
      min length (b.size - offset) := by
    split_ifs <;> omega
  have hmin : ∀ bytes : List UInt8, bytes.length = b.size →
      slice bytes ⟨offset, min length (b.size - offset)⟩ = (bytes.drop offset).take length := by
    intro bytes hbytes
    rw [slice, List.take_eq_take_iff, List.length_drop]
    dsimp only
    omega
  rcases b with ⟨store, size⟩
  rw [read, hcut]
  cases store with
  | initial => exact hmin _ h
  | memory bytes => exact hmin _ h
  | file file seek =>
    have hslice : slice (m.files file) ⟨offset + seek, min length (size - offset)⟩ =
        slice (slice (m.files file) ⟨seek, size⟩) ⟨offset, min length (size - offset)⟩ := by
      rw [slice, slice, slice, List.drop_take, List.drop_drop, List.take_take]
      dsimp only
      rw [Nat.add_comm offset seek]
      congr 1
      omega
    exact hslice.trans (hmin _ (slice_length (e := ⟨seek, size⟩) h))

theorem written_eq (b : Block) (offset : ℕ) (data : List UInt8) :
    b.written offset data = min data.length (b.size - offset) := by
  rw [written]
  split_ifs <;> omega

/-- A write changes the bytes of the block, and of no other one. -/
theorem write_spec (h : b.Fits m) {offset : ℕ} (hoffset : offset ≤ b.size) (data : List UInt8) :
    let r := b.write m offset data
    r.2.bytes r.1 = blit (b.bytes m) offset (data.take (b.size - offset)) ∧ r.2.shape = b.shape ∧
      r.2.Fits r.1 ∧ m.SameSizes r.1 ∧
      ∀ c : Block, b.Separate c → c.Fits m → c.bytes r.1 = c.bytes m := by
  have hcut : (if offset + data.length > b.size then b.size - offset else data.length) =
      min data.length (b.size - offset) := by
    split_ifs <;> omega
  have htake : data.take (min data.length (b.size - offset)) = data.take (b.size - offset) := by
    rw [List.take_eq_take_iff]
    omega
  have hfits : offset + (data.take (b.size - offset)).length ≤ b.size := by
    rw [List.length_take]
    omega
  rcases b with ⟨store, size⟩
  rw [write, hcut]
  dsimp only at *
  cases store with
  | initial =>
    rw [htake]
    have hlen : (blit m.initialBuffer offset (data.take (size - offset))).length = size :=
      (blit_length (hfits.trans_eq h.symm)).trans h
    refine ⟨rfl, rfl, hlen, ⟨fun _ => rfl, hlen.trans h.symm⟩, fun c hsep _ => ?_⟩
    rcases c with ⟨store', size'⟩
    cases store' with
    | initial => exact absurd hsep id
    | memory bytes => rfl
    | file file seek => rfl
  | memory bytes =>
    rw [htake]
    refine ⟨rfl, rfl, (blit_length (hfits.trans_eq h.symm)).trans h, .refl m, fun _ _ _ => rfl⟩
  | file file seek =>
    rw [htake]
    have hfile : seek + size ≤ (m.files file).length := h
    have hroom : offset + seek + (data.take (size - offset)).length ≤ (m.files file).length := by
      omega
    have hlen := blit_length hroom
    have hsizes : m.SameSizes
        (m.setFile file (blit (m.files file) (offset + seek) (data.take (size - offset)))) := by
      refine ⟨fun x => ?_, rfl⟩
      by_cases hx : x = file
      · rw [hx, Media.setFile_self, hlen]
      · rw [Media.setFile_of_ne m hx]
    refine ⟨?_, rfl, Fits.congr h hsizes, hsizes, fun c hsep hc => ?_⟩
    · show slice ((m.setFile file _).files file) ⟨seek, size⟩ = _
      rw [Media.setFile_self, Nat.add_comm offset seek]
      exact slice_blit_inside (e := ⟨seek, size⟩) h hfits
    · rcases c with ⟨store', size'⟩
      cases store' with
      | initial => rfl
      | memory bytes => rfl
      | file file' seek' =>
        show slice ((m.setFile file _).files file') ⟨seek', size'⟩ = _
        by_cases hfiles : file' = file
        · subst hfiles
          have hapart := hsep.resolve_left (not_not.2 rfl)
          rw [Media.setFile_self, slice_blit_apart hroom]
          · rfl
          · simp only [Extent.Apart, Extent.finish] at hapart ⊢
            omega
        · rw [Media.setFile_of_ne m hfiles]
          rfl

end Block

theorem totalSize_shapes {bs cs : List Block} (h : cs.map Block.shape = bs.map Block.shape) :
    totalSize bs = totalSize cs := by
  have hsizes : ∀ ds : List Block, totalSize ds = ((ds.map Block.shape).map (·.size)).sum :=
    fun ds => by
      rw [List.map_map, totalSize]
      exact congrArg List.sum (List.map_congr_left fun b _ => (Block.shape_size b).symm)
  rw [hsizes bs, hsizes cs, h]

theorem pairwise_shapes {bs cs : List Block} (h : cs.map Block.shape = bs.map Block.shape) :
    cs.Pairwise Block.Separate ↔ bs.Pairwise Block.Separate := by
  have hshapes : ∀ ds : List Block, ds.Pairwise Block.Separate ↔
      (ds.map Block.shape).Pairwise Block.Separate :=
    fun ds => by
      rw [List.pairwise_map]
      exact List.Pairwise.iff fun _ _ => Block.separate_shape.symm
  rw [hshapes cs, hshapes bs, h]

/-! ## Chains -/

/-- The blocks have their bytes, each for itself. -/
structure Chain (m : Media) (bs : List Block) : Prop where
  fits : ∀ b ∈ bs, b.Fits m
  separate : bs.Pairwise Block.Separate

section Chain
variable {m : Media} {b : Block} {bs cs : List Block}

theorem Chain.tail (h : Chain m (b :: bs)) : Chain m bs where
  fits c hc := h.fits c (List.mem_cons_of_mem _ hc)
  separate := (List.pairwise_cons.1 h.separate).2

theorem chain_append : Chain m (bs ++ cs) ↔
    Chain m bs ∧ Chain m cs ∧ ∀ b ∈ bs, ∀ c ∈ cs, b.Separate c := by
  constructor
  · intro h
    obtain ⟨hbs, hcs, hboth⟩ := List.pairwise_append.1 h.separate
    exact ⟨⟨fun b hb => h.fits b (List.mem_append_left _ hb), hbs⟩,
      ⟨fun c hc => h.fits c (List.mem_append_right _ hc), hcs⟩, hboth⟩
  · rintro ⟨hbs, hcs, hboth⟩
    exact ⟨fun b hb => (List.mem_append.1 hb).elim (hbs.fits b) (hcs.fits b),
      List.pairwise_append.2 ⟨hbs.separate, hcs.separate, hboth⟩⟩

theorem image_cons (m : Media) (b : Block) (bs : List Block) :
    image m (b :: bs) = b.bytes m ++ image m bs :=
  List.flatMap_cons

theorem image_length (h : Chain m bs) : (image m bs).length = totalSize bs := by
  induction bs with
  | nil => rfl
  | cons b bs ih =>
    rw [image_cons, List.length_append, Block.bytes_length (h.fits b List.mem_cons_self), ih h.tail,
      totalSize_cons]

theorem readLoop_cons (h : b.Fits m) {offset : ℕ} (hoffset : offset ≤ b.size) (l : ℕ)
    (hrest : ∀ l, readLoop m bs 0 l = (image m bs).take l) :
    readLoop m (b :: bs) offset l = ((image m (b :: bs)).drop offset).take l := by
  have hlen := Block.bytes_length h
  rw [readLoop]
  by_cases hl : l = 0
  · rw [if_pos hl, hl, List.take_zero]
  · rw [if_neg hl, Block.read_eq h hoffset]
    dsimp only
    rw [hrest, image_cons, List.drop_append_of_le_length (by omega), List.take_append,
      List.length_take, List.length_drop]
    congr 2
    omega

theorem readLoop_take (h : Chain m bs) (l : ℕ) : readLoop m bs 0 l = (image m bs).take l := by
  induction bs generalizing l with
  | nil => exact List.take_nil.symm
  | cons b bs ih =>
    rw [readLoop_cons (h.fits b List.mem_cons_self) (Nat.zero_le _) l (ih h.tail), List.drop_zero]

/-- Reading from the chain is reading from its image. -/
theorem readLoop_eq (h : Chain m (b :: bs)) {offset : ℕ} (hoffset : offset ≤ b.size) (l : ℕ) :
    readLoop m (b :: bs) offset l = ((image m (b :: bs)).drop offset).take l :=
  readLoop_cons (h.fits b List.mem_cons_self) hoffset l (readLoop_take h.tail)

/-- What writing to the blocks does. -/
structure Wrote (m : Media) (bs : List Block) (offset : ℕ) (data : List UInt8)
    (r : Media × List Block) : Prop where
  image : image r.1 r.2 = blit (image m bs) offset data
  shapes : r.2.map Block.shape = bs.map Block.shape
  fits : ∀ b ∈ r.2, b.Fits r.1
  sizes : m.SameSizes r.1
  frame : ∀ c, (∀ b ∈ bs, b.Separate c) → c.Fits m → c.bytes r.1 = c.bytes m

theorem Wrote.nothing (h : Chain m bs) {offset : ℕ} (hoffset : offset ≤ totalSize bs) :
    Wrote m bs offset [] (m, bs) where
  image := (blit_nil (hoffset.trans_eq (image_length h).symm)).symm
  shapes := rfl
  fits := h.fits
  sizes := .refl m
  frame _ _ _ := rfl

theorem Chain.write (h : Chain m (b :: bs)) {offset : ℕ} (hoffset : offset ≤ b.size)
    (data : List UInt8) : Chain (b.write m offset data).1 bs := by
  obtain ⟨-, -, -, hsizes, -⟩ := Block.write_spec (h.fits b List.mem_cons_self) hoffset data
  exact ⟨fun c hc => (h.tail.fits c hc).congr hsizes, h.tail.separate⟩

theorem writeLoop_cons (h : Chain m (b :: bs)) {offset : ℕ} (hoffset : offset ≤ b.size)
    {data : List UInt8} (hdata : data ≠ []) (hroom : offset + data.length ≤ totalSize (b :: bs))
    (hrest : Wrote (b.write m offset data).1 bs 0 (data.drop (b.size - offset))
      (writeLoop (b.write m offset data).1 bs 0 (data.drop (b.size - offset)))) :
    Wrote m (b :: bs) offset data (writeLoop m (b :: bs) offset data) := by
  have hb := h.fits b List.mem_cons_self
  have hsep := (List.pairwise_cons.1 h.separate).1
  obtain ⟨hbytes, hshape, hfits, hsizes, hframe⟩ := Block.write_spec hb hoffset data
  have hdrop : data.drop (b.written offset data) = data.drop (b.size - offset) := by
    rw [Block.written_eq, List.drop_eq_drop_iff]
    omega
  have hsame : image (b.write m offset data).1 bs = image m bs :=
    List.flatMap_congr fun c hc => hframe c (hsep c hc) (h.tail.fits c hc)
  have hkept : ∀ c ∈ bs, c.Separate (b.write m offset data).2 := fun c hc => by
    have hc := hsep c hc
    rw [← Block.separate_shape, ← hshape, Block.separate_shape] at hc
    exact hc.symm
  rw [writeLoop, if_neg hdata]
  dsimp only
  rw [hdrop]
  refine ⟨?_, ?_, ?_, hsizes.trans hrest.sizes, fun c hc hcfits => ?_⟩
  · have hlen := Block.bytes_length hb
    rw [image_cons, image_cons, hrest.frame _ hkept hfits, hrest.image, hsame, hbytes,
      blit_append (by omega) (by rw [image_length h.tail, hlen]; exact hroom), hlen]
  · rw [List.map_cons, List.map_cons, hshape, hrest.shapes]
  · rintro c hc
    rcases List.mem_cons.1 hc with rfl | hc
    · exact hfits.congr hrest.sizes
    · exact hrest.fits c hc
  · rw [hrest.frame c (fun d hd => hc d (List.mem_cons_of_mem _ hd)) (hcfits.congr hsizes),
      hframe c (hc b List.mem_cons_self) hcfits]

theorem writeLoop_nil (m : Media) (bs : List Block) (offset : ℕ) :
    writeLoop m bs offset [] = (m, bs) := by
  cases bs with
  | nil => rfl
  | cons b bs => rw [writeLoop, if_pos rfl]

theorem wrote_zero (h : Chain m bs) {data : List UInt8} (hroom : data.length ≤ totalSize bs) :
    Wrote m bs 0 data (writeLoop m bs 0 data) := by
  induction bs generalizing m data with
  | nil =>
    rw [List.length_eq_zero_iff.1 (Nat.le_zero.1 hroom)]
    exact .nothing h le_rfl
  | cons b bs ih =>
    by_cases hdata : data = []
    · rw [hdata, writeLoop_nil]
      exact .nothing h (Nat.zero_le _)
    · refine writeLoop_cons h (Nat.zero_le _) hdata (by omega) (ih (h.write (Nat.zero_le _) data) ?_)
      rw [List.length_drop]
      rw [totalSize_cons] at hroom
      omega

/-- Writing to the chain is writing to its image. -/
theorem wrote (h : Chain m (b :: bs)) {offset : ℕ} (hoffset : offset ≤ b.size) {data : List UInt8}
    (hroom : offset + data.length ≤ totalSize (b :: bs)) :
    Wrote m (b :: bs) offset data (writeLoop m (b :: bs) offset data) := by
  by_cases hdata : data = []
  · rw [hdata, writeLoop_nil]
    exact .nothing h (by rw [totalSize_cons]; omega)
  · refine writeLoop_cons h hoffset hdata hroom (wrote_zero (h.write hoffset data) ?_)
    rw [List.length_drop]
    rw [totalSize_cons] at hroom
    omega

end Chain

end FirebirdCore.Temp
