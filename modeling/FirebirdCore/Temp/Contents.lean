import FirebirdCore.Temp.Image
import FirebirdCore.Lib.Run

/-!
# What the temporary space holds

`Valid` is kept by every write and extension for which there is room, and the image changes as a flat
buffer would: it gets longer, and a write replaces its bytes. So what is read is what was written
last.
-/
namespace FirebirdCore.Temp
open FirebirdCore.Buffer FirebirdCore.Run

/-! ## Finding the block of an offset -/

/-- The offset is `off` bytes behind the start of block number `i`, and in it. -/
structure Places (bs : List Block) (offset i off : ℕ) : Prop where
  sum : totalSize (bs.take i) + off = offset
  inside : ∃ b, bs[i]? = some b ∧ off < b.size

theorem walkForward_places {bs : List Block} {offset : ℕ} (h : offset < totalSize bs) (n : ℕ) :
    ∃ i off, walkForward bs n offset = some (n + i, off) ∧ Places bs offset i off := by
  induction bs generalizing offset n with
  | nil => exact absurd h (Nat.not_lt_zero _)
  | cons b bs ih =>
    rw [totalSize_cons] at h
    by_cases hb : offset ≥ b.size
    · obtain ⟨i, off, hwalk, hsum, hinside⟩ := ih
        (show offset - b.size < totalSize bs by omega) (n + 1)
      refine ⟨i + 1, off, ?_, ?_, hinside⟩
      · rw [walkForward, if_pos hb, hwalk, Nat.add_right_comm, Nat.add_assoc]
      · rw [List.take_succ_cons, totalSize_cons]
        omega
    · exact ⟨0, offset, by rw [walkForward, if_neg hb, Nat.add_zero], Nat.zero_add _, b, rfl,
        Nat.lt_of_not_le hb⟩

/-- The blocks `bs` are left to walk over, and those behind them have `later` bytes. -/
theorem walkBackward_places {bs : List Block} {offset : ℕ} (h : offset < totalSize bs) (later : ℕ) :
    ∃ i off, walkBackward (totalSize bs + later) bs.reverse (offset + later) = some (i, off) ∧
      Places bs offset i off := by
  induction bs using List.reverseRecOn generalizing later with
  | nil => exact absurd h (Nat.not_lt_zero _)
  | append_singleton bs b ih =>
    rw [totalSize_append, totalSize_cons, totalSize_nil] at h ⊢
    rw [List.reverse_concat]
    by_cases hbs : offset < totalSize bs
    · obtain ⟨i, off, hwalk, hsum, c, hc, hoff⟩ := ih hbs (b.size + later)
      have hi : i < bs.length := (List.getElem?_eq_some_iff.1 hc).1
      refine ⟨i, off, ?_, ?_, c, ?_, hoff⟩
      · rw [walkBackward, if_pos (by omega), ← hwalk]
        congr 1 <;> omega
      · rw [List.take_append_of_le_length hi.le]
        exact hsum
      · rw [List.getElem?_append_left hi]
        exact hc
    · refine ⟨bs.length, offset - totalSize bs, ?_, ?_, b, List.getElem?_concat_length .., by omega⟩
      · rw [walkBackward, if_neg (by omega), List.length_reverse]
        congr 2
        omega
      · rw [List.take_left]
        omega

theorem Places.le {bs : List Block} {offset i off j off' : ℕ} (h : Places bs offset i off)
    (h' : Places bs offset j off') : i ≤ j := by
  by_contra hlt
  obtain ⟨b, hb, hoff⟩ := h'.inside
  have hsum := h.sum
  have hsum' := h'.sum
  have htake : totalSize (bs.take (j + 1)) ≤ totalSize (bs.take i) :=
    ((List.take_sublist_take_left (by omega)).map _).sum_le_sum fun _ _ => Nat.zero_le _
  rw [List.take_add_one, hb, totalSize_append, Option.toList_some, totalSize_cons] at htake
  omega

/-- An offset is in one block only. -/
theorem Places.unique {bs : List Block} {offset i off j off' : ℕ} (h : Places bs offset i off)
    (h' : Places bs offset j off') : i = j ∧ off = off' := by
  have hij : i = j := le_antisymm (h.le h') (h'.le h)
  have hsum := h.sum
  have hsum' := h'.sum
  rw [hij] at hsum
  exact ⟨hij, by omega⟩

/-- The blocks in front of the offset, its block, and those behind it. -/
theorem Places.split {bs : List Block} {offset i off : ℕ} (h : Places bs offset i off) :
    ∃ b behind, bs = bs.take i ++ b :: behind ∧ bs.drop i = b :: behind ∧ off < b.size := by
  obtain ⟨b, hb, hoff⟩ := h.inside
  obtain ⟨hi, rfl⟩ := List.getElem?_eq_some_iff.1 hb
  have hdrop := List.drop_eq_getElem_cons hi
  exact ⟨_, _, by rw [← hdrop, List.take_append_drop], hdrop, hoff⟩

/-! ## The invariant -/

namespace TempSpace

/-- The chain as it should be. -/
structure Valid (s : TempSpace) : Prop where
  chain : Chain s.media s.blocks
  physical : s.physicalSize = totalSize s.blocks
  logical : s.logicalSize ≤ s.physicalSize
  /-- The initial buffer is the only block, and full. -/
  initial : s.media.initialBuffer ≠ [] →
    s.blocks = [⟨.initial, s.physicalSize⟩] ∧ s.logicalSize = s.physicalSize
  /-- There is no way back to the initial buffer. -/
  dynamic : s.initiallyDynamic → s.media.initialBuffer = [] →
    s.blocks = [] ∨ minTempBlockSize ≤ s.logicalSize
  positive : ∀ b ∈ s.blocks, 0 < b.size
  /-- A file block in the end of the chain is in the end of its file. -/
  tail : ∀ file seek size, s.blocks.getLast? = some ⟨.file file seek, size⟩ →
    seek + size = (s.media.files file).length

/-- The bytes of the space. -/
def contents (s : TempSpace) : List UInt8 := image s.media s.blocks

variable {s : TempSpace}

theorem empty_valid (dynamic : Bool) : (empty dynamic).Valid where
  chain := ⟨fun _ h => absurd h List.not_mem_nil, List.Pairwise.nil⟩
  physical := rfl
  logical := le_rfl
  initial h := absurd rfl h
  dynamic _ _ := .inl rfl
  positive _ h := absurd h List.not_mem_nil
  tail _ _ _ h := nomatch h

theorem Valid.contents_length (h : s.Valid) : s.contents.length = s.physicalSize :=
  (image_length h.chain).trans h.physical.symm

theorem Valid.findBlock (h : s.Valid) {offset : ℕ} (hoffset : offset < s.physicalSize) :
    ∃ i off, s.findBlock offset = some (i, off) ∧ Places s.blocks offset i off := by
  rw [h.physical] at hoffset
  rw [TempSpace.findBlock]
  split_ifs
  · obtain ⟨i, off, hwalk, hplaces⟩ := walkForward_places hoffset 0
    exact ⟨i, off, by rw [hwalk, Nat.zero_add], hplaces⟩
  · rw [h.physical]
    exact walkBackward_places hoffset 0

/-- Reading is reading from the contents. -/
theorem Valid.read_eq (h : s.Valid) {offset length : ℕ} (hroom : offset + length ≤ s.logicalSize) :
    s.read offset length = (s.contents.drop offset).take length := by
  have hlogical := h.logical
  rw [read]
  by_cases hlength : length = 0
  · rw [if_pos hlength, hlength, List.take_zero]
  · obtain ⟨i, off, hfind, hplaces⟩ := h.findBlock (show offset < s.physicalSize by omega)
    obtain ⟨b, behind, hblocks, hdrop, hoff⟩ := hplaces.split
    have hchain := h.chain
    rw [hblocks, chain_append] at hchain
    rw [if_neg hlength, hfind]
    dsimp only
    rw [hdrop, readLoop_eq hchain.2.1 hoff.le, contents, hblocks, image_append, ← hplaces.sum,
      ← image_length hchain.1, List.drop_length_add_append]

/-- The same blocks with other bytes in them. -/
structure SameShape (s s' : TempSpace) : Prop where
  shapes : s'.blocks.map Block.shape = s.blocks.map Block.shape
  fits : ∀ b ∈ s'.blocks, b.Fits s'.media
  sizes : s.media.SameSizes s'.media
  logicalSize : s'.logicalSize = s.logicalSize
  physicalSize : s'.physicalSize = s.physicalSize
  initiallyDynamic : s'.initiallyDynamic = s.initiallyDynamic

theorem SameShape.valid {s' : TempSpace} (h : s.SameShape s') (hs : s.Valid) : s'.Valid := by
  have hmem : ∀ b ∈ s'.blocks, ∃ c ∈ s.blocks, b.shape = c.shape := fun b hb => by
    obtain ⟨c, hc, heq⟩ := List.mem_map.1 (h.shapes ▸ List.mem_map_of_mem hb)
    exact ⟨c, hc, heq.symm⟩
  have hempty : s'.media.initialBuffer = [] ↔ s.media.initialBuffer = [] := by
    rw [← List.length_eq_zero_iff, ← List.length_eq_zero_iff, h.sizes.initialBuffer]
  refine ⟨⟨h.fits, ?_⟩, ?_, ?_, fun hbuffer => ?_, fun hdynamic hbuffer => ?_, fun b hb => ?_,
    fun file seek size hlast => ?_⟩
  · exact (pairwise_shapes h.shapes).2 hs.chain.separate
  · rw [h.physicalSize, hs.physical, totalSize_shapes h.shapes]
  · rw [h.logicalSize, h.physicalSize]
    exact hs.logical
  · obtain ⟨hblocks, hfull⟩ := hs.initial (mt hempty.2 hbuffer)
    have hshapes := h.shapes
    rw [hblocks, List.map_singleton, List.map_eq_singleton_iff] at hshapes
    obtain ⟨b, hb, hshape⟩ := hshapes
    rw [hb, h.logicalSize, h.physicalSize, Block.eq_of_shape hshape (fun _ h => nomatch h)]
    exact ⟨rfl, hfull⟩
  · rw [h.logicalSize]
    refine (hs.dynamic (h.initiallyDynamic ▸ hdynamic) (hempty.1 hbuffer)).imp_left fun hblocks => ?_
    have hshapes := h.shapes
    rwa [hblocks, List.map_nil, List.map_eq_nil_iff] at hshapes
  · obtain ⟨c, hc, heq⟩ := hmem b hb
    rw [← Block.shape_size, heq, Block.shape_size]
    exact hs.positive c hc
  · have hlast' : (s.blocks.map Block.shape).getLast? = some ⟨.file file seek, size⟩ := by
      rw [← h.shapes, List.getLast?_map, hlast]
      rfl
    rw [List.getLast?_map, Option.map_eq_some_iff] at hlast'
    obtain ⟨b, hb, hshape⟩ := hlast'
    rw [Block.eq_of_shape hshape (fun _ h => nomatch h)] at hb
    rw [hs.tail file seek size hb, h.sizes.files]

/-- Writing is writing to the contents. -/
theorem Valid.writeInside (h : s.Valid) {offset : ℕ} {data : List UInt8}
    (hroom : offset + data.length ≤ s.logicalSize) :
    s.SameShape (s.writeInside offset data) ∧
      (s.writeInside offset data).contents = blit s.contents offset data := by
  have hlogical := h.logical
  rw [TempSpace.writeInside]
  by_cases hdata : data = []
  · rw [if_pos hdata, hdata, blit_nil (by rw [h.contents_length]; omega)]
    exact ⟨⟨rfl, h.chain.fits, .refl _, rfl, rfl, rfl⟩, rfl⟩
  · have hlength : 0 < data.length := List.length_pos_of_ne_nil hdata
    obtain ⟨i, off, hfind, hplaces⟩ := h.findBlock (show offset < s.physicalSize by omega)
    obtain ⟨b, behind, hblocks, hdrop, hoff⟩ := hplaces.split
    have hchain := h.chain
    have htotal := h.physical
    have hsum := hplaces.sum
    rw [hblocks, chain_append] at hchain
    rw [hblocks, totalSize_append] at htotal
    obtain ⟨hfront, hback, hboth⟩ := hchain
    have hbehind : off + data.length ≤ totalSize (b :: behind) := by omega
    have hwrote := wrote hback hoff.le hbehind
    have hsame : image (writeLoop s.media (b :: behind) off data).1 (s.blocks.take i) =
        image s.media (s.blocks.take i) :=
      List.flatMap_congr fun c hc =>
        hwrote.frame c (fun d hd => (hboth c hc d hd).symm) (hfront.fits c hc)
    rw [if_neg hdata, hfind]
    dsimp only
    rw [hdrop]
    refine ⟨⟨?_, fun c hc => ?_, hwrote.sizes, rfl, rfl, rfl⟩, ?_⟩
    · conv_rhs => rw [hblocks]
      rw [List.map_append, List.map_append, hwrote.shapes]
    · exact (List.mem_append.1 hc).elim (fun hc => (hfront.fits c hc).congr hwrote.sizes)
        (hwrote.fits c)
    · have hlen : (image s.media (s.blocks.take i)).length + off = offset := by
        rw [image_length hfront, hsum]
      have hin : off ≤ (image s.media (b :: behind)).length := by
        rw [image_length hback, totalSize_cons]
        omega
      conv_rhs => rw [contents, hblocks, image_append, ← hlen, blit_append_right _ _ hin]
      rw [contents, image_append, hsame, hwrote.image]

end TempSpace

/-! ## A new block -/

/-- Appending to a file keeps the blocks in it. -/
theorem Chain.setFile {m : Media} {bs : List Block} (h : Chain m bs) (file : ℕ)
    (more : List UInt8) :
    let m' := m.setFile file (m.files file ++ more)
    Chain m' bs ∧ image m' bs = image m bs := by
  have hkept : ∀ b ∈ bs, b.Fits (m.setFile file (m.files file ++ more)) ∧
      b.bytes (m.setFile file (m.files file ++ more)) = b.bytes m := by
    rintro ⟨store, size⟩ hb
    have hfits := h.fits _ hb
    cases store with
    | initial => exact ⟨hfits, rfl⟩
    | memory bytes => exact ⟨hfits, rfl⟩
    | file file' seek =>
      by_cases hfile : file' = file
      · subst hfile
        have hlen : seek + size ≤ (m.files file').length := hfits
        constructor
        · show seek + size ≤ ((m.setFile file' _).files file').length
          rw [Media.setFile_self, List.length_append]
          omega
        · show slice ((m.setFile file' _).files file') _ = slice (m.files file') _
          rw [Media.setFile_self, slice_append_left (e := ⟨seek, size⟩) hlen]
      · constructor
        · show seek + size ≤ ((m.setFile file _).files file').length
          rw [Media.setFile_of_ne m hfile]
          exact hfits
        · show slice ((m.setFile file _).files file') _ = slice (m.files file') _
          rw [Media.setFile_of_ne m hfile]
  exact ⟨⟨fun b hb => (hkept b hb).1, h.separate⟩, List.flatMap_congr fun b hb => (hkept b hb).2⟩

namespace TempSpace

/-- What `newBlock` needs. -/
structure Open (s : TempSpace) (size : ℕ) : Prop where
  chain : Chain s.media s.blocks
  positive : ∀ b ∈ s.blocks, 0 < b.size
  initial : s.media.initialBuffer ≠ [] → s.blocks = []
  room : s.media.initialBuffer.length ≤ size
  size_pos : 0 < size

/-- There is a block more, of `size` bytes, and the bytes are kept, those of the initial buffer
behind the others. -/
structure HasNewBlock (s s' : TempSpace) (size : ℕ) : Prop where
  chain : Chain s'.media s'.blocks
  positive : ∀ b ∈ s'.blocks, 0 < b.size
  tail : ∀ file seek size, s'.blocks.getLast? = some ⟨.file file seek, size⟩ →
    seek + size = (s'.media.files file).length
  total : totalSize s'.blocks = totalSize s.blocks + size
  contents : s.contents ++ s.media.initialBuffer <+: s'.contents
  buffer : s'.media.initialBuffer = []
  same : s' = { s with
    blocks := s'.blocks
    media := s'.media }

variable {s : TempSpace} {size : ℕ}

/-- What `appendBlock` needs to know of the new block. -/
structure NewBlock (s : TempSpace) (b : Block) : Prop where
  store : b.store ≠ .initial
  fits : b.Fits s.media
  separate : ∀ c ∈ s.blocks, c.Separate b
  inEnd : ∀ file seek, b.store = .file file seek → seek + b.size = (s.media.files file).length

theorem Open.appendBlock_nil {b : Block} (h : s.Open b.size) (hb : s.NewBlock b)
    (hbuffer : s.media.initialBuffer = []) : s.HasNewBlock (s.appendBlock b) b.size := by
  have hmedia : ({ s.media with initialBuffer := [] } : Media) = s.media := by rw [← hbuffer]
  rw [TempSpace.appendBlock, if_pos hbuffer]
  dsimp only
  rw [hmedia]
  refine ⟨chain_append.2 ⟨h.chain, ⟨?_, List.pairwise_singleton ..⟩, ?_⟩, fun c hc => ?_, ?_, ?_,
    ?_, hbuffer, rfl⟩
  · exact fun c hc => List.mem_singleton.1 hc ▸ hb.fits
  · exact fun c hc d hd => List.mem_singleton.1 hd ▸ hb.separate c hc
  · rcases List.mem_append.1 hc with hc | hc
    · exact h.positive c hc
    · exact List.mem_singleton.1 hc ▸ h.size_pos
  · intro file seek size hlast
    rw [List.getLast?_concat, Option.some.injEq] at hlast
    subst hlast
    exact hb.inEnd file seek rfl
  · rw [totalSize_append, totalSize_cons, totalSize_nil, Nat.add_zero]
  · rw [hbuffer, List.append_nil, TempSpace.contents, TempSpace.contents, image_append]
    exact List.prefix_append ..

/-- The contents of the initial buffer move to the new block. -/
theorem Open.appendBlock_initial {b : Block} (h : s.Open b.size) (hb : s.NewBlock b)
    (hbuffer : s.media.initialBuffer ≠ []) : s.HasNewBlock (s.appendBlock b) b.size := by
  have hblocks := h.initial hbuffer
  obtain ⟨hbytes, hshape, hfits, hsizes, -⟩ :=
    Block.write_spec hb.fits (Nat.zero_le _) s.media.initialBuffer
  rw [TempSpace.appendBlock, if_neg hbuffer, hblocks]
  dsimp only
  generalize b.write s.media 0 s.media.initialBuffer = r at *
  have hstore : r.2.store ≠ .initial := fun hinitial =>
    hb.store (Block.store_initial_of_shape hshape hinitial)
  have hsize : r.2.size = b.size := by rw [← Block.shape_size, hshape, Block.shape_size]
  refine ⟨⟨fun c hc => ?_, List.pairwise_singleton ..⟩, fun c hc => ?_, fun file seek size hlast => ?_,
    ?_, ?_, rfl, by rw [List.nil_append]⟩
  · rw [List.mem_singleton.1 hc]
    exact (Block.dropInitial _ hstore).1.2 hfits
  · rw [List.mem_singleton.1 hc, hsize]
    exact h.size_pos
  · rw [List.nil_append, List.getLast?_singleton, Option.some.injEq] at hlast
    rw [hlast] at hshape
    have heq : b = ⟨.file file seek, size⟩ := Block.eq_of_shape hshape.symm (fun _ h => nomatch h)
    subst heq
    exact (hb.inEnd file seek rfl).trans (hsizes.files file).symm
  · rw [hblocks, List.nil_append, totalSize_cons, hsize, totalSize_nil, Nat.zero_add, Nat.add_zero]
  · rw [TempSpace.contents, TempSpace.contents, hblocks, List.nil_append, image_cons,
      (Block.dropInitial _ hstore).2, hbytes, Nat.sub_zero, List.take_of_length_le h.room]
    exact (blit_front List.nil_prefix le_rfl _).trans (List.prefix_append ..)

theorem Open.appendBlock {b : Block} (h : s.Open b.size) (hb : s.NewBlock b) :
    s.HasNewBlock (s.appendBlock b) b.size := by
  by_cases hbuffer : s.media.initialBuffer = []
  · exact h.appendBlock_nil hb hbuffer
  · exact h.appendBlock_initial hb hbuffer

/-- There are `size` bytes more in the file. -/
def growFile (s : TempSpace) (file size : ℕ) : TempSpace :=
  { s with media := s.media.setFile file (s.media.files file ++ List.replicate size 0) }

theorem growFile_length (s : TempSpace) (file size : ℕ) :
    ((s.growFile file size).media.files file).length = (s.media.files file).length + size := by
  rw [growFile, Media.setFile_self, List.length_append, List.length_replicate]

/-- A block for the new bytes of the file. -/
theorem Open.appendFileBlock (h : s.Open size) (file : ℕ) :
    s.HasNewBlock
      ((s.growFile file size).appendBlock ⟨.file file (s.media.files file).length, size⟩) size := by
  obtain ⟨hchain, himage⟩ := h.chain.setFile file (List.replicate size 0)
  have hopen : (s.growFile file size).Open size :=
    ⟨hchain, h.positive, h.initial, h.room, h.size_pos⟩
  have hnew : (s.growFile file size).NewBlock ⟨.file file (s.media.files file).length, size⟩ := by
    refine ⟨fun h => (nomatch h), (s.growFile_length file size).ge, fun c hc => ?_, ?_⟩
    · have hfits := h.chain.fits c hc
      rcases c with ⟨store, size'⟩
      cases store with
      | initial => trivial
      | memory bytes => trivial
      | file file' seek =>
        by_cases hfile : file' = file
        · exact .inr (.inl (hfile ▸ hfits))
        · exact .inl hfile
    · rintro _ _ ⟨⟩
      exact (s.growFile_length file size).symm
  have happend := Open.appendBlock hopen hnew
  exact { happend with contents := (congrArg (· ++ s.media.initialBuffer) himage.symm) ▸ happend.contents }

/-- The block in the end of the chain grows with its file. -/
theorem Open.growTail (h : s.Open size) {file seek tailSize : ℕ}
    (hlast : s.blocks.getLast? = some ⟨.file file seek, tailSize⟩)
    (htail : seek + tailSize = (s.media.files file).length) :
    s.HasNewBlock { s.growFile file size with
      blocks := s.blocks.dropLast ++ [⟨.file file seek, tailSize + size⟩] } size := by
  have hblocks := (List.dropLast_append_getLast? _ hlast).symm
  have hbuffer : s.media.initialBuffer = [] := by
    by_contra hbuffer
    rw [h.initial hbuffer] at hlast
    exact absurd hlast (fun h => nomatch h)
  have hpositive := h.positive
  have hchain := h.chain
  generalize s.blocks.dropLast = front at hblocks ⊢
  rw [hblocks, chain_append] at hchain
  rw [hblocks, List.forall_mem_append, List.forall_mem_singleton] at hpositive
  obtain ⟨hfront, -, hseparate⟩ := hchain
  obtain ⟨hfront', himage⟩ := hfront.setFile file (List.replicate size 0)
  have hlength := s.growFile_length file size
  refine ⟨chain_append.2 ⟨hfront', ⟨fun c hc => ?_, List.pairwise_singleton ..⟩, fun c hc d hd => ?_⟩,
    ?_, fun file' seek' size' hlast' => ?_, ?_, ?_, hbuffer, rfl⟩
  · rw [List.mem_singleton.1 hc]
    show seek + (tailSize + size) ≤ ((s.growFile file size).media.files file).length
    omega
  · rw [List.mem_singleton.1 hd]
    have hc' := hseparate c hc _ List.mem_cons_self
    have hfits := hfront.fits c hc
    have hcpos := hpositive.1 c hc
    rcases c with ⟨store, csize⟩
    cases store with
    | initial => trivial
    | memory bytes => trivial
    | file cfile cseek =>
      by_cases hfile : cfile = file
      · subst hfile
        have hcfits : cseek + csize ≤ (s.media.files cfile).length := hfits
        have hcapart := hc'.resolve_left (not_not.2 rfl)
        refine .inr ?_
        simp only [Extent.Apart, Extent.finish] at hcapart hcpos ⊢
        omega
      · exact .inl hfile
  · rw [List.forall_mem_append, List.forall_mem_singleton]
    exact ⟨hpositive.1, Nat.add_pos_left hpositive.2 _⟩
  · rw [List.getLast?_concat, Option.some.injEq, Block.mk.injEq, Store.file.injEq] at hlast'
    obtain ⟨⟨rfl, rfl⟩, rfl⟩ := hlast'
    show seek + (tailSize + size) = ((s.growFile file size).media.files file).length
    omega
  · simp only [hblocks, totalSize_append, totalSize_cons, totalSize_nil]
    omega
  · rw [hbuffer, List.append_nil, TempSpace.contents, TempSpace.contents, hblocks, image_append,
      image_append]
    have hgrown : (s.growFile file size).media.files file =
        s.media.files file ++ List.replicate size 0 := Media.setFile_self ..
    have hslice : slice (s.media.files file) ⟨seek, tailSize⟩ <+:
        slice ((s.growFile file size).media.files file) ⟨seek, tailSize + size⟩ := by
      have hkept : slice (s.media.files file ++ List.replicate size 0) ⟨seek, tailSize⟩ =
          slice (s.media.files file) ⟨seek, tailSize⟩ := slice_append_left htail.le
      rw [hgrown, ← hkept]
      exact List.take_prefix_take_left (Nat.le_add_right ..)
    rw [show image (s.growFile file size).media front = image s.media front from himage]
    refine (List.prefix_append_right_inj _).2 ?_
    rw [image_cons, image_cons]
    exact (List.append_nil _).symm ▸ (List.append_nil _).symm ▸ hslice

theorem Open.newBlock (h : s.Open size) {backing : Backing} (hbacking : backing ≠ .noRoom)
    (htail : ∀ file seek size, s.blocks.getLast? = some ⟨.file file seek, size⟩ →
      seek + size = (s.media.files file).length) :
    (s.newBlock size backing).2 = true ∧ s.HasNewBlock (s.newBlock size backing).1 size := by
  cases backing with
  | noRoom => exact absurd rfl hbacking
  | memory junk =>
    refine ⟨rfl, Open.appendBlock (b := ⟨.memory (junk.takeD size 0), size⟩) h ⟨fun h => (nomatch h),
      List.takeD_length .., fun c _ => ?_, fun _ _ h => (nomatch h)⟩⟩
    rcases c with ⟨store, size'⟩
    cases store <;> trivial
  | file file =>
    rw [TempSpace.newBlock]
    dsimp only
    split
    · next tail tailSeek tailSize hlast =>
      by_cases hfile : tail = file
      · subst hfile
        rw [if_pos rfl]
        exact ⟨rfl, h.growTail hlast (htail _ _ _ hlast)⟩
      · rw [if_neg hfile]
        exact ⟨rfl, h.appendFileBlock file⟩
    · exact ⟨rfl, h.appendFileBlock file⟩

/-! ## Extending -/

/-- More than the chain has is asked for, and more than the initial buffer may have. -/
def NeedsBlock (s : TempSpace) (size : ℕ) : Prop :=
  s.physicalSize < s.logicalSize + size ∧
    ¬ (s.initiallyDynamic ∧ s.logicalSize + size < minTempBlockSize)

/-- The size of the block asked for. -/
def blockSize (minBlockSize : ℕ) (s : TempSpace) (size : ℕ) : ℕ :=
  fbAlign (if s.media.initialBuffer = [] then s.logicalSize + size - s.physicalSize
    else s.logicalSize + size) minBlockSize

/-- A block that is needed has a size of 32 bits, and there is room for it. -/
def HasRoom (minBlockSize : ℕ) (s : TempSpace) (size : ℕ) (backing : Backing) : Prop :=
  s.NeedsBlock size → s.blockSize minBlockSize size < 2 ^ 32 ∧ backing ≠ .noRoom

instance (s : TempSpace) (size : ℕ) : Decidable (s.NeedsBlock size) :=
  inferInstanceAs (Decidable (_ ∧ _))

instance (minBlockSize : ℕ) (s : TempSpace) (size : ℕ) (backing : Backing) :
    Decidable (s.HasRoom minBlockSize size backing) :=
  inferInstanceAs (Decidable (_ → _))

/-- The space is `size` bytes larger, and what it held is in front. -/
structure Extended (s s' : TempSpace) (size : ℕ) : Prop where
  valid : s'.Valid
  logicalSize : s'.logicalSize = s.logicalSize + size
  contents : s.contents <+: s'.contents
  freeSegments : s'.freeSegments = s.freeSegments

theorem fbAlign_le (n b : ℕ) : n ≤ fbAlign n b := by
  have hand : (n + (b - 1)) &&& (b - 1) ≤ b - 1 := Nat.and_le_right
  rw [fbAlign]
  omega

/-- The new block makes the chain valid again. -/
theorem HasNewBlock.valid {s' : TempSpace} (h : s.HasNewBlock s' size)
    (hphysical : s.physicalSize = totalSize s.blocks + size) (hlogical : s.logicalSize ≤ s.physicalSize)
    (hdynamic : s.initiallyDynamic → minTempBlockSize ≤ s.logicalSize) : s'.Valid := by
  have hsame := h.same
  refine ⟨h.chain, ?_, ?_, fun hbuffer => absurd h.buffer hbuffer, fun hinitial _ => .inr ?_, h.positive,
    h.tail⟩
  · rw [hsame, h.total]
    exact hphysical
  · rw [hsame]
    exact hlogical
  · rw [hsame] at hinitial ⊢
    exact hdynamic hinitial

/-- A small dynamic space has its initial buffer at most. -/
theorem Valid.small (h : s.Valid) (hdynamic : s.initiallyDynamic)
    (hsmall : s.logicalSize < minTempBlockSize) :
    s.contents = s.media.initialBuffer ∧ s.media.initialBuffer.length = s.logicalSize ∧
      s.physicalSize = s.logicalSize := by
  have hphysical := h.physical
  by_cases hbuffer : s.media.initialBuffer = []
  · have hblocks := (h.dynamic hdynamic hbuffer).resolve_right (by omega)
    have hlogical := h.logical
    rw [hblocks, totalSize_nil] at hphysical
    rw [contents, hblocks, hbuffer, List.length_nil]
    exact ⟨rfl, by omega, by omega⟩
  · obtain ⟨hblocks, hfull⟩ := h.initial hbuffer
    have hfits : s.media.initialBuffer.length = s.physicalSize :=
      h.chain.fits ⟨.initial, s.physicalSize⟩ (hblocks ▸ List.mem_cons_self)
    rw [contents, hblocks, hfull]
    exact ⟨List.append_nil _, hfits, rfl⟩

/-- The initial buffer grows, or is there for the first time. -/
theorem Valid.extend_initial (h : s.Valid) (hdynamic : s.initiallyDynamic) (hsize : 0 < size)
    (hsmall : s.logicalSize + size < minTempBlockSize) :
    s.Extended { s with
      logicalSize := s.logicalSize + size
      blocks := [⟨.initial, s.logicalSize + size⟩]
      media := { s.media with initialBuffer := s.media.initialBuffer.takeD (s.logicalSize + size) 0 }
      physicalSize := s.logicalSize + size } size := by
  obtain ⟨hcontents, hlength, -⟩ := h.small hdynamic (by omega)
  refine ⟨⟨⟨fun b hb => ?_, List.pairwise_singleton ..⟩, rfl, le_rfl, fun _ => ⟨rfl, rfl⟩,
    fun _ hbuffer => ?_, fun b hb => ?_, fun _ _ _ hlast => nomatch hlast⟩, rfl, ?_, rfl⟩
  · rw [List.mem_singleton.1 hb]
    exact List.takeD_length ..
  · have hlength' := congrArg List.length hbuffer
    rw [List.takeD_length, List.length_nil] at hlength'
    omega
  · rw [List.mem_singleton.1 hb]
    exact Nat.add_pos_right _ hsize
  · rw [hcontents]
    refine List.IsPrefix.trans ?_ (List.prefix_append _ [])
    conv_lhs => rw [← List.take_length (l := s.media.initialBuffer)]
    rw [← List.takeD_eq_take 0 le_rfl, hlength, ← take_takeD _ _ size]
    exact List.take_prefix ..

/-- A dynamic space that needs a large block has left the sizes of the initial buffer. -/
theorem NeedsBlock.large (h : s.NeedsBlock size) (hdynamic : s.initiallyDynamic) :
    minTempBlockSize ≤ s.logicalSize + size :=
  Nat.le_of_not_lt fun hlt => h.2 ⟨hdynamic, hlt⟩

/-- The initial buffer is replaced by a large block. -/
theorem Valid.extend_switch (h : s.Valid) {minBlockSize : ℕ} {backing : Backing}
    (hneeds : s.NeedsBlock size) (hbacking : backing ≠ .noRoom)
    (hbuffer : s.media.initialBuffer ≠ []) :
    let r := ({ s with
      logicalSize := s.logicalSize + size
      blocks := []
      physicalSize := s.blockSize minBlockSize size } : TempSpace).newBlock
        (s.blockSize minBlockSize size) backing
    r.2 = true ∧ s.Extended r.1 size := by
  obtain ⟨hblocks, hfull⟩ := h.initial hbuffer
  have hmore := hneeds.1
  have hsize : s.logicalSize + size ≤ s.blockSize minBlockSize size := by
    rw [blockSize, if_neg hbuffer]
    exact fbAlign_le ..
  have hfits : s.media.initialBuffer.length = s.physicalSize :=
    h.chain.fits ⟨.initial, s.physicalSize⟩ (hblocks ▸ List.mem_cons_self)
  generalize s.blockSize minBlockSize size = n at *
  have hopen : ({ s with
      logicalSize := s.logicalSize + size
      blocks := []
      physicalSize := n } : TempSpace).Open n :=
    ⟨⟨fun _ h => (nomatch h), List.Pairwise.nil⟩, fun _ h => (nomatch h), fun _ => rfl,
      by dsimp only; omega, by omega⟩
  obtain ⟨hdone, hnew⟩ := hopen.newBlock hbacking fun _ _ _ h => nomatch h
  refine ⟨hdone, hnew.valid (Nat.zero_add _).symm hsize hneeds.large, ?_, ?_, ?_⟩
  · rw [hnew.same]
  · rw [contents, hblocks, image_cons]
    exact (List.append_nil _).symm ▸ hnew.contents
  · rw [hnew.same]

/-- A block is added to the chain. -/
theorem Valid.extend_append (h : s.Valid) {minBlockSize : ℕ} {backing : Backing}
    (hneeds : s.NeedsBlock size) (hbacking : backing ≠ .noRoom)
    (hbuffer : s.media.initialBuffer = []) :
    let r := ({ s with
      logicalSize := s.logicalSize + size
      physicalSize := s.physicalSize + s.blockSize minBlockSize size } : TempSpace).newBlock
        (s.blockSize minBlockSize size) backing
    r.2 = true ∧ s.Extended r.1 size := by
  have hmore := hneeds.1
  have hphysical := h.physical
  have hsize : s.logicalSize + size - s.physicalSize ≤ s.blockSize minBlockSize size := by
    rw [blockSize, if_pos hbuffer]
    exact fbAlign_le ..
  generalize s.blockSize minBlockSize size = n at *
  have hopen : ({ s with
      logicalSize := s.logicalSize + size
      physicalSize := s.physicalSize + n } : TempSpace).Open n :=
    ⟨h.chain, h.positive, fun hne => absurd hbuffer hne, by rw [hbuffer]; exact Nat.zero_le _,
      by omega⟩
  obtain ⟨hdone, hnew⟩ := hopen.newBlock hbacking h.tail
  refine ⟨hdone, hnew.valid (congrArg (· + n) hphysical) (by dsimp only; omega) hneeds.large, ?_, ?_,
    ?_⟩
  · rw [hnew.same]
  · exact (List.prefix_append ..).trans hnew.contents
  · rw [hnew.same]

theorem Valid.extend (h : s.Valid) {minBlockSize : ℕ} {backing : Backing}
    (hroom : s.HasRoom minBlockSize size backing) :
    (s.extend minBlockSize size backing).2 = true ∧
      s.Extended (s.extend minBlockSize size backing).1 size := by
  rw [TempSpace.extend]
  dsimp only
  by_cases hmore : s.logicalSize + size > s.physicalSize
  · rw [if_pos hmore]
    by_cases hdynamic : s.initiallyDynamic ∧ s.logicalSize + size < minTempBlockSize
    · obtain ⟨-, hlength, hphysical⟩ := h.small hdynamic.1 (by omega)
      have hsize : (if s.media.initialBuffer.length = 0 then size
          else size + s.media.initialBuffer.length) = s.logicalSize + size := by
        split_ifs <;> omega
      rw [if_pos hdynamic, hsize]
      exact ⟨rfl, h.extend_initial hdynamic.1 (by omega) hdynamic.2⟩
    · have hneeds : s.NeedsBlock size := ⟨hmore, hdynamic⟩
      obtain ⟨hsize, hbacking⟩ := hroom hneeds
      rw [if_neg hdynamic]
      by_cases hbuffer : s.media.initialBuffer = []
      · have hblock : fbAlign (s.logicalSize + size - s.physicalSize) minBlockSize % 2 ^ 32 =
            s.blockSize minBlockSize size := by
          rw [← Nat.mod_eq_of_lt hsize, blockSize, if_pos hbuffer]
        rw [if_neg (by rw [hbuffer]; exact not_not.2 rfl), hblock]
        exact h.extend_append hneeds hbacking hbuffer
      · have hblock : fbAlign (s.logicalSize + size) minBlockSize % 2 ^ 32 =
            s.blockSize minBlockSize size := by
          rw [← Nat.mod_eq_of_lt hsize, blockSize, if_neg hbuffer]
        rw [if_pos (mt List.length_eq_zero_iff.1 hbuffer), hblock]
        exact h.extend_switch hneeds hbacking hbuffer
  · rw [if_neg hmore]
    refine ⟨rfl, ⟨h.chain, h.physical, Nat.le_of_not_lt hmore, fun hbuffer => ?_, fun hdynamic hbuffer => ?_,
      h.positive, h.tail⟩, rfl, List.prefix_rfl, rfl⟩
    · obtain ⟨hblocks, hfull⟩ := h.initial hbuffer
      refine ⟨hblocks, ?_⟩
      show s.logicalSize + size = s.physicalSize
      omega
    · exact (h.dynamic hdynamic hbuffer).imp_right fun hle => hle.trans (Nat.le_add_right ..)

end TempSpace

end FirebirdCore.Temp
