import FirebirdCore.Clumplet.RoundTrip

/-!
# Copying a block to a newer version

An insertion that the version of the block has no room for copies the block first. The position is
translated where there is a clumplet at it. Behind the last clumplet it becomes the position in front of
the first one.
-/
namespace FirebirdCore.Clumplet
open FirebirdCore.LittleEndian

/-- What clumplets measure in the newest version. -/
def wideLength (items : List Item) : ℕ := (items.map fun item => 5 + item.2.length).sum

@[simp] theorem wideLength_nil : wideLength [] = 0 := rfl

@[simp] theorem wideLength_cons (item : Item) (items : List Item) :
    wideLength (item :: items) = 5 + item.2.length + wideLength items := by
  simp [wideLength]

theorem Encoded.length_wide {state final : UInt8} {items : List Item} {x : List UInt8}
    (h : Encoded .wideTagged state items x final) : x.length = wideLength items := by
  induction h with
  | nil => rfl
  | cons htype haccepts hrest ih =>
    cases htype
    rw [List.length_append, length_clumpletBytes, wideLength_cons, ih]
    rfl

namespace ClumpletWriter

/-- The writer is at a clumplet or behind all of them, in a block of any version that it knows. -/
structure Stands (w : ClumpletWriter) (header : List UInt8) (front back : List Item) : Prop where
  begun : Header w.kind header
  content : ∃ x y final, w.buffer = header ++ x ++ y ∧ w.curOffset = header.length + x.length ∧
    Encoded w.kind 0 front x w.spbState ∧ Encoded w.kind w.spbState back y final
  fits : w.buffer.length < 2 ^ 32
  known : ∀ kindList, w.kindList = some kindList → w.kind ∈ kindList.entries.map Prod.fst

variable {w w' newPb newPb' : ClumpletWriter} {header : List UInt8} {front back : List Item}

theorem Stands.atItems (h : w.Stands header front back) : w.rewind.AtItems (front ++ back) := by
  obtain ⟨x, y, final, hbuffer, -, hx, hy⟩ := h.content
  have hfits := h.fits
  have hrewind : w.rewind = ClumpletReader.create w.kind w.buffer := rfl
  rw [hrewind]
  rw [hbuffer, List.append_assoc] at hfits ⊢
  rw [h.begun.create_eq]
  constructor
  · exact Header.begins h.begun le_rfl
  · rw [List.length_append]
    exact Nat.le_add_right ..
  · use final
    change Encoded w.kind 0 _ ((header ++ (x ++ y)).drop header.length) final
    rw [List.drop_left]
    exact hx.append hy
  · exact hfits

theorem Stands.rewind_eq (h : w.Stands header front back) : w.rewind.curOffset = header.length := by
  obtain ⟨x, y, final, hbuffer, -⟩ := h.content
  have hrewind : w.rewind = ClumpletReader.create w.kind w.buffer := rfl
  rw [hrewind, hbuffer, List.append_assoc, h.begun.create_eq]

/-! ## Copying the clumplets -/

theorem Holds.curOffset_wide {done : List Item} (h : newPb.Holds header done [])
    (hkind : newPb.kind = .wideTagged) : newPb.curOffset = header.length + wideLength done := by
  obtain ⟨x, y, final, -, hoffset, hx, -⟩ := h.content
  rw [hkind] at hx
  rw [hoffset, hx.length_wide]

section Copy

variable {done items : List Item} {item : Item} {currentPosition newPos newPos' fuel : ℕ}

/-- At the end of the old block nothing is left to do. -/
theorem copyClumplets_nil (hw : w.AtItems [])
    (h : copyClumplets currentPosition fuel w newPb newPos = (w', newPb', newPos', .inserted)) :
    w' = w ∧ newPb' = newPb ∧ newPos' = newPos := by
  cases fuel with
  | zero => cases h
  | succ fuel =>
    rw [copyClumplets, hw.isEof_nil, if_pos rfl] at h
    cases h
    exact ⟨rfl, rfl, rfl⟩

/-- One clumplet is copied, and the position is noted in front of it. -/
theorem copyClumplets_cons (hw : w.AtItems (item :: items)) (hnew : newPb.Holds header done [])
    (hkind : newPb.kind = .wideTagged)
    (h : copyClumplets currentPosition (fuel + 1) w newPb newPos = (w', newPb', newPos', .inserted)) :
    ∃ type next newPb₁, getClumpletType w.kind w.spbState item.1 = .ok type ∧
      next.kind = w.kind ∧ next.buffer = w.buffer ∧
      next.curOffset = w.curOffset + (1 + type.lengthSize + item.2.length) ∧
      next.spbState = nextState w.kind w.spbState type item ∧ next.AtItems items ∧ newPb₁.Holds header (done ++ [item]) [] ∧ newPb₁.kind = .wideTagged ∧
      copyClumplets currentPosition fuel { w with toClumpletReader := next } newPb₁
          (if currentPosition = w.curOffset then newPb.curOffset else newPos) =
        (w', newPb', newPos', .inserted) := by
  obtain ⟨type, rest, hat, heof, next, hnext, hnext', hitems⟩ := hw.cons
  have hlength := hat.length_eq
  have hfits := hat.fits
  have htype : getClumpletType newPb.kind newPb.spbState item.1 = .ok .wide := by rw [hkind]; rfl
  have haccepts : ClumpletType.wide.accepts item.2.length :=
    decide_eq_true (Nat.le_sub_one_of_lt (by omega))
  have hinsert : newPb.insertPlain item.1 item.2 = newPb.store .wide item.1 item.2 := by
    rw [insertPlain, if_neg (not_lt.2 hnew.curOffset_le), htype]
    exact if_pos haccepts
  rw [copyClumplets, heof, if_neg Bool.false_ne_true, hat.getClumplet_eq] at h
  dsimp only at h
  rw [hat.bytesOf_eq, hinsert] at h
  have hstore := hnew.store htype haccepts
  generalize newPb.store .wide item.1 item.2 = stored at hstore h
  cases hstore with
  | overflow what => cases h
  | wraps hwraps => cases h
  | @inserted newPb₁ hsize hholds hsame =>
    have hmove : newPb₁.moveNext = .ok newPb₁.toClumpletReader := by
      rw [ClumpletReader.moveNext, hholds.isEof_eq]
      rfl
    dsimp only at h
    rw [hmove, hnext] at h
    exact ⟨type, next, newPb₁, hat.typed, by rw [hnext'], by rw [hnext'], by rw [hnext'],
      by rw [hnext'], hitems, hholds, hsame.kind.trans hkind, h⟩

/-- All clumplets are copied in their order. -/
theorem copyClumplets_holds (hw : w.AtItems items) (hstart : w.kind ≠ .spbStart)
    (hnew : newPb.Holds header done []) (hkind : newPb.kind = .wideTagged)
    (h : copyClumplets currentPosition fuel w newPb newPos = (w', newPb', newPos', .inserted)) :
    Same w w' ∧ w'.spbState = w.spbState ∧ newPb'.Holds header (done ++ items) [] ∧
      newPb'.kind = .wideTagged := by
  induction items generalizing w newPb done newPos fuel with
  | nil =>
    obtain ⟨rfl, rfl, -⟩ := copyClumplets_nil hw h
    rw [List.append_nil]
    exact ⟨⟨rfl, rfl, rfl⟩, rfl, hnew, hkind⟩
  | cons item items ih =>
    cases fuel with
    | zero => cases h
    | succ fuel =>
      obtain ⟨type, next, newPb₁, -, hsameKind, -, -, hnext, hitems, hholds, hwide, hrest⟩ :=
        copyClumplets_cons hw hnew hkind h
      obtain ⟨hsame, hstate, hall, hkind'⟩ :=
        ih (w := { w with toClumpletReader := next }) hitems (hsameKind.trans_ne hstart) hholds hwide
          hrest
      rw [List.append_assoc] at hall
      refine ⟨⟨hsame.kind.trans hsameKind, hsame.sizeLimit, hsame.kindList⟩, ?_, hall, hkind'⟩
      rw [hstate]
      exact hnext.trans (nextState_of_ne hstart ..)

/-- A position in front of all that is left, or behind it, is not met any more. -/
theorem copyClumplets_newPos (hw : w.AtItems items) (hnew : newPb.Holds header done [])
    (hkind : newPb.kind = .wideTagged)
    (houtside : currentPosition < w.curOffset ∨ w.buffer.length ≤ currentPosition)
    (h : copyClumplets currentPosition fuel w newPb newPos = (w', newPb', newPos', .inserted)) :
    newPos' = newPos := by
  induction items generalizing w newPb done newPos fuel with
  | nil => exact (copyClumplets_nil hw h).2.2
  | cons item items ih =>
    cases fuel with
    | zero => cases h
    | succ fuel =>
      obtain ⟨type, rest, hat, -⟩ := hw.cons
      have hlength := hat.length_eq
      obtain ⟨type, next, newPb₁, -, -, hbuffer, hoffset, -, hitems, hholds, hwide, hrest⟩ :=
        copyClumplets_cons hw hnew hkind h
      rw [if_neg (by omega)] at hrest
      refine ih (w := { w with toClumpletReader := next }) hitems hholds hwide ?_ hrest
      change currentPosition < next.curOffset ∨ next.buffer.length ≤ currentPosition
      rw [hbuffer, hoffset]
      omega

/-- A position at a clumplet becomes that of its copy. -/
theorem copyClumplets_translates {x : List UInt8} {mid : UInt8} (hw : w.AtItems (front ++ back))
    (hback : back ≠ []) (hx : Encoded w.kind w.spbState front x mid)
    (hcurrent : currentPosition = w.curOffset + x.length) (hnew : newPb.Holds header done [])
    (hkind : newPb.kind = .wideTagged)
    (h : copyClumplets currentPosition fuel w newPb newPos = (w', newPb', newPos', .inserted)) :
    newPos' = header.length + wideLength (done ++ front) := by
  induction front generalizing w newPb done newPos fuel x with
  | nil =>
    obtain ⟨item, items, rfl⟩ := List.exists_cons_of_ne_nil hback
    rw [hx.bytes_nil] at hcurrent
    rw [List.append_nil]
    cases fuel with
    | zero => cases h
    | succ fuel =>
      obtain ⟨type, next, newPb₁, -, -, -, hoffset, -, hitems, hholds, hwide, hrest⟩ :=
        copyClumplets_cons hw hnew hkind h
      rw [List.length_nil, Nat.add_zero] at hcurrent
      rw [if_pos hcurrent, hnew.curOffset_wide hkind] at hrest
      refine copyClumplets_newPos (w := { w with toClumpletReader := next }) hitems hholds hwide
        (.inl ?_) hrest
      change currentPosition < next.curOffset
      omega
  | cons item front ih =>
    cases fuel with
    | zero => cases h
    | succ fuel =>
      obtain ⟨type, next, newPb₁, htype, hsame, -, hoffset, hnext, hitems, hholds, hwide, hrest⟩ :=
        copyClumplets_cons hw hnew hkind h
      cases hx with
      | cons htype' _ hx =>
        cases htype.symm.trans htype'
        rw [List.length_append, length_clumpletBytes] at hcurrent
        rw [← hnext, ← hsame] at hx
        have hresult := ih (w := { w with toClumpletReader := next }) hitems hx
          (by rw [hcurrent, hoffset]; exact (Nat.add_assoc ..).symm) hholds hwide hrest
        rw [List.append_assoc] at hresult
        exact hresult

end Copy

/-! ## The upgrade -/

theorem newest_eq (kindList : KindList) : newest kindList.entries = (.wideTagged, kindList.last) := by
  cases kindList <;> rfl

theorem Stands.ne_spbStart (h : w.Stands header front back) {kindList : KindList}
    (hlist : w.kindList = some kindList) : w.kind ≠ .spbStart := by
  intro hkind
  have hknown := h.known kindList hlist
  rw [hkind] at hknown
  cases kindList <;> exact absurd hknown (by decide)

/-- The block is copied whole, and the writer is at the same clumplet, or in front of all. -/
theorem Stands.copyTo (h : w.Stands header front back) {kindList : KindList}
    (hlist : w.kindList = some kindList)
    (hcopy : w.copyTo (.wideTagged, kindList.last) = (w', .inserted)) :
    w'.kind = .wideTagged ∧
      if back = [] then w'.Holds [kindList.last] [] front else w'.Holds [kindList.last] front back := by
  have hstart := h.ne_spbStart hlist
  have hempty : (ofKind .wideTagged w.sizeLimit kindList.last).Holds [kindList.last] [] [] :=
    ofKind_holds (by decide) w.sizeLimit kindList.last
  have hheader : Header .wideTagged [kindList.last] := .tagged kindList.last (by decide)
  obtain ⟨x, y, final, hbuffer, hoffset, hx, hy⟩ := h.content
  rw [ClumpletWriter.copyTo] at hcopy
  generalize hcopied : copyClumplets _ _ _ _ _ = copied at hcopy
  obtain ⟨w₁, newPb, newPos, result⟩ := copied
  cases result with
  | raised e => cases hcopy
  | undefined => cases hcopy
  | inserted =>
    obtain ⟨hsame, hstate, hholds, hkind⟩ :=
      copyClumplets_holds (w := { w with toClumpletReader := w.rewind }) h.atItems hstart hempty rfl
        hcopied
    rw [List.nil_append] at hholds
    obtain ⟨z, y', _, hnewBuffer, -, hz, hy'⟩ := hholds.content
    rw [hy'.bytes_nil, List.append_nil] at hnewBuffer
    rw [hkind] at hz
    have hfits := hholds.fits
    have hversion : ∀ kindList', w₁.kindList = some kindList' →
        (Kind.wideTagged, [kindList.last]) = kindList'.first ∨
          (Kind.wideTagged, [kindList.last]) = (.wideTagged, [kindList'.last]) := by
      intro kindList' hlist'
      rw [hsame.kindList] at hlist'
      cases hlist.symm.trans hlist'
      exact .inr rfl
    by_cases hback : back = []
    · have hnewPos : newPos = 0 := by
        refine copyClumplets_newPos (w := { w with toClumpletReader := w.rewind }) h.atItems hempty
          rfl (.inr ?_) hcopied
        change w.buffer.length ≤ w.curOffset
        rw [hback] at hy
        rw [hbuffer, hoffset, hy.bytes_nil, List.append_nil, List.length_append]
      have hrewind : (⟨.wideTagged, newPb.buffer, w₁.curOffset, w₁.spbState⟩ : ClumpletReader).rewind =
          ⟨.wideTagged, [kindList.last] ++ z, [kindList.last].length, 0⟩ := by
        rw [hnewBuffer]
        exact hheader.create_eq z
      rw [hnewBuffer] at hfits
      dsimp only at hcopy
      rw [if_neg (not_not.2 hnewPos), hrewind] at hcopy
      cases hcopy
      rw [if_pos hback]
      rw [hback, List.append_nil] at hz
      refine ⟨rfl, hheader, ⟨[], z, newPb.spbState, ?_, rfl, .nil 0, hz⟩, hfits, fun _ => rfl, hversion⟩
      rw [List.append_nil]
    · have hnewPos : newPos = [kindList.last].length + wideLength front := by
        refine copyClumplets_translates (w := { w with toClumpletReader := w.rewind }) h.atItems
          hback (hx.of_ne hstart _) ?_ hempty rfl hcopied
        change w.curOffset = w.rewind.curOffset + x.length
        rw [h.rewind_eq, hoffset]
      dsimp only at hcopy
      rw [if_pos (by rw [hnewPos, List.length_singleton]; omega)] at hcopy
      cases hcopy
      rw [if_neg hback]
      obtain ⟨z₁, z₂, mid, rfl, hz₁, hz₂⟩ := hz.split
      refine ⟨rfl, hheader, ⟨z₁, z₂, w₁.spbState, ?_, ?_, ?_, ?_⟩, hfits, fun _ => rfl, hversion⟩
      · rw [List.append_assoc]
        exact hnewBuffer
      · change newPos = _
        rw [hnewPos, hz₁.length_wide]
      · change Encoded .wideTagged 0 front z₁ w₁.spbState
        rw [hstate]
        exact hz₁.of_ne (by decide) 0
      · exact hz₂.of_ne (by decide) _

/-- A block that is copied is copied to the newest version. -/
theorem upgradeVersion_inserted {kindList : KindList} (hlist : w.kindList = some kindList)
    (h : w.upgradeVersion = some (w', .inserted)) :
    w.copyTo (.wideTagged, kindList.last) = (w', .inserted) := by
  rw [ClumpletWriter.upgradeVersion, hlist] at h
  dsimp only at h
  rw [newest_eq] at h
  split_ifs at h with hlength
  · cases htag : w.getBufferTag with
    | error e => rw [htag] at h; cases h
    | ok tag =>
      rw [htag] at h
      dsimp only at h
      split_ifs at h
      exact Option.some.inj h
  · exact Option.some.inj h

/-- The insertion that comes behind the upgrade. -/
theorem insertBytesLengthCheck_upgraded {kindList : KindList} {item : Item}
    (hlist : w.kindList = some kindList) (hneeds : w.NeedsUpgrade item)
    (h : w.insertBytesLengthCheck item.1 item.2 = (w', .inserted)) :
    ∃ w₁, w.copyTo (.wideTagged, kindList.last) = (w₁, .inserted) ∧
      (w₁.kind = .wideTagged → w₁.store .wide item.1 item.2 = (w', .inserted) ∧
        ClumpletType.wide.accepts item.2.length) := by
  obtain ⟨-, type, htype, hnot⟩ := hneeds
  rw [insertBytesLengthCheck] at h
  split_ifs at h with hbehind
  · cases h
  · rw [insertLoop, htype] at h
    dsimp only at h
    rw [if_neg (by rw [hnot]; exact Bool.false_ne_true)] at h
    generalize hupgrade : w.upgradeVersion = upgraded at h
    cases upgraded with
    | none => cases h
    | some r =>
      obtain ⟨w₁, result⟩ := r
      cases result with
      | raised e => cases h
      | undefined => cases h
      | inserted =>
        refine ⟨w₁, upgradeVersion_inserted hlist hupgrade, fun hkind => ?_⟩
        have htype' : getClumpletType w₁.kind w₁.spbState item.1 = .ok .wide := by rw [hkind]; rfl
        dsimp only at h
        rw [insertLoop, htype'] at h
        dsimp only at h
        cases haccepts : ClumpletType.wide.accepts item.2.length with
        | true =>
          rw [if_pos haccepts] at h
          exact ⟨h, rfl⟩
        | false =>
          rw [if_neg (by rw [haccepts]; exact Bool.false_ne_true)] at h
          generalize w₁.upgradeVersion = again at h
          cases again with
          | none => cases h
          | some r =>
            obtain ⟨w₂, result⟩ := r
            cases result <;> cases h

/-- A clumplet that is too long for the version of the block is not in the block. -/
theorem Stands.ne_of_mem (h : w.Stands header front back) {kindList : KindList}
    (hlist : w.kindList = some kindList) {item item' : Item} (hneeds : w.NeedsUpgrade item)
    (hmem : item' ∈ front) : item' ≠ item := by
  rintro rfl
  obtain ⟨-, type, htype, hnot⟩ := hneeds
  obtain ⟨x, y, final, -, -, hx, -⟩ := h.content
  obtain ⟨state, type', htype', haccepts⟩ := hx.accepted_of_mem hmem
  rw [getClumpletType_state (h.ne_spbStart hlist) state w.spbState, htype] at htype'
  cases htype'
  rw [hnot] at haccepts
  cases haccepts

/-- The clumplets that were there keep their order. The new one is where the writer was, if and only if
the writer was at a clumplet, or there was none. -/
theorem insert_upgraded_iff {item : Item} (h : w.Stands header front back)
    (hneeds : w.NeedsUpgrade item)
    (hinsert : w.insertBytesLengthCheck item.1 item.2 = (w', .inserted)) :
    (∃ before after, before ++ after = front ++ back ∧
      ClumpletReader.readAll w'.kind w'.buffer = some (.ok (before ++ item :: after))) ∧
    (ClumpletReader.readAll w'.kind w'.buffer = some (.ok (front ++ item :: back)) ↔
      (back ≠ [] ∨ front = [])) := by
  obtain ⟨kindList, hlist⟩ := Option.ne_none_iff_exists'.1 hneeds.1
  obtain ⟨w₁, hcopy, hstored⟩ := insertBytesLengthCheck_upgraded hlist hneeds hinsert
  obtain ⟨hkind, hcopied⟩ := h.copyTo hlist hcopy
  obtain ⟨hstore, haccepts⟩ := hstored hkind
  have htype : getClumpletType w₁.kind w₁.spbState item.1 = .ok .wide := by rw [hkind]; rfl
  have hread : ∀ {before after : List Item}, w₁.Holds [kindList.last] before after →
      ClumpletReader.readAll w'.kind w'.buffer = some (.ok (before ++ item :: after)) := by
    intro before after hholds
    have hstores := hholds.store htype haccepts
    rw [hstore] at hstores
    cases hstores with
    | inserted hsize hholds' hsame =>
      rw [hholds'.readAll_eq, List.append_assoc]
      rfl
  by_cases hback : back = []
  · rw [if_pos hback] at hcopied
    subst hback
    rw [hread hcopied]
    refine ⟨⟨[], front, by rw [List.append_nil]; rfl, rfl⟩, ?_⟩
    cases front with
    | nil => simp
    | cons first rest =>
      have hne := h.ne_of_mem hlist hneeds (List.mem_cons_self : first ∈ first :: rest)
      simp [hne.symm]
  · rw [if_neg hback] at hcopied
    rw [hread hcopied]
    exact ⟨⟨front, back, rfl, rfl⟩, iff_of_true rfl (.inl hback)⟩

/-- A clumplet that the first version has no room for. -/
def longItem : Item := (7, List.replicate 300 0)

/-- A writer at some place of a block with one clumplet. -/
def oneClumplet (curOffset : ℕ) : ClumpletWriter :=
  ⟨⟨.tagged, [iscDpbVersion1, 5, 1, 9], curOffset, 0⟩, 1000, some .dpbList⟩

/-- Behind the last clumplet: the new one comes in front of it. -/
theorem oneClumplet_atEnd :
    (oneClumplet 4).isEof = true ∧
    ((oneClumplet 4).insertBytesLengthCheck longItem.1 longItem.2).2 = .inserted ∧
    ClumpletReader.readAll ((oneClumplet 4).insertBytesLengthCheck longItem.1 longItem.2).1.kind
        ((oneClumplet 4).insertBytesLengthCheck longItem.1 longItem.2).1.buffer =
      some (.ok [longItem, (5, [9])]) ∧
    [longItem, (5, [9])] ≠ [(5, [9]), longItem] := by
  decide +kernel

theorem insert_upgraded_iff_oneClumplet :
    ClumpletReader.readAll ((oneClumplet 1).insertBytesLengthCheck longItem.1 longItem.2).1.kind
        ((oneClumplet 1).insertBytesLengthCheck longItem.1 longItem.2).1.buffer =
      some (.ok [longItem, (5, [9])]) := by
  have hencoded : Encoded .tagged 0 [(5, [9])] (clumpletBytes .traditionalDpb 5 [9] ++ []) 0 :=
    .cons rfl rfl (.nil 0)
  have hstands : (oneClumplet 1).Stands [iscDpbVersion1] [] [(5, [9])] := by
    constructor
    · exact .tagged iscDpbVersion1 (by decide)
    · exact ⟨[], [5, 1, 9], 0, rfl, rfl, .nil 0, hencoded⟩
    · decide
    · intro kindList hlist
      cases hlist
      decide
  have hneeds : (oneClumplet 1).NeedsUpgrade longItem :=
    ⟨Option.some_ne_none _, .traditionalDpb, rfl, by decide +kernel⟩
  have hinsert : (oneClumplet 1).insertBytesLengthCheck longItem.1 longItem.2 =
      (((oneClumplet 1).insertBytesLengthCheck longItem.1 longItem.2).1, .inserted) := by
    decide +kernel
  exact (insert_upgraded_iff hstands hneeds hinsert).2.2 (.inl (List.cons_ne_nil _ _))

end ClumpletWriter

end FirebirdCore.Clumplet
