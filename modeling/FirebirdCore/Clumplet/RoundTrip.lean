import FirebirdCore.Clumplet.Encoding
import FirebirdCore.Lib.Run

/-!
# Reading back what was written

A writer holds the clumplets in front of its position and those behind it. An insertion adds one at the
position. A block that is copied to a newer version keeps its clumplets, but the writer is then in front
of all of them.
-/
namespace FirebirdCore.Clumplet
open FirebirdCore.LittleEndian FirebirdCore.Run

/-! ## What a writer holds -/

/-- What a block of a kind begins with. -/
inductive Header : Kind → List UInt8 → Prop where
  | tagged {kind : Kind} (tag : UInt8) (h : kind ∈ [Kind.tpb, .tagged, .wideTagged]) :
      Header kind [tag]
  | spbVersion1 : Header .spbAttach [iscSpbVersion1]
  | spbVersion (tag : UInt8) : Header .spbAttach [iscSpbVersion, tag]
  | untagged {kind : Kind}
      (h : kind ∈ [Kind.unTagged, .spbStart, .wideUnTagged, .spbSendItems, .spbReceiveItems]) :
      Header kind []

/-- A reader begins behind the header. -/
theorem Header.create_eq {kind : Kind} {header : List UInt8} (h : Header kind header) (x : List UInt8) :
    ClumpletReader.create kind (header ++ x) = ⟨kind, header ++ x, header.length, 0⟩ := by
  rw [ClumpletReader.create, ClumpletReader.rewind]
  cases h with
  | tagged tag h =>
    simp only [List.mem_cons, List.not_mem_nil, or_false] at h
    rcases h with rfl | rfl | rfl <;> simp
  | spbVersion1 => simp
  | spbVersion tag =>
    simp [ClumpletReader.getBufferLength, iscSpbVersion, iscSpbVersion1]
  | untagged h =>
    simp only [List.mem_cons, List.not_mem_nil, or_false] at h
    rcases h with rfl | rfl | rfl | rfl | rfl <;> simp

theorem Header.begins {r : ClumpletReader} {header : List UInt8} (h : Header r.kind header)
    (hle : header.length ≤ r.curOffset) : r.Begins := by
  generalize hkind : r.kind = kind at h
  cases h with
  | tagged tag h => exact .inr (Nat.lt_of_lt_of_le Nat.one_pos hle)
  | spbVersion1 => exact .inr (Nat.lt_of_lt_of_le Nat.one_pos hle)
  | spbVersion tag => exact .inr (Nat.lt_of_lt_of_le Nat.two_pos hle)
  | untagged h => exact .inl (hkind ▸ h)

theorem Header.length_le {kind : Kind} {header : List UInt8} (h : Header kind header) :
    header.length ≤ 2 := by
  cases h with
  | tagged => exact one_le_two
  | spbVersion1 => exact one_le_two
  | spbVersion => exact le_rfl
  | untagged => exact Nat.zero_le _

/-- The kind and the header of the version that a list begins with. -/
def KindList.first : KindList → Kind × List UInt8
  | .dpbList => (.tagged, [iscDpbVersion1])
  | .spbList => (.spbAttach, [iscSpbVersion, iscSpbVersion])

/-- The header of the newest version. -/
def KindList.last : KindList → UInt8
  | .dpbList => iscDpbVersion2
  | .spbList => iscSpbVersion3

namespace ClumpletWriter

/-- The writer has some clumplets in front of it, and some behind. -/
structure Holds (w : ClumpletWriter) (header : List UInt8) (front back : List Item) : Prop where
  begun : Header w.kind header
  content : ∃ x y final, w.buffer = header ++ x ++ y ∧ w.curOffset = header.length + x.length ∧
    Encoded w.kind 0 front x w.spbState ∧ Encoded w.kind w.spbState back y final
  fits : w.buffer.length < 2 ^ 32
  back : back ≠ [] → w.kind = .wideTagged
  version : ∀ kindList, w.kindList = some kindList →
    (w.kind, header) = kindList.first ∨ (w.kind, header) = (.wideTagged, [kindList.last])

variable {w w' : ClumpletWriter} {header : List UInt8} {front back : List Item}

theorem Holds.begins (h : w.Holds header front back) : w.Begins := by
  obtain ⟨x, y, final, -, hoffset, -⟩ := h.content
  exact h.begun.begins (by omega)

/-- A reader of the block sees all. -/
theorem Holds.atItems (h : w.Holds header front back) :
    (ClumpletReader.create w.kind w.buffer).AtItems (front ++ back) := by
  obtain ⟨x, y, final, hbuffer, -, hx, hy⟩ := h.content
  have hfits := h.fits
  rw [hbuffer, List.append_assoc] at hfits ⊢
  rw [h.begun.create_eq]
  refine ⟨Header.begins h.begun le_rfl, ?_, ⟨final, ?_⟩, hfits⟩
  · rw [List.length_append]
    exact Nat.le_add_right ..
  · change Encoded w.kind 0 _ ((header ++ (x ++ y)).drop header.length) final
    rw [List.drop_left]
    exact hx.append hy

theorem Holds.readAll_eq (h : w.Holds header front back) :
    ClumpletReader.readAll w.kind w.buffer = some (.ok (front ++ back)) :=
  ClumpletReader.readAll_eq h.atItems

/-! ## Insertions -/

/-- The size of the block with one clumplet more. -/
def sizeWith (w : ClumpletWriter) (type : ClumpletType) (bytes : List UInt8) : ℕ :=
  w.buffer.length + bytes.length + type.lengthSize + 1

/-- The size does not fit 32 bits, but what is left of it does not reach the limit. -/
def Wraps (w : ClumpletWriter) (type : ClumpletType) (bytes : List UInt8) : Prop :=
  2 ^ 32 ≤ w.sizeWith type bytes ∧ w.sizeWith type bytes % 2 ^ 32 ≤ w.sizeLimit

/-- What an insertion leaves as it is. -/
structure Same (w w' : ClumpletWriter) : Prop where
  kind : w'.kind = w.kind
  sizeLimit : w'.sizeLimit = w.sizeLimit
  kindList : w'.kindList = w.kindList

/-- What comes of a clumplet that its type accepts. -/
inductive Stores (w : ClumpletWriter) (header : List UInt8) (front back : List Item)
    (type : ClumpletType) (item : Item) : ClumpletWriter × InsertResult → Prop where
  | overflow (what : String) : Stores w header front back type item (w, .raised (.sizeOverflow what))
  | wraps (h : w.Wraps type item.2) : Stores w header front back type item (w, .undefined)
  | inserted {w' : ClumpletWriter} (hsize : w.sizeWith type item.2 < 2 ^ 32)
      (h : w'.Holds header (front ++ [item]) back) (hsame : Same w w') :
      Stores w header front back type item (w', .inserted)

theorem Holds.store (h : w.Holds header front back) {type : ClumpletType} {item : Item}
    (htype : getClumpletType w.kind w.spbState item.1 = .ok type)
    (haccepts : type.accepts item.2.length) :
    Stores w header front back type item (w.store type item.1 item.2) := by
  obtain ⟨x, y, final, hbuffer, hoffset, hx, hy⟩ := h.content
  rw [ClumpletWriter.store]
  dsimp only
  split_ifs with hlimit hsize
  · exact .overflow _
  · exact .wraps ⟨hsize, not_lt.1 hlimit⟩
  · have hfront : (header ++ x).length = w.curOffset := by rw [List.length_append, hoffset]
    have htake : w.buffer.take w.curOffset = header ++ x := by
      rw [hbuffer, ← hfront, List.take_left]
    have hdrop : w.buffer.drop w.curOffset = y := by
      rw [hbuffer, ← hfront, List.drop_left]
    rw [htake, hdrop]
    have hnew : (header ++ x ++ clumpletBytes type item.1 item.2 ++ y).length < 2 ^ 32 := by
      have hold := congrArg List.length hbuffer
      rw [List.length_append] at hold
      rw [List.length_append, List.length_append, length_clumpletBytes]
      omega
    have hat : ClumpletReader.AtClumplet
        { w.toClumpletReader with buffer := header ++ x ++ clumpletBytes type item.1 item.2 ++ y }
        type item y := by
      refine ⟨?_, htype, haccepts, hnew⟩
      change (header ++ x ++ clumpletBytes type item.1 item.2 ++ y).drop w.curOffset = _
      rw [List.append_assoc, ← hfront, List.drop_left]
    rw [hat.adjustSpbState_eq]
    refine .inserted (not_le.1 hsize) ⟨h.begun, ?_, hnew, h.back, h.version⟩ ⟨rfl, rfl, rfl⟩
    refine ⟨x ++ clumpletBytes type item.1 item.2, y,
      if back = [] then nextState w.kind w.spbState type item else final, ?_, ?_, ?_, ?_⟩
    · simp only [List.append_assoc]
    · change w.curOffset + _ = _
      rw [hoffset, List.length_append, length_clumpletBytes]
      omega
    · refine hx.append ?_
      rw [← List.append_nil (clumpletBytes type item.1 item.2)]
      exact .cons htype haccepts (.nil _)
    · change Encoded w.kind (nextState w.kind w.spbState type item) back y _
      by_cases hback : back = []
      · subst hback
        cases hy
        exact .nil _
      · have hkind : w.kind ≠ .spbStart := by rw [h.back hback]; decide
        rw [if_neg hback, nextState_of_ne hkind]
        exact hy

/-! ## Newer versions -/

theorem Holds.isEof_eq (h : w.Holds header front []) : w.isEof = true := by
  obtain ⟨x, y, final, hbuffer, hoffset, -, hy⟩ := h.content
  cases hy
  rw [ClumpletReader.isEof_eq h.begins, hbuffer, hoffset, List.append_nil, List.length_append]
  exact decide_eq_true le_rfl

theorem Holds.curOffset_le (h : w.Holds header front back) : w.curOffset ≤ w.buffer.length := by
  obtain ⟨x, y, final, hbuffer, hoffset, -, -⟩ := h.content
  rw [hbuffer, hoffset, List.length_append, List.length_append]
  exact Nat.le_add_right ..

theorem Holds.curOffset_eq (h : w.Holds header front []) : w.curOffset = w.buffer.length := by
  obtain ⟨x, y, final, hbuffer, hoffset, -, hy⟩ := h.content
  cases hy
  rw [hbuffer, hoffset, List.append_nil, List.length_append]

/-- What comes of copying the clumplets that are left. -/
inductive Copies (w : ClumpletWriter) (header : List UInt8) (items : List Item) (newPos : ℕ) :
    ClumpletWriter × ClumpletWriter × ℕ × InsertResult → Prop where
  | copied {w' newPb : ClumpletWriter} (hsame : Same w w') (hnew : newPb.Holds header items [])
      (hkind : newPb.kind = .wideTagged) : Copies w header items newPos (w', newPb, newPos, .inserted)
  | failed {w' newPb : ClumpletWriter} {result : InsertResult} (hitems : items ≠ [])
      (hresult : result ≠ .inserted) (hbuffer : w'.buffer = w.buffer) (hoffset : w'.curOffset < w.buffer.length) :
      Copies w header items newPos (w', newPb, newPos, result)

theorem Copies.of_next {items : List Item} {newPos : ℕ} {next : ClumpletReader}
    {r : ClumpletWriter × ClumpletWriter × ℕ × InsertResult}
    (h : Copies { w with toClumpletReader := next } header items newPos r)
    (hkind : next.kind = w.kind) (hbuffer : next.buffer = w.buffer) : Copies w header items newPos r := by
  cases h with
  | copied hsame hnew hwide =>
    exact .copied ⟨hsame.kind.trans hkind, hsame.sizeLimit, hsame.kindList⟩ hnew hwide
  | failed hitems hresult hbuf hoffset =>
    exact .failed hitems hresult (hbuf.trans hbuffer) (by rw [← hbuffer]; exact hoffset)

theorem copyClumplets_copies {newPb : ClumpletWriter} {done items : List Item} {newPos fuel : ℕ}
    (hw : w.AtItems items) (hnew : newPb.Holds header done []) (hkind : newPb.kind = .wideTagged)
    {currentPosition : ℕ} (hcurrent : w.buffer.length ≤ currentPosition) (hfuel : items.length < fuel) :
    Copies w header (done ++ items) newPos (copyClumplets currentPosition fuel w newPb newPos) := by
  induction items generalizing w newPb done fuel with
  | nil =>
    obtain ⟨fuel, rfl⟩ := Nat.exists_eq_succ_of_ne_zero hfuel.ne'
    rw [copyClumplets, hw.isEof_nil, if_pos rfl, List.append_nil]
    exact .copied ⟨rfl, rfl, rfl⟩ hnew hkind
  | cons item items ih =>
    obtain ⟨fuel, rfl⟩ := Nat.exists_eq_succ_of_ne_zero (Nat.ne_zero_of_lt hfuel)
    obtain ⟨type, rest, hat, heof, next, hnext, hnext', hitems⟩ := hw.cons
    have hlength := hat.length_eq
    have hfits := hat.fits
    have htype : getClumpletType newPb.kind newPb.spbState item.1 = .ok .wide := by rw [hkind]; rfl
    have haccepts : ClumpletType.wide.accepts item.2.length :=
      decide_eq_true (Nat.le_sub_one_of_lt (by omega))
    have hstore := hnew.store htype haccepts
    have hne : done ++ item :: items ≠ [] := fun hcon =>
      List.cons_ne_nil item items (List.append_eq_nil_iff.1 hcon).2
    have hinsert : newPb.insertPlain item.1 item.2 = newPb.store .wide item.1 item.2 := by
      rw [insertPlain, if_neg (not_lt.2 hnew.curOffset_le), htype]
      exact if_pos haccepts
    rw [copyClumplets, heof, if_neg Bool.false_ne_true, if_neg (by omega), hat.getClumplet_eq]
    dsimp only
    rw [hat.bytesOf_eq, hinsert]
    generalize newPb.store .wide item.1 item.2 = stored at hstore
    cases hstore with
    | overflow what => exact .failed hne nofun rfl (by omega)
    | wraps h => exact .failed hne nofun rfl (by omega)
    | @inserted newPb' _ hholds hsame =>
      have hmove : newPb'.moveNext = .ok newPb'.toClumpletReader := by
        rw [ClumpletReader.moveNext, hholds.isEof_eq]
        rfl
      dsimp only
      rw [hmove, hnext]
      have hbuffer : next.buffer = w.buffer := by rw [hnext']
      have hcopies := ih (w := { w with toClumpletReader := next }) hitems hholds
        (hsame.kind.trans hkind) (by rw [hbuffer]; exact hcurrent) (Nat.lt_of_succ_lt_succ hfuel)
      rw [List.append_assoc] at hcopies
      exact hcopies.of_next (by rw [hnext']) hbuffer

/-- A new writer. -/
inductive Created : ClumpletWriter → Prop where
  | ofKind (kind : Kind) (limit : ℕ) (tag : UInt8) : Created (ofKind kind limit tag)
  | ofKindList (kindList : KindList) (limit : ℕ) : Created (ofKindList kindList limit)

theorem ofKind_holds {kind : Kind} (h : kind ≠ .endOfList) (limit : ℕ) (tag : UInt8) :
    (ofKind kind limit tag).Holds (initNewBuffer kind tag) [] [] := by
  have hheader : Header kind (initNewBuffer kind tag) := by
    cases kind with
    | endOfList => exact absurd rfl h
    | spbAttach =>
      rw [initNewBuffer]
      split
      · exact .spbVersion tag
      · rename_i hversion
        rw [not_not] at hversion
        exact hversion ▸ .spbVersion1
    | tagged | wideTagged | tpb => exact .tagged tag (by decide)
    | _ => exact .untagged (by decide)
  have hcreate := hheader.create_eq []
  rw [List.append_nil] at hcreate
  have hlength := hheader.length_le
  rw [ofKind, hcreate]
  refine ⟨hheader, ⟨[], [], 0, ?_, ?_, .nil 0, .nil 0⟩, by change (initNewBuffer kind tag).length < _; omega,
    fun h => absurd rfl h, nofun⟩
  · exact (List.append_nil _).symm.trans (List.append_nil _).symm
  · rfl

theorem ofKindList_holds (kindList : KindList) (limit : ℕ) :
    (ofKindList kindList limit).Holds kindList.first.2 [] [] := by
  have hkind : kindList.entries.headI.1 ≠ .endOfList := by cases kindList <;> decide
  have hfirst : (kindList.entries.headI.1,
      initNewBuffer kindList.entries.headI.1 kindList.entries.headI.2) = kindList.first := by
    cases kindList <;> rfl
  have h := ofKind_holds hkind limit kindList.entries.headI.2
  rw [← hfirst]
  refine ⟨h.begun, h.content, h.fits, h.back, fun kindList' hlist => .inl ?_⟩
  cases hlist
  exact hfirst

/-- The mark of the end of a list of kinds is not the kind of a block. A writer of this kind is behind
the end of its buffer from the start. -/
theorem Created.holds (h : Created w) :
    (∃ header, w.Holds header [] []) ∨ w.kind = .endOfList ∧ w.buffer = [] ∧ w.curOffset = 1 := by
  cases h with
  | ofKind kind limit tag =>
    by_cases hkind : kind = .endOfList
    · subst hkind
      exact .inr ⟨rfl, rfl, rfl⟩
    · exact .inl ⟨_, ofKind_holds hkind limit tag⟩
  | ofKindList kindList limit => exact .inl ⟨_, ofKindList_holds kindList limit⟩

/-- What comes of copying a block of the first version. -/
inductive Upgrades (w : ClumpletWriter) (kindList : KindList) (front : List Item) :
    ClumpletWriter × InsertResult → Prop where
  | copied {w' : ClumpletWriter} (hkind : w'.kind = .wideTagged) (hlimit : w'.sizeLimit = w.sizeLimit)
      (hlist : w'.kindList = w.kindList) (h : w'.Holds [kindList.last] [] front) :
      Upgrades w kindList front (w', .inserted)
  | failed {w' : ClumpletWriter} {result : InsertResult} (hfront : front ≠ [])
      (hresult : result ≠ .inserted) (hoffset : w'.curOffset < w.curOffset) : Upgrades w kindList front (w', result)

theorem Holds.copyTo (h : w.Holds header front []) {kindList : KindList}
    (hlist : w.kindList = some kindList) :
    Upgrades w kindList front (w.copyTo (.wideTagged, kindList.last)) := by
  have hitems := h.atItems
  have hcurrent := h.curOffset_eq
  have hwide : Kind.wideTagged ≠ .endOfList := by decide
  have hempty : (ofKind .wideTagged w.sizeLimit kindList.last).Holds [kindList.last] [] [] :=
    ofKind_holds hwide w.sizeLimit kindList.last
  have hfuel : front.length < w.buffer.length + 1 := by
    obtain ⟨x, y, final, hbuffer, -, hx, -⟩ := h.content
    have hle := hx.length_le
    rw [hbuffer, List.length_append, List.length_append]
    omega
  rw [List.append_nil] at hitems
  have hcopies : Copies { w with toClumpletReader := w.rewind } [kindList.last] ([] ++ front) 0
      (copyClumplets w.curOffset (w.buffer.length + 1) { w with toClumpletReader := w.rewind }
        (ofKind .wideTagged w.sizeLimit kindList.last) 0) :=
    copyClumplets_copies hitems hempty rfl hcurrent.ge hfuel
  have hheader : Header .wideTagged [kindList.last] := .tagged kindList.last (by decide)
  rw [ClumpletWriter.copyTo]
  generalize copyClumplets _ _ _ _ _ = copied at hcopies
  cases hcopies with
  | @copied w' newPb hsame hnew hkind =>
    obtain ⟨x, y, final, hbuffer, hoffset, hx, hy⟩ := hnew.content
    have hfits := hnew.fits
    cases hy
    rw [List.append_nil] at hbuffer
    rw [hbuffer] at hfits
    have hrewind : (⟨.wideTagged, newPb.buffer, w'.curOffset, w'.spbState⟩ : ClumpletReader).rewind =
        ⟨.wideTagged, [kindList.last] ++ x, [kindList.last].length, 0⟩ := by
      rw [hbuffer]
      exact hheader.create_eq x
    rw [hkind] at hx
    dsimp only
    rw [if_neg (not_not.2 rfl), hrewind]
    refine .copied rfl hsame.sizeLimit hsame.kindList
      ⟨hheader, ?_, hfits, fun _ => rfl, fun kindList' hlist' => .inr ?_⟩
    · exact ⟨[], x, newPb.spbState, by rw [List.append_nil], rfl, .nil 0, hx⟩
    · rw [hsame.kindList] at hlist'
      cases hlist.symm.trans hlist'
      rfl
  | @failed w' newPb result hitems hresult hbuffer hoffset =>
    have hfailed : Upgrades w kindList front (w', result) :=
      .failed hitems hresult (by rw [hcurrent]; exact hoffset)
    cases result with
    | inserted => exact absurd rfl hresult
    | raised e => exact hfailed
    | undefined => exact hfailed

theorem Holds.upgradeVersion (h : w.Holds header front []) {kindList : KindList}
    (hlist : w.kindList = some kindList) (hfirst : (w.kind, header) = kindList.first) :
    ∃ r, w.upgradeVersion = some r ∧ Upgrades w kindList front r := by
  have hnewest : newest kindList.entries = (.wideTagged, kindList.last) := by cases kindList <;> rfl
  have hnewer : ¬ kindList.last ≤ kindList.entries.headI.2 := by cases kindList <;> decide
  have htag : w.getBufferTag = .ok kindList.entries.headI.2 := by
    obtain ⟨x, y, final, hbuffer, -⟩ := h.content
    cases kindList with
    | dpbList =>
      obtain ⟨hkind, rfl⟩ := Prod.mk.inj hfirst
      rw [ClumpletReader.getBufferTag, hkind, hbuffer]
      rfl
    | spbList =>
      obtain ⟨hkind, rfl⟩ := Prod.mk.inj hfirst
      rw [ClumpletReader.getBufferTag, hkind, hbuffer]
      rfl
  refine ⟨_, ?_, h.copyTo hlist⟩
  rw [ClumpletWriter.upgradeVersion, hlist]
  dsimp only
  rw [hnewest, htag]
  dsimp only
  rw [if_neg hnewer, ite_self]

/-- The clumplet is too long for the version of the block, and there may be newer ones. -/
def NeedsUpgrade (w : ClumpletWriter) (item : Item) : Prop :=
  w.kindList ≠ none ∧ ∃ type, getClumpletType w.kind w.spbState item.1 = .ok type ∧
    type.accepts item.2.length = false

/-- What comes of an insertion. -/
inductive Inserts (w : ClumpletWriter) (header : List UInt8) (front back : List Item) (item : Item) :
    ClumpletWriter × InsertResult → Prop where
  /-- The clumplet is refused for another reason than its size. -/
  | refused (e : ClumpletError) (he : ∀ what, e ≠ .sizeOverflow what) (hneeds : ¬ w.NeedsUpgrade item) :
      Inserts w header front back item (w, .raised e)
  | stored {type : ClumpletType} {r : ClumpletWriter × InsertResult}
      (htype : getClumpletType w.kind w.spbState item.1 = .ok type)
      (haccepts : type.accepts item.2.length) (hneeds : ¬ w.NeedsUpgrade item)
      (h : Stores w header front back type item r) : Inserts w header front back item r
  /-- The block is copied first. -/
  | upgraded {kindList : KindList} {w' : ClumpletWriter} {r : ClumpletWriter × InsertResult}
      (hneeds : w.NeedsUpgrade item) (hback : back = []) (hlist : w.kindList = some kindList)
      (hfirst : (w.kind, header) = kindList.first) (hkind : w'.kind = .wideTagged)
      (hlimit : w'.sizeLimit = w.sizeLimit) (hlist' : w'.kindList = w.kindList)
      (h : w'.Holds [kindList.last] [] front) (hstores : Stores w' [kindList.last] [] front .wide item r) :
      Inserts w header front back item r
  /-- The block could not be copied. -/
  | failed {w' : ClumpletWriter} {result : InsertResult} (hneeds : w.NeedsUpgrade item)
      (hback : back = []) (hfront : front ≠ []) (hresult : result ≠ .inserted) (hoffset : w'.curOffset < w.curOffset) :
      Inserts w header front back item (w', result)

theorem getClumpletType_error {kind : Kind} {state tag : UInt8} {e : ClumpletError}
    (h : getClumpletType kind state tag = .error e) (what : String) : e ≠ .sizeOverflow what := by
  rintro rfl
  rw [getClumpletType.eq_def] at h
  split at h
  · cases h
  · cases h
  · cases h
  · cases h
  · cases h
  · split_ifs at h
  · split_ifs at h
  · cases h
  · split_ifs at h
    split at h
    · rw [Service.getType] at h
      split_ifs at h
      cases h
    · cases h
  · cases h

theorem wide_accepts {item : Item} (h : item.2.length < 2 ^ 32) :
    ClumpletType.wide.accepts item.2.length :=
  decide_eq_true (Nat.le_sub_one_of_lt h)

/-- A clumplet that its type accepts needs no newer version. -/
theorem not_needsUpgrade {type : ClumpletType} {item : Item}
    (htype : getClumpletType w.kind w.spbState item.1 = .ok type)
    (haccepts : type.accepts item.2.length) : ¬ w.NeedsUpgrade item := by
  rintro ⟨-, type', htype', hnot⟩
  cases htype.symm.trans htype'
  rw [haccepts] at hnot
  cases hnot

theorem Holds.insert (h : w.Holds header front back) {item : Item} (hlength : item.2.length < 2 ^ 32) :
    Inserts w header front back item (w.insertBytesLengthCheck item.1 item.2) := by
  rw [insertBytesLengthCheck, if_neg (not_lt.2 h.curOffset_le), insertLoop]
  cases htype : getClumpletType w.kind w.spbState item.1 with
  | error e =>
    refine .refused e (getClumpletType_error htype) ?_
    rintro ⟨-, type, htype', -⟩
    cases htype.symm.trans htype'
  | ok type =>
    dsimp only
    cases haccepts : type.accepts item.2.length with
    | true =>
      rw [if_pos rfl]
      exact .stored htype haccepts (not_needsUpgrade htype haccepts) (h.store htype haccepts)
    | false =>
      rw [if_neg Bool.false_ne_true]
      cases hlist : w.kindList with
      | none =>
        have hnone : w.upgradeVersion = none := by rw [ClumpletWriter.upgradeVersion, hlist]
        rw [hnone]
        exact .refused _ nofun fun hneeds => hneeds.1 hlist
      | some kindList =>
        have hneeds : w.NeedsUpgrade item :=
          ⟨by rw [hlist]; exact Option.some_ne_none _, type, htype, haccepts⟩
        have hwide : w.kind ≠ .wideTagged := by
          intro hkind
          rw [hkind] at htype
          cases htype
          rw [wide_accepts hlength] at haccepts
          cases haccepts
        have hback : back = [] := by
          by_contra hne
          exact hwide (h.back hne)
        subst hback
        have hfirst := (h.version kindList hlist).resolve_right fun hlast => hwide (Prod.mk.inj hlast).1
        obtain ⟨r, hupgrade, hr⟩ := h.upgradeVersion hlist hfirst
        rw [hupgrade]
        cases hr with
        | @copied w' hkind hlimit hlist' hholds =>
          have htype' : getClumpletType w'.kind w'.spbState item.1 = .ok .wide := by rw [hkind]; rfl
          dsimp only
          rw [insertLoop, htype']
          dsimp only
          rw [if_pos (wide_accepts hlength)]
          exact .upgraded hneeds rfl hlist hfirst hkind hlimit hlist' hholds
            (hholds.store htype' (wide_accepts hlength))
        | @failed w' result hfront hresult hoffset =>
          have hfailed : Inserts w header front [] item (w', result) :=
            .failed hneeds rfl hfront hresult hoffset
          cases result with
          | inserted => exact absurd rfl hresult
          | raised e => exact hfailed
          | undefined => exact hfailed

/-! ## Sequences of insertions -/

/-- Clumplets are inserted one after another, until one is not. -/
def insertAll : ClumpletWriter → List Item → ClumpletWriter × InsertResult
  | w, [] => (w, .inserted)
  | w, item :: items =>
      match w.insertBytesLengthCheck item.1 item.2 with
      | (w, .inserted) => insertAll w items
      | r => r

/-- A newer version is needed only where there are no clumplets yet, and no size that is compared with the
limit loses what does not fit 32 bits. -/
def InPlace (w : ClumpletWriter) (item : Item) : Prop :=
  (∀ type, getClumpletType w.kind w.spbState item.1 = .ok type → type.accepts item.2.length →
    ¬ w.Wraps type item.2) ∧
  (w.NeedsUpgrade item → w.curOffset = w.rewind.curOffset ∧
    ¬ (2 ^ 32 ≤ item.2.length + 6 ∧ (item.2.length + 6) % 2 ^ 32 ≤ w.sizeLimit))

/-- All are inserted, and all are read back in their order. -/
def ReadsBack (w : ClumpletWriter) (items : List Item) : Prop :=
  ∃ w', w.insertAll items = (w', .inserted) ∧
    ClumpletReader.readAll w'.kind w'.buffer = some (.ok items)

/-- None is refused. -/
def Accepts (w : ClumpletWriter) (items : List Item) : Prop :=
  ∀ e, (w.insertAll items).2 ≠ .raised e

theorem rewind_eq (h : w.Holds header front []) : w.curOffset = w.rewind.curOffset ↔ front = [] := by
  obtain ⟨x, y, final, hbuffer, hoffset, hx, -⟩ := h.content
  have hrewind : w.rewind = ClumpletReader.create w.kind w.buffer := rfl
  rw [hrewind, hbuffer, List.append_assoc, h.begun.create_eq, hoffset, Nat.add_eq_left,
    List.length_eq_zero_iff]
  constructor
  · rintro rfl
    have hle := hx.length_le
    exact List.eq_nil_of_length_eq_zero (Nat.le_zero.1 hle)
  · rintro rfl
    rw [hx.bytes_nil]

/-- Behind the newest version, all is inserted where the writer is. -/
theorem Holds.insertAll_wide (h : w.Holds header front back) (hkind : w.kind = .wideTagged)
    {items : List Item} (hlength : ∀ item ∈ items, item.2.length < 2 ^ 32) {w' : ClumpletWriter}
    (hall : w.insertAll items = (w', .inserted)) :
    w'.kind = .wideTagged ∧ w'.Holds header (front ++ items) back := by
  induction items generalizing w front with
  | nil =>
    cases hall
    rw [List.append_nil]
    exact ⟨hkind, h⟩
  | cons item items ih =>
    have hitem := hlength item List.mem_cons_self
    have hinsert := h.insert hitem
    rw [insertAll] at hall
    generalize w.insertBytesLengthCheck item.1 item.2 = r at hinsert hall
    cases hinsert with
    | refused e he hneeds => cases hall
    | stored htype haccepts hneeds hstores =>
      cases hstores with
      | overflow what => cases hall
      | wraps hwraps => cases hall
      | inserted hsize hholds hsame =>
        have hrest := ih hholds (hsame.kind.trans hkind) (fun x hx => hlength x (List.mem_cons_of_mem _ hx))
          hall
        rw [List.append_assoc] at hrest
        exact hrest
    | upgraded hneeds =>
      obtain ⟨-, type, htype, hnot⟩ := hneeds
      rw [hkind] at htype
      cases htype
      rw [wide_accepts hitem] at hnot
      cases hnot
    | failed hneeds =>
      obtain ⟨-, type, htype, hnot⟩ := hneeds
      rw [hkind] at htype
      cases htype
      rw [wide_accepts hitem] at hnot
      cases hnot

/-- The clumplets of the first version of a list are not too long for it. -/
theorem Holds.short (h : w.Holds header front []) {kindList : KindList}
    (hfirst : (w.kind, header) = kindList.first) {item : Item} (hitem : item ∈ front) :
    item.2.length ≤ 255 := by
  obtain ⟨x, y, final, -, -, hx, -⟩ := h.content
  have htype (state tag : UInt8) : getClumpletType w.kind state tag = .ok .traditionalDpb := by
    cases kindList <;> (obtain ⟨hkind, -⟩ := Prod.mk.inj hfirst; rw [hkind]; rfl)
  obtain ⟨state, type, htype', haccepts⟩ := hx.accepted_of_mem hitem
  cases (htype state item.1).symm.trans htype'
  exact of_decide_eq_true haccepts

/-- A clumplet that the first version of a list is too short for. -/
theorem NeedsUpgrade.long {item : Item} (hneeds : w.NeedsUpgrade item) {kindList : KindList}
    (hfirst : (w.kind, header) = kindList.first) : 255 < item.2.length := by
  obtain ⟨-, type, htype, hnot⟩ := hneeds
  have htraditional : type = .traditionalDpb := by
    cases kindList <;> (obtain ⟨hkind, -⟩ := Prod.mk.inj hfirst; rw [hkind] at htype; cases htype; rfl)
  subst htraditional
  exact not_le.1 (of_decide_eq_false hnot)

theorem Holds.readsBack_iff (h : w.Holds header front []) {items : List Item}
    (hlength : ∀ item ∈ items, item.2.length < 2 ^ 32) (hacc : w.Accepts items) :
    (∃ w', w.insertAll items = (w', .inserted) ∧
      ClumpletReader.readAll w'.kind w'.buffer = some (.ok (front ++ items))) ↔
      AlongRun (fun w item => (w.insertBytesLengthCheck item.1 item.2).1) InPlace w items := by
  induction items generalizing w header front with
  | nil =>
    refine iff_of_true ⟨w, rfl, ?_⟩ trivial
    exact h.readAll_eq
  | cons item items ih =>
    have hitem := hlength item List.mem_cons_self
    have hitems : ∀ x ∈ items, x.2.length < 2 ^ 32 := fun x hx => hlength x (List.mem_cons_of_mem _ hx)
    have hinsert := h.insert hitem
    rw [Accepts, insertAll] at hacc
    rw [insertAll, AlongRun]
    generalize hr : w.insertBytesLengthCheck item.1 item.2 = r at hinsert hacc ⊢
    cases hinsert with
    | refused e he hneeds => exact absurd rfl (hacc e)
    | stored htype haccepts hneeds hstores =>
      cases hstores with
      | overflow what => exact absurd rfl (hacc _)
      | wraps hwraps =>
        refine iff_of_false ?_ fun hplace => hplace.1.1 _ htype haccepts hwraps
        rintro ⟨_, hall, -⟩
        cases hall
      | @inserted w1 hsize hholds hsame =>
        have hplace : w.InPlace item := by
          refine ⟨fun type htype' _ hwraps => ?_, fun hcon => absurd hcon hneeds⟩
          cases htype.symm.trans htype'
          exact absurd hwraps.1 (not_le.2 hsize)
        rw [and_iff_right hplace]
        have hrest := ih hholds hitems hacc
        rw [List.append_assoc] at hrest
        exact hrest
    | @upgraded kindList w1 r hneeds hback hlist hfirst hkind hlimit hlist' hholds hstores =>
      by_cases hfront : front = []
      · subst hfront
        have hsize : w1.sizeWith .wide item.2 = item.2.length + 6 := by
          obtain ⟨x, y, final, hbuffer, -, hx, hy⟩ := hholds.content
          rw [sizeWith, hbuffer, hx.bytes_nil, hy.bytes_nil]
          change 1 + item.2.length + 4 + 1 = _
          omega
        cases hstores with
        | overflow what => exact absurd rfl (hacc _)
        | wraps hwraps =>
          rw [Wraps, hsize, hlimit] at hwraps
          refine iff_of_false ?_ fun hplace => (hplace.1.2 hneeds).2 hwraps
          rintro ⟨_, hall, -⟩
          cases hall
        | @inserted w2 hsmall hholds2 hsame =>
          have hplace : w.InPlace item := by
            refine ⟨fun type htype haccepts => absurd hneeds (not_needsUpgrade htype haccepts),
              fun _ => ⟨(rewind_eq h).2 rfl, ?_⟩⟩
            rw [hsize] at hsmall
            exact fun hcon => absurd hcon.1 (not_le.2 hsmall)
          rw [and_iff_right hplace]
          exact ih hholds2 hitems hacc
      · refine iff_of_false ?_ fun hplace => hfront ((rewind_eq h).1 (hplace.1.2 hneeds).1)
        rintro ⟨w', hall, hread⟩
        cases hstores with
        | overflow what => cases hall
        | wraps hwraps => cases hall
        | @inserted w2 hsmall hholds2 hsame =>
          -- the clumplet is in front of those that were there
          have hwide := hholds2.insertAll_wide (hsame.kind.trans hkind) hitems hall
          rw [hwide.2.readAll_eq] at hread
          obtain ⟨first, rest, rfl⟩ := List.exists_cons_of_ne_nil hfront
          have heq := (List.cons.inj (Except.ok.inj (Option.some.inj hread))).1
          have hlong := hneeds.long hfirst
          have hshort := h.short hfirst (List.mem_cons_self : first ∈ first :: rest)
          rw [← heq] at hshort
          omega
    | @failed w' result hneeds hback hfront hresult hoffset =>
      refine iff_of_false ?_ fun hplace => hfront ((rewind_eq h).1 (hplace.1.2 hneeds).1)
      rintro ⟨w'', hall, -⟩
      cases result with
      | inserted => exact hresult rfl
      | raised e => cases hall
      | undefined => cases hall

theorem Holds.insertAll_holds (h : w.Holds header front back) {items : List Item}
    (hlength : ∀ item ∈ items, item.2.length < 2 ^ 32) (hall : w.insertAll items = (w', .inserted)) :
    ∃ header front back, w'.Holds header front back := by
  induction items generalizing w header front back with
  | nil =>
    cases hall
    exact ⟨header, front, back, h⟩
  | cons item items ih =>
    have hinsert := h.insert (hlength item List.mem_cons_self)
    have hitems : ∀ x ∈ items, x.2.length < 2 ^ 32 := fun x hx => hlength x (List.mem_cons_of_mem _ hx)
    rw [insertAll] at hall
    generalize w.insertBytesLengthCheck item.1 item.2 = r at hinsert hall
    cases hinsert with
    | refused e he hneeds => cases hall
    | stored htype haccepts hneeds hstores =>
      cases hstores with
      | overflow what => cases hall
      | wraps hwraps => cases hall
      | inserted hsize hholds hsame => exact ih hholds hitems hall
    | upgraded hneeds hback hlist hfirst hkind hlimit hlist' hholds hstores =>
      cases hstores with
      | overflow what => cases hall
      | wraps hwraps => cases hall
      | inserted hsize hholds' hsame => exact ih hholds' hitems hall
    | @failed w' result hneeds hback hfront hresult hoffset =>
      cases result with
      | inserted => exact absurd rfl hresult
      | raised e => cases hall
      | undefined => cases hall

/-- An insertion that exceeds the limit leaves the block and the position as they are, unless a newer
version was needed. -/
theorem Holds.overflow_iff (h : w.Holds header front back) {item : Item}
    (hlength : item.2.length < 2 ^ 32) {what : String}
    (hinsert : w.insertBytesLengthCheck item.1 item.2 = (w', .raised (.sizeOverflow what))) :
    w'.buffer = w.buffer ∧ w'.curOffset = w.curOffset ↔ ¬ w.NeedsUpgrade item := by
  have hcases := h.insert hlength
  rw [hinsert] at hcases
  generalize hr : (w', InsertResult.raised (.sizeOverflow what)) = r at hcases
  cases hcases with
  | refused e he hneeds =>
    cases hr
    exact absurd rfl (he what)
  | stored htype haccepts hneeds hstores =>
    cases hstores with
    | overflow what => cases hr; exact iff_of_true ⟨rfl, rfl⟩ hneeds
    | wraps hwraps => cases hr
    | inserted hsize hholds hsame => cases hr
  | @upgraded kindList w1 _ hneeds hback hlist hfirst hkind hlimit hlist' hholds hstores =>
    cases hstores with
    | overflow what =>
      cases hr
      refine iff_of_false (fun hsame => ?_) (not_not.2 hneeds)
      obtain ⟨x, y, final, hbuffer, -⟩ := h.content
      obtain ⟨x', y', final', hbuffer', -⟩ := hholds.content
      have heq := hsame.1
      rw [hbuffer, hbuffer'] at heq
      cases kindList with
      | dpbList =>
        obtain ⟨-, rfl⟩ := Prod.mk.inj hfirst
        exact absurd (List.cons.inj heq).1 (by decide)
      | spbList =>
        obtain ⟨-, rfl⟩ := Prod.mk.inj hfirst
        exact absurd (List.cons.inj heq).1 (by decide)
    | wraps hwraps => cases hr
    | inserted hsize hholds' hsame => cases hr
  | failed hneeds hback hfront hresult hoffset =>
    cases hr
    exact iff_of_false (fun hsame => absurd hsame.2 hoffset.ne) (not_not.2 hneeds)

end ClumpletWriter

/-! ## Deletions -/

/-- If the clumplet that names the action of a service has the tag, only clumplets that are wide in every
state are behind it. -/
def KeepsTypes (kind : Kind) (items : List Item) (tag : UInt8) : Prop :=
  kind = .spbStart → tag ≠ 0 → tag ∉ spbWideTags → ∀ before bytes after,
    items = before ++ (tag, bytes) :: after → (∀ item ∈ before, item.1 = 0 ∨ item.1 ∈ spbWideTags) →
      ∀ item ∈ after, item.1 ∈ spbWideTags

theorem getClumpletType_wide {state tag : UInt8} (h : tag ∈ spbWideTags) :
    getClumpletType .spbStart state tag = .ok .wide :=
  if_pos h

/-- In front of the action, there are wide clumplets and those with the tag 0. -/
theorem Encoded.zero {state final : UInt8} {items : List Item} {x : List UInt8}
    (h : Encoded .spbStart state items x final) (hfinal : final = 0) :
    state = 0 ∧ ∀ item ∈ items, item.1 = 0 ∨ item.1 ∈ spbWideTags := by
  induction h with
  | nil => exact ⟨hfinal, fun _ h => absurd h List.not_mem_nil⟩
  | @cons state final type item items rest htype haccepts hrest ih =>
    obtain ⟨hnext, hall⟩ := ih hfinal
    rw [nextState] at hnext
    have hstate : state = 0 := by
      split at hnext
      · rename_i hcond
        exact hcond.2.1
      · exact hnext
    refine ⟨hstate, List.forall_mem_cons.2 ⟨?_, hall⟩⟩
    by_cases hwide : item.1 ∈ spbWideTags
    · exact .inr hwide
    · rw [getClumpletType, if_neg hwide, if_pos hstate] at htype
      cases htype
      have hzero : ClumpletType.singleTpb.lengthSize + item.2.length = 0 := by
        rw [of_decide_eq_true haccepts]
        rfl
      rw [if_pos ⟨rfl, hstate, hzero⟩] at hnext
      exact .inl hnext

/-- Wide clumplets are the same in every state. -/
theorem Encoded.of_wide {state final : UInt8} {items : List Item} {x : List UInt8}
    (h : Encoded .spbStart state items x final) (hwide : ∀ item ∈ items, item.1 ∈ spbWideTags)
    (state' : UInt8) : Encoded .spbStart state' items x state' := by
  induction h with
  | nil => exact .nil state'
  | @cons state final type item items rest htype haccepts hrest ih =>
    obtain ⟨hitem, hitems⟩ := List.forall_mem_cons.1 hwide
    cases (getClumpletType_wide hitem).symm.trans htype
    have hnext : nextState .spbStart state' .wide item = state' := if_neg fun hcond =>
      absurd hcond.2.2 (Nat.ne_of_gt (Nat.add_pos_left (by decide) _))
    refine .cons (getClumpletType_wide hitem) haccepts ?_
    rw [hnext]
    exact ih hitems

/-- Without the first clumplet with the tag, the others are still what they were. -/
theorem Encoded.delete {kind : Kind} {state final : UInt8} {before after : List Item} {tag : UInt8}
    {bytes x z : List UInt8} (hbefore : Encoded kind 0 before x state)
    (h : Encoded kind state ((tag, bytes) :: after) z final)
    (hkeeps : KeepsTypes kind (before ++ (tag, bytes) :: after) tag) :
    ∃ type y final', getClumpletType kind state tag = .ok type ∧
      z = ClumpletWriter.clumpletBytes type tag bytes ++ y ∧ Encoded kind 0 (before ++ after) (x ++ y) final' := by
  cases h with
  | @cons _ _ type _ _ y htype haccepts hrest =>
    refine ⟨type, y, ?_⟩
    by_cases hnext : nextState kind state type (tag, bytes) = state
    · rw [hnext] at hrest
      exact ⟨final, htype, rfl, hbefore.append hrest⟩
    · have hcond : kind = .spbStart ∧ state = 0 ∧ type.lengthSize + bytes.length = 0 := by
        by_contra hcon
        exact hnext (if_neg hcon)
      obtain ⟨rfl, rfl, hsize⟩ := hcond
      have htag : tag ≠ 0 := by
        rintro rfl
        exact hnext (if_pos ⟨rfl, rfl, hsize⟩)
      have hwide : tag ∉ spbWideTags := by
        intro hmem
        cases (getClumpletType_wide hmem).symm.trans htype
        exact absurd hsize (Nat.ne_of_gt (Nat.add_pos_left (by decide) _))
      have hafter := hkeeps rfl htag hwide before bytes after rfl (hbefore.zero rfl).2
      exact ⟨0, htype, rfl, hbefore.append (hrest.of_wide hafter 0)⟩

theorem KeepsTypes.delete {kind : Kind} {before after : List Item} {tag : UInt8} {bytes : List UInt8}
    (h : KeepsTypes kind (before ++ (tag, bytes) :: after) tag)
    (hbefore : ∀ item ∈ before, item.1 ≠ tag) : KeepsTypes kind (before ++ after) tag := by
  intro hkind htag hwide before' bytes' after' heq hzero
  rcases List.append_eq_append_iff.1 heq with ⟨mid, rfl, hafter⟩ | ⟨mid, rfl, hafter⟩
  · -- the action is deleted, so that nothing with its tag is left
    have hall := h hkind htag hwide before bytes after rfl
      fun item hitem => hzero item (List.mem_append_left _ hitem)
    exact absurd (hall (tag, bytes') (by rw [hafter]; exact List.mem_append_right _ List.mem_cons_self))
      hwide
  · cases mid with
    | nil =>
      have hall := h hkind htag hwide before' bytes after (by rw [List.append_nil]) hzero
      rw [List.nil_append] at hafter
      exact absurd (hall (tag, bytes') (by rw [← hafter]; exact List.mem_cons_self)) hwide
    | cons item mid =>
      have hitem := (List.cons.inj hafter).1
      exact absurd (by rw [← hitem]) (hbefore item (List.mem_append_right _ List.mem_cons_self))

namespace ClumpletReader
open ClumpletWriter

variable {r : ClumpletReader}

/-- What the search for a tag comes to. -/
inductive Finds (r : ClumpletReader) (tag : UInt8) (items : List Item) :
    Option (Except ClumpletError (Bool × ClumpletReader)) → Prop where
  | absent {r' : ClumpletReader} (hkind : r'.kind = r.kind) (hbuffer : r'.buffer = r.buffer)
      (h : ∀ item ∈ items, item.1 ≠ tag) : Finds r tag items (some (.ok (false, r')))
  | present {before after : List Item} {bytes x : List UInt8} {r' : ClumpletReader}
      (hitems : items = before ++ (tag, bytes) :: after) (hbefore : ∀ item ∈ before, item.1 ≠ tag)
      (hkind : r'.kind = r.kind) (hbuffer : r'.buffer = r.buffer)
      (hoffset : r'.curOffset = r.curOffset + x.length)
      (hfront : r.buffer.drop r.curOffset = x ++ r.buffer.drop r'.curOffset)
      (hx : Encoded r.kind r.spbState before x r'.spbState) (hat : r'.AtItems ((tag, bytes) :: after)) :
      Finds r tag items (some (.ok (true, r')))

theorem AtItems.findFrom {items : List Item} (h : r.AtItems items) (tag : UInt8) (curOffset : ℕ)
    {fuel : ℕ} (hfuel : items.length < fuel) :
    Finds r tag items (findFrom tag curOffset fuel r) := by
  induction items generalizing r fuel with
  | nil =>
    obtain ⟨fuel, rfl⟩ := Nat.exists_eq_succ_of_ne_zero hfuel.ne'
    rw [ClumpletReader.findFrom, h.isEof_nil, if_pos rfl]
    exact .absent rfl rfl fun _ h => absurd h List.not_mem_nil
  | cons item items ih =>
    obtain ⟨fuel, rfl⟩ := Nat.exists_eq_succ_of_ne_zero (Nat.ne_zero_of_lt hfuel)
    obtain ⟨type, rest, hat, heof, next, hnext, hnext', hitems⟩ := h.cons
    rw [ClumpletReader.findFrom, heof, if_neg Bool.false_ne_true, hat.getClumpTag_eq]
    dsimp only
    by_cases htag : tag = item.1
    · rw [if_pos htag]
      subst htag
      exact .present (List.nil_append _).symm (fun _ h => absurd h List.not_mem_nil) rfl rfl rfl rfl
        (.nil _) h
    · rw [if_neg htag, hnext]
      have hkind : next.kind = r.kind := by rw [hnext']
      have hbuf : next.buffer = r.buffer := by rw [hnext']
      have hstate : next.spbState = nextState r.kind r.spbState type item := by rw [hnext']
      have hoff : next.curOffset = r.curOffset + (1 + type.lengthSize + item.2.length) := by rw [hnext']
      have hdrop : r.buffer.drop r.curOffset =
          clumpletBytes type item.1 item.2 ++ r.buffer.drop next.curOffset := by
        rw [hoff, ← List.drop_drop, hat.bytes, List.drop_left' (length_clumpletBytes ..)]
      have hfind := ih hitems (Nat.lt_of_succ_lt_succ hfuel)
      dsimp only
      generalize ClumpletReader.findFrom tag curOffset fuel next = found at hfind
      cases hfind with
      | absent hk hb hno =>
        exact .absent (hk.trans hkind) (hb.trans hbuf) (List.forall_mem_cons.2 ⟨Ne.symm htag, hno⟩)
      | @present before after bytes x r' hitems' hbefore hk hb ho hfront hx hat' =>
        have hoffset : r'.curOffset =
            r.curOffset + (clumpletBytes type item.1 item.2 ++ x).length := by
          rw [ho, hoff, List.length_append, length_clumpletBytes]
          omega
        have hdrop' : r.buffer.drop r.curOffset =
            clumpletBytes type item.1 item.2 ++ x ++ r.buffer.drop r'.curOffset := by
          rw [hbuf] at hfront
          rw [hdrop, hfront, List.append_assoc]
        rw [hkind, hstate] at hx
        rw [hitems', ← List.cons_append]
        exact .present rfl (List.forall_mem_cons.2 ⟨Ne.symm htag, hbefore⟩) (hk.trans hkind)
          (hb.trans hbuf) hoffset hdrop' (.cons hat.typed hat.accepted hx) hat'

end ClumpletReader

namespace ClumpletWriter

variable {w : ClumpletWriter} {header : List UInt8} {items : List Item}

/-- The clumplets of a block, wherever the writer is. -/
structure Contains (w : ClumpletWriter) (header : List UInt8) (items : List Item) : Prop where
  begun : Header w.kind header
  content : ∃ x final, w.buffer = header ++ x ∧ Encoded w.kind 0 items x final
  fits : w.buffer.length < 2 ^ 32

theorem Holds.contains {front back : List Item} (h : w.Holds header front back) :
    w.Contains header (front ++ back) := by
  obtain ⟨x, y, final, hbuffer, -, hx, hy⟩ := h.content
  exact ⟨h.begun, ⟨x ++ y, final, by rw [hbuffer, List.append_assoc], hx.append hy⟩, h.fits⟩

theorem Contains.atItems (h : w.Contains header items) :
    (ClumpletReader.create w.kind w.buffer).AtItems items := by
  obtain ⟨x, final, hbuffer, hx⟩ := h.content
  have hfits := h.fits
  rw [hbuffer] at hfits ⊢
  rw [h.begun.create_eq]
  refine ⟨Header.begins h.begun le_rfl, ?_, ⟨final, ?_⟩, hfits⟩
  · rw [List.length_append]
    exact Nat.le_add_right ..
  · change Encoded w.kind 0 _ ((header ++ x).drop header.length) final
    rw [List.drop_left]
    exact hx

theorem Contains.readAll_eq (h : w.Contains header items) :
    ClumpletReader.readAll w.kind w.buffer = some (.ok items) :=
  ClumpletReader.readAll_eq h.atItems

/-- The clumplet at the position is taken out. -/
theorem deleteClumplet_eq {type : ClumpletType} {item : Item} {rest : List UInt8}
    (h : w.AtClumplet type item rest) :
    w.deleteClumplet = .ok { w with buffer := w.buffer.take w.curOffset ++ rest } := by
  have hlength := h.length_eq
  have hrest : w.buffer.drop (w.curOffset + (1 + type.lengthSize + item.2.length)) = rest := by
    rw [← List.drop_drop, h.bytes, List.drop_left' (length_clumpletBytes ..)]
  rw [deleteClumplet, if_neg (by omega)]
  split
  · have hnil : rest = [] := List.eq_nil_of_length_eq_zero (by omega)
    rw [hnil, List.append_nil]
  · rw [h.size_eq]
    simp only [Except.map]
    rw [hrest]

theorem Contains.deleteAll (h : w.Contains header items) {tag : UInt8}
    (hkeeps : KeepsTypes w.kind items tag) {fuel : ℕ} (hfuel : items.length < fuel) :
    ∃ w', deleteAll tag fuel w = some (.ok w') ∧ w'.kind = w.kind ∧
      w'.Contains header (items.filter fun item => item.1 ≠ tag) := by
  induction fuel generalizing w items with
  | zero => exact absurd hfuel (Nat.not_lt_zero _)
  | succ fuel ih =>
    have hitems := h.atItems
    have hle : items.length < w.buffer.length + 1 := by
      obtain ⟨x, final, hbuffer, hx⟩ := h.content
      have hlength := hx.length_le
      rw [hbuffer, List.length_append]
      omega
    have hfind := hitems.findFrom tag w.curOffset hle
    rw [ClumpletWriter.deleteAll, ClumpletReader.find,
      show w.rewind = ClumpletReader.create w.kind w.buffer from rfl]
    generalize ClumpletReader.findFrom tag w.curOffset (w.buffer.length + 1)
      (ClumpletReader.create w.kind w.buffer) = found at hfind
    cases hfind with
    | @absent r' hkind hbuffer hno =>
      have hkind' : r'.kind = w.kind := hkind
      have hbuffer' : r'.buffer = w.buffer := hbuffer
      refine ⟨_, rfl, hkind, ?_⟩
      have hall : items.filter (fun item => item.1 ≠ tag) = items :=
        List.filter_eq_self.2 fun item hitem => decide_eq_true (hno item hitem)
      obtain ⟨x, final, hx, hencoded⟩ := h.content
      have hfits := h.fits
      rw [hall]
      refine ⟨?_, ⟨x, final, ?_, ?_⟩, ?_⟩
      · change Header r'.kind header
        rw [hkind']
        exact h.begun
      · exact hbuffer'.trans hx
      · change Encoded r'.kind 0 items x final
        rw [hkind']
        exact hencoded
      · change r'.buffer.length < _
        rw [hbuffer']
        exact hfits
    | @present before after bytes x r' heq hbefore hkind hbuffer hoffset hfront hx hat =>
      obtain ⟨z, final, hz, -⟩ := h.content
      have hcreate : ClumpletReader.create w.kind w.buffer = ⟨w.kind, w.buffer, header.length, 0⟩ := by
        rw [hz]
        exact h.begun.create_eq z
      rw [hcreate] at hkind hbuffer hoffset hfront hx
      obtain ⟨kind', buffer', curOffset', state'⟩ := r'
      dsimp only at hkind hbuffer hoffset hfront hx
      subst hkind hbuffer heq
      obtain ⟨type, rest, hatc, -, -⟩ := hat.cons
      obtain ⟨final', hencoded⟩ := hat.encoded
      obtain ⟨type', y, final'', htype, hy, hdeleted⟩ := hx.delete hencoded hkeeps
      cases hatc.typed.symm.trans htype
      rw [hatc.bytes, List.append_cancel_left_eq] at hy
      subst hy
      have hbuf : w.buffer = header ++ x ++ w.buffer.drop curOffset' := by
        rw [List.append_assoc, ← hfront, hz, List.drop_left]
      have htake : w.buffer.take curOffset' = header ++ x := by
        rw [hbuf, hoffset, ← List.length_append, List.take_left]
      have hfits : (header ++ (x ++ rest)).length < 2 ^ 32 := by
        have hlength := hatc.length_eq
        have hf := hatc.fits
        dsimp only at hlength hf
        rw [hoffset] at hlength
        rw [List.length_append, List.length_append]
        omega
      have hdelete := deleteClumplet_eq (w := ⟨⟨w.kind, w.buffer, curOffset', state'⟩, w.sizeLimit,
        w.kindList⟩) hatc
      dsimp only at hdelete
      rw [htake, List.append_assoc] at hdelete
      have hcontains : Contains ⟨⟨w.kind, header ++ (x ++ rest), curOffset', state'⟩, w.sizeLimit,
          w.kindList⟩ header (before ++ after) :=
        ⟨h.begun, ⟨x ++ rest, final'', rfl, hdeleted⟩, hfits⟩
      have hfuel' : (before ++ after).length < fuel := by
        rw [List.length_append, List.length_cons] at hfuel
        rw [List.length_append]
        omega
      obtain ⟨w', hall, hkind', hrest⟩ := ih hcontains (hkeeps.delete hbefore) hfuel'
      refine ⟨w', ?_, hkind', ?_⟩
      · dsimp only
        rw [hdelete]
        exact hall
      · rw [List.filter_append] at hrest
        rw [List.filter_append, List.filter_cons_of_neg (by simp)]
        exact hrest

/-- The clumplets with the tag are deleted, and the others are read back in their order. -/
def Deletes (w : ClumpletWriter) (tag : UInt8) (items : List Item) : Prop :=
  ∃ w', w.deleteWithTag tag = some (.ok w') ∧
    ClumpletReader.readAll w'.kind w'.buffer = some (.ok (items.filter fun item => item.1 ≠ tag))

theorem Contains.deletes (h : w.Contains header items) {tag : UInt8}
    (hkeeps : KeepsTypes w.kind items tag) : w.Deletes tag items := by
  have hfuel : items.length < w.buffer.length + 1 := by
    obtain ⟨x, final, hbuffer, hx⟩ := h.content
    have hlength := hx.length_le
    rw [hbuffer, List.length_append]
    omega
  obtain ⟨w', hall, -, hcontains⟩ := h.deleteAll hkeeps hfuel
  exact ⟨w', hall, hcontains.readAll_eq⟩

/-- Every new writer and every sequence of clumplets that it accepts: the clumplets are read back exactly
if a newer version was needed only where there were none yet, and no size lost what does not fit 32 bits.
All clumplets with a tag are deleted, and only these, unless the action of a service is taken from what
follows it. An insertion that exceeds the limit leaves all as it is exactly if it needed no newer
version. -/
theorem writer_iff {w : ClumpletWriter} (hw : Created w) {items : List Item}
    (hlength : ∀ item ∈ items, item.2.length < 2 ^ 32) (hacc : w.Accepts items) :
    (w.ReadsBack items ↔
      AlongRun (fun w item => (w.insertBytesLengthCheck item.1 item.2).1) InPlace w items) ∧
    ∀ w', w.insertAll items = (w', .inserted) →
      (∀ content tag, ClumpletReader.readAll w'.kind w'.buffer = some (.ok content) →
        KeepsTypes w'.kind content tag → w'.Deletes tag content) ∧
      ∀ item : Item, item.2.length < 2 ^ 32 → ∀ w'' what,
        w'.insertBytesLengthCheck item.1 item.2 = (w'', .raised (.sizeOverflow what)) →
        (w''.buffer = w'.buffer ∧ w''.curOffset = w'.curOffset ↔ ¬ w'.NeedsUpgrade item) := by
  rcases hw.holds with ⟨header, hholds⟩ | ⟨hkind, hbuffer, hoffset⟩
  · refine ⟨hholds.readsBack_iff hlength hacc, fun w' hall => ?_⟩
    obtain ⟨header', front, back, hholds'⟩ := hholds.insertAll_holds hlength hall
    refine ⟨fun content tag hread hkeeps => ?_, fun item hitem w'' what hinsert => ?_⟩
    · cases hholds'.readAll_eq.symm.trans hread
      exact hholds'.contains.deletes hkeeps
    · exact hholds'.overflow_iff hitem hinsert
  · have hrefused (item : Item) : w.insertBytesLengthCheck item.1 item.2 =
        (w, .raised (.usageMistake "write past EOF")) := by
      rw [insertBytesLengthCheck, hbuffer, hoffset]
      rfl
    have hread : ClumpletReader.readAll w.kind w.buffer = some (.ok []) := by
      rw [hkind, hbuffer]
      rfl
    cases items with
    | nil =>
      refine ⟨iff_of_true ⟨w, rfl, hread⟩ trivial, fun w' hall => ?_⟩
      cases hall
      refine ⟨fun content tag hcontent _ => ?_, fun item _ w'' what hinsert => ?_⟩
      · cases hread.symm.trans hcontent
        refine ⟨{ w with toClumpletReader := { w.rewind with curOffset := w.curOffset } }, ?_, hread⟩
        have heof : w.rewind.isEof = true := by
          rw [show w.rewind = ClumpletReader.create w.kind w.buffer from rfl, hkind, hbuffer]
          rfl
        rw [deleteWithTag, hbuffer, deleteAll, ClumpletReader.find, hbuffer, ClumpletReader.findFrom,
          heof]
        rfl
      · cases (hrefused item).symm.trans hinsert
    | cons item items =>
      refine absurd ?_ (hacc (.usageMistake "write past EOF"))
      rw [insertAll, hrefused]

/-- A writer of database parameters. -/
def dpbWriter : ClumpletWriter := ofKindList .dpbList 1000

theorem dpbWriter_inserts : (dpbWriter.ReadsBack [(1, [7])] ↔
      AlongRun (fun w item => (w.insertBytesLengthCheck item.1 item.2).1) InPlace dpbWriter [(1, [7])]) ∧
    ∀ w', dpbWriter.insertAll [(1, [7])] = (w', .inserted) →
      (∀ content tag, ClumpletReader.readAll w'.kind w'.buffer = some (.ok content) →
        KeepsTypes w'.kind content tag → w'.Deletes tag content) ∧
      ∀ item : Item, item.2.length < 2 ^ 32 → ∀ w'' what,
        w'.insertBytesLengthCheck item.1 item.2 = (w'', .raised (.sizeOverflow what)) →
        (w''.buffer = w'.buffer ∧ w''.curOffset = w'.curOffset ↔ ¬ w'.NeedsUpgrade item) :=
  writer_iff (.ofKindList .dpbList 1000) (by decide) fun e h => by
    have hinserted : (dpbWriter.insertAll [(1, [7])]).2 = .inserted := by decide +kernel
    exact InsertResult.noConfusion (hinserted.symm.trans h)

/-- The second clumplet needs the newer version, and is read back as the first one. -/
theorem dpbWriter_not_readsBack :
    (dpbWriter.insertAll [(1, [7]), (2, List.replicate 256 0)]).2 = .inserted ∧
    ¬ dpbWriter.ReadsBack [(1, [7]), (2, List.replicate 256 0)] := by
  refine ⟨by decide +kernel, ?_⟩
  rintro ⟨w', hall, hread⟩
  have hother : (fun w : ClumpletWriter => ClumpletReader.readAll w.kind w.buffer)
      (dpbWriter.insertAll [(1, [7]), (2, List.replicate 256 0)]).1 ≠
      some (.ok [(1, [7]), (2, List.replicate 256 0)]) := by decide +kernel
  rw [hall] at hother
  exact hother hread

end ClumpletWriter

end FirebirdCore.Clumplet
