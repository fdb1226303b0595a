import FirebirdCore.Clumplet.Writer

/-!
# What the bytes of a block hold

`Encoded` says which clumplets some bytes hold, read from a state of the service on. A reader in front of
such bytes reports these clumplets.
-/
namespace FirebirdCore.Clumplet
open FirebirdCore.LittleEndian ClumpletWriter

/-- The tag of a clumplet and its data. -/
abbrev Item := UInt8 × List UInt8

/-- The state of the service behind a clumplet. -/
def nextState (kind : Kind) (state : UInt8) (type : ClumpletType) (item : Item) : UInt8 :=
  if kind = .spbStart ∧ state = 0 ∧ type.lengthSize + item.2.length = 0 then item.1 else state

/-- The bytes hold the clumplets, from the first state to the last one. -/
inductive Encoded (kind : Kind) : UInt8 → List Item → List UInt8 → UInt8 → Prop where
  | nil (state : UInt8) : Encoded kind state [] [] state
  | cons {state final : UInt8} {type : ClumpletType} {item : Item} {items : List Item}
      {rest : List UInt8} (htype : getClumpletType kind state item.1 = .ok type)
      (haccepts : type.accepts item.2.length)
      (hrest : Encoded kind (nextState kind state type item) items rest final) :
      Encoded kind state (item :: items) (clumpletBytes type item.1 item.2 ++ rest) final

@[simp] theorem length_clumpletBytes (type : ClumpletType) (tag : UInt8) (bytes : List UInt8) :
    (clumpletBytes type tag bytes).length = 1 + type.lengthSize + bytes.length := by
  rw [clumpletBytes, List.length_append, List.length_cons, length_toBytes]
  omega

namespace Encoded

variable {kind : Kind} {state mid final : UInt8} {front back : List Item} {x y z : List UInt8}

theorem append (hx : Encoded kind state front x mid) (hy : Encoded kind mid back y final) :
    Encoded kind state (front ++ back) (x ++ y) final := by
  induction hx with
  | nil => exact hy
  | cons htype haccepts _ ih =>
    rw [List.cons_append, List.append_assoc]
    exact .cons htype haccepts (ih hy)

theorem split (h : Encoded kind state (front ++ back) z final) :
    ∃ x y mid, z = x ++ y ∧ Encoded kind state front x mid ∧ Encoded kind mid back y final := by
  induction front generalizing state z with
  | nil => exact ⟨[], z, state, rfl, .nil state, h⟩
  | cons item front ih =>
    rw [List.cons_append] at h
    cases h with
    | cons htype haccepts hrest =>
      obtain ⟨x, y, mid, rfl, hx, hy⟩ := ih hrest
      exact ⟨_, y, mid, (List.append_assoc ..).symm, .cons htype haccepts hx, hy⟩

theorem unique (h : Encoded kind state front x mid) (h' : Encoded kind state front y final) :
    x = y ∧ mid = final := by
  induction h generalizing y with
  | nil =>
    cases h'
    exact ⟨rfl, rfl⟩
  | cons htype _ _ ih =>
    cases h' with
    | cons htype' _ hrest' =>
      cases htype.symm.trans htype'
      obtain ⟨rfl, rfl⟩ := ih hrest'
      exact ⟨rfl, rfl⟩

theorem bytes_nil (h : Encoded kind state [] x final) : x = [] := by
  cases h
  rfl

/-- Each clumplet is accepted by its type. -/
theorem accepted_of_mem (h : Encoded kind state front x final) {item : Item} (hitem : item ∈ front) :
    ∃ state type, getClumpletType kind state item.1 = .ok type ∧ type.accepts item.2.length := by
  induction h with
  | nil => exact absurd hitem List.not_mem_nil
  | cons htype haccepts _ ih =>
    rcases List.mem_cons.1 hitem with rfl | hitem
    · exact ⟨_, _, htype, haccepts⟩
    · exact ih hitem

theorem length_le (h : Encoded kind state front x final) : front.length ≤ x.length := by
  induction h with
  | nil => exact le_rfl
  | cons _ _ _ ih =>
    rw [List.length_cons, List.length_append, length_clumpletBytes]
    omega

end Encoded

/-- Only the block that starts a service has states. -/
theorem getClumpletType_state {kind : Kind} (hkind : kind ≠ .spbStart) (state state' tag : UInt8) :
    getClumpletType kind state tag = getClumpletType kind state' tag := by
  cases kind <;> first | rfl | exact absurd rfl hkind

theorem nextState_of_ne {kind : Kind} (hkind : kind ≠ .spbStart) (state : UInt8) (type : ClumpletType)
    (item : Item) : nextState kind state type item = state :=
  if_neg fun h => hkind h.1

theorem Encoded.of_ne {kind : Kind} (hkind : kind ≠ .spbStart) {state final : UInt8} {items : List Item}
    {x : List UInt8} (h : Encoded kind state items x final) (state' : UInt8) :
    Encoded kind state' items x state' := by
  induction h generalizing state' with
  | nil => exact .nil state'
  | cons htype haccepts _ ih =>
    refine .cons ((getClumpletType_state hkind _ _ _).trans htype) haccepts ?_
    rw [nextState_of_ne hkind]
    exact ih state'

/-! ## Measuring what was written -/

namespace ClumpletType

theorem length_lt (type : ClumpletType) {length : ℕ} (h : type.accepts length)
    (hfixed : type.fixedSize = none) : length < 256 ^ type.lengthSize := by
  cases type with
  | wide => exact Nat.lt_of_le_of_lt (of_decide_eq_true h) (by decide)
  | traditionalDpb => exact Nat.lt_of_le_of_lt (of_decide_eq_true h) (by decide)
  | stringSpb => exact Nat.lt_of_le_of_lt (of_decide_eq_true h) (by decide)
  | singleTpb => cases hfixed
  | intSpb => cases hfixed
  | bigIntSpb => cases hfixed
  | byteSpb => cases hfixed

theorem fixedSize_eq (type : ClumpletType) {length size : ℕ} (h : type.accepts length)
    (hfixed : type.fixedSize = some size) : size = length := by
  cases type with
  | wide => cases hfixed
  | traditionalDpb => cases hfixed
  | stringSpb => cases hfixed
  | singleTpb => cases hfixed; exact (of_decide_eq_true h).symm
  | intSpb => cases hfixed; exact (of_decide_eq_true h).symm
  | bigIntSpb => cases hfixed; exact (of_decide_eq_true h).symm
  | byteSpb => cases hfixed; exact (of_decide_eq_true h).symm

/-- The size of the data can be read from what is written. -/
theorem dataSize_eq (type : ClumpletType) {length : ℕ} (h : type.accepts length) (rest : List UInt8) :
    type.fixedSize.getD (ofBytes ((toBytes type.lengthSize length ++ rest).take type.lengthSize)) =
      length := by
  cases hfixed : type.fixedSize with
  | some size => exact type.fixedSize_eq h hfixed
  | none =>
    rw [Option.getD_none, List.take_left' (length_toBytes ..), ofBytes_toBytes (type.length_lt h hfixed)]

end ClumpletType

namespace ClumpletReader

variable {r : ClumpletReader} {type : ClumpletType} {item : Item} {rest : List UInt8}

/-- A clumplet is in front of the reader. -/
structure AtClumplet (r : ClumpletReader) (type : ClumpletType) (item : Item) (rest : List UInt8) :
    Prop where
  bytes : r.buffer.drop r.curOffset = clumpletBytes type item.1 item.2 ++ rest
  typed : getClumpletType r.kind r.spbState item.1 = .ok type
  accepted : type.accepts item.2.length
  fits : r.buffer.length < 2 ^ 32

theorem AtClumplet.length_eq (h : r.AtClumplet type item rest) :
    r.curOffset + (1 + type.lengthSize + item.2.length) + rest.length = r.buffer.length := by
  have hlength := congrArg List.length h.bytes
  rw [List.length_drop, List.length_append, length_clumpletBytes] at hlength
  omega

theorem AtClumplet.measure_eq (h : r.AtClumplet type item rest) :
    r.measure = .ok (type.lengthSize, item.2.length) := by
  have hlength := h.length_eq
  have hfits := h.fits
  have hbytes : r.buffer.drop r.curOffset =
      item.1 :: (toBytes type.lengthSize item.2.length ++ (item.2 ++ rest)) := by
    rw [h.bytes, clumpletBytes, List.cons_append, List.cons_append, List.append_assoc]
  have hrest : (toBytes type.lengthSize item.2.length ++ (item.2 ++ rest)).length =
      type.lengthSize + (item.2.length + rest.length) := by
    rw [List.length_append, List.length_append, length_toBytes]
  rw [measure, hbytes]
  dsimp only
  rw [h.typed]
  dsimp only
  rw [type.dataSize_eq h.accepted, hrest, if_neg (by omega), Nat.mod_eq_of_lt (by omega),
    if_neg (by omega)]

theorem AtClumplet.getClumpTag_eq (h : r.AtClumplet type item rest) : r.getClumpTag = .ok item.1 := by
  rw [getClumpTag, h.bytes]
  rfl

theorem AtClumplet.size_eq (h : r.AtClumplet type item rest) :
    r.getClumpletSize true true true = .ok (1 + type.lengthSize + item.2.length) := by
  have hlength := h.length_eq
  have hfits := h.fits
  rw [getClumpletSize, h.measure_eq]
  change Except.ok ((1 + type.lengthSize + item.2.length) % 2 ^ 32) = _
  rw [Nat.mod_eq_of_lt (by omega)]

theorem AtClumplet.getClumplet_eq (h : r.AtClumplet type item rest) :
    r.getClumplet = .ok ⟨item.1, item.2.length, r.curOffset + (1 + type.lengthSize)⟩ := by
  have hlength := h.length_eq
  have hfits := h.fits
  rw [getClumplet, h.getClumpTag_eq, getClumpLength, getBytes, getClumpletSize, getClumpletSize,
    h.measure_eq]
  simp only [Except.map, bind, Except.bind, pure, Except.pure, Nat.zero_add, if_true,
    Bool.false_eq_true, if_false, Nat.add_zero]
  rw [Nat.mod_eq_of_lt (by omega), Nat.mod_eq_of_lt (by omega)]

theorem AtClumplet.bytesOf_eq (h : r.AtClumplet type item rest) :
    r.bytesOf ⟨item.1, item.2.length, r.curOffset + (1 + type.lengthSize)⟩ = item.2 := by
  have hhead : (item.1 :: toBytes type.lengthSize item.2.length).length = 1 + type.lengthSize := by
    rw [List.length_cons, length_toBytes, Nat.add_comm]
  rw [bytesOf, ← List.drop_drop, h.bytes, clumpletBytes, List.append_assoc, List.drop_left' hhead,
    List.take_left]

theorem AtClumplet.adjustSpbState_eq (h : r.AtClumplet type item rest) :
    r.adjustSpbState = .ok { r with spbState := nextState r.kind r.spbState type item } := by
  rw [adjustSpbState, nextState]
  by_cases hstart : r.kind = .spbStart ∧ r.spbState = 0
  · rw [if_pos hstart, h.size_eq]
    simp only [bind, Except.bind]
    by_cases htag : type.lengthSize + item.2.length = 0
    · rw [if_pos (by omega), if_pos ⟨hstart.1, hstart.2, htag⟩, h.getClumpTag_eq]
      rfl
    · rw [if_neg (by omega), if_neg fun hcon => htag hcon.2.2]
      rfl
  · rw [if_neg hstart, if_neg fun hcon => hstart ⟨hcon.1, hcon.2.1⟩]
    rfl

/-- Where the clumplets of a block begin, a reader of the block sees them: the block has a tag of its own
in front of them, or needs none. -/
def Begins (r : ClumpletReader) : Prop :=
  r.kind ∈ [Kind.unTagged, .spbStart, .wideUnTagged, .spbSendItems, .spbReceiveItems] ∨ 0 < r.curOffset

theorem isEof_eq (h : r.Begins) : r.isEof = decide (r.buffer.length ≤ r.curOffset) := by
  rw [isEof, getBufferLength]
  split
  · rename_i hone
    rw [hone.1, decide_eq_decide]
    have hpos := h.resolve_left hone.2
    omega
  · rfl

/-- The next clumplet. -/
theorem AtClumplet.moveNext_eq (h : r.AtClumplet type item rest) (hbegins : r.Begins) :
    r.moveNext = .ok { r with
      curOffset := r.curOffset + (1 + type.lengthSize + item.2.length)
      spbState := nextState r.kind r.spbState type item } := by
  have hlength := h.length_eq
  have hfits := h.fits
  rw [moveNext, isEof_eq hbegins, decide_eq_false (by omega), if_neg Bool.false_ne_true, h.size_eq,
    h.adjustSpbState_eq]
  simp only [bind, Except.bind, pure, Except.pure]
  rw [Nat.mod_eq_of_lt (by omega)]

/-! ## Reading all -/

/-- Some clumplets are in front of the reader, and then the end of the buffer. -/
structure AtItems (r : ClumpletReader) (items : List Item) : Prop where
  begins : r.Begins
  start : r.curOffset ≤ r.buffer.length
  encoded : ∃ final, Encoded r.kind r.spbState items (r.buffer.drop r.curOffset) final
  fits : r.buffer.length < 2 ^ 32

theorem AtItems.nil (h : r.AtItems []) : r.curOffset = r.buffer.length := by
  obtain ⟨final, hencoded⟩ := h.encoded
  generalize hdrop : r.buffer.drop r.curOffset = bytes at hencoded
  cases hencoded
  have hstart := h.start
  have hlength := congrArg List.length hdrop
  rw [List.length_drop, List.length_nil] at hlength
  omega

theorem AtItems.isEof_nil (h : r.AtItems []) : r.isEof = true := by
  rw [isEof_eq h.begins, h.nil]
  exact decide_eq_true le_rfl

/-- The first of the clumplets, and the reader that is behind it. -/
theorem AtItems.cons {items : List Item} (h : r.AtItems (item :: items)) :
    ∃ type rest, r.AtClumplet type item rest ∧ r.isEof = false ∧ ∃ next, r.moveNext = .ok next ∧
      next = { r with
        curOffset := r.curOffset + (1 + type.lengthSize + item.2.length)
        spbState := nextState r.kind r.spbState type item } ∧ next.AtItems items := by
  obtain ⟨final, hencoded⟩ := h.encoded
  generalize hdrop : r.buffer.drop r.curOffset = bytes at hencoded
  cases hencoded with
  | @cons _ _ type _ _ rest htype haccepts hrest =>
    have hat : r.AtClumplet type item rest := ⟨hdrop, htype, haccepts, h.fits⟩
    have hlength := hat.length_eq
    refine ⟨type, rest, hat, ?_, _, hat.moveNext_eq h.begins, rfl, ?_⟩
    · rw [isEof_eq h.begins]
      exact decide_eq_false (by omega)
    · refine ⟨h.begins.imp_right fun hpos => Nat.add_pos_left hpos _, ?_, ⟨final, ?_⟩, h.fits⟩
      · change r.curOffset + _ ≤ r.buffer.length
        omega
      · change Encoded r.kind (nextState r.kind r.spbState type item) items (r.buffer.drop (_ + _)) final
        rw [← List.drop_drop, hdrop, List.drop_left' (length_clumpletBytes ..)]
        exact hrest

/-- The clumplets of a buffer as it is read, each with its data. -/
def readAll (kind : Kind) (buffer : List UInt8) : Option (Except ClumpletError (List Item)) :=
  ((create kind buffer).iterate (buffer.length + 1)).map fun r =>
    r.map fun clumplets => clumplets.map fun c => (c.tag, (create kind buffer).bytesOf c)

theorem AtItems.iterate_eq {items : List Item} (h : r.AtItems items) {fuel : ℕ}
    (hfuel : items.length < fuel) :
    ∃ clumplets, r.iterate fuel = some (.ok clumplets) ∧
      clumplets.map (fun c => (c.tag, r.bytesOf c)) = items := by
  induction items generalizing r fuel with
  | nil =>
    obtain ⟨fuel, rfl⟩ := Nat.exists_eq_succ_of_ne_zero hfuel.ne'
    exact ⟨[], by rw [iterate, h.isEof_nil]; rfl, rfl⟩
  | cons item items ih =>
    obtain ⟨fuel, rfl⟩ := Nat.exists_eq_succ_of_ne_zero (Nat.ne_zero_of_lt hfuel)
    obtain ⟨type, rest, hat, heof, next, hnext, hnext', hitems⟩ := h.cons
    obtain ⟨clumplets, hiterate, hmap⟩ := ih hitems (Nat.lt_of_succ_lt_succ hfuel)
    have hbuffer : next.buffer = r.buffer := by rw [hnext']
    refine ⟨⟨item.1, item.2.length, r.curOffset + (1 + type.lengthSize)⟩ :: clumplets, ?_, ?_⟩
    · rw [iterate, heof, if_neg Bool.false_ne_true, hat.getClumplet_eq, hnext]
      dsimp only
      rw [hiterate]
      rfl
    · rw [List.map_cons, hat.bytesOf_eq]
      simp only [bytesOf, hbuffer] at hmap ⊢
      rw [hmap]

theorem readAll_eq {kind : Kind} {buffer : List UInt8} {items : List Item}
    (h : (create kind buffer).AtItems items) : readAll kind buffer = some (.ok items) := by
  obtain ⟨final, hencoded⟩ := h.encoded
  have hle := hencoded.length_le
  rw [List.length_drop] at hle
  have hfuel : items.length < buffer.length + 1 := by
    change items.length ≤ buffer.length - _ at hle
    omega
  obtain ⟨clumplets, hiterate, hmap⟩ := h.iterate_eq hfuel
  rw [readAll, hiterate, Option.map_some, ← hmap]
  rfl

end ClumpletReader

end FirebirdCore.Clumplet
