import FirebirdCore.Btr.Page
import FirebirdCore.Btr.Key
import FirebirdCore.Lib.Extent
import FirebirdCore.Lib.Run

/-!
# The index root page

The page has an array of slots and, growing down from its end, the key descriptors of the indices.
`reserveSlot` takes a slot for an index that is being created, `setRoot` completes it and
`deleteIndex` frees it; when space is short `compressRoot` packs the descriptors. `Refines` says
that the page holds just the descriptors of a catalog.
-/
namespace FirebirdCore.Btr
open FirebirdCore.Buffer FirebirdCore.Run

/-- `sizeof(irtd)`. -/
def irtdSize : ℕ := 8

/-- Number of the flag `irt_in_progress`. -/
def irtInProgress : ℕ := 2

/-- Offset of the slot with this number. -/
def slotOffset (count : ℕ) : ℕ := 20 + 12 * count

structure IrtRepeat where
  irtRoot : ℕ
  irtTransaction : ℕ
  irtDesc : ℕ
  irtKeys : ℕ
  irtFlags : ℕ
  deriving DecidableEq, Repr

namespace IrtRepeat

def inProgress (s : IrtRepeat) : Bool := s.irtFlags.testBit irtInProgress

def getRoot (s : IrtRepeat) : ℕ := if s.inProgress then 0 else s.irtRoot

def setRoot (s : IrtRepeat) (rootPage : ℕ) : IrtRepeat :=
  { s with
    irtRoot := rootPage
    irtFlags := s.irtFlags &&& 251 }

def setTransaction (s : IrtRepeat) (traNumber : ℕ) : IrtRepeat :=
  { s with
    irtRoot := traNumber / 2 ^ 32 % 2 ^ 32
    irtTransaction := traNumber % 2 ^ 32
    irtFlags := s.irtFlags ||| 4 }

def isUsed (s : IrtRepeat) : Bool := s.inProgress || s.irtRoot != 0

/-- Where the descriptor stands on the page. -/
def descriptor (s : IrtRepeat) : Extent := ⟨s.irtDesc, s.irtKeys * irtdSize⟩

/-- A slot of zeros. -/
def empty : IrtRepeat := ⟨0, 0, 0, 0, 0⟩

@[simp] theorem isUsed_empty : empty.isUsed = false := rfl

@[simp] theorem inProgress_setRoot (s : IrtRepeat) (rootPage : ℕ) :
    (s.setRoot rootPage).inProgress = false := by
  rw [inProgress, setRoot, Nat.testBit_and]
  exact Bool.and_false _

@[simp] theorem inProgress_setTransaction (s : IrtRepeat) (traNumber : ℕ) :
    (s.setTransaction traNumber).inProgress = true := by
  rw [inProgress, setTransaction, Nat.testBit_or]
  exact Bool.or_true _

end IrtRepeat

/-- `irtRpt` are the slots, `irt_count` being their number. `bytes` are those of the whole page, of
which the ones of the slot array are not used. -/
structure IndexRootPage where
  irtRpt : List IrtRepeat
  bytes : List UInt8
  deriving DecidableEq, Repr

/-- The fields of `IndexCreation` that are stored. `idxId` is the number that an index of a
temporary table instance has already. -/
structure IndexCreation where
  idxCount : ℕ
  idxFlags : ℕ
  idxRpt : List UInt8
  traNumber : ℕ
  idxId : Option ℕ
  deriving DecidableEq, Repr

inductive ReserveError where
  | maxIdx
  | indexRootPageFull
  deriving DecidableEq, Repr

/-! ## Compressing the page -/

/-- Pack the descriptors of the slots that have a root below `p`, reading them from `temp`. -/
def compressLoop (temp : List UInt8) : List IrtRepeat → ℕ → List UInt8 → List IrtRepeat × List UInt8
  | [], _, bytes => ([], bytes)
  | s :: slots, p, bytes =>
      if s.getRoot ≠ 0 then
        let p := p - s.descriptor.size
        let r := compressLoop temp slots p (blit bytes p (slice temp s.descriptor))
        ({ s with irtDesc := p } :: r.1, r.2)
      else
        let r := compressLoop temp slots p bytes
        (s :: r.1, r.2)

def compressRoot (pageSize : ℕ) (page : IndexRootPage) : IndexRootPage :=
  let r := compressLoop page.bytes page.irtRpt pageSize page.bytes
  ⟨r.1, r.2⟩

/-! ## Reserving a slot -/

/-- High water mark of the descriptions. -/
def highWaterMark (pageSize : ℕ) (slots : List IrtRepeat) : ℕ :=
  slots.foldl (fun space s => if s.isUsed then min space s.irtDesc else space) pageSize

/-- An empty index slot, that with the number `idxId` if there is one. -/
def emptySlot (idxId : Option ℕ) : ℕ → List IrtRepeat → Option ℕ
  | _, [] => none
  | i, s :: slots =>
      if !s.isUsed && idxId.all (· = i) then some i else emptySlot idxId (i + 1) slots

/-- Slots up to the number that is asked for. -/
def extendSlots (idxId : Option ℕ) (slots : List IrtRepeat) : List IrtRepeat :=
  match idxId with
  | some id => slots ++ List.replicate (id + 1 - slots.length) .empty
  | none => slots

/-- Where a descriptor of `len` bytes goes, in 16 bits. -/
def descriptorSpace (pageSize len : ℕ) (slots : List IrtRepeat) : ℕ :=
  (highWaterMark pageSize slots + 2 ^ 16 - len) % 2 ^ 16

/-- Store the descriptor at `space`. -/
def storeSlot (page : IndexRootPage) (creation : IndexCreation) (space : ℕ) : IndexRootPage × ℕ :=
  let id := (emptySlot creation.idxId 0 page.irtRpt).getD page.irtRpt.length
  let slot : IrtRepeat := ⟨0, 0, space, creation.idxCount % 256, creation.idxFlags % 256⟩
  (⟨(page.irtRpt ++ if id = page.irtRpt.length then [IrtRepeat.empty] else []).set id
      (slot.setTransaction creation.traNumber),
    blit page.bytes space creation.idxRpt⟩, id)

/-- The two tries of `BTR_reserve_slot`. -/
def placeSlot (pageSize : ℕ) (page : IndexRootPage) (creation : IndexCreation) :
    IndexRootPage × Except ReserveError ℕ :=
  let len := creation.idxCount * irtdSize
  let space := descriptorSpace pageSize len page.irtRpt
  if slotOffset (page.irtRpt.length + 1) ≤ space then
    let r := storeSlot page creation space
    (r.1, .ok r.2)
  else
    -- Not enough room: compress the page and try again.
    let page := compressRoot pageSize page
    let space := descriptorSpace pageSize len page.irtRpt
    if slotOffset (page.irtRpt.length + 1) ≤ space then
      let r := storeSlot page creation space
      (r.1, .ok r.2)
    else (page, .error .indexRootPageFull)

/-- `BTR_reserve_slot`: the page and the number of the slot. -/
def reserveSlot (pageSize maxIdx : ℕ) (page : IndexRootPage) (creation : IndexCreation) :
    IndexRootPage × Except ReserveError ℕ :=
  if page.irtRpt.length > maxIdx then (page, .error .maxIdx)
  else placeSlot pageSize { page with irtRpt := extendSlots creation.idxId page.irtRpt } creation

/-! ## Completing and deleting an index -/

/-- The selectivities, of four bytes each, in the descriptor at `desc`. -/
def updateSelectivity (desc : ℕ) : ℕ → List (List UInt8) → List UInt8 → List UInt8
  | _, [], bytes => bytes
  | i, selectivity :: rest, bytes =>
      updateSelectivity desc (i + 1) rest (blit bytes (desc + (i * irtdSize + 4)) selectivity)

/-- The end of `BTR_create`: the index has got its root. -/
def completeIndex (page : IndexRootPage) (id rootPage : ℕ) (selectivity : List (List UInt8)) :
    IndexRootPage :=
  let slot := page.irtRpt.getD id .empty
  ⟨page.irtRpt.set id (slot.setRoot rootPage),
    updateSelectivity slot.irtDesc 0 selectivity page.bytes⟩

/-- `BTR_delete_index`, and whether there was a tree. -/
def deleteIndex (page : IndexRootPage) (id : ℕ) : IndexRootPage × Bool :=
  if id ≥ page.irtRpt.length then (page, false)
  else
    let slot := page.irtRpt.getD id .empty
    ({ page with irtRpt := page.irtRpt.set id { slot.setRoot 0 with irtFlags := 0 } },
      slot.getRoot != 0)

/-! ## Steps, and the catalog of descriptors -/

inductive IndexOp where
  | reserve (creation : IndexCreation)
  | complete (id rootPage : ℕ) (selectivity : List (List UInt8))
  | delete (id : ℕ)
  deriving DecidableEq, Repr

/-- One step on the page, and the number of the slot that was reserved. -/
def IndexOp.apply (pageSize maxIdx : ℕ) (page : IndexRootPage) : IndexOp → IndexRootPage × Option ℕ
  | .reserve creation =>
      let r := reserveSlot pageSize maxIdx page creation
      (r.1, r.2.toOption)
  | .complete id rootPage selectivity => (completeIndex page id rootPage selectivity, none)
  | .delete id => ((deleteIndex page id).1, none)

/-- The descriptor of each index, by number. -/
abbrev Catalog := ℕ → Option (List UInt8)

/-- What a step that answered `answer` means. An index takes a free number only. -/
def IndexOp.meaning (catalog : Catalog) (answer : Option ℕ) : IndexOp → Option Catalog
  | .reserve creation =>
      match answer with
      | some id => if catalog id = none then some (Function.update catalog id creation.idxRpt) else none
      | none => some catalog
  | .complete id _ selectivity =>
      (catalog id).map fun d => Function.update catalog id (updateSelectivity 0 0 selectivity d)
  | .delete id => some (Function.update catalog id none)

/-- The descriptors on the page. -/
def IndexRootPage.descriptors (page : IndexRootPage) : Catalog := fun i =>
  (page.irtRpt[i]?.filter (·.isUsed)).map fun s => slice page.bytes s.descriptor

/-- The slot with this number is used. -/
def IndexRootPage.Used (page : IndexRootPage) (i : ℕ) (s : IrtRepeat) : Prop :=
  page.irtRpt[i]? = some s ∧ s.isUsed

/-- The used descriptors are apart, between the slots and the end of the page. -/
structure IndexRootPage.Holds (pageSize : ℕ) (page : IndexRootPage) : Prop where
  length : page.bytes.length = pageSize
  behindSlots : ∀ i s, page.Used i s → slotOffset page.irtRpt.length ≤ s.irtDesc
  onPage : ∀ i s, page.Used i s → s.descriptor.finish ≤ pageSize
  apart : ∀ i j s t, page.Used i s → page.Used j t → i ≠ j → s.descriptor.Apart t.descriptor

/-- What the callers see to. -/
def IndexOp.Valid (page : IndexRootPage) : IndexOp → Prop
  | .reserve creation =>
      1 ≤ creation.idxCount ∧ creation.idxCount ≤ maxIndexSegments ∧
        creation.idxRpt.length = creation.idxCount * irtdSize
  | .complete id rootPage selectivity =>
      rootPage ≠ 0 ∧ (∀ v ∈ selectivity, v.length = 4) ∧
        ∃ s ∈ page.irtRpt[id]?, s.inProgress ∧ selectivity.length = s.irtKeys
  | .delete _ => True


instance (page : IndexRootPage) (op : IndexOp) : Decidable (op.Valid page) := by
  cases op <;> rw [IndexOp.Valid] <;> infer_instance

/-- The bytes of the descriptors that are packed. -/
def rootedBytes : List IrtRepeat → ℕ
  | [] => 0
  | s :: slots => (if s.getRoot ≠ 0 then s.descriptor.size else 0) + rootedBytes slots

/-- The lowest descriptor leaves no room for one of `len` bytes and one more slot. -/
def Tight (pageSize len : ℕ) (slots : List IrtRepeat) : Prop :=
  pageSize < slotOffset (slots.length + 1) + len ∨
    ∃ s ∈ slots, s.isUsed ∧ s.irtDesc < slotOffset (slots.length + 1) + len

/-- When a reservation goes well: the slots that are added stand in front of the descriptors, no
descriptor begins within `len` bytes of the start of the page, and when the page is compressed no
index in creation has its descriptor where the others are packed. -/
structure ReserveSound (pageSize len : ℕ) (idxId : Option ℕ) (slots : List IrtRepeat) : Prop where
  extended : ∀ s ∈ slots, s.isUsed → slotOffset (extendSlots idxId slots).length ≤ s.irtDesc
  room : ∀ s ∈ slots, s.isUsed → len ≤ s.irtDesc
  packed : Tight pageSize len (extendSlots idxId slots) →
    rootedBytes slots + len ≤ pageSize ∧
      ∀ s ∈ slots, s.inProgress → s.descriptor.finish + rootedBytes slots ≤ pageSize

def IndexOp.Sound (pageSize maxIdx : ℕ) (page : IndexRootPage) : IndexOp → Prop
  | .reserve creation =>
      page.irtRpt.length ≤ maxIdx →
        ReserveSound pageSize (creation.idxCount * irtdSize) creation.idxId page.irtRpt
  | .complete _ _ _ => True
  | .delete _ => True

instance (pageSize len : ℕ) (slots : List IrtRepeat) : Decidable (Tight pageSize len slots) :=
  inferInstanceAs (Decidable (_ ∨ _))

instance (pageSize len : ℕ) (idxId : Option ℕ) (slots : List IrtRepeat) :
    Decidable (ReserveSound pageSize len idxId slots) :=
  decidable_of_iff
    ((∀ s ∈ slots, s.isUsed → slotOffset (extendSlots idxId slots).length ≤ s.irtDesc) ∧
      (∀ s ∈ slots, s.isUsed → len ≤ s.irtDesc) ∧
      (Tight pageSize len (extendSlots idxId slots) →
        rootedBytes slots + len ≤ pageSize ∧
          ∀ s ∈ slots, s.inProgress → s.descriptor.finish + rootedBytes slots ≤ pageSize))
    ⟨fun h => ⟨h.1, h.2.1, h.2.2⟩, fun h => ⟨h.extended, h.room, h.packed⟩⟩

instance (pageSize maxIdx : ℕ) (page : IndexRootPage) (op : IndexOp) :
    Decidable (op.Sound pageSize maxIdx page) := by
  cases op <;> rw [IndexOp.Sound] <;> infer_instance

/-! ## Lemmas on slots -/

namespace IrtRepeat

theorem isUsed_of_inProgress {s : IrtRepeat} (h : s.inProgress) : s.isUsed := by
  rw [isUsed, h, Bool.true_or]

theorem isUsed_of_getRoot {s : IrtRepeat} (h : s.getRoot ≠ 0) : s.isUsed := by
  rw [getRoot] at h
  split_ifs at h with hprogress
  · exact isUsed_of_inProgress hprogress
  · simp [isUsed, h]

theorem inProgress_of_getRoot {s : IrtRepeat} (hused : s.isUsed) (h : s.getRoot = 0) :
    s.inProgress := by
  by_contra hprogress
  rw [getRoot, if_neg hprogress] at h
  simp [isUsed, hprogress, h] at hused

end IrtRepeat

theorem le_highWaterMark {pageSize m : ℕ} {slots : List IrtRepeat} :
    m ≤ highWaterMark pageSize slots ↔ m ≤ pageSize ∧ ∀ s ∈ slots, s.isUsed → m ≤ s.irtDesc := by
  rw [highWaterMark]
  induction slots generalizing pageSize with
  | nil => simp
  | cons s slots ih =>
    rw [List.foldl_cons, ih, List.forall_mem_cons]
    by_cases hused : s.isUsed
    · rw [if_pos hused, le_min_iff, and_assoc]
      simp only [hused, forall_const]
    · rw [if_neg hused]
      simp only [hused, Bool.false_eq_true, false_implies, true_and]

theorem highWaterMark_le (pageSize : ℕ) (slots : List IrtRepeat) :
    highWaterMark pageSize slots ≤ pageSize :=
  (le_highWaterMark.1 le_rfl).1

theorem descriptorSpace_eq {pageSize len : ℕ} {slots : List IrtRepeat} (hsize : pageSize < 2 ^ 16)
    (hroom : len ≤ highWaterMark pageSize slots) :
    descriptorSpace pageSize len slots = highWaterMark pageSize slots - len := by
  have hmark := highWaterMark_le pageSize slots
  rw [descriptorSpace]
  omega

theorem emptySlot_spec {idxId : Option ℕ} {slots : List IrtRepeat} {i id : ℕ}
    (h : emptySlot idxId i slots = some id) :
    i ≤ id ∧ ∃ s, slots[id - i]? = some s ∧ s.isUsed = false := by
  induction slots generalizing i with
  | nil => cases h
  | cons s slots ih =>
    rw [emptySlot] at h
    by_cases hempty : (!s.isUsed && idxId.all (· = i)) = true
    · rw [if_pos hempty, Option.some.injEq] at h
      rw [Bool.and_eq_true, Bool.not_eq_true'] at hempty
      exact ⟨h.le, s, by rw [h, Nat.sub_self, List.getElem?_cons_zero], hempty.1⟩
    · rw [if_neg hempty] at h
      obtain ⟨hle, t, ht, hfree⟩ := ih h
      have hid : id - i = id - (i + 1) + 1 := by omega
      exact ⟨by omega, t, by rw [hid, List.getElem?_cons_succ, ht], hfree⟩

/-! ## The loop of the compression -/

/-- What `compressLoop` does below `hi`: `bytes` are those it started from. -/
structure Compressed (temp bytes : List UInt8) (slots : List IrtRepeat) (hi : ℕ)
    (r : List IrtRepeat × List UInt8) : Prop where
  count : r.1.length = slots.length
  length : r.2.length = bytes.length
  elsewhere : ∀ e : Extent, e.finish + rootedBytes slots ≤ hi ∨ hi ≤ e.start →
    slice r.2 e = slice bytes e
  stays : ∀ (i : ℕ) (s : IrtRepeat), slots[i]? = some s → s.getRoot = 0 → r.1[i]? = some s
  moves : ∀ (i : ℕ) (s : IrtRepeat), slots[i]? = some s → s.getRoot ≠ 0 →
    ∃ d, r.1[i]? = some { s with irtDesc := d } ∧ hi ≤ d + rootedBytes slots ∧
      d + s.descriptor.size ≤ hi ∧
      slice r.2 ⟨d, s.descriptor.size⟩ = slice temp s.descriptor
  apart : ∀ (i j : ℕ) (s t : IrtRepeat), i < j → r.1[i]? = some s → r.1[j]? = some t →
    s.getRoot ≠ 0 → t.getRoot ≠ 0 → t.descriptor.finish ≤ s.irtDesc

theorem Compressed.below {temp bytes : List UInt8} {slots : List IrtRepeat} {hi : ℕ}
    {r : List IrtRepeat × List UInt8} (h : Compressed temp bytes slots hi r) {i : ℕ} {s : IrtRepeat}
    (hs : r.1[i]? = some s) (hroot : s.getRoot ≠ 0) : s.descriptor.finish ≤ hi := by
  have hi : i < slots.length := h.count ▸ (List.getElem?_eq_some_iff.1 hs).1
  have hold := List.getElem?_eq_getElem hi
  by_cases hzero : slots[i].getRoot = 0
  · rw [h.stays i _ hold hzero, Option.some.injEq] at hs
    exact absurd (hs ▸ hzero) hroot
  · obtain ⟨d, hd, -, hle, -⟩ := h.moves i _ hold hzero
    rw [hd, Option.some.injEq] at hs
    rw [← hs]
    exact hle

theorem compressLoop_spec {temp bytes : List UInt8} {slots : List IrtRepeat} {hi : ℕ}
    (hroom : rootedBytes slots ≤ hi) (hhi : hi ≤ bytes.length)
    (htemp : ∀ s ∈ slots, s.getRoot ≠ 0 → s.descriptor.finish ≤ temp.length) :
    Compressed temp bytes slots hi (compressLoop temp slots hi bytes) := by
  induction slots generalizing hi bytes with
  | nil => exact ⟨rfl, rfl, fun _ _ => rfl, by simp, by simp, by simp [compressLoop]⟩
  | cons s slots ih =>
    obtain ⟨hs, htemp⟩ := List.forall_mem_cons.1 htemp
    rw [compressLoop]
    by_cases hroot : s.getRoot ≠ 0
    · rw [if_pos hroot]
      rw [rootedBytes, if_pos hroot] at hroom
      have hlen : (slice temp s.descriptor).length = s.descriptor.size := slice_length (hs hroot)
      have hfits : hi - s.descriptor.size + (slice temp s.descriptor).length ≤ bytes.length := by
        omega
      have hkeep := blit_length hfits
      have hc : Compressed temp (blit bytes (hi - s.descriptor.size) (slice temp s.descriptor)) slots
          (hi - s.descriptor.size) _ := ih (by omega) (by omega) htemp
      refine ⟨by simp [hc.count], hc.length.trans hkeep, fun e he => ?_, fun i t ht hzero => ?_,
        fun i t ht ht0 => ?_, fun i j t u hij ht hu ht0 hu0 => ?_⟩
      · rw [rootedBytes, if_pos hroot] at he
        rw [Extent.finish] at he
        rw [hc.elsewhere e (by rw [Extent.finish]; omega),
          slice_blit_apart hfits (by simp only [Extent.Apart, Extent.finish, hlen]; omega)]
      · cases i with
        | zero =>
          rw [List.getElem?_cons_zero, Option.some.injEq] at ht
          exact absurd (ht ▸ hzero) hroot
        | succ i => exact hc.stays i t ht hzero
      · rw [rootedBytes, if_pos hroot]
        cases i with
        | zero =>
          rw [List.getElem?_cons_zero, Option.some.injEq] at ht
          subst ht
          refine ⟨hi - s.descriptor.size, rfl, by omega, by omega, ?_⟩
          rw [hc.elsewhere _ (Or.inr le_rfl), ← hlen]
          exact slice_blit_self _ _ _
        | succ i =>
          obtain ⟨d, hd, hlow, hhigh, hslice⟩ := hc.moves i t ht ht0
          exact ⟨d, hd, by omega, by omega, hslice⟩
      · cases j with
        | zero => omega
        | succ j =>
          cases i with
          | zero =>
            rw [List.getElem?_cons_zero, Option.some.injEq] at ht
            rw [← ht]
            exact hc.below hu hu0
          | succ i => exact hc.apart i j t u (by omega) ht hu ht0 hu0
    · rw [if_neg hroot]
      rw [rootedBytes, if_neg hroot, Nat.zero_add] at hroom
      have hc := ih hroom hhi htemp
      refine ⟨by simp [hc.count], hc.length, fun e he => ?_, fun i t ht hzero => ?_,
        fun i t ht ht0 => ?_, fun i j t u hij ht hu ht0 hu0 => ?_⟩
      · rw [rootedBytes, if_neg hroot, Nat.zero_add] at he
        exact hc.elsewhere e he
      · cases i with
        | zero => exact ht
        | succ i => exact hc.stays i t ht hzero
      · rw [rootedBytes, if_neg hroot, Nat.zero_add]
        cases i with
        | zero =>
          rw [List.getElem?_cons_zero, Option.some.injEq] at ht
          exact absurd ht0 (ht ▸ hroot)
        | succ i => exact hc.moves i t ht ht0
      · cases j with
        | zero => omega
        | succ j =>
          cases i with
          | zero =>
            rw [List.getElem?_cons_zero, Option.some.injEq] at ht
            exact absurd ht0 (ht ▸ hroot)
          | succ i => exact hc.apart i j t u (by omega) ht hu ht0 hu0

/-! ## Each operation on the page -/

section
variable {pageSize : ℕ} {page : IndexRootPage}

theorem IndexRootPage.descriptors_of_used {i : ℕ} {s : IrtRepeat} (h : page.Used i s) :
    page.descriptors i = some (slice page.bytes s.descriptor) := by
  rw [descriptors, h.1, Option.filter_some, if_pos h.2, Option.map_some]

theorem IndexRootPage.descriptors_eq_none {i : ℕ} (h : ∀ s, ¬ page.Used i s) :
    page.descriptors i = none := by
  rw [descriptors, Option.map_eq_none_iff, Option.filter_eq_none_iff]
  exact fun s hs hused => h s ⟨hs, hused⟩

/-- The same used slots with the same bytes are the same descriptors. -/
theorem IndexRootPage.descriptors_congr {page' : IndexRootPage} {i : ℕ}
    (hto : ∀ s, page.Used i s → ∃ s', page'.Used i s' ∧
      slice page'.bytes s'.descriptor = slice page.bytes s.descriptor)
    (hfrom : ∀ s', page'.Used i s' → ∃ s, page.Used i s) :
    page'.descriptors i = page.descriptors i := by
  by_cases h : ∃ s, page.Used i s
  · obtain ⟨s, hs⟩ := h
    obtain ⟨s', hs', hslice⟩ := hto s hs
    rw [descriptors_of_used hs, descriptors_of_used hs', hslice]
  · rw [descriptors_eq_none fun s hs => h ⟨s, hs⟩,
      descriptors_eq_none fun s' hs' => h (hfrom s' hs')]

theorem used_extendSlots {idxId : Option ℕ} {i : ℕ} {s : IrtRepeat} :
    ({ page with irtRpt := extendSlots idxId page.irtRpt } : IndexRootPage).Used i s ↔
      page.Used i s := by
  cases idxId with
  | none => rfl
  | some id =>
    simp only [IndexRootPage.Used, extendSlots]
    rw [List.getElem?_append]
    split_ifs with hi
    · rfl
    · rw [List.getElem?_replicate, List.getElem?_eq_none (by omega)]
      split_ifs
      · simp only [Option.some.injEq, false_and, iff_false, not_and]
        rintro rfl
        simp
      · rfl

theorem length_le_extendSlots (idxId : Option ℕ) (slots : List IrtRepeat) :
    slots.length ≤ (extendSlots idxId slots).length := by
  cases idxId with
  | none => exact le_rfl
  | some id => simp [extendSlots]

theorem extend_holds (h : page.Holds pageSize) {idxId : Option ℕ}
    (hroom : ∀ i s, page.Used i s → slotOffset (extendSlots idxId page.irtRpt).length ≤ s.irtDesc) :
    IndexRootPage.Holds pageSize { page with irtRpt := extendSlots idxId page.irtRpt } :=
  ⟨h.length, fun i s hs => hroom i s (used_extendSlots.1 hs),
    fun i s hs => h.onPage i s (used_extendSlots.1 hs),
    fun i j s t hs ht => h.apart i j s t (used_extendSlots.1 hs) (used_extendSlots.1 ht)⟩

theorem extend_descriptors (idxId : Option ℕ) :
    IndexRootPage.descriptors { page with irtRpt := extendSlots idxId page.irtRpt } =
      page.descriptors :=
  funext fun _ => IndexRootPage.descriptors_congr
    (fun s hs => ⟨s, used_extendSlots.2 hs, rfl⟩) fun s hs => ⟨s, used_extendSlots.1 hs⟩

/-- A used slot of the compressed page comes from one of the page. -/
theorem compressRoot_used
    (hc : Compressed page.bytes page.bytes page.irtRpt pageSize
      (compressLoop page.bytes page.irtRpt pageSize page.bytes)) {i : ℕ} {s' : IrtRepeat}
    (hs' : (compressRoot pageSize page).Used i s') :
    ∃ s, page.Used i s ∧ (s.inProgress ∧ s' = s ∨ s.getRoot ≠ 0 ∧ ∃ d,
      s' = { s with irtDesc := d } ∧ pageSize ≤ d + rootedBytes page.irtRpt ∧
      s'.descriptor.finish ≤ pageSize ∧
      slice (compressRoot pageSize page).bytes s'.descriptor = slice page.bytes s.descriptor) := by
  have hi : i < page.irtRpt.length := hc.count ▸ (List.getElem?_eq_some_iff.1 hs'.1).1
  have hold := List.getElem?_eq_getElem hi
  by_cases hzero : page.irtRpt[i].getRoot = 0
  · have hsame : page.irtRpt[i] = s' := Option.some.inj ((hc.stays i _ hold hzero).symm.trans hs'.1)
    rw [hsame] at hold hzero
    exact ⟨s', ⟨hold, hs'.2⟩, Or.inl ⟨IrtRepeat.inProgress_of_getRoot hs'.2 hzero, rfl⟩⟩
  · obtain ⟨d, hd, hlow, hhigh, hslice⟩ := hc.moves i _ hold hzero
    have hsame := Option.some.inj (hd.symm.trans hs'.1)
    refine ⟨_, ⟨hold, IrtRepeat.isUsed_of_getRoot hzero⟩, Or.inr ⟨hzero, d, hsame.symm, hlow, ?_⟩⟩
    rw [← hsame]
    exact ⟨hhigh, hslice⟩

theorem rootedBytes_eq (slots : List IrtRepeat) :
    rootedBytes slots =
      (((slots.filter (·.getRoot ≠ 0)).map (·.descriptor)).map Extent.size).sum := by
  induction slots with
  | nil => rfl
  | cons s slots ih =>
    by_cases hroot : s.getRoot ≠ 0
    · rw [rootedBytes, if_pos hroot, List.filter_cons_of_pos (by simpa using hroot), ih]
      rfl
    · rw [rootedBytes, if_neg hroot, List.filter_cons_of_neg (by simpa using hroot), ih, Nat.zero_add]

/-- The packed descriptors leave the slots alone. -/
theorem rootedBytes_le (h : page.Holds pageSize) :
    rootedBytes page.irtRpt ≤ pageSize - slotOffset page.irtRpt.length := by
  rw [rootedBytes_eq]
  refine Extent.sum_size_le ?_ ?_
  · rw [List.pairwise_map, List.pairwise_filter, List.pairwise_iff_getElem]
    intro i j hi hj hij hs ht
    exact h.apart i j _ _
      ⟨List.getElem?_eq_getElem hi, IrtRepeat.isUsed_of_getRoot (by simpa using hs)⟩
      ⟨List.getElem?_eq_getElem hj, IrtRepeat.isUsed_of_getRoot (by simpa using ht)⟩ hij.ne
  · intro e he
    obtain ⟨s, hs, rfl⟩ := List.mem_map.1 he
    obtain ⟨hs, hroot⟩ := List.mem_filter.1 hs
    obtain ⟨i, hi⟩ := List.getElem?_of_mem hs
    have hused : page.Used i s := ⟨hi, IrtRepeat.isUsed_of_getRoot (by simpa using hroot)⟩
    exact ⟨h.behindSlots i s hused, h.onPage i s hused⟩

theorem compressRoot_compressed (h : page.Holds pageSize) :
    Compressed page.bytes page.bytes page.irtRpt pageSize
      (compressLoop page.bytes page.irtRpt pageSize page.bytes) := by
  have hle := rootedBytes_le h
  refine compressLoop_spec (by omega) h.length.ge fun s hs hroot => ?_
  obtain ⟨i, hi⟩ := List.getElem?_of_mem hs
  rw [h.length]
  exact h.onPage i s ⟨hi, IrtRepeat.isUsed_of_getRoot hroot⟩

/-- Compressing keeps every descriptor when none in creation stands where the others go. -/
theorem compressRoot_holds (h : page.Holds pageSize)
    (hclear : ∀ i s, page.Used i s → s.inProgress →
      s.descriptor.finish + rootedBytes page.irtRpt ≤ pageSize) :
    (compressRoot pageSize page).Holds pageSize ∧
      (compressRoot pageSize page).descriptors = page.descriptors := by
  have hle := rootedBytes_le h
  have hc := compressRoot_compressed h
  have hkeep : ∀ i s, page.Used i s → s.inProgress →
      slice (compressRoot pageSize page).bytes s.descriptor = slice page.bytes s.descriptor :=
    fun i s hs hprogress => hc.elsewhere _ (Or.inl (hclear i s hs hprogress))
  -- One in creation against one that was packed.
  have hmixed : ∀ (i : ℕ) (s : IrtRepeat) (d : ℕ) (t' : IrtRepeat), page.Used i s →
      s.inProgress → t'.irtDesc = d → pageSize ≤ d + rootedBytes page.irtRpt →
      s.descriptor.Apart t'.descriptor := by
    intro i s d t' hs hprogress hd hlow
    have hfinish := hclear i s hs hprogress
    have hstart : t'.descriptor.start = d := hd
    exact Or.inl (by omega)
  refine ⟨⟨hc.length.trans h.length, fun i s' hs' => ?_, fun i s' hs' => ?_,
    fun i j s' t' hs' ht' hij => ?_⟩, ?_⟩
  · have hcount : (compressRoot pageSize page).irtRpt.length = page.irtRpt.length := hc.count
    obtain ⟨s, hs, ⟨-, rfl⟩ | ⟨-, d, rfl, hlow, hhigh, -⟩⟩ := compressRoot_used hc hs'
    · exact hcount ▸ h.behindSlots i s' hs
    · have hslots := h.behindSlots i s hs
      have hpage := h.onPage i s hs
      simp only [IrtRepeat.descriptor, Extent.finish] at hpage
      rw [hcount]
      show slotOffset page.irtRpt.length ≤ d
      omega
  · obtain ⟨s, hs, ⟨-, rfl⟩ | ⟨-, d, rfl, hlow, hhigh, -⟩⟩ := compressRoot_used hc hs'
    · exact h.onPage i s' hs
    · exact hhigh
  · obtain ⟨s, hs, ⟨hsp, rfl⟩ | ⟨hsroot, d, hsd, hlow, -, -⟩⟩ := compressRoot_used hc hs'
    · obtain ⟨t, ht, ⟨-, rfl⟩ | ⟨-, e, hte, hlow, -, -⟩⟩ := compressRoot_used hc ht'
      · exact h.apart i j s' t' hs ht hij
      · exact hmixed i s' e t' hs hsp (by rw [hte]) hlow
    · obtain ⟨t, ht, ⟨htp, rfl⟩ | ⟨htroot, e, hte, -, -, -⟩⟩ := compressRoot_used hc ht'
      · exact (hmixed j t' d s' ht htp (by rw [hsd]) hlow).symm
      · have hs0 : s'.getRoot ≠ 0 := hsd ▸ hsroot
        have ht0 : t'.getRoot ≠ 0 := hte ▸ htroot
        obtain hlt | hlt := Nat.lt_or_gt_of_ne hij
        · exact Or.inr (hc.apart i j s' t' hlt hs'.1 ht'.1 hs0 ht0)
        · exact Or.inl (hc.apart j i t' s' hlt ht'.1 hs'.1 ht0 hs0)
  · refine funext fun i => IndexRootPage.descriptors_congr (fun s hs => ?_) fun s' hs' => ?_
    · by_cases hzero : s.getRoot = 0
      · exact ⟨s, ⟨hc.stays i s hs.1 hzero, hs.2⟩,
          hkeep i s hs (IrtRepeat.inProgress_of_getRoot hs.2 hzero)⟩
      · obtain ⟨d, hd, -, -, hslice⟩ := hc.moves i s hs.1 hzero
        exact ⟨_, ⟨hd, hs.2⟩, hslice⟩
    · obtain ⟨s, hs, -⟩ := compressRoot_used hc hs'
      exact ⟨s, hs⟩

/-- The used slots after a slot was written. -/
theorem used_set {slots : List IrtRepeat} {bytes bytes' : List UInt8} {id i : ℕ} {new s : IrtRepeat}
    (hid : id < slots.length) :
    IndexRootPage.Used ⟨slots.set id new, bytes'⟩ i s ↔
      i = id ∧ s = new ∧ new.isUsed ∨ i ≠ id ∧ IndexRootPage.Used ⟨slots, bytes⟩ i s := by
  simp only [IndexRootPage.Used]
  by_cases hi : i = id
  · subst hi
    rw [List.getElem?_set_self hid, Option.some.injEq]
    constructor
    · rintro ⟨rfl, hused⟩
      exact Or.inl ⟨rfl, rfl, hused⟩
    · rintro (⟨-, rfl, hused⟩ | ⟨hne, -⟩)
      · exact ⟨rfl, hused⟩
      · exact absurd rfl hne
  · rw [List.getElem?_set_ne (Ne.symm hi)]
    simp [hi]

/-- A slot of zeros at the end changes nothing. -/
theorem used_append (p : Prop) [Decidable p] {i : ℕ} {s : IrtRepeat} :
    IndexRootPage.Used ⟨page.irtRpt ++ if p then [IrtRepeat.empty] else [], page.bytes⟩ i s ↔
      page.Used i s := by
  by_cases hp : p
  · rw [if_pos hp]
    have hextend : IndexRootPage.Used ⟨extendSlots (some page.irtRpt.length) page.irtRpt, page.bytes⟩
        i s ↔ page.Used i s := used_extendSlots
    simp only [extendSlots, Nat.add_sub_cancel_left, List.replicate_one] at hextend
    exact hextend
  · rw [if_neg hp, List.append_nil]

/-- The number that a slot gets is free. -/
theorem emptySlot_free {idxId : Option ℕ} {id : ℕ}
    (hid : (emptySlot idxId 0 page.irtRpt).getD page.irtRpt.length = id) :
    id ≤ page.irtRpt.length ∧ ∀ s, ¬ page.Used id s := by
  cases hfound : emptySlot idxId 0 page.irtRpt with
  | none =>
    rw [hfound, Option.getD_none] at hid
    refine ⟨hid.ge, fun s hs => ?_⟩
    have hlt := (List.getElem?_eq_some_iff.1 hs.1).1
    omega
  | some found =>
    rw [hfound, Option.getD_some] at hid
    subst hid
    obtain ⟨-, t, ht, hfree⟩ := emptySlot_spec hfound
    rw [Nat.sub_zero] at ht
    refine ⟨(List.getElem?_eq_some_iff.1 ht).1.le, fun s hs => ?_⟩
    rw [IndexRootPage.Used, ht, Option.some.injEq] at hs
    rw [← hs.1, hfree] at hs
    exact absurd hs.2 Bool.false_ne_true

theorem storeSlot_holds (h : page.Holds pageSize) {creation : IndexCreation} {space : ℕ}
    (hlen : creation.idxRpt.length = creation.idxCount * irtdSize)
    (hcount : creation.idxCount ≤ maxIndexSegments)
    (hslots : slotOffset (page.irtRpt.length + 1) ≤ space)
    (hpage : space + creation.idxCount * irtdSize ≤ pageSize)
    (hbelow : ∀ i s, page.Used i s → space + creation.idxCount * irtdSize ≤ s.irtDesc) :
    (storeSlot page creation space).1.Holds pageSize ∧
      page.descriptors (storeSlot page creation space).2 = none ∧
      (storeSlot page creation space).1.descriptors =
        Function.update page.descriptors (storeSlot page creation space).2
          (some creation.idxRpt) := by
  rw [storeSlot]
  generalize hid : (emptySlot creation.idxId 0 page.irtRpt).getD page.irtRpt.length = id
  obtain ⟨hidLe, hfree⟩ := emptySlot_free hid
  generalize hnew : IrtRepeat.setTransaction ⟨0, 0, space, creation.idxCount % 256,
    creation.idxFlags % 256⟩ creation.traNumber = new
  have hused : new.isUsed :=
    IrtRepeat.isUsed_of_inProgress (hnew ▸ IrtRepeat.inProgress_setTransaction _ _)
  have hdescriptor : new.descriptor = ⟨space, creation.idxRpt.length⟩ := by
    rw [← hnew, hlen]
    simp only [IrtRepeat.descriptor, IrtRepeat.setTransaction]
    rw [Nat.mod_eq_of_lt (show creation.idxCount < 256 by rw [maxIndexSegments] at hcount; omega)]
  generalize hslots' : (page.irtRpt ++ if id = page.irtRpt.length then [IrtRepeat.empty] else []) =
    slots
  have hlt : id < slots.length := by
    rw [← hslots', List.length_append]
    split_ifs <;> simp <;> omega
  have hgrow : slots.length ≤ page.irtRpt.length + 1 := by
    rw [← hslots', List.length_append]
    split_ifs <;> simp
  have hsame : ∀ i s, IndexRootPage.Used ⟨slots, page.bytes⟩ i s ↔ page.Used i s := by
    intro i s
    rw [← hslots']
    exact used_append _
  have hcases : ∀ i s, IndexRootPage.Used ⟨slots.set id new,
      blit page.bytes space creation.idxRpt⟩ i s ↔ i = id ∧ s = new ∧ new.isUsed ∨
        i ≠ id ∧ page.Used i s := fun i s => (used_set hlt).trans (or_congr_right
          (and_congr_right fun _ => hsame i s))
  have hfits : space + creation.idxRpt.length ≤ page.bytes.length := by
    rw [h.length, hlen]
    exact hpage
  -- The new descriptor is below all others.
  have hapart : ∀ i s, page.Used i s → s.descriptor.Apart ⟨space, creation.idxRpt.length⟩ := by
    intro i s hs
    have hle := hbelow i s hs
    rw [← hlen] at hle
    exact Or.inr hle
  refine ⟨⟨(blit_length hfits).trans h.length, fun i s hs => ?_, fun i s hs => ?_,
    fun i j s t hs ht hij => ?_⟩, IndexRootPage.descriptors_eq_none hfree, funext fun i => ?_⟩
  · show slotOffset (slots.set id new).length ≤ s.irtDesc
    rw [List.length_set]
    have hmono : slotOffset slots.length ≤ slotOffset (page.irtRpt.length + 1) := by
      simp only [slotOffset]
      omega
    obtain ⟨-, rfl, -⟩ | ⟨-, hs⟩ := (hcases i s).1 hs
    · have hstart : s.irtDesc = space := congrArg Extent.start hdescriptor
      omega
    · have hle := hbelow i s hs
      omega
  · obtain ⟨-, rfl, -⟩ | ⟨-, hs⟩ := (hcases i s).1 hs
    · rw [hdescriptor, Extent.finish]
      exact hfits.trans h.length.le
    · exact h.onPage i s hs
  · obtain ⟨hi, hnew, -⟩ | ⟨hi, hold⟩ := (hcases i s).1 hs
    · obtain ⟨hj, -, -⟩ | ⟨hj, hold⟩ := (hcases j t).1 ht
      · exact absurd (hi.trans hj.symm) hij
      · rw [hnew, hdescriptor]
        exact (hapart j t hold).symm
    · obtain ⟨hj, hnew, -⟩ | ⟨hj, hold'⟩ := (hcases j t).1 ht
      · rw [hnew, hdescriptor]
        exact hapart i s hold
      · exact h.apart i j s t hold hold' hij
  · by_cases hi : i = id
    · subst hi
      rw [Function.update_self, IndexRootPage.descriptors_of_used
        ((hcases i new).2 (Or.inl ⟨rfl, rfl, hused⟩)), hdescriptor, slice_blit_self]
    · rw [Function.update_of_ne hi]
      refine IndexRootPage.descriptors_congr (fun s hs => ⟨s, (hcases i s).2 (Or.inr ⟨hi, hs⟩), ?_⟩)
        fun s hs => ?_
      · exact slice_blit_apart hfits (hapart i s hs)
      · obtain ⟨hid, -⟩ | ⟨-, hs⟩ := (hcases i s).1 hs
        · exact absurd hid hi
        · exact ⟨s, hs⟩

theorem forall_used {P : IrtRepeat → Prop} :
    (∀ i s, page.Used i s → P s) ↔ ∀ s ∈ page.irtRpt, s.isUsed → P s := by
  constructor
  · intro h s hs hused
    obtain ⟨i, hi⟩ := List.getElem?_of_mem hs
    exact h i s ⟨hi, hused⟩
  · intro h i s hs
    exact h s (List.mem_of_getElem? hs.1) hs.2

theorem rootedBytes_append (slots more : List IrtRepeat) :
    rootedBytes (slots ++ more) = rootedBytes slots + rootedBytes more := by
  induction slots with
  | nil => exact (Nat.zero_add _).symm
  | cons s slots ih => rw [List.cons_append, rootedBytes, rootedBytes, ih, Nat.add_assoc]

theorem rootedBytes_extendSlots (idxId : Option ℕ) (slots : List IrtRepeat) :
    rootedBytes (extendSlots idxId slots) = rootedBytes slots := by
  have hempty : ∀ m, rootedBytes (List.replicate m .empty) = 0 := by
    intro m
    induction m with
    | zero => rfl
    | succ m ih =>
      rw [List.replicate_succ, rootedBytes, ih]
      rfl
  cases idxId with
  | none => rfl
  | some id => rw [extendSlots, rootedBytes_append, hempty, Nat.add_zero]

/-- Storing where the high water mark leaves room. -/
theorem storeSlot_mark (h : page.Holds pageSize) {creation : IndexCreation}
    (hlen : creation.idxRpt.length = creation.idxCount * irtdSize)
    (hcount : creation.idxCount ≤ maxIndexSegments)
    (hroom : creation.idxCount * irtdSize ≤ highWaterMark pageSize page.irtRpt)
    (hslots : slotOffset (page.irtRpt.length + 1) ≤
      highWaterMark pageSize page.irtRpt - creation.idxCount * irtdSize) :
    let r := storeSlot page creation
      (highWaterMark pageSize page.irtRpt - creation.idxCount * irtdSize)
    r.1.Holds pageSize ∧ page.descriptors r.2 = none ∧
      r.1.descriptors = Function.update page.descriptors r.2 (some creation.idxRpt) := by
  have hmark := highWaterMark_le pageSize page.irtRpt
  refine storeSlot_holds h hlen hcount hslots (by omega) (forall_used.2 fun s hs hused => ?_)
  have hle := (le_highWaterMark.1 (le_refl (highWaterMark pageSize page.irtRpt))).2 s hs hused
  omega

/-- Compressing leaves every descriptor room in front of it. -/
theorem compressRoot_room (h : page.Holds pageSize) {len : ℕ}
    (hroom : ∀ i s, page.Used i s → len ≤ s.irtDesc)
    (hpacked : rootedBytes page.irtRpt + len ≤ pageSize) :
    len ≤ highWaterMark pageSize (compressRoot pageSize page).irtRpt := by
  refine le_highWaterMark.2 ⟨by omega, forall_used.1 fun i s' hs' => ?_⟩
  obtain ⟨s, hs, ⟨-, rfl⟩ | ⟨-, d, rfl, hlow, -, -⟩⟩ :=
    compressRoot_used (compressRoot_compressed h) hs'
  · exact hroom i s' hs
  · show len ≤ d
    omega

theorem placeSlot_holds (h : page.Holds pageSize) {creation : IndexCreation}
    (hsize : pageSize < 2 ^ 16)
    (hlen : creation.idxRpt.length = creation.idxCount * irtdSize)
    (hcount : creation.idxCount ≤ maxIndexSegments)
    (hroom : ∀ i s, page.Used i s → creation.idxCount * irtdSize ≤ s.irtDesc)
    (hlenSize : creation.idxCount * irtdSize ≤ pageSize)
    (hpacked : Tight pageSize (creation.idxCount * irtdSize) page.irtRpt →
      rootedBytes page.irtRpt + creation.idxCount * irtdSize ≤ pageSize ∧
        ∀ i s, page.Used i s → s.inProgress →
          s.descriptor.finish + rootedBytes page.irtRpt ≤ pageSize) :
    (placeSlot pageSize page creation).1.Holds pageSize ∧
      (IndexOp.reserve creation).meaning page.descriptors
        (placeSlot pageSize page creation).2.toOption =
        some (placeSlot pageSize page creation).1.descriptors := by
  have hmark := le_highWaterMark.2 ⟨hlenSize, forall_used.1 hroom⟩
  rw [placeSlot]
  dsimp only
  rw [descriptorSpace_eq hsize hmark]
  by_cases hfits : slotOffset (page.irtRpt.length + 1) ≤
      highWaterMark pageSize page.irtRpt - creation.idxCount * irtdSize
  · rw [if_pos hfits]
    obtain ⟨hholds, hfree, hdescriptors⟩ := storeSlot_mark h hlen hcount hmark hfits
    refine ⟨hholds, ?_⟩
    rw [hdescriptors]
    exact if_pos hfree
  rw [if_neg hfits]
  have htight : Tight pageSize (creation.idxCount * irtdSize) page.irtRpt := by
    by_contra hnot
    simp only [Tight, not_or, not_exists, not_and, not_lt] at hnot
    have hle := le_highWaterMark.2 hnot
    omega
  obtain ⟨hbytes, hclear⟩ := hpacked htight
  obtain ⟨hholds, hsame⟩ := compressRoot_holds h hclear
  have hmark := compressRoot_room h hroom hbytes
  rw [descriptorSpace_eq hsize hmark, ← hsame]
  by_cases hfits : slotOffset ((compressRoot pageSize page).irtRpt.length + 1) ≤
      highWaterMark pageSize (compressRoot pageSize page).irtRpt - creation.idxCount * irtdSize
  · rw [if_pos hfits]
    obtain ⟨hholds, hfree, hdescriptors⟩ := storeSlot_mark hholds hlen hcount hmark hfits
    refine ⟨hholds, ?_⟩
    rw [hdescriptors]
    exact if_pos hfree
  · rw [if_neg hfits]
    exact ⟨hholds, rfl⟩

theorem reserveSlot_holds (h : page.Holds pageSize) {maxIdx : ℕ} {creation : IndexCreation}
    (hsize : maxIndexSegments * irtdSize ≤ pageSize) (hsize' : pageSize < 2 ^ 16)
    (hvalid : (IndexOp.reserve creation).Valid page)
    (hsound : (IndexOp.reserve creation).Sound pageSize maxIdx page) :
    (reserveSlot pageSize maxIdx page creation).1.Holds pageSize ∧
      (IndexOp.reserve creation).meaning page.descriptors
        (reserveSlot pageSize maxIdx page creation).2.toOption =
        some (reserveSlot pageSize maxIdx page creation).1.descriptors := by
  obtain ⟨-, hcount, hlen⟩ := hvalid
  rw [reserveSlot]
  by_cases hmax : page.irtRpt.length > maxIdx
  · rw [if_pos hmax]
    exact ⟨h, rfl⟩
  rw [if_neg hmax]
  obtain ⟨hextended, hroom, hpacked⟩ := hsound (Nat.le_of_not_lt hmax)
  rw [← extend_descriptors creation.idxId]
  refine placeSlot_holds (extend_holds h (forall_used.2 hextended)) hsize' hlen hcount
    (fun i s hs => forall_used.2 hroom i s (used_extendSlots.1 hs))
    ((Nat.mul_le_mul_right _ hcount).trans hsize) fun htight => ?_
  rw [rootedBytes_extendSlots]
  obtain ⟨hbytes, hclear⟩ := hpacked htight
  exact ⟨hbytes, fun i s hs => hclear s (List.mem_of_getElem? (used_extendSlots.1 hs).1)⟩

/-! ### Completing and deleting -/

theorem freeSlot_holds (h : page.Holds pageSize) {id : ℕ} {new : IrtRepeat}
    (hid : id < page.irtRpt.length) (hunused : new.isUsed = false) :
    IndexRootPage.Holds pageSize ⟨page.irtRpt.set id new, page.bytes⟩ ∧
      IndexRootPage.descriptors ⟨page.irtRpt.set id new, page.bytes⟩ =
        Function.update page.descriptors id none := by
  have hcases : ∀ i s, IndexRootPage.Used ⟨page.irtRpt.set id new, page.bytes⟩ i s ↔
      i ≠ id ∧ page.Used i s := by
    intro i s
    have hset : IndexRootPage.Used ⟨page.irtRpt.set id new, page.bytes⟩ i s ↔
        i = id ∧ s = new ∧ new.isUsed ∨ i ≠ id ∧ page.Used i s := used_set hid
    rw [hset, hunused]
    simp only [Bool.false_eq_true, and_false, false_or]
  refine ⟨⟨h.length, fun i s hs => ?_, fun i s hs => h.onPage i s ((hcases i s).1 hs).2,
    fun i j s t hs ht => h.apart i j s t ((hcases i s).1 hs).2 ((hcases j t).1 ht).2⟩,
    funext fun i => ?_⟩
  · show slotOffset (page.irtRpt.set id new).length ≤ s.irtDesc
    rw [List.length_set]
    exact h.behindSlots i s ((hcases i s).1 hs).2
  · by_cases hi : i = id
    · rw [hi, Function.update_self]
      exact IndexRootPage.descriptors_eq_none fun s hs => ((hcases id s).1 hs).1 rfl
    · rw [Function.update_of_ne hi]
      exact IndexRootPage.descriptors_congr (fun s hs => ⟨s, (hcases i s).2 ⟨hi, hs⟩, rfl⟩)
        fun s hs => ⟨s, ((hcases i s).1 hs).2⟩

theorem deleteIndex_holds (h : page.Holds pageSize) (id : ℕ) :
    (deleteIndex page id).1.Holds pageSize ∧
      (deleteIndex page id).1.descriptors = Function.update page.descriptors id none := by
  rw [deleteIndex]
  by_cases hid : id ≥ page.irtRpt.length
  · rw [if_pos hid]
    refine ⟨h, (Function.update_eq_self_iff.2 (Eq.symm ?_)).symm⟩
    refine IndexRootPage.descriptors_eq_none fun s hs => ?_
    have hlt : id < page.irtRpt.length := (List.getElem?_eq_some_iff.1 hs.1).1
    omega
  · rw [if_neg hid]
    refine freeSlot_holds h (Nat.lt_of_not_le hid) ?_
    simp [IrtRepeat.isUsed, IrtRepeat.inProgress, IrtRepeat.setRoot]

/-- Updating the selectivities inside a descriptor. -/
theorem updateSelectivity_spec {selectivity : List (List UInt8)} {i : ℕ} {e : Extent}
    {bytes : List UInt8} (he : e.finish ≤ bytes.length)
    (hsel : ∀ v ∈ selectivity, v.length = 4)
    (hfits : (i + selectivity.length) * irtdSize ≤ e.size) :
    (updateSelectivity e.start i selectivity bytes).length = bytes.length ∧
      slice (updateSelectivity e.start i selectivity bytes) e =
        updateSelectivity 0 i selectivity (slice bytes e) ∧
      ∀ f : Extent, f.Apart e →
        slice (updateSelectivity e.start i selectivity bytes) f = slice bytes f := by
  induction selectivity generalizing i bytes with
  | nil => exact ⟨rfl, rfl, fun _ _ => rfl⟩
  | cons v rest ih =>
    obtain ⟨hv, hrest⟩ := List.forall_mem_cons.1 hsel
    rw [List.length_cons, Nat.add_comm rest.length, ← Nat.add_assoc] at hfits
    have hroom : i * irtdSize + 4 + v.length ≤ e.size := by
      simp only [irtdSize] at *
      omega
    have hsum : e.start + (i * irtdSize + 4) + v.length ≤ bytes.length := by
      rw [Extent.finish] at he
      omega
    have hkeep := blit_length hsum
    obtain ⟨hlength, hinside, hframe⟩ := ih (he.trans hkeep.ge) hrest hfits
    rw [updateSelectivity, updateSelectivity, Nat.zero_add]
    refine ⟨hlength.trans hkeep, ?_, fun f hf => ?_⟩
    · rw [hinside, slice_blit_inside he hroom]
    · rw [hframe f hf, slice_blit_apart hsum]
      simp only [Extent.Apart, Extent.finish] at hf ⊢
      omega

theorem completeIndex_holds (h : page.Holds pageSize) {id rootPage : ℕ}
    {selectivity : List (List UInt8)}
    (hvalid : (IndexOp.complete id rootPage selectivity).Valid page) :
    (completeIndex page id rootPage selectivity).Holds pageSize ∧
      (IndexOp.complete id rootPage selectivity).meaning page.descriptors none =
        some (completeIndex page id rootPage selectivity).descriptors := by
  obtain ⟨hroot, hsel, s, hs, hprogress, hcount⟩ := hvalid
  have hused : page.Used id s := ⟨hs, IrtRepeat.isUsed_of_inProgress hprogress⟩
  have hid : id < page.irtRpt.length := (List.getElem?_eq_some_iff.1 hs).1
  have hslot : page.irtRpt.getD id .empty = s := by
    rw [List.getD_eq_getElem?_getD, hs, Option.getD_some]
  have hnew : (s.setRoot rootPage).isUsed := by
    rw [IrtRepeat.isUsed, IrtRepeat.inProgress_setRoot, Bool.false_or, bne_iff_ne]
    exact hroot
  have honPage := h.onPage id s hused
  have hfits : (0 + selectivity.length) * irtdSize ≤ s.descriptor.size := by
    rw [Nat.zero_add, hcount]
    exact le_rfl
  obtain ⟨hlength, hinside, hframe⟩ :=
    updateSelectivity_spec (honPage.trans h.length.ge) hsel hfits
  rw [completeIndex, hslot]
  have hcases : ∀ i t, IndexRootPage.Used ⟨page.irtRpt.set id (s.setRoot rootPage),
      updateSelectivity s.irtDesc 0 selectivity page.bytes⟩ i t ↔
        i = id ∧ t = s.setRoot rootPage ∧ (s.setRoot rootPage).isUsed ∨ i ≠ id ∧ page.Used i t :=
    fun i t => used_set hid
  have hfrom : ∀ i t, IndexRootPage.Used ⟨page.irtRpt.set id (s.setRoot rootPage),
      updateSelectivity s.irtDesc 0 selectivity page.bytes⟩ i t →
        ∃ u, page.Used i u ∧ t.irtDesc = u.irtDesc ∧ t.descriptor = u.descriptor := by
    intro i t ht
    obtain ⟨rfl, rfl, -⟩ | ⟨-, ht⟩ := (hcases i t).1 ht
    · exact ⟨s, hused, rfl, rfl⟩
    · exact ⟨t, ht, rfl, rfl⟩
  refine ⟨⟨hlength.trans h.length, fun i t ht => ?_, fun i t ht => ?_, fun i j t u ht hu hij => ?_⟩, ?_⟩
  · obtain ⟨v, hv, hdesc, -⟩ := hfrom i t ht
    show slotOffset (page.irtRpt.set id _).length ≤ t.irtDesc
    rw [List.length_set, hdesc]
    exact h.behindSlots i v hv
  · obtain ⟨v, hv, -, hdescriptor⟩ := hfrom i t ht
    exact hdescriptor ▸ h.onPage i v hv
  · obtain ⟨v, hv, -, hdescriptor⟩ := hfrom i t ht
    obtain ⟨w, hw, -, hdescriptor'⟩ := hfrom j u hu
    rw [hdescriptor, hdescriptor']
    exact h.apart i j v w hv hw hij
  · rw [IndexOp.meaning, IndexRootPage.descriptors_of_used hused, Option.map_some]
    refine congrArg some (funext fun i => ?_)
    by_cases hi : i = id
    · subst hi
      rw [Function.update_self, IndexRootPage.descriptors_of_used
        ((hcases i _).2 (Or.inl ⟨rfl, rfl, hnew⟩))]
      exact congrArg some hinside.symm
    · rw [Function.update_of_ne hi]
      refine (IndexRootPage.descriptors_congr
        (fun t ht => ⟨t, (hcases i t).2 (Or.inr ⟨hi, ht⟩), ?_⟩) fun t ht => ?_).symm
      · exact hframe _ (h.apart i id t s ht hused hi)
      · obtain ⟨u, hu, -⟩ := hfrom i t ht
        exact ⟨u, hu⟩

theorem apply_holds (h : page.Holds pageSize) {maxIdx : ℕ} {op : IndexOp}
    (hsize : maxIndexSegments * irtdSize ≤ pageSize) (hsize' : pageSize < 2 ^ 16)
    (hvalid : op.Valid page) (hsound : op.Sound pageSize maxIdx page) :
    (op.apply pageSize maxIdx page).1.Holds pageSize ∧
      op.meaning page.descriptors (op.apply pageSize maxIdx page).2 =
        some (op.apply pageSize maxIdx page).1.descriptors := by
  cases op with
  | reserve creation => exact reserveSlot_holds h hsize hsize' hvalid hsound
  | complete id rootPage selectivity => exact completeIndex_holds h hvalid
  | delete id =>
    obtain ⟨hholds, hdescriptors⟩ := deleteIndex_holds h id
    exact ⟨hholds, congrArg some hdescriptors.symm⟩

end

/-! ## Runs -/

/-- The page of a new relation. -/
def IndexRootPage.fresh (pageSize : ℕ) : IndexRootPage := ⟨[], List.replicate pageSize 0⟩

/-- The page together with the catalog that its history means. -/
abbrev PageHistory := IndexRootPage × Option Catalog

def PageHistory.fresh (pageSize : ℕ) : PageHistory := (.fresh pageSize, some fun _ => none)

def PageHistory.step (pageSize maxIdx : ℕ) (history : PageHistory) (op : IndexOp) : PageHistory :=
  let r := op.apply pageSize maxIdx history.1
  (r.1, history.2.bind fun catalog => op.meaning catalog r.2)

theorem fresh_holds (pageSize : ℕ) : (IndexRootPage.fresh pageSize).Holds pageSize := by
  have hnone : ∀ i s, ¬ (IndexRootPage.fresh pageSize).Used i s := by
    rintro i s ⟨hs, -⟩
    cases hs
  exact ⟨List.length_replicate, fun i s hs => absurd hs (hnone i s),
    fun i s hs => absurd hs (hnone i s), fun i _ s _ hs => absurd hs (hnone i s)⟩

/-- In every run whose steps are sound the descriptors keep their places and contents. -/
theorem descriptors_kept {pageSize maxIdx : ℕ} (ops : List IndexOp)
    (hmin : minPageSize ≤ pageSize) (hmax : pageSize ≤ maxPageSize)
    (hsteps : AlongRun (PageHistory.step pageSize maxIdx)
      (fun history op => op.Valid history.1 ∧ op.Sound pageSize maxIdx history.1)
      (.fresh pageSize) ops) :
    let r := run (PageHistory.step pageSize maxIdx) (.fresh pageSize) ops
    r.1.Holds pageSize ∧ r.2 = some r.1.descriptors := by
  rw [minPageSize] at hmin
  rw [maxPageSize] at hmax
  have hbytes : maxIndexSegments * irtdSize ≤ pageSize := by
    rw [maxIndexSegments, irtdSize]
    omega
  refine run_invariant (fun history : PageHistory => history.1.Holds pageSize ∧
    history.2 = some history.1.descriptors) ?_ ⟨fresh_holds pageSize, rfl⟩ hsteps
  rintro ⟨page, catalog⟩ op ⟨hholds, hcatalog⟩ ⟨hvalid, hsound⟩
  obtain ⟨hnext, hmeaning⟩ := apply_holds hholds hbytes (by omega) hvalid hsound
  refine ⟨hnext, ?_⟩
  dsimp only at hcatalog
  rw [PageHistory.step, hcatalog, Option.bind_some]
  exact hmeaning

/-- An index on this many columns. -/
def someIndex (idxCount : ℕ) : IndexCreation := ⟨idxCount, 0, List.replicate (8 * idxCount) 0, 1, none⟩

theorem descriptors_kept_witness :
    let r := run (PageHistory.step 4096 203) (.fresh 4096)
      [.reserve (someIndex 2), .reserve (someIndex 1), .complete 0 100 [[0, 0, 0, 1], [0, 0, 0, 2]],
        .delete 1]
    r.1.Holds 4096 ∧ r.2 = some r.1.descriptors :=
  descriptors_kept _ (by decide) (by decide) (by decide +kernel)

/-- An index is in creation all the time while others are created and dropped, until the page has
to be compressed. -/
def crowdedOps : List IndexOp :=
  [.reserve (someIndex 16), .reserve (someIndex 16)] ++
    (List.range 29).flatMap (fun k => [.reserve (someIndex 16), .delete (1 + k % 2)]) ++
    [.complete 2 100 (List.replicate 16 [0, 0, 0, 0]), .reserve (someIndex 16)]

/-- Compressing puts the descriptor of the one complete index over that of the one in creation. -/
theorem crowdedOps_overlap :
    AlongRun (PageHistory.step 4096 203) (fun history op => op.Valid history.1) (.fresh 4096)
        crowdedOps ∧
      ¬ (run (PageHistory.step 4096 203) (.fresh 4096) crowdedOps).1.Holds 4096 := by
  refine ⟨by decide +kernel, fun h => ?_⟩
  have hslots : (run (PageHistory.step 4096 203) (.fresh 4096) crowdedOps).1.irtRpt =
      [⟨0, 1, 3968, 16, 4⟩, ⟨0, 1, 3840, 16, 4⟩, ⟨100, 1, 3968, 16, 0⟩] := by
    decide +kernel
  have hapart := h.apart 0 2 ⟨0, 1, 3968, 16, 4⟩ ⟨100, 1, 3968, 16, 0⟩
    ⟨by rw [hslots]; rfl, rfl⟩ ⟨by rw [hslots]; rfl, rfl⟩ (by decide)
  exact absurd hapart (by decide)

end FirebirdCore.Btr
