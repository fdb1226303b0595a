import FirebirdCore.Lib.Extent
import FirebirdCore.Xdr.Datum

/-!
# Messages on the wire

`xdr_message` sends a message item by item. In `xdr_packed_message` every second item is the null flag of the one in
front of it: the flags are sent as a bitmap, and items that are null are not sent.
-/
namespace FirebirdCore.Xdr

open Buffer (blit slice slice_blit_apart blit_length getElem?_blit Extent)
open LittleEndian (toBytes)

/-- A descriptor with the place of its item in the message. -/
structure Item where
  desc : dsc
  dsc_address : ℕ
  deriving DecidableEq, Repr

/-- The bytes of the message that are the item's. -/
def Item.extent (item : Item) : Extent := ⟨item.dsc_address, item.desc.dsc_length.toNat⟩

structure rem_fmt where
  fmt_length : ℕ
  fmt_desc : List Item
  deriving DecidableEq, Repr

/-- What is received: whether all of it was there, the message, and the stream behind it. -/
structure Received where
  success : Bool
  message : List UInt8
  xdrs : XDR

/-! ## Items one by one -/

namespace Encode

def xdr_items (message : List UInt8) : List Item → Output → Option Output
  | [], xdrs => some xdrs
  | item :: items, xdrs =>
      (xdr_datum xdrs item.desc (message.drop item.dsc_address)).bind (xdr_items message items)

def xdr_message (symmetric : Bool) (format : rem_fmt) (message : List UInt8) (xdrs : Output) : Option Output :=
  -- the symmetric protocol sends the bytes as they are
  if symmetric then xdr_opaque xdrs message format.fmt_length
  else xdr_items message format.fmt_desc xdrs

end Encode

namespace Decode

/-- The stores of an item, made at its place. -/
def storeAt (message : List UInt8) (address : ℕ) (stores : List Store) : List UInt8 :=
  stores.foldl (fun m s => blit m (address + s.offset) s.bytes) message

def xdr_items : List Item → List UInt8 → XDR → Received
  | [], message, xdrs => ⟨true, message, xdrs⟩
  | item :: items, message, xdrs =>
      let d := xdr_datum xdrs item.desc
      let message := storeAt message item.dsc_address d.stores
      if d.success then xdr_items items message d.xdrs else ⟨false, message, d.xdrs⟩

def xdr_message (symmetric : Bool) (format : rem_fmt) (message : List UInt8) (xdrs : XDR) : Received :=
  if symmetric then
    let d := xdr_opaque xdrs 0 format.fmt_length
    ⟨d.success, d.memory message, d.xdrs⟩
  else xdr_items format.fmt_desc message xdrs

end Decode

/-! ## Packed messages -/

/-- `NullBitmap::setNull` -/
def setNull (data : List UInt8) (id : ℕ) : List UInt8 :=
  data.modify (id / 8) fun b => UInt8.ofNat (b.toNat ||| 2 ^ (id % 8))

/-- `NullBitmap::isNull` -/
def isNull (data : List UInt8) (id : ℕ) : Bool := (data.getD (id / 8) 0).toNat.testBit (id % 8)

namespace rem_fmt

/-- Items and their flags. The number of descriptors is even, and less than `2 ^ 16`, so that no index wraps. -/
def pairs (format : rem_fmt) : List (Item × Item) := go format.fmt_desc
where
  go : List Item → List (Item × Item)
    | item :: flag :: items => (item, flag) :: go items
    | _ => []

def flagBytes (format : rem_fmt) : ℕ := (format.fmt_desc.length / 2 + 7) / 8

end rem_fmt

/-- The items that are not null by the bitmap. -/
def sent (nulls : List UInt8) : ℕ → List (Item × Item) → List Item
  | _, [] => []
  | index, (item, _) :: pairs =>
      if isNull nulls index then sent nulls (index + 1) pairs else item :: sent nulls (index + 1) pairs

namespace Encode

/-- `*flag` is not zero. -/
def flagged (message : List UInt8) (flag : Item) : Bool := ushort (message.drop flag.dsc_address) ≠ 0

/-- The first pass. -/
def trackNulls (message : List UInt8) : ℕ → List (Item × Item) → List UInt8 → List UInt8
  | _, [], nulls => nulls
  | index, (_, flag) :: pairs, nulls =>
      trackNulls message (index + 1) pairs (if flagged message flag then setNull nulls index else nulls)

def xdr_packed_message (symmetric : Bool) (format : rem_fmt) (message : List UInt8) (xdrs : Output) :
    Option Output :=
  if symmetric then xdr_opaque xdrs message format.fmt_length
  else
    let nulls := trackNulls message 0 format.pairs (List.replicate format.flagBytes 0)
    ( xdr_opaque xdrs nulls format.flagBytes).bind (xdr_items message (sent nulls 0 format.pairs))

end Encode

namespace Decode

/-- The first pass: `*flag = nulls.isNull(index) ? -1 : 0`. -/
def setFlags (nulls : List UInt8) : ℕ → List (Item × Item) → List UInt8 → List UInt8
  | _, [], message => message
  | index, (_, flag) :: pairs, message =>
      setFlags nulls (index + 1) pairs
        (blit message flag.dsc_address (if isNull nulls index then [255, 255] else [0, 0]))

def xdr_packed_message (symmetric : Bool) (format : rem_fmt) (message : List UInt8) (xdrs : XDR) : Received :=
  if symmetric then
    let d := xdr_opaque xdrs 0 format.fmt_length
    ⟨d.success, d.memory message, d.xdrs⟩
  else
    let zeros := List.replicate format.fmt_length 0
    let d := xdr_opaque xdrs 0 format.flagBytes
    let nulls := d.memory (List.replicate format.flagBytes 0)
    if d.success then xdr_items (sent nulls 0 format.pairs) (setFlags nulls 0 format.pairs zeros) d.xdrs
    else ⟨false, zeros, d.xdrs⟩

end Decode

/-! ## What stores change -/

theorem drop_blit {buf src : List UInt8} {front off : ℕ} (h : front + off + src.length ≤ buf.length) :
    (blit buf (front + off) src).drop front = blit (buf.drop front) off src := by
  have hdrop : off + src.length ≤ (buf.drop front).length := by
    rw [List.length_drop]
    omega
  refine List.ext_getElem? fun i => ?_
  rw [List.getElem?_drop, getElem?_blit h, getElem?_blit hdrop, List.getElem?_drop]
  split_ifs <;> first | rfl | omega | (congr 1; omega)

/-- Stores inside of an item change the memory there and nothing else. -/
theorem storeAt_spec {message : List UInt8} {address length : ℕ} {stores : List Store}
    (h : ∀ s ∈ stores, s.offset + s.bytes.length ≤ length) (hle : address + length ≤ message.length) :
    (Decode.storeAt message address stores).length = message.length ∧
      (∀ e : Extent, e.Apart ⟨address, length⟩ →
        slice (Decode.storeAt message address stores) e = slice message e) ∧
      (Decode.storeAt message address stores).drop address =
        stores.foldl (fun m s => blit m s.offset s.bytes) (message.drop address) := by
  induction stores generalizing message with
  | nil => exact ⟨rfl, fun _ _ => rfl, rfl⟩
  | cons s stores ih =>
    obtain ⟨hs, hstores⟩ := List.forall_mem_cons.1 h
    have hfits : address + s.offset + s.bytes.length ≤ message.length := by omega
    have hlength := blit_length hfits
    obtain ⟨hsame, hkept, hdrop⟩ := ih hstores (hle.trans hlength.ge)
    refine ⟨hsame.trans hlength, fun e he => (hkept e he).trans (slice_blit_apart hfits ?_), hdrop.trans ?_⟩
    · simp only [Extent.Apart, Extent.finish] at he ⊢
      omega
    · rw [drop_blit hfits]
      rfl

/-! ## Items that were sent -/

namespace Item

/-- The bytes of the message that are the value of the item. -/
def value (message : List UInt8) (item : Item) : Extent :=
  ⟨item.dsc_address, item.desc.extent (message.drop item.dsc_address)⟩

/-- The message holds a value of the item. -/
def Valid (message : List UInt8) (item : Item) : Prop := item.desc.Valid (message.drop item.dsc_address)

instance (message : List UInt8) (item : Item) : Decidable (item.Valid message) :=
  inferInstanceAs (Decidable (item.desc.Valid _))

theorem Valid.value_apart {message : List UInt8} {item : Item} (h : item.Valid message) {e : Extent}
    (he : item.extent.Apart e) : (item.value message).Apart e := by
  have hle := h.1
  simp only [Extent.Apart, Extent.finish, extent, value] at he ⊢
  omega

end Item

/-- What is sent of a message is some bytes, and from these, with whatever is behind them, a message of the length
is received that has what it should have. -/
def Carries (send : Output → Option Output) (receive : List UInt8 → XDR → Received) (length : ℕ) (x_local : Bool)
    (Has : List UInt8 → Prop) : Prop :=
  ∃ bytes, (∀ xdrs : Output, xdrs.x_local = x_local → send xdrs = xdrs.putbytes bytes) ∧
    ∀ (xdrs : XDR) (tail before : List UInt8), xdrs.x_local = x_local → xdrs.rest = bytes ++ tail →
      before.length = length →
      (receive before xdrs).success = true ∧ (receive before xdrs).xdrs.rest = tail ∧
        (receive before xdrs).message.length = length ∧ Has (receive before xdrs).message

/-- The items of a message are in the memory, which is as it was `before` apart from them. -/
structure Recovered (message before tail : List UInt8) (items : List Item) (r : Received) : Prop where
  success : r.success = true
  rest : r.xdrs.rest = tail
  length : r.message.length = before.length
  kept : ∀ e : Extent, (∀ item ∈ items, e.Apart item.extent) → slice r.message e = slice before e
  values : ∀ item ∈ items, slice r.message (item.value message) = slice message (item.value message)

section Items
variable {message p : List UInt8} {x_local : Bool} {desc : dsc}

/-- Only the count of a string decides whether its stores are inside. -/
theorem fits_of_valid (hvalid : desc.Valid p) (hstring : desc.dsc_dtype ≠ .dtype_cstring) (xdrs : XDR) :
    Fits desc xdrs := by
  unfold dsc.Valid dsc.extent at hvalid
  unfold Fits dsc.steps
  cases hdtype : desc.dsc_dtype <;> rw [hdtype] at hvalid hstring <;> dsimp only at hvalid ⊢ <;>
    simp only [List.not_mem_nil, false_implies, implies_true, List.mem_cons, or_false, forall_eq,
      forall_eq_or_imp]
  case dtype_cstring => exact absurd rfl hstring
  all_goals omega

/-- A value is sent as some bytes, from which it is received inside of its item. -/
theorem xdr_datum_bytes (hvalid : desc.Valid p) (x_local : Bool) : ∃ bytes,
    (∀ xdrs : Output, xdrs.x_local = x_local → Encode.xdr_datum xdrs desc p = xdrs.putbytes bytes) ∧
    ∀ (xdrs : XDR) (tail : List UInt8), xdrs.x_local = x_local → xdrs.rest = bytes ++ tail →
      ((Decode.xdr_datum xdrs desc).success = true ∧ (Decode.xdr_datum xdrs desc).xdrs.rest = tail ∧
        ∀ before, p.take (desc.extent p) <+: (Decode.xdr_datum xdrs desc).memory before) ∧
      (Decode.xdr_datum xdrs desc).Inside desc.dsc_length.toNat := by
  by_cases hstring : desc.dsc_dtype = .dtype_cstring
  · have hlt : desc.dsc_length.toNat < 2 ^ 16 := desc.dsc_length.toNat_lt
    have hextent : desc.extent p = strlen p + 1 := by rw [dsc.extent, hstring]
    obtain ⟨hle, hp⟩ := hvalid
    rw [hextent] at hle ⊢
    refine ⟨ntohl x_local (Encode.extendShort (toBytes 2 (strlen p))) ++
      (p.take (strlen p) ++ List.replicate (padding (strlen p)) 0),
      fun xdrs hlocal => ?_, fun xdrs tail hlocal hrest => ⟨?_, ?_⟩⟩
    · rw [Encode.xdr_datum, hstring]
      dsimp only
      rw [xdr_cstring_eq hle hlt, hlocal]
    · rw [Decode.xdr_datum, hstring]
      exact leaves_xdr_cstring (by omega) (by omega) xdrs tail hlocal hrest
    · have hcount : xdrs.count = strlen p :=
        count_eq (by omega) hlocal (hrest.trans (List.append_assoc _ _ _))
      rw [inside_xdr_datum, Fits, dsc.steps, hstring, hcount]
      simp only [List.not_mem_nil, false_implies, implies_true, List.mem_cons, forall_eq_or_imp, and_true]
      omega
  · obtain ⟨bytes, hencode, hdecode⟩ := roundTrips desc x_local p hvalid
    exact ⟨bytes, hencode, fun xdrs tail hlocal hrest =>
      ⟨hdecode xdrs tail hlocal hrest, (inside_xdr_datum desc xdrs).2 (fits_of_valid hvalid hstring xdrs)⟩⟩

/-- Bytes put behind others are put together with them. -/
theorem putbytes_bind_of {xdrs : Output} {first second : List UInt8} {f : Output → Option Output}
    (hf : ∀ after : Output, after.x_local = xdrs.x_local → f after = after.putbytes second) :
    (xdrs.putbytes first).bind f = xdrs.putbytes (first ++ second) := by
  rw [← Output.putbytes_bind, Output.putbytes]
  split_ifs
  · rfl
  · exact hf _ rfl

/-- By induction on the items: what is stored for an item is apart from the items behind it. -/
theorem xdr_items_bytes {items : List Item} (hvalid : ∀ item ∈ items, item.Valid message)
    (hapart : items.Pairwise fun a b => a.extent.Apart b.extent) (x_local : Bool) : ∃ bytes,
    (∀ xdrs : Output, xdrs.x_local = x_local → Encode.xdr_items message items xdrs = xdrs.putbytes bytes) ∧
    ∀ (xdrs : XDR) (tail before : List UInt8), xdrs.x_local = x_local → xdrs.rest = bytes ++ tail →
      (∀ item ∈ items, item.extent.finish ≤ before.length) →
      Recovered message before tail items (Decode.xdr_items items before xdrs) := by
  induction items with
  | nil =>
    refine ⟨[], fun xdrs _ => ?_, fun xdrs tail before _ hrest _ => ?_⟩
    · simp [Encode.xdr_items, Output.putbytes]
    · exact ⟨rfl, hrest, rfl, fun _ _ => rfl, fun item hitem => absurd hitem List.not_mem_nil⟩
  | cons item items ih =>
    obtain ⟨hitem, hitems⟩ := List.forall_mem_cons.1 hvalid
    obtain ⟨hfirst, hothers⟩ := List.pairwise_cons.1 hapart
    obtain ⟨bytes, hencode, hdecode⟩ := xdr_datum_bytes hitem x_local
    obtain ⟨bytes', hencode', hdecode'⟩ := ih hitems hothers
    refine ⟨bytes ++ bytes', fun xdrs hlocal => ?_, fun xdrs tail before hlocal hrest hinside => ?_⟩
    · rw [Encode.xdr_items, hencode xdrs hlocal]
      exact putbytes_bind_of fun after hafter => hencode' after (hafter.trans hlocal)
    · rw [List.append_assoc] at hrest
      obtain ⟨hhere, hbehind⟩ := List.forall_mem_cons.1 hinside
      obtain ⟨⟨hsuccess, hleft, hmemory⟩, hstores⟩ := hdecode xdrs _ hlocal hrest
      have hlocal' := (ahead_xdr_datum item.desc xdrs).x_local.trans hlocal
      have hfits : item.dsc_address + item.desc.dsc_length.toNat ≤ before.length := hhere
      obtain ⟨hlength, hkept, hdrop⟩ := storeAt_spec hstores hfits
      have htail := hdecode' _ tail (Decode.storeAt before item.dsc_address
        (Decode.xdr_datum xdrs item.desc).stores) hlocal' hleft fun other hother =>
          (hbehind other hother).trans hlength.ge
      rw [Decode.xdr_items, if_pos hsuccess]
      refine ⟨htail.success, htail.rest, htail.length.trans hlength, fun e he => ?_, fun other hother => ?_⟩
      · obtain ⟨hehere, hebehind⟩ := List.forall_mem_cons.1 he
        exact (htail.kept e hebehind).trans (hkept e hehere)
      · rcases List.mem_cons.1 hother with rfl | hother
        · rw [htail.kept _ fun q hq => hitem.value_apart (hfirst q hq)]
          have hvalue := Buffer.take_of_front (hmemory (before.drop other.dsc_address))
          rw [List.length_take_of_le (hitem.1.trans hitem.2)] at hvalue
          rw [slice, slice]
          dsimp only [Item.value]
          rw [hdrop]
          exact hvalue
        · exact htail.values other hother

end Items

/-! ## Null flags -/

section Nulls
variable {message nulls : List UInt8} {index : ℕ} {pairs : List (Item × Item)}

@[simp] theorem length_setNull (data : List UInt8) (id : ℕ) : (setNull data id).length = data.length :=
  List.length_modify _ _ _

theorem isNull_setNull {data : List UInt8} {id : ℕ} (h : id / 8 < data.length) (k : ℕ) :
    isNull (setNull data id) k = (isNull data k || decide (k = id)) := by
  rw [isNull, isNull, setNull, List.getD_eq_getElem?_getD, List.getD_eq_getElem?_getD, List.getElem?_modify]
  by_cases hbyte : id / 8 = k / 8
  · have hbound (b : UInt8) : (UInt8.ofNat (b.toNat ||| 2 ^ (id % 8))).toNat = b.toNat ||| 2 ^ (id % 8) := by
      rw [UInt8.toNat_ofNat']
      apply Nat.mod_eq_of_lt
      exact Nat.or_lt_two_pow b.toNat_lt (Nat.pow_lt_pow_right (by omega) (by omega))
    have hbit : decide (id % 8 = k % 8) = decide (k = id) := by
      rw [decide_eq_decide]
      omega
    rw [← hbyte, List.getElem?_eq_getElem h]
    simp only [if_pos, Option.map_eq_map, Option.map_some, Option.getD_some]
    rw [hbound, Nat.testBit_or, Nat.testBit_two_pow, hbit]
  · have hne : k ≠ id := fun heq => hbyte (by rw [heq])
    simp [hbyte, hne]

/-- The bitmap has the flags of the message. -/
def Marks (message nulls : List UInt8) : ℕ → List (Item × Item) → Prop
  | _, [] => True
  | index, (_, flag) :: pairs =>
      isNull nulls index = Encode.flagged message flag ∧ Marks message nulls (index + 1) pairs

theorem isNull_replicate (n k : ℕ) : isNull (List.replicate n 0) k = false := by
  rw [isNull, List.getD_eq_getElem?_getD, List.getElem?_replicate]
  split_ifs <;> simp

theorem trackNulls_spec (hroom : index + pairs.length ≤ 8 * nulls.length)
    (hclear : ∀ k, index ≤ k → isNull nulls k = false) :
    (Encode.trackNulls message index pairs nulls).length = nulls.length ∧
      (∀ k < index, isNull (Encode.trackNulls message index pairs nulls) k = isNull nulls k) ∧
      Marks message (Encode.trackNulls message index pairs nulls) index pairs := by
  induction pairs generalizing index nulls with
  | nil => exact ⟨rfl, fun _ _ => rfl, trivial⟩
  | cons pair pairs ih =>
    obtain ⟨item, flag⟩ := pair
    rw [List.length_cons] at hroom
    rw [Encode.trackNulls]
    have hset (k : ℕ) : isNull (if Encode.flagged message flag then setNull nulls index else nulls) k =
        (isNull nulls k || (Encode.flagged message flag && decide (k = index))) := by
      cases Encode.flagged message flag
      · simp
      · simp [isNull_setNull (by omega : index / 8 < nulls.length)]
    have hlength : (if Encode.flagged message flag then setNull nulls index else nulls).length = nulls.length := by
      split_ifs <;> simp
    generalize (if Encode.flagged message flag then setNull nulls index else nulls) = nulls' at hset hlength ⊢
    obtain ⟨hsame, hfront, hmarks⟩ := @ih nulls' (index + 1) (by omega) fun k hk => by
      rw [hset, hclear k (by omega), Bool.false_or, Bool.and_eq_false_imp]
      intro _
      exact decide_eq_false (by omega)
    refine ⟨hsame.trans hlength, fun k hk => ?_, ?_, hmarks⟩
    · rw [hfront k (by omega), hset, decide_eq_false (by omega), Bool.and_false, Bool.or_false]
    · rw [hfront index (by omega), hset, hclear index le_rfl, decide_eq_true rfl, Bool.and_true, Bool.false_or]

/-- The items that are sent are those that the flags leave. -/
theorem Marks.sent_eq (h : Marks message nulls index pairs) :
    sent nulls index pairs = (pairs.filter fun pair => !Encode.flagged message pair.2).map Prod.fst := by
  induction pairs generalizing index with
  | nil => rfl
  | cons pair pairs ih =>
    obtain ⟨item, flag⟩ := pair
    obtain ⟨hhere, hbehind⟩ := h
    rw [sent, hhere, ih hbehind]
    cases hflag : Encode.flagged message flag <;> simp [hflag]

theorem Marks.mem_sent (h : Marks message nulls index pairs) (item : Item) :
    item ∈ sent nulls index pairs ↔ ∃ pair ∈ pairs, Encode.flagged message pair.2 = false ∧ pair.1 = item := by
  rw [h.sent_eq]
  simp [and_assoc]

/-- What a flag becomes. -/
def flagValue (null : Bool) : List UInt8 := if null then [255, 255] else [0, 0]

theorem length_flagValue (null : Bool) : (flagValue null).length = 2 := by
  cases null <;> rfl

theorem Marks.setFlags_spec (h : Marks message nulls index pairs) {before : List UInt8}
    (hsize : ∀ pair ∈ pairs, pair.2.extent.size = 2)
    (hinside : ∀ pair ∈ pairs, pair.2.extent.finish ≤ before.length)
    (hapart : pairs.Pairwise fun a b => a.2.extent.Apart b.2.extent) :
    (Decode.setFlags nulls index pairs before).length = before.length ∧
      (∀ e : Extent, (∀ pair ∈ pairs, e.Apart pair.2.extent) →
        slice (Decode.setFlags nulls index pairs before) e = slice before e) ∧
      ∀ pair ∈ pairs, slice (Decode.setFlags nulls index pairs before) pair.2.extent =
        flagValue (Encode.flagged message pair.2) := by
  induction pairs generalizing index before with
  | nil => exact ⟨rfl, fun _ _ => rfl, fun pair hpair => absurd hpair List.not_mem_nil⟩
  | cons pair pairs ih =>
    obtain ⟨item, flag⟩ := pair
    obtain ⟨hhere, hbehind⟩ := h
    obtain ⟨hsizehere, hsizebehind⟩ := List.forall_mem_cons.1 hsize
    obtain ⟨hin, hinbehind⟩ := List.forall_mem_cons.1 hinside
    obtain ⟨hfirst, hothers⟩ := List.pairwise_cons.1 hapart
    have hextent : flag.extent = ⟨flag.dsc_address, (flagValue (isNull nulls index)).length⟩ := by
      rw [length_flagValue, ← hsizehere]
      rfl
    have hfits : flag.dsc_address + (flagValue (isNull nulls index)).length ≤ before.length := by
      rw [length_flagValue, ← hsizehere]
      exact hin
    have hlength := blit_length hfits
    have hflag := Buffer.slice_blit_self before (flagValue (isNull nulls index)) flag.dsc_address
    change (Decode.setFlags nulls (index + 1) pairs
      (blit before flag.dsc_address (flagValue (isNull nulls index)))).length = _ ∧ _
    obtain ⟨hsame, hkept, hset⟩ := ih hbehind hsizebehind
      (fun other hother => (hinbehind other hother).trans hlength.ge) hothers
    refine ⟨hsame.trans hlength, fun e he => ?_, fun other hother => ?_⟩
    · obtain ⟨hehere, hebehind⟩ := List.forall_mem_cons.1 he
      dsimp only at hehere
      rw [hextent] at hehere
      exact (hkept e hebehind).trans (slice_blit_apart hfits hehere)
    · rcases List.mem_cons.1 hother with rfl | hother
      · refine (hkept _ hfirst).trans ?_
        dsimp only
        rw [hextent, hflag, hhere]
      · exact hset other hother

end Nulls

/-! ## Messages that were sent -/

namespace rem_fmt

/-- The items are inside of the message and apart from each other. -/
structure LaidOut (format : rem_fmt) : Prop where
  inside : ∀ item ∈ format.fmt_desc, item.extent.finish ≤ format.fmt_length
  apart : format.fmt_desc.Pairwise fun a b => a.extent.Apart b.extent

/-- Nothing of one item and its flag is shared with another and its flag. -/
def Clear (a b : Item × Item) : Prop :=
  (a.1.extent.Apart b.1.extent ∧ a.2.extent.Apart b.2.extent) ∧
    a.1.extent.Apart b.2.extent ∧ b.1.extent.Apart a.2.extent

instance symmClear : Std.Symm Clear := ⟨fun _ _ h => ⟨⟨h.1.1.symm, h.1.2.symm⟩, h.2.2, h.2.1⟩⟩

/-- An item is apart from its own flag and from those of the others. -/
theorem item_apart_flag {pairs : List (Item × Item)} (hown : ∀ pair ∈ pairs, pair.1.extent.Apart pair.2.extent)
    (h : pairs.Pairwise Clear) {a b : Item × Item} (ha : a ∈ pairs) (hb : b ∈ pairs) :
    a.1.extent.Apart b.2.extent := by
  by_cases hab : a = b
  · rw [← hab]
    exact hown a ha
  · exact (h.forall ha hb hab).2.1

theorem length_pairs (format : rem_fmt) : format.pairs.length = format.fmt_desc.length / 2 := by
  unfold pairs
  fun_induction pairs.go format.fmt_desc with
  | case1 item flag items ih =>
    simp only [List.length_cons, ih]
    omega
  | case2 items h =>
    match items with
    | [] => rfl
    | [_] => simp
    | item :: flag :: items => exact absurd rfl (h item flag items)

theorem pairs_spec {items : List Item} (h : items.Pairwise fun a b => a.extent.Apart b.extent) :
    (∀ pair ∈ pairs.go items, pair.1 ∈ items ∧ pair.2 ∈ items ∧ pair.1.extent.Apart pair.2.extent) ∧
      (pairs.go items).Pairwise Clear := by
  fun_induction pairs.go items with
  | case1 item flag items ih =>
    obtain ⟨hitem, h⟩ := List.pairwise_cons.1 h
    obtain ⟨hflag, h⟩ := List.pairwise_cons.1 h
    obtain ⟨hmem, hclear⟩ := ih h
    refine ⟨List.forall_mem_cons.2 ⟨⟨by simp, by simp, hitem flag (by simp)⟩, fun pair hpair => ?_⟩,
      List.pairwise_cons.2 ⟨fun pair hpair => ?_, hclear⟩⟩
    · obtain ⟨hfirst, hsecond, hapart⟩ := hmem pair hpair
      exact ⟨by simp [hfirst], by simp [hsecond], hapart⟩
    · obtain ⟨hfirst, hsecond, -⟩ := hmem pair hpair
      exact ⟨⟨hitem _ (by simp [hfirst]), hflag _ hsecond⟩, hitem _ (by simp [hsecond]),
        (hflag _ hfirst).symm⟩
  | case2 items => exact ⟨fun pair hpair => absurd hpair List.not_mem_nil, .nil⟩

/-- There is a bit for every flag. -/
theorem marks_trackNulls (format : rem_fmt) (message : List UInt8) :
    (Encode.trackNulls message 0 format.pairs (List.replicate format.flagBytes 0)).length = format.flagBytes ∧
      Marks message (Encode.trackNulls message 0 format.pairs (List.replicate format.flagBytes 0)) 0
        format.pairs := by
  have hroom : 0 + format.pairs.length ≤ 8 * (List.replicate format.flagBytes (0 : UInt8)).length := by
    rw [List.length_replicate, length_pairs, flagBytes]
    omega
  obtain ⟨hlength, -, hmarks⟩ := @trackNulls_spec message _ 0 format.pairs hroom fun k _ => isNull_replicate _ k
  exact ⟨hlength.trans List.length_replicate, hmarks⟩

end rem_fmt

theorem Marks.sent_apart {message nulls : List UInt8} {index : ℕ} {pairs : List (Item × Item)}
    (h : Marks message nulls index pairs) (hclear : pairs.Pairwise rem_fmt.Clear) :
    (sent nulls index pairs).Pairwise fun a b => a.extent.Apart b.extent := by
  rw [h.sent_eq, List.pairwise_map]
  exact (hclear.filter _).imp fun h => h.1.1

section Messages
variable {format : rem_fmt} {message : List UInt8}

theorem blit_whole {buf src : List UInt8} (h : src.length = buf.length) : blit buf 0 src = src := by
  rw [blit, List.takeD_zero, List.nil_append, Nat.zero_add, h, List.drop_length, List.append_nil]

theorem slice_replicate {n : ℕ} {e : Extent} (h : e.finish ≤ n) :
    slice (List.replicate n (0 : UInt8)) e = List.replicate e.size 0 := by
  rw [Extent.finish] at h
  rw [slice, List.drop_replicate, List.take_replicate, min_eq_left (by omega)]

/-- Bytes that are sent as they are. -/
theorem xdr_opaque_memory {p before : List UInt8} {x_local : Bool} {length : ℕ} (hp : p.length = length)
    (hbefore : before.length = length) (xdrs : XDR) (tail : List UInt8) (hlocal : xdrs.x_local = x_local)
    (hrest : xdrs.rest = p ++ List.replicate (padding length) 0 ++ tail) :
    ( Decode.xdr_opaque xdrs 0 length).success = true ∧ ( Decode.xdr_opaque xdrs 0 length).xdrs.rest = tail ∧
      ( Decode.xdr_opaque xdrs 0 length).memory before = p ∧
      ( Decode.xdr_opaque xdrs 0 length).xdrs.x_local = x_local := by
  have hwhole : p.take length = p := List.take_of_length_le hp.le
  rw [← hwhole] at hrest
  have hleaves := leaves_xdr_opaque hp.ge xdrs tail hlocal hrest
  rw [hwhole] at hleaves
  refine ⟨hleaves.success, hleaves.rest, ?_, hleaves.x_local⟩
  rw [Decoded.memory, hleaves.stores]
  exact blit_whole (hp.trans hbefore.symm)

theorem flagged_of_slice {flag : Item} (hsize : flag.extent.size = 2) {null : Bool}
    (h : slice message flag.extent = flagValue null) : Encode.flagged message flag = null := by
  rw [slice, hsize] at h
  rw [Encode.flagged, ushort]
  change decide (LittleEndian.ofBytes ((message.drop flag.extent.start).take 2) ≠ 0) = null
  rw [h]
  cases null <;> decide

/-- A message that is sent is received, item by item or as it is. -/
theorem xdr_message_carries (hlaid : format.LaidOut) (hlength : message.length = format.fmt_length)
    (hvalid : ∀ item ∈ format.fmt_desc, item.Valid message) (symmetric x_local : Bool) :
    Carries (Encode.xdr_message symmetric format message) (Decode.xdr_message symmetric format) format.fmt_length
      x_local fun received => ∀ item ∈ format.fmt_desc,
        slice received (item.value message) = slice message (item.value message) := by
  cases symmetric with
  | true =>
    refine ⟨message ++ List.replicate (padding format.fmt_length) 0, fun xdrs _ => ?_,
      fun xdrs tail before hlocal hrest hbefore => ?_⟩
    · rw [Encode.xdr_message, if_pos rfl, Encode.xdr_opaque_eq, List.take_of_length_le hlength.le]
    · obtain ⟨hsuccess, hleft, hmemory, -⟩ := xdr_opaque_memory hlength hbefore xdrs tail hlocal hrest
      rw [Decode.xdr_message, if_pos rfl]
      dsimp only
      rw [hmemory]
      exact ⟨hsuccess, hleft, hlength, fun _ _ => rfl⟩
  | false =>
    obtain ⟨bytes, hencode, hdecode⟩ := xdr_items_bytes hvalid hlaid.apart x_local
    refine ⟨bytes, fun xdrs hlocal => hencode xdrs hlocal, fun xdrs tail before hlocal hrest hbefore => ?_⟩
    have hall := hdecode xdrs tail before hlocal hrest fun item hitem =>
      (hlaid.inside item hitem).trans hbefore.ge
    exact ⟨hall.success, hall.rest, hall.length.trans hbefore, hall.values⟩

/-- A number and a string with their flags. -/
def numberAndString : rem_fmt :=
  ⟨12, [⟨⟨.dtype_long, 4⟩, 0⟩, ⟨⟨.dtype_short, 2⟩, 4⟩, ⟨⟨.dtype_cstring, 4⟩, 6⟩, ⟨⟨.dtype_short, 2⟩, 10⟩]⟩

theorem numberAndString_laidOut : numberAndString.LaidOut :=
  ⟨by decide, by decide⟩

theorem numberAndString_carried :
    Carries (Encode.xdr_message false numberAndString [7, 0, 0, 0, 0, 0, 65, 66, 0, 0, 0, 0])
      (Decode.xdr_message false numberAndString) 12 false fun received => ∀ item ∈ numberAndString.fmt_desc,
        slice received (item.value [7, 0, 0, 0, 0, 0, 65, 66, 0, 0, 0, 0]) =
          slice [7, 0, 0, 0, 0, 0, 65, 66, 0, 0, 0, 0] (item.value [7, 0, 0, 0, 0, 0, 65, 66, 0, 0, 0, 0]) :=
  xdr_message_carries numberAndString_laidOut rfl (by decide) false false

theorem rem_fmt.LaidOut.pairs_clear (hlaid : format.LaidOut) :
    (∀ pair ∈ format.pairs, pair.1 ∈ format.fmt_desc ∧ pair.2 ∈ format.fmt_desc ∧
      pair.1.extent.Apart pair.2.extent) ∧ format.pairs.Pairwise rem_fmt.Clear :=
  rem_fmt.pairs_spec hlaid.apart

/-- The flags are set in a message of zeros. -/
theorem setFlags_zeros (hlaid : format.LaidOut) {nulls : List UInt8}
    (hsize : ∀ pair ∈ format.pairs, pair.2.extent.size = 2) (hmarks : Marks message nulls 0 format.pairs) :
    (Decode.setFlags nulls 0 format.pairs (List.replicate format.fmt_length 0)).length = format.fmt_length ∧
      (∀ e : Extent, (∀ pair ∈ format.pairs, e.Apart pair.2.extent) →
        slice (Decode.setFlags nulls 0 format.pairs (List.replicate format.fmt_length 0)) e =
          slice (List.replicate format.fmt_length 0) e) ∧
      ∀ pair ∈ format.pairs,
        slice (Decode.setFlags nulls 0 format.pairs (List.replicate format.fmt_length 0)) pair.2.extent =
          flagValue (Encode.flagged message pair.2) := by
  obtain ⟨hmem, hclear⟩ := hlaid.pairs_clear
  have hzeros : (List.replicate format.fmt_length (0 : UInt8)).length = format.fmt_length := List.length_replicate
  obtain ⟨hsame, hkept, hset⟩ := @Marks.setFlags_spec message nulls 0 format.pairs hmarks
    (List.replicate format.fmt_length 0) hsize
    (fun pair hpair => (hlaid.inside _ (hmem pair hpair).2.1).trans hzeros.ge) (hclear.imp fun h => h.1.2)
  exact ⟨hsame.trans hzeros, hkept, hset⟩

/-- Zeros in which the flags are set and then the items that are sent are stored. -/
theorem Recovered.packed (hlaid : format.LaidOut) {nulls tail : List UInt8} {r : Received}
    (hsize : ∀ pair ∈ format.pairs, pair.2.extent.size = 2) (hmarks : Marks message nulls 0 format.pairs)
    (h : Recovered message (Decode.setFlags nulls 0 format.pairs (List.replicate format.fmt_length 0)) tail
      (sent nulls 0 format.pairs) r) :
    r.message.length = format.fmt_length ∧ ∀ pair ∈ format.pairs,
      Encode.flagged r.message pair.2 = Encode.flagged message pair.2 ∧
      (Encode.flagged message pair.2 = false →
        slice r.message (pair.1.value message) = slice message (pair.1.value message)) ∧
      (Encode.flagged message pair.2 = true →
        slice r.message pair.1.extent = List.replicate pair.1.extent.size 0) := by
  obtain ⟨hmem, hclear⟩ := hlaid.pairs_clear
  have hown : ∀ pair ∈ format.pairs, pair.1.extent.Apart pair.2.extent := fun pair hpair => (hmem pair hpair).2.2
  obtain ⟨hsame, hkept, hset⟩ := setFlags_zeros hlaid hsize hmarks
  refine ⟨h.length.trans hsame, fun pair hpair => ⟨?_, fun hflag => ?_, fun hflag => ?_⟩⟩
  · apply flagged_of_slice (hsize pair hpair)
    rw [h.kept, hset pair hpair]
    intro item hitem
    obtain ⟨other, hother, -, rfl⟩ := (hmarks.mem_sent item).1 hitem
    exact (rem_fmt.item_apart_flag hown hclear hother hpair).symm
  · exact h.values _ ((hmarks.mem_sent _).2 ⟨pair, hpair, hflag, rfl⟩)
  · rw [h.kept, hkept _ fun other hother => rem_fmt.item_apart_flag hown hclear hpair hother,
      slice_replicate (hlaid.inside _ (hmem pair hpair).1)]
    intro item hitem
    obtain ⟨other, hother, hotherflag, rfl⟩ := (hmarks.mem_sent item).1 hitem
    have hne : pair ≠ other := by
      rintro rfl
      rw [hflag] at hotherflag
      cases hotherflag
    exact (hclear.forall hpair hother hne).1.1

/-- In a packed message the flags are received, the items that are not null, and zeros for the others. -/
theorem xdr_packed_message_carries (hlaid : format.LaidOut) (hlength : message.length = format.fmt_length)
    (hshort : ∀ pair ∈ format.pairs, pair.2.desc = ⟨.dtype_short, 2⟩)
    (hvalid : ∀ pair ∈ format.pairs, Encode.flagged message pair.2 = false → pair.1.Valid message)
    (symmetric x_local : Bool) :
    Carries (Encode.xdr_packed_message symmetric format message) (Decode.xdr_packed_message symmetric format)
      format.fmt_length x_local fun received => ∀ pair ∈ format.pairs,
        Encode.flagged received pair.2 = Encode.flagged message pair.2 ∧
        (Encode.flagged message pair.2 = false →
          slice received (pair.1.value message) = slice message (pair.1.value message)) ∧
        (symmetric = false → Encode.flagged message pair.2 = true →
          slice received pair.1.extent = List.replicate pair.1.extent.size 0) := by
  cases symmetric with
  | true =>
    refine ⟨message ++ List.replicate (padding format.fmt_length) 0, fun xdrs _ => ?_,
      fun xdrs tail before hlocal hrest hbefore => ?_⟩
    · rw [Encode.xdr_packed_message, if_pos rfl, Encode.xdr_opaque_eq, List.take_of_length_le hlength.le]
    · obtain ⟨hsuccess, hleft, hmemory, -⟩ := xdr_opaque_memory hlength hbefore xdrs tail hlocal hrest
      rw [Decode.xdr_packed_message, if_pos rfl]
      dsimp only
      rw [hmemory]
      exact ⟨hsuccess, hleft, hlength, fun _ _ => ⟨rfl, fun _ => rfl, fun h => by cases h⟩⟩
  | false =>
    obtain ⟨hmem, hclear⟩ := hlaid.pairs_clear
    have hsize (pair : Item × Item) (hpair : pair ∈ format.pairs) : pair.2.extent.size = 2 := by
      rw [Item.extent, hshort pair hpair]
      rfl
    obtain ⟨hnulls, hmarks⟩ := rem_fmt.marks_trackNulls format message
    generalize hmap : Encode.trackNulls message 0 format.pairs (List.replicate format.flagBytes 0) = nulls
      at hnulls hmarks
    have hsent : ∀ item ∈ sent nulls 0 format.pairs, item.Valid message ∧ item ∈ format.fmt_desc := by
      intro item hitem
      obtain ⟨pair, hpair, hflag, rfl⟩ := (hmarks.mem_sent item).1 hitem
      exact ⟨hvalid pair hpair hflag, (hmem pair hpair).1⟩
    obtain ⟨bytes, hencode, hdecode⟩ :=
      xdr_items_bytes (fun item hitem => (hsent item hitem).1) (hmarks.sent_apart hclear) x_local
    refine ⟨nulls ++ List.replicate (padding format.flagBytes) 0 ++ bytes, fun xdrs hlocal => ?_,
      fun xdrs tail before hlocal hrest _ => ?_⟩
    · rw [Encode.xdr_packed_message, if_neg (by simp)]
      dsimp only
      rw [hmap, Encode.xdr_opaque_eq, List.take_of_length_le hnulls.le]
      exact putbytes_bind_of fun after hafter => hencode after (hafter.trans hlocal)
    · rw [List.append_assoc] at hrest
      obtain ⟨hsuccess, hleft, hmemory, hlocal'⟩ :=
        xdr_opaque_memory hnulls List.length_replicate xdrs _ hlocal hrest
      have hall := hdecode _ tail (Decode.setFlags nulls 0 format.pairs (List.replicate format.fmt_length 0))
        hlocal' hleft fun item hitem => by
          rw [(setFlags_zeros hlaid hsize hmarks).1]
          exact hlaid.inside item (hsent item hitem).2
      obtain ⟨hlast, hpairs⟩ := hall.packed hlaid hsize hmarks
      rw [Decode.xdr_packed_message, if_neg (by simp)]
      dsimp only
      rw [hmemory, if_pos hsuccess]
      exact ⟨hall.success, hall.rest, hlast, fun pair hpair =>
        ⟨(hpairs pair hpair).1, (hpairs pair hpair).2.1, fun _ => (hpairs pair hpair).2.2⟩⟩

/-- The string is null. -/
theorem numberAndString_packed :
    Carries (Encode.xdr_packed_message false numberAndString [7, 0, 0, 0, 0, 0, 65, 66, 67, 68, 1, 0])
      (Decode.xdr_packed_message false numberAndString) 12 false fun received => ∀ pair ∈ numberAndString.pairs,
        Encode.flagged received pair.2 =
          Encode.flagged [7, 0, 0, 0, 0, 0, 65, 66, 67, 68, 1, 0] pair.2 ∧
        (Encode.flagged [7, 0, 0, 0, 0, 0, 65, 66, 67, 68, 1, 0] pair.2 = false →
          slice received (pair.1.value [7, 0, 0, 0, 0, 0, 65, 66, 67, 68, 1, 0]) =
            slice [7, 0, 0, 0, 0, 0, 65, 66, 67, 68, 1, 0]
              (pair.1.value [7, 0, 0, 0, 0, 0, 65, 66, 67, 68, 1, 0])) ∧
        (false = false → Encode.flagged [7, 0, 0, 0, 0, 0, 65, 66, 67, 68, 1, 0] pair.2 = true →
          slice received pair.1.extent = List.replicate pair.1.extent.size 0) :=
  xdr_packed_message_carries numberAndString_laidOut rfl (by decide) (by decide) false false

end Messages

end FirebirdCore.Xdr
