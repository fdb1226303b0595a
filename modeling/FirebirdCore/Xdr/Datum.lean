import FirebirdCore.Lib.LittleEndian
import FirebirdCore.Xdr.Stream

/-!
# Items on the wire

`xdr_datum` encodes and decodes one item of a message. Decoding a `dtype_cstring` takes the count from the
wire as it is.
-/
namespace FirebirdCore.Xdr

open Buffer (blit)
open LittleEndian (ofBytes toBytes ofBytes_toBytes ofBytes_lt length_toBytes)

inductive DType
  | dtype_dbkey | dtype_text | dtype_boolean | dtype_varying | dtype_cstring | dtype_short
  | dtype_sql_time | dtype_sql_date | dtype_long | dtype_real | dtype_double | dtype_timestamp
  | dtype_int64 | dtype_array | dtype_quad | dtype_blob
  deriving DecidableEq, Repr

structure dsc where
  dsc_dtype : DType
  dsc_length : UInt16
  deriving DecidableEq, Repr

/-- The `USHORT` in front. -/
def ushort (p : List UInt8) : ℕ := ofBytes (p.take 2)

/-- `(USHORT) (length - 2)`. -/
def varyRoom (length : ℕ) : ℕ := (length + (2 ^ 16 - 2)) % 2 ^ 16

def strlen (p : List UInt8) : ℕ := (p.takeWhile (· ≠ 0)).length

namespace Decode

def xdr_varying (xdrs : XDR) (length : ℕ) : Decoded :=
  let short := xdr_short xdrs 0
  let vary_length := ushort (short.memory [])
  let d := short.andThen fun xdrs => xdr_opaque xdrs 2 (min (varyRoom length) vary_length)
  if d.success = true ∧ vary_length + 2 < length then
    d.store (2 + vary_length) (List.replicate (length - 2 - vary_length) 0)
  else d

/-- The count is that of the wire. -/
def xdr_cstring (xdrs : XDR) : Decoded :=
  match xdrs.GETLONG with
  | none => .fail xdrs
  | some (l, xdrs) =>
      let n := ushort l
      let d := xdr_opaque xdrs 0 n
      if d.success then d.store n [0] else d

def xdr_datum (xdrs : XDR) (desc : dsc) : Decoded :=
  match desc.dsc_dtype with
  | .dtype_dbkey | .dtype_text | .dtype_boolean => xdr_opaque xdrs 0 desc.dsc_length.toNat
  | .dtype_varying => xdr_varying xdrs desc.dsc_length.toNat
  | .dtype_cstring => xdr_cstring xdrs
  | .dtype_short => xdr_short xdrs 0
  | .dtype_sql_time | .dtype_sql_date | .dtype_long => xdr_long xdrs 0
  | .dtype_real => xdr_float xdrs 0
  | .dtype_double => xdr_double xdrs 0
  | .dtype_timestamp => (xdr_long xdrs 0).andThen fun xdrs => xdr_long xdrs 4
  | .dtype_int64 => xdr_hyper xdrs 0
  | .dtype_array | .dtype_quad | .dtype_blob => xdr_quad xdrs 0

end Decode

namespace Encode

def xdr_varying (xdrs : Output) (p : List UInt8) (length : ℕ) : Option Output :=
  (xdr_short xdrs p).bind fun xdrs => xdr_opaque xdrs (p.drop 2) (min (varyRoom length) (ushort p))

/-- `(ULONG) (length - 1)` and the `USHORT` it goes to. -/
def xdr_cstring (xdrs : Output) (p : List UInt8) (length : ℕ) : Option Output :=
  let n := min (strlen p) ((length + (2 ^ 32 - 1)) % 2 ^ 32) % 2 ^ 16
  (xdr_short xdrs (toBytes 2 n)).bind fun xdrs => xdr_opaque xdrs p n

def xdr_datum (xdrs : Output) (desc : dsc) (p : List UInt8) : Option Output :=
  match desc.dsc_dtype with
  | .dtype_dbkey | .dtype_text | .dtype_boolean => xdr_opaque xdrs p desc.dsc_length.toNat
  | .dtype_varying => xdr_varying xdrs p desc.dsc_length.toNat
  | .dtype_cstring => xdr_cstring xdrs p desc.dsc_length.toNat
  | .dtype_short => xdr_short xdrs p
  | .dtype_sql_time | .dtype_sql_date | .dtype_long => xdr_long xdrs p
  | .dtype_real => xdr_float xdrs p
  | .dtype_double => xdr_double xdrs p
  | .dtype_timestamp => (xdr_long xdrs p).bind fun xdrs => xdr_long xdrs (p.drop 4)
  | .dtype_int64 => xdr_hyper xdrs p
  | .dtype_array | .dtype_quad | .dtype_blob => xdr_quad xdrs p

end Encode

/-! ## What is stored -/

namespace dsc

/-- The steps of decoding an item, with the number of bytes that must have been received for each and the
end of what it stores. `n` is the count of a `dtype_cstring`. -/
def steps (desc : dsc) (n : ℕ) : List (ℕ × ℕ) :=
  match desc.dsc_dtype with
  | .dtype_dbkey | .dtype_text | .dtype_boolean => []
  | .dtype_varying | .dtype_short => [(4, 2)]
  | .dtype_cstring => [(4 + n, n), (4 + (n + padding n), n + 1)]
  | .dtype_sql_time | .dtype_sql_date | .dtype_long | .dtype_real => [(4, 4)]
  | .dtype_double | .dtype_int64 => [(8, 8)]
  | .dtype_timestamp | .dtype_array | .dtype_quad | .dtype_blob => [(4, 4), (8, 8)]

/-- How many bytes of the memory are the value of an item. -/
def extent (desc : dsc) (p : List UInt8) : ℕ :=
  match desc.dsc_dtype with
  | .dtype_dbkey | .dtype_text | .dtype_boolean => desc.dsc_length.toNat
  | .dtype_varying => 2 + ushort p
  | .dtype_cstring => strlen p + 1
  | .dtype_short => 2
  | .dtype_sql_time | .dtype_sql_date | .dtype_long | .dtype_real => 4
  | .dtype_double | .dtype_int64 | .dtype_timestamp | .dtype_array | .dtype_quad | .dtype_blob => 8

/-- The memory holds a value of the descriptor. -/
def Valid (desc : dsc) (p : List UInt8) : Prop :=
  desc.extent p ≤ desc.dsc_length.toNat ∧ desc.dsc_length.toNat ≤ p.length

instance (desc : dsc) (p : List UInt8) : Decidable (desc.Valid p) := inferInstanceAs (Decidable (_ ∧ _))

end dsc

/-- The count that a `dtype_cstring` has on the wire. -/
def XDR.count (xdrs : XDR) : ℕ := ushort (ntohl xdrs.x_local (xdrs.rest.take 4))

/-- Whatever has been received fits. -/
def Fits (desc : dsc) (xdrs : XDR) : Prop :=
  ∀ step ∈ desc.steps xdrs.count, step.1 ≤ xdrs.x_handy → step.2 ≤ desc.dsc_length.toNat

/-- Decoding stores inside of the item and reads inside of the stream. -/
def StaysInside (desc : dsc) (xdrs : XDR) : Prop :=
  (Decode.xdr_datum xdrs desc).Inside desc.dsc_length.toNat ∧ xdrs.Ahead (Decode.xdr_datum xdrs desc).xdrs

/-- What is encoded is decoded, with all of its bytes and no others. -/
def RoundTrips (desc : dsc) (x_local : Bool) : Prop :=
  ∀ p, desc.Valid p → ∃ bytes,
    (∀ xdrs : Output, xdrs.x_local = x_local → Encode.xdr_datum xdrs desc p = xdrs.putbytes bytes) ∧
    ∀ (xdrs : XDR) (tail : List UInt8), xdrs.x_local = x_local → xdrs.rest = bytes ++ tail →
      (Decode.xdr_datum xdrs desc).success = true ∧ (Decode.xdr_datum xdrs desc).xdrs.rest = tail ∧
        ∀ before, p.take (desc.extent p) <+: (Decode.xdr_datum xdrs desc).memory before

/-! ## Decoding whatever comes -/

section Received
variable {xdrs : XDR} {length : ℕ}

theorem varyRoom_of_le (h : 2 ≤ length) (hlt : length < 2 ^ 16) : varyRoom length = length - 2 := by
  unfold varyRoom
  omega

theorem inside_ite_store {c : Prop} [Decidable c] {d : Decoded} {offset : ℕ} {bytes : List UInt8} :
    (if c then d.store offset bytes else d).Inside length ↔
      d.Inside length ∧ (c → offset + bytes.length ≤ length) := by
  split_ifs with h
  · rw [Decoded.inside_store]
    simp [h]
  · simp [h]

theorem inside_xdr_varying (hlt : length < 2 ^ 16) : (Decode.xdr_varying xdrs length).Inside length ↔
    (4 ≤ xdrs.x_handy → 2 ≤ length) := by
  rw [Decode.xdr_varying, inside_ite_store, Decoded.inside_andThen, Decode.inside_xdr_short,
    Decode.inside_xdr_opaque, List.length_replicate, Nat.zero_add]
  generalize ushort ((Decode.xdr_short xdrs 0).memory []) = vary_length
  constructor
  · intro h
    exact h.1.1
  · intro h
    refine ⟨⟨h, fun hshort hle => ?_⟩, fun hlast => by omega⟩
    rw [Decode.xdr_short, Decode.receiveLong_success] at hshort
    rw [varyRoom_of_le (h hshort) hlt]
    have hroom := h hshort
    omega

theorem inside_xdr_cstring : (Decode.xdr_cstring xdrs).Inside length ↔
    (4 + xdrs.count ≤ xdrs.x_handy → xdrs.count ≤ length) ∧
      (4 + (xdrs.count + padding xdrs.count) ≤ xdrs.x_handy → xdrs.count + 1 ≤ length) := by
  rw [Decode.xdr_cstring]
  by_cases h : 4 ≤ xdrs.x_handy
  · rw [XDR.GETLONG_of_le h]
    dsimp only
    rw [inside_ite_store, Decode.inside_xdr_opaque, Decode.xdr_opaque_success, XDR.skip_x_handy,
      List.length_singleton, Nat.zero_add]
    change (xdrs.count ≤ xdrs.x_handy - 4 → xdrs.count ≤ length) ∧
      (xdrs.count + padding xdrs.count ≤ xdrs.x_handy - 4 → xdrs.count + 1 ≤ length) ↔ _
    constructor
    · intro hboth
      exact ⟨fun hle => hboth.1 (by omega), fun hle => hboth.2 (by omega)⟩
    · intro hboth
      exact ⟨fun hle => hboth.1 (by omega), fun hle => hboth.2 (by omega)⟩
  · rw [XDR.GETLONG_of_lt (Nat.lt_of_not_le h)]
    simp only [Decoded.inside_fail, true_iff]
    exact ⟨fun hle => by omega, fun hle => by omega⟩

theorem inside_xdr_datum (desc : dsc) (xdrs : XDR) :
    (Decode.xdr_datum xdrs desc).Inside desc.dsc_length.toNat ↔ Fits desc xdrs := by
  have hlt : desc.dsc_length.toNat < 2 ^ 16 := desc.dsc_length.toNat_lt
  unfold Decode.xdr_datum Fits dsc.steps
  cases desc.dsc_dtype <;>
    simp only [List.not_mem_nil, false_implies, implies_true, List.mem_cons, or_false, forall_eq,
      forall_eq_or_imp]
  case dtype_dbkey | dtype_text | dtype_boolean => simp [ Decode.inside_xdr_opaque]
  case dtype_varying => exact inside_xdr_varying hlt
  case dtype_cstring => exact inside_xdr_cstring
  case dtype_short => simp [Decode.inside_xdr_short]
  case dtype_sql_time | dtype_sql_date | dtype_long => simp [Decode.inside_xdr_long]
  case dtype_real =>
    have h := @Decode.inside_xdr_long xdrs 0 desc.dsc_length.toNat
    simpa [Decode.xdr_long, Decode.xdr_float] using h
  case dtype_double => simp [Decode.xdr_double, Decode.inside_receivePair]
  case dtype_int64 => simp [Decode.xdr_hyper, Decode.inside_receivePair]
  case dtype_timestamp =>
    have h := @Decode.inside_longs xdrs 0 desc.dsc_length.toNat
    simpa using h
  case dtype_array | dtype_quad | dtype_blob =>
    have h := @Decode.inside_longs xdrs 0 desc.dsc_length.toNat
    simpa [Decode.xdr_quad] using h

theorem ahead_store {d : Decoded} (h : xdrs.Ahead d.xdrs) (offset : ℕ) (bytes : List UInt8) :
    xdrs.Ahead (d.store offset bytes).xdrs := h

theorem ahead_xdr_short (xdrs : XDR) (offset : ℕ) : xdrs.Ahead (Decode.xdr_short xdrs offset).xdrs :=
  Decode.ahead_receiveLong xdrs _

theorem ahead_counted (xdrs : XDR) (n : ℕ) :
    xdrs.Ahead ((Decode.xdr_short xdrs 0).andThen fun xdrs => Decode.xdr_opaque xdrs 2 n).xdrs :=
  Decode.ahead_andThen (ahead_xdr_short xdrs 0) fun after => Decode.ahead_xdr_opaque after 2 n

theorem ahead_xdr_varying (xdrs : XDR) (length : ℕ) : xdrs.Ahead (Decode.xdr_varying xdrs length).xdrs := by
  have h := ahead_counted xdrs (min (varyRoom length) (ushort ((Decode.xdr_short xdrs 0).memory [])))
  unfold Decode.xdr_varying
  dsimp only
  split
  · rw [Decoded.store]
    exact h
  · exact h

theorem ahead_xdr_cstring (xdrs : XDR) : xdrs.Ahead (Decode.xdr_cstring xdrs).xdrs := by
  rw [Decode.xdr_cstring]
  by_cases h : 4 ≤ xdrs.x_handy
  · rw [XDR.GETLONG_of_le h]
    have hahead := (xdrs.ahead_skip 4).trans ( Decode.ahead_xdr_opaque (xdrs.skip 4) 0 xdrs.count)
    dsimp only
    split_ifs
    · exact ahead_store hahead _ _
    · exact hahead
  · rw [XDR.GETLONG_of_lt (Nat.lt_of_not_le h)]
    exact .refl xdrs

theorem ahead_xdr_datum (desc : dsc) (xdrs : XDR) : xdrs.Ahead (Decode.xdr_datum xdrs desc).xdrs := by
  unfold Decode.xdr_datum
  cases desc.dsc_dtype <;> dsimp only
  case dtype_dbkey | dtype_text | dtype_boolean => exact Decode.ahead_xdr_opaque _ _ _
  case dtype_varying => exact ahead_xdr_varying _ _
  case dtype_cstring => exact ahead_xdr_cstring _
  case dtype_short | dtype_sql_time | dtype_sql_date | dtype_long | dtype_real =>
    exact Decode.ahead_receiveLong _ _
  case dtype_double | dtype_int64 => exact Decode.ahead_receivePair _ _
  case dtype_timestamp | dtype_array | dtype_quad | dtype_blob =>
    exact Decode.ahead_andThen (Decode.ahead_receiveLong _ _) fun _ => Decode.ahead_receiveLong _ _

end Received

/-! ## Decoding what was encoded -/

section RoundTrip
variable {p : List UInt8} {x_local : Bool} {length : ℕ}

theorem front_blit {front buf : List UInt8} (h : front <+: buf) (src : List UInt8) :
    front ++ src <+: blit buf front.length src := by
  have hblit := Buffer.blit_front h le_rfl src
  rwa [List.take_length] at hblit

/-- A store at the front is at the front of the memory. -/
theorem front_memory (src buf : List UInt8) : src <+: blit buf 0 src :=
  front_blit List.nil_prefix src

theorem take_two (p : List UInt8) {l : List UInt8} (h : 2 ≤ p.length) : (p.take 2 ++ l).take 2 = p.take 2 :=
  List.take_left' (List.length_take_of_le h)

theorem extendShort_take (h : 2 ≤ p.length) : (Encode.extendShort p).take 2 = p.take 2 := take_two p h

theorem extendShort_length (h : 2 ≤ p.length) : (Encode.extendShort p).length = 4 := by
  rw [Encode.extendShort, List.length_append, List.length_take_of_le h, List.length_replicate]

theorem ushort_extendShort (h : 2 ≤ p.length) : ushort (Encode.extendShort p) = ushort p := by
  rw [ushort, ushort, extendShort_take h]

theorem ushort_toBytes {n : ℕ} (h : n < 2 ^ 16) : ushort (toBytes 2 n) = n := by
  rw [ushort, List.take_of_length_le (length_toBytes 2 n).le, ofBytes_toBytes h]

theorem PUTLONG_xdr_opaque (xdrs : Output) (l p : List UInt8) (len : ℕ) :
    ((xdrs.PUTLONG l).bind fun xdrs => Encode.xdr_opaque xdrs p len) =
      xdrs.putbytes (ntohl xdrs.x_local l ++ (p.take len ++ List.replicate (padding len) 0)) := by
  rw [← Output.putbytes_bind, Output.PUTLONG]
  congr 1
  funext xdrs
  exact Encode.xdr_opaque_eq xdrs p len

theorem xdr_cstring_eq (h : strlen p + 1 ≤ length) (hlt : length < 2 ^ 16) (xdrs : Output) :
    Encode.xdr_cstring xdrs p length = xdrs.putbytes
      (ntohl xdrs.x_local (Encode.extendShort (toBytes 2 (strlen p))) ++
        (p.take (strlen p) ++ List.replicate (padding (strlen p)) 0)) := by
  have hn : min (strlen p) ((length + (2 ^ 32 - 1)) % 2 ^ 32) % 2 ^ 16 = strlen p := by omega
  rw [Encode.xdr_cstring, hn, Encode.xdr_short, PUTLONG_xdr_opaque]

/-- The count is the one that was sent. -/
theorem count_eq {n : ℕ} (hn : n < 2 ^ 16) {xdrs : XDR} (hlocal : xdrs.x_local = x_local) {behind : List UInt8}
    (hrest : xdrs.rest = ntohl x_local (Encode.extendShort (toBytes 2 n)) ++ behind) : xdrs.count = n := by
  have htwo : 2 ≤ (toBytes 2 n).length := (length_toBytes 2 _).ge
  have hlong : (ntohl x_local (Encode.extendShort (toBytes 2 n))).length = 4 := by
    rw [ntohl_length, extendShort_length htwo]
  rw [XDR.count, hrest, List.take_left' hlong, hlocal, ntohl_ntohl, ushort_extendShort htwo, ushort_toBytes hn]

/-- The byte behind the string is zero. -/
theorem take_strlen (h : strlen p < p.length) : p.take (strlen p + 1) = p.take (strlen p) ++ [0] := by
  induction p with
  | nil => cases h
  | cons c p ih =>
    by_cases hzero : c = 0
    · simp [strlen, hzero]
    · have hcons : strlen (c :: p) = strlen p + 1 := by simp [strlen, hzero]
      rw [hcons, List.length_cons] at h
      rw [hcons, List.take_succ_cons, List.take_succ_cons, ih (by omega), List.cons_append]

/-- One store that holds the value. -/
theorem prefix_one {d : Decoded} {value : List UInt8} (h : d.stores = [⟨0, value⟩]) (before : List UInt8) :
    value <+: d.memory before := by
  rw [Decoded.memory, h]
  exact front_memory value before

/-- Two stores that hold the value together. -/
theorem prefix_two {d : Decoded} {first second : List UInt8}
    (h : d.stores = [⟨0, first⟩, ⟨first.length, second⟩]) (before : List UInt8) :
    first ++ second <+: d.memory before := by
  rw [Decoded.memory, h]
  exact front_blit (front_memory first before) second

theorem take_eight (p : List UInt8) : p.take 8 = p.take 4 ++ (p.drop 4).take 4 := by
  rw [← List.take_add]

theorem length_upper (h : 8 ≤ p.length) : ((p.drop 4).take 4).length = 4 := by
  rw [List.length_take, List.length_drop]
  omega

theorem leaves_xdr_opaque (hle : length ≤ p.length) (xdrs : XDR) (tail : List UInt8) (hlocal : xdrs.x_local = x_local)
    (hrest : xdrs.rest = p.take length ++ List.replicate (padding length) 0 ++ tail) :
    Decode.Leaves ( Decode.xdr_opaque xdrs 0 length) x_local [⟨0, p.take length⟩] tail := by
  have hlength : (p.take length).length = length := List.length_take_of_le hle
  have h := Decode.reads_xdr_opaque x_local 0 (p.take length) xdrs tail hlocal
  rw [hlength] at h
  exact h hrest

theorem leaves_xdr_varying (hv : 2 + ushort p ≤ length) (hp : length ≤ p.length) (hlt : length < 2 ^ 16)
    (xdrs : XDR) (tail : List UInt8) (hlocal : xdrs.x_local = x_local)
    (hrest : xdrs.rest = ntohl x_local (Encode.extendShort p) ++ ((p.drop 2).take (ushort p) ++
      List.replicate (padding (ushort p)) 0) ++ tail) :
    (Decode.xdr_varying xdrs length).success = true ∧ (Decode.xdr_varying xdrs length).xdrs.rest = tail ∧
      ∀ before, p.take (2 + ushort p) <+: (Decode.xdr_varying xdrs length).memory before := by
  have hstring : ((p.drop 2).take (ushort p)).length = ushort p := by
    rw [List.length_take, List.length_drop]
    omega
  have hshort := @Decode.reads_receiveLong x_local (Encode.extendShort p) (extendShort_length (by omega))
    fun l => [⟨0, l.take 2⟩]
  have hopaque := Decode.reads_xdr_opaque x_local 2 ((p.drop 2).take (ushort p))
  rw [hstring] at hopaque
  have hfirst := hshort xdrs _ hlocal (hrest.trans (List.append_assoc _ _ _))
  have hboth := hshort.andThen hopaque xdrs tail hlocal hrest
  rw [extendShort_take (by omega)] at hfirst hboth
  have hcount : ushort ((Decode.xdr_short xdrs 0).memory []) = ushort p := by
    rw [Decoded.memory, Decode.xdr_short, hfirst.stores, ushort, ushort]
    congr 1
    have hfront := front_memory (p.take 2) []
    have htwo : (p.take 2).length = 2 := List.length_take_of_le (by omega)
    rw [List.prefix_iff_eq_take, htwo] at hfront
    exact hfront.symm
  have hroom : min (varyRoom length) (ushort p) = ushort p := by
    rw [varyRoom_of_le (by omega) hlt]
    omega
  have hvalue : p.take (2 + ushort p) = p.take 2 ++ (p.drop 2).take (ushort p) := List.take_add
  have hmemory (before : List UInt8) : p.take (2 + ushort p) <+:
      ((Decode.xdr_short xdrs 0).andThen fun xdrs => Decode.xdr_opaque xdrs 2 (ushort p)).memory before := by
    have htwo : (p.take 2).length = 2 := List.length_take_of_le (by omega)
    rw [hvalue]
    apply prefix_two
    rw [htwo]
    exact hboth.stores
  have hlength : (p.take (2 + ushort p)).length = 2 + ushort p := List.length_take_of_le (by omega)
  rw [Decode.xdr_varying, hcount, hroom]
  split_ifs with hmore
  · refine ⟨hboth.success, hboth.rest, fun before => ?_⟩
    have hfront := front_blit (hmemory before) (List.replicate (length - 2 - ushort p) 0)
    rw [hlength] at hfront
    rw [Decoded.memory_store]
    exact (List.prefix_append _ _).trans hfront
  · exact ⟨hboth.success, hboth.rest, hmemory⟩

theorem leaves_xdr_cstring (hn : strlen p < p.length) (hlt : strlen p < 2 ^ 16) (xdrs : XDR)
    (tail : List UInt8) (hlocal : xdrs.x_local = x_local)
    (hrest : xdrs.rest = ntohl x_local (Encode.extendShort (toBytes 2 (strlen p))) ++ (p.take (strlen p) ++
      List.replicate (padding (strlen p)) 0) ++ tail) :
    (Decode.xdr_cstring xdrs).success = true ∧ (Decode.xdr_cstring xdrs).xdrs.rest = tail ∧
      ∀ before, p.take (strlen p + 1) <+: (Decode.xdr_cstring xdrs).memory before := by
  have htwo : 2 ≤ (toBytes 2 (strlen p)).length := (length_toBytes 2 _).ge
  have hlong : (ntohl x_local (Encode.extendShort (toBytes 2 (strlen p)))).length = 4 := by
    rw [ntohl_length, extendShort_length htwo]
  have hle : 4 ≤ xdrs.x_handy := by
    rw [← XDR.length_rest, hrest, List.length_append, List.length_append]
    omega
  rw [List.append_assoc] at hrest
  have hcount : ushort (ntohl xdrs.x_local (xdrs.rest.take 4)) = strlen p := count_eq hlt hlocal hrest
  have hskip : (xdrs.skip 4).rest = p.take (strlen p) ++ List.replicate (padding (strlen p)) 0 ++ tail := by
    rw [XDR.skip_rest, hrest, List.drop_left' hlong]
  have hleaves := leaves_xdr_opaque hn.le (xdrs.skip 4) tail hlocal hskip
  have hlength : (p.take (strlen p)).length = strlen p := List.length_take_of_le hn.le
  rw [Decode.xdr_cstring, XDR.GETLONG_of_le hle]
  dsimp only
  rw [hcount, if_pos hleaves.success]
  refine ⟨hleaves.success, hleaves.rest, fun before => ?_⟩
  have hfront := front_blit (prefix_one hleaves.stores before) [0]
  rw [hlength] at hfront
  rw [take_strlen hn, Decoded.memory_store]
  exact hfront

/-- What is recovered where one store holds the value. -/
theorem recovers_one {d : Decoded} {tail value : List UInt8}
    (h : Decode.Leaves d x_local [⟨0, value⟩] tail) :
    d.success = true ∧ d.xdrs.rest = tail ∧ ∀ before, value <+: d.memory before :=
  ⟨h.success, h.rest, prefix_one h.stores⟩

theorem recovers_long (hp : 4 ≤ p.length) (xdrs : XDR) (tail : List UInt8) (hlocal : xdrs.x_local = x_local)
    (hrest : xdrs.rest = ntohl x_local (p.take 4) ++ tail) :
    (Decode.xdr_long xdrs 0).success = true ∧ (Decode.xdr_long xdrs 0).xdrs.rest = tail ∧
      ∀ before, p.take 4 <+: (Decode.xdr_long xdrs 0).memory before :=
  recovers_one (Decode.reads_receiveLong (List.length_take_of_le hp) (fun l => [⟨0, l⟩]) xdrs tail hlocal hrest)

theorem recovers_pair (hp : 8 ≤ p.length) (xdrs : XDR) (tail : List UInt8) (hlocal : xdrs.x_local = x_local)
    (hrest : xdrs.rest = ntohl x_local ((p.drop 4).take 4) ++ ntohl x_local (p.take 4) ++ tail) :
    (Decode.receivePair xdrs 0).success = true ∧ (Decode.receivePair xdrs 0).xdrs.rest = tail ∧
      ∀ before, p.take 8 <+: (Decode.receivePair xdrs 0).memory before := by
  rw [take_eight]
  exact recovers_one (Decode.reads_receivePair 0 (List.length_take_of_le (by omega)) (length_upper hp) xdrs tail
    hlocal hrest)

theorem recovers_longs (hp : 8 ≤ p.length) (xdrs : XDR) (tail : List UInt8) (hlocal : xdrs.x_local = x_local)
    (hrest : xdrs.rest = ntohl x_local (p.take 4) ++ ntohl x_local ((p.drop 4).take 4) ++ tail) :
    ((Decode.xdr_long xdrs 0).andThen fun xdrs => Decode.xdr_long xdrs 4).success = true ∧
      ((Decode.xdr_long xdrs 0).andThen fun xdrs => Decode.xdr_long xdrs 4).xdrs.rest = tail ∧
        ∀ before, p.take 8 <+:
          ((Decode.xdr_long xdrs 0).andThen fun xdrs => Decode.xdr_long xdrs 4).memory before := by
  have hfour : (p.take 4).length = 4 := List.length_take_of_le (by omega)
  have hlower := @Decode.reads_receiveLong x_local _ hfour fun l => [⟨0, l⟩]
  have hupper := @Decode.reads_receiveLong x_local _ (length_upper hp) fun l => [⟨4, l⟩]
  have hboth := hlower.andThen hupper xdrs tail hlocal hrest
  refine ⟨hboth.success, hboth.rest, fun before => ?_⟩
  rw [take_eight]
  apply prefix_two
  rw [hfour]
  exact hboth.stores

theorem roundTrips (desc : dsc) (x_local : Bool) : RoundTrips desc x_local := by
  have hlt : desc.dsc_length.toNat < 2 ^ 16 := desc.dsc_length.toNat_lt
  intro p hvalid
  unfold dsc.Valid dsc.extent at hvalid
  unfold Encode.xdr_datum Decode.xdr_datum dsc.extent
  cases hdtype : desc.dsc_dtype <;> rw [hdtype] at hvalid <;> obtain ⟨hextent, hp⟩ := hvalid <;>
    dsimp only at hextent ⊢
  case dtype_dbkey | dtype_text | dtype_boolean =>
    refine ⟨_, fun xdrs _ => Encode.xdr_opaque_eq xdrs p _, fun xdrs tail hlocal hrest => ?_⟩
    exact recovers_one ( leaves_xdr_opaque hp xdrs tail hlocal hrest)
  case dtype_varying =>
    have hroom : min (varyRoom desc.dsc_length.toNat) (ushort p) = ushort p := by
      rw [varyRoom_of_le (by omega) hlt]
      omega
    refine ⟨_, fun xdrs hlocal => ?_, leaves_xdr_varying hextent hp hlt⟩
    rw [Encode.xdr_varying, Encode.xdr_short, hroom, PUTLONG_xdr_opaque, hlocal]
  case dtype_cstring =>
    refine ⟨_, fun xdrs hlocal => ?_, leaves_xdr_cstring (by omega) (by omega)⟩
    rw [xdr_cstring_eq hextent hlt, hlocal]
  case dtype_short =>
    refine ⟨ntohl x_local (Encode.extendShort p), fun xdrs hlocal => ?_, fun xdrs tail hlocal hrest => ?_⟩
    · rw [Encode.xdr_short, Output.PUTLONG, hlocal]
    · have h := Decode.reads_receiveLong (extendShort_length (by omega)) (fun l => [⟨0, l.take 2⟩]) xdrs tail
        hlocal hrest
      rw [extendShort_take (by omega)] at h
      exact recovers_one h
  case dtype_sql_time | dtype_sql_date | dtype_long =>
    refine ⟨ntohl x_local (p.take 4), fun xdrs hlocal => ?_, recovers_long (by omega)⟩
    rw [Encode.xdr_long, Output.PUTLONG, hlocal]
  case dtype_real =>
    refine ⟨ntohl x_local (p.take 4), fun xdrs hlocal => ?_, recovers_long (by omega)⟩
    rw [Encode.xdr_float, Output.PUTLONG, hlocal]
  case dtype_double =>
    refine ⟨_, fun xdrs hlocal => ?_, recovers_pair (by omega)⟩
    rw [Encode.xdr_double, Encode.putPair, Output.PUTLONG_bind, hlocal]
  case dtype_int64 =>
    refine ⟨_, fun xdrs hlocal => ?_, recovers_pair (by omega)⟩
    rw [Encode.xdr_hyper, Encode.putPair, Output.PUTLONG_bind, hlocal]
  case dtype_timestamp =>
    refine ⟨_, fun xdrs hlocal => ?_, recovers_longs (by omega)⟩
    exact (Output.PUTLONG_bind xdrs _ _).trans (by rw [hlocal])
  case dtype_array | dtype_quad | dtype_blob =>
    refine ⟨_, fun xdrs hlocal => ?_, recovers_longs (by omega)⟩
    rw [Encode.xdr_quad, Output.PUTLONG_bind, hlocal]

end RoundTrip

/-- Items are received without a store outside of them just where the counts fit; what was encoded is
always received. -/
theorem xdr_datum_safe_iff (desc : dsc) (xdrs : XDR) :
    StaysInside desc xdrs ∧ RoundTrips desc xdrs.x_local ↔ Fits desc xdrs := by
  rw [StaysInside, inside_xdr_datum]
  constructor
  · intro h
    exact h.1.1
  · intro hfits
    exact ⟨⟨hfits, ahead_xdr_datum desc xdrs⟩, roundTrips desc xdrs.x_local⟩

/-- A `dtype_cstring` of four bytes, and a count of eight on the wire. -/
theorem xdr_datum_overruns :
    ¬ ∀ (desc : dsc) (xdrs : XDR), StaysInside desc xdrs ∧ RoundTrips desc xdrs.x_local := by
  intro h
  have hinside := (h ⟨.dtype_cstring, 4⟩
    ⟨false, [0, 0, 0, 8, 65, 66, 67, 68, 69, 70, 71, 72], 0, 12, by decide⟩).1.1
  revert hinside
  decide +kernel

end FirebirdCore.Xdr
