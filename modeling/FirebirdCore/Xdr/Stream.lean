import FirebirdCore.Lib.Buffer

/-!
# Streams of external data

An `XDR` is a stream in memory, read from a place on. Longwords are lists of four bytes as the host has
them, which is little endian; on the wire they are reversed unless the transmission is local.
-/
namespace FirebirdCore.Xdr

open Buffer (blit)

/-- A stream that is read. What is left of it lies inside of the bytes. -/
structure XDR where
  x_local : Bool
  x_base : List UInt8
  x_private : ℕ
  x_handy : ℕ
  inside : x_private + x_handy ≤ x_base.length

/-- A stream that is written, with room for so many bytes more. -/
structure Output where
  x_local : Bool
  written : List UInt8
  x_handy : ℕ
  deriving DecidableEq, Repr

/-- `ntohl` and `htonl`, where they are called. -/
def ntohl (x_local : Bool) (l : List UInt8) : List UInt8 := if x_local then l else l.reverse

@[simp] theorem ntohl_length (x_local : Bool) (l : List UInt8) : (ntohl x_local l).length = l.length := by
  unfold ntohl
  split_ifs <;> simp

@[simp] theorem ntohl_ntohl (x_local : Bool) (l : List UInt8) : ntohl x_local (ntohl x_local l) = l := by
  unfold ntohl
  split_ifs <;> simp

/-- `(4 - len) & 3`. -/
def padding (len : ℕ) : ℕ := (4 - len % 4) % 4

/-! ## Reading -/

namespace XDR

/-- What is left. -/
def rest (xdrs : XDR) : List UInt8 := (xdrs.x_base.drop xdrs.x_private).take xdrs.x_handy

def skip (xdrs : XDR) (count : ℕ) : XDR where
  x_local := xdrs.x_local
  x_base := xdrs.x_base
  x_private := xdrs.x_private + min count xdrs.x_handy
  x_handy := xdrs.x_handy - count
  inside := by
    have h := xdrs.inside
    omega

def getbytes (xdrs : XDR) (count : ℕ) : Option (List UInt8 × XDR) :=
  if xdrs.x_handy < count then none
  else some ((xdrs.x_base.drop xdrs.x_private).take count, xdrs.skip count)

def GETLONG (xdrs : XDR) : Option (List UInt8 × XDR) :=
  (xdrs.getbytes 4).map fun r => (ntohl xdrs.x_local r.1, r.2)

theorem length_rest (xdrs : XDR) : xdrs.rest.length = xdrs.x_handy := by
  have h := xdrs.inside
  rw [rest, List.length_take, List.length_drop]
  omega

@[simp] theorem skip_x_handy (xdrs : XDR) (count : ℕ) :
    (xdrs.skip count).x_handy = xdrs.x_handy - count := rfl

@[simp] theorem skip_x_local (xdrs : XDR) (count : ℕ) : (xdrs.skip count).x_local = xdrs.x_local := rfl

@[simp] theorem skip_rest (xdrs : XDR) (count : ℕ) : (xdrs.skip count).rest = xdrs.rest.drop count := by
  change ((xdrs.x_base.drop (xdrs.x_private + min count xdrs.x_handy)).take (xdrs.x_handy - count)) =
    ((xdrs.x_base.drop xdrs.x_private).take xdrs.x_handy).drop count
  rw [List.drop_take, List.drop_drop]
  by_cases h : count ≤ xdrs.x_handy
  · rw [min_eq_left h]
  · rw [Nat.sub_eq_zero_of_le (by omega), List.take_zero, List.take_zero]

theorem getbytes_of_lt {xdrs : XDR} {count : ℕ} (h : xdrs.x_handy < count) : xdrs.getbytes count = none :=
  if_pos h

theorem getbytes_of_le {xdrs : XDR} {count : ℕ} (h : count ≤ xdrs.x_handy) :
    xdrs.getbytes count = some (xdrs.rest.take count, xdrs.skip count) := by
  rw [getbytes, if_neg (by omega), rest, List.take_take, min_eq_left h]

theorem GETLONG_of_lt {xdrs : XDR} (h : xdrs.x_handy < 4) : xdrs.GETLONG = none := by
  rw [GETLONG, getbytes_of_lt h]
  rfl

theorem GETLONG_of_le {xdrs : XDR} (h : 4 ≤ xdrs.x_handy) :
    xdrs.GETLONG = some (ntohl xdrs.x_local (xdrs.rest.take 4), xdrs.skip 4) := by
  rw [GETLONG, getbytes_of_le h]
  rfl

/-- One stream is ahead of another: what was taken lies between them. -/
structure Ahead (xdrs after : XDR) : Prop where
  x_local : after.x_local = xdrs.x_local
  x_base : after.x_base = xdrs.x_base
  from_private : xdrs.x_private ≤ after.x_private
  accounted : after.x_private + after.x_handy = xdrs.x_private + xdrs.x_handy

theorem Ahead.refl (xdrs : XDR) : Ahead xdrs xdrs := ⟨rfl, rfl, le_rfl, rfl⟩

theorem Ahead.trans {a b c : XDR} (hab : Ahead a b) (hbc : Ahead b c) : Ahead a c where
  x_local := hbc.x_local.trans hab.x_local
  x_base := hbc.x_base.trans hab.x_base
  from_private := hab.from_private.trans hbc.from_private
  accounted := hbc.accounted.trans hab.accounted

theorem ahead_skip (xdrs : XDR) (count : ℕ) : Ahead xdrs (xdrs.skip count) where
  x_local := rfl
  x_base := rfl
  from_private := Nat.le_add_right _ _
  accounted := by
    simp only [skip]
    omega

end XDR

/-- Bytes that are stored at an offset of the item. -/
structure Store where
  offset : ℕ
  bytes : List UInt8
  deriving DecidableEq, Repr

/-- What decoding returns, what it has stored, and the stream behind it. -/
structure Decoded where
  success : Bool
  stores : List Store
  xdrs : XDR

namespace Decoded

/-- The item's memory with everything stored. -/
def memory (d : Decoded) (before : List UInt8) : List UInt8 :=
  d.stores.foldl (fun m s => blit m s.offset s.bytes) before

/-- Everything is stored in front of `length`. -/
def Inside (length : ℕ) (d : Decoded) : Prop := ∀ s ∈ d.stores, s.offset + s.bytes.length ≤ length

instance (length : ℕ) (d : Decoded) : Decidable (Inside length d) :=
  inferInstanceAs (Decidable (∀ s ∈ d.stores, s.offset + s.bytes.length ≤ length))

def fail (xdrs : XDR) : Decoded := ⟨false, [], xdrs⟩

/-- The second step is not made where the first one fails. -/
def andThen (d : Decoded) (f : XDR → Decoded) : Decoded :=
  if d.success then ⟨(f d.xdrs).success, d.stores ++ (f d.xdrs).stores, (f d.xdrs).xdrs⟩ else d

def store (d : Decoded) (offset : ℕ) (bytes : List UInt8) : Decoded :=
  { d with stores := d.stores ++ [⟨offset, bytes⟩] }

theorem andThen_of_success {d : Decoded} (h : d.success = true) (f : XDR → Decoded) :
    d.andThen f = ⟨(f d.xdrs).success, d.stores ++ (f d.xdrs).stores, (f d.xdrs).xdrs⟩ := if_pos h

theorem andThen_of_failure {d : Decoded} (h : d.success = false) (f : XDR → Decoded) : d.andThen f = d := by
  rw [andThen, h]
  rfl

@[simp] theorem inside_fail (length : ℕ) (xdrs : XDR) : Inside length (fail xdrs) := by
  simp [Inside, fail]

theorem inside_andThen {length : ℕ} {d : Decoded} {f : XDR → Decoded} :
    Inside length (d.andThen f) ↔ Inside length d ∧ (d.success = true → Inside length (f d.xdrs)) := by
  cases h : d.success with
  | false =>
    rw [andThen_of_failure h]
    simp
  | true =>
    rw [andThen_of_success h]
    simp only [Inside, List.mem_append, forall_const]
    constructor
    · intro hall
      exact ⟨fun s hs => hall s (.inl hs), fun s hs => hall s (.inr hs)⟩
    · intro hall s hs
      exact hs.elim (hall.1 s) (hall.2 s)

theorem inside_store {length : ℕ} {d : Decoded} {offset : ℕ} {bytes : List UInt8} :
    Inside length (d.store offset bytes) ↔ Inside length d ∧ offset + bytes.length ≤ length := by
  simp only [Inside, store, List.mem_append, List.mem_singleton]
  constructor
  · intro hall
    exact ⟨fun s hs => hall s (.inl hs), hall _ (.inr rfl)⟩
  · rintro ⟨hall, hlast⟩ s (hs | rfl)
    · exact hall s hs
    · exact hlast

@[simp] theorem memory_store (d : Decoded) (offset : ℕ) (bytes before : List UInt8) :
    (d.store offset bytes).memory before = blit (d.memory before) offset bytes := by
  simp [memory, store]

end Decoded

namespace Decode

/-- Some bytes are taken and a part of them is stored. -/
def receive (xdrs : XDR) (count : ℕ) (keep : List UInt8 → List Store) : Decoded :=
  match xdrs.getbytes count with
  | none => .fail xdrs
  | some (bytes, xdrs) => ⟨true, keep bytes, xdrs⟩

/-- A longword is taken and a part of it is stored. -/
def receiveLong (xdrs : XDR) (keep : List UInt8 → List Store) : Decoded :=
  match xdrs.GETLONG with
  | none => .fail xdrs
  | some (l, xdrs) => ⟨true, keep l, xdrs⟩

def xdr_opaque (xdrs : XDR) (offset len : ℕ) : Decoded :=
  (receive xdrs len fun bytes => [⟨offset, bytes⟩]).andThen fun xdrs =>
    if padding len ≠ 0 then receive xdrs (padding len) fun _ => [] else ⟨true, [], xdrs⟩

def xdr_long (xdrs : XDR) (offset : ℕ) : Decoded := receiveLong xdrs fun l => [⟨offset, l⟩]

def xdr_float (xdrs : XDR) (offset : ℕ) : Decoded := receiveLong xdrs fun l => [⟨offset, l⟩]

def xdr_short (xdrs : XDR) (offset : ℕ) : Decoded := receiveLong xdrs fun l => [⟨offset, l.take 2⟩]

/-- Two longwords are taken, the upper one first, and stored together. -/
def receivePair (xdrs : XDR) (offset : ℕ) : Decoded :=
  match xdrs.GETLONG with
  | none => .fail xdrs
  | some (upper, xdrs) => receiveLong xdrs fun lower => [⟨offset, lower ++ upper⟩]

def xdr_hyper (xdrs : XDR) (offset : ℕ) : Decoded := receivePair xdrs offset

/-- `FB_LONG_DOUBLE_FIRST` is 1. -/
def xdr_double (xdrs : XDR) (offset : ℕ) : Decoded := receivePair xdrs offset

def xdr_quad (xdrs : XDR) (offset : ℕ) : Decoded :=
  (xdr_long xdrs offset).andThen fun xdrs => xdr_long xdrs (offset + 4)

section Stored
variable {xdrs : XDR} {count offset length : ℕ}

theorem receive_of_lt (h : xdrs.x_handy < count) (keep : List UInt8 → List Store) :
    receive xdrs count keep = .fail xdrs := by
  rw [receive, XDR.getbytes_of_lt h]

theorem receive_of_le (h : count ≤ xdrs.x_handy) (keep : List UInt8 → List Store) :
    receive xdrs count keep = ⟨true, keep (xdrs.rest.take count), xdrs.skip count⟩ := by
  rw [receive, XDR.getbytes_of_le h]

theorem receiveLong_of_lt (h : xdrs.x_handy < 4) (keep : List UInt8 → List Store) :
    receiveLong xdrs keep = .fail xdrs := by
  rw [receiveLong, XDR.GETLONG_of_lt h]

theorem receiveLong_of_le (h : 4 ≤ xdrs.x_handy) (keep : List UInt8 → List Store) :
    receiveLong xdrs keep = ⟨true, keep (ntohl xdrs.x_local (xdrs.rest.take 4)), xdrs.skip 4⟩ := by
  rw [receiveLong, XDR.GETLONG_of_le h]

theorem receive_success (xdrs : XDR) (count : ℕ) (keep : List UInt8 → List Store) :
    (receive xdrs count keep).success = true ↔ count ≤ xdrs.x_handy := by
  by_cases h : count ≤ xdrs.x_handy
  · simp [receive_of_le h, h]
  · simp [receive_of_lt (Nat.lt_of_not_le h), h, Decoded.fail]

theorem receiveLong_success (xdrs : XDR) (keep : List UInt8 → List Store) :
    (receiveLong xdrs keep).success = true ↔ 4 ≤ xdrs.x_handy := by
  by_cases h : 4 ≤ xdrs.x_handy
  · simp [receiveLong_of_le h, h]
  · simp [receiveLong_of_lt (Nat.lt_of_not_le h), h, Decoded.fail]

theorem receiveLong_x_handy (h : 4 ≤ xdrs.x_handy) (keep : List UInt8 → List Store) :
    (receiveLong xdrs keep).xdrs.x_handy = xdrs.x_handy - 4 := by
  rw [receiveLong_of_le h]
  rfl

theorem xdr_opaque_success (xdrs : XDR) (offset len : ℕ) :
    ( xdr_opaque xdrs offset len).success = true ↔ len + padding len ≤ xdrs.x_handy := by
  rw [ xdr_opaque]
  by_cases h : len ≤ xdrs.x_handy
  · rw [receive_of_le h, Decoded.andThen_of_success rfl]
    dsimp only
    split_ifs with hpad
    · rw [receive_success, XDR.skip_x_handy]
      omega
    · simp only [true_iff]
      omega
  · rw [receive_of_lt (Nat.lt_of_not_le h), Decoded.andThen_of_failure rfl]
    simp only [Decoded.fail, Bool.false_eq_true, false_iff]
    omega

theorem inside_xdr_opaque (len : ℕ) : ( xdr_opaque xdrs offset len).Inside length ↔
    (len ≤ xdrs.x_handy → offset + len ≤ length) := by
  rw [ xdr_opaque, Decoded.inside_andThen]
  by_cases h : len ≤ xdrs.x_handy
  · have hlength : (xdrs.rest.take len).length = len := by
      rw [List.length_take, XDR.length_rest, min_eq_left h]
    rw [receive_of_le h]
    simp only [Decoded.Inside, List.mem_singleton, forall_eq, hlength, h, forall_const, and_iff_left_iff_imp]
    intro hfits s hs
    split_ifs at hs with hpad
    · rw [receive] at hs
      split at hs <;> cases hs
    · cases hs
  · rw [receive_of_lt (Nat.lt_of_not_le h)]
    simp [h, Decoded.fail, Decoded.Inside]

theorem inside_xdr_long : (xdr_long xdrs offset).Inside length ↔
    (4 ≤ xdrs.x_handy → offset + 4 ≤ length) := by
  rw [xdr_long]
  by_cases h : 4 ≤ xdrs.x_handy
  · rw [receiveLong_of_le h]
    simp [Decoded.Inside, XDR.length_rest, h]
  · simp [receiveLong_of_lt (Nat.lt_of_not_le h), h]

theorem inside_xdr_short : (xdr_short xdrs offset).Inside length ↔
    (4 ≤ xdrs.x_handy → offset + 2 ≤ length) := by
  rw [xdr_short]
  by_cases h : 4 ≤ xdrs.x_handy
  · rw [receiveLong_of_le h]
    simp [Decoded.Inside, XDR.length_rest, h]
  · simp [receiveLong_of_lt (Nat.lt_of_not_le h), h]

theorem inside_receivePair : (receivePair xdrs offset).Inside length ↔
    (8 ≤ xdrs.x_handy → offset + 8 ≤ length) := by
  rw [receivePair]
  by_cases h : 4 ≤ xdrs.x_handy
  · rw [XDR.GETLONG_of_le h]
    dsimp only
    by_cases h8 : 8 ≤ xdrs.x_handy
    · rw [receiveLong_of_le (by rw [XDR.skip_x_handy]; omega)]
      have hlower : min 4 (xdrs.x_handy - 4) = 4 := by omega
      simp [Decoded.Inside, XDR.length_rest, h, h8, hlower]
    · rw [receiveLong_of_lt (by rw [XDR.skip_x_handy]; omega)]
      simp [h8]
  · rw [XDR.GETLONG_of_lt (Nat.lt_of_not_le h)]
    simp [show ¬ 8 ≤ xdrs.x_handy by omega]

/-- Two longwords are stored one after the other. -/
theorem inside_longs : ((xdr_long xdrs offset).andThen fun xdrs => xdr_long xdrs (offset + 4)).Inside length ↔
    (4 ≤ xdrs.x_handy → offset + 4 ≤ length) ∧ (8 ≤ xdrs.x_handy → offset + 8 ≤ length) := by
  rw [Decoded.inside_andThen, inside_xdr_long, xdr_long, receiveLong_success]
  by_cases h : 4 ≤ xdrs.x_handy
  · rw [inside_xdr_long, receiveLong_x_handy h]
    simp only [h, forall_const]
    constructor
    · intro hboth
      exact ⟨hboth.1, fun h8 => hboth.2 (by omega)⟩
    · intro hboth
      exact ⟨hboth.1, fun h8 => hboth.2 (by omega)⟩
  · simp [h, show ¬ 8 ≤ xdrs.x_handy by omega]

end Stored

section Taken
variable {f g : XDR → Decoded}

theorem ahead_receive (xdrs : XDR) (count : ℕ) (keep : List UInt8 → List Store) :
    xdrs.Ahead (receive xdrs count keep).xdrs := by
  by_cases h : count ≤ xdrs.x_handy
  · rw [receive_of_le h]
    exact xdrs.ahead_skip count
  · rw [receive_of_lt (Nat.lt_of_not_le h)]
    exact .refl xdrs

theorem ahead_receiveLong (xdrs : XDR) (keep : List UInt8 → List Store) :
    xdrs.Ahead (receiveLong xdrs keep).xdrs := by
  by_cases h : 4 ≤ xdrs.x_handy
  · rw [receiveLong_of_le h]
    exact xdrs.ahead_skip 4
  · rw [receiveLong_of_lt (Nat.lt_of_not_le h)]
    exact .refl xdrs

theorem ahead_andThen {xdrs : XDR} {d : Decoded} (hd : xdrs.Ahead d.xdrs)
    (hf : ∀ xdrs : XDR, xdrs.Ahead (f xdrs).xdrs) : xdrs.Ahead (d.andThen f).xdrs := by
  cases h : d.success with
  | false =>
    rw [Decoded.andThen_of_failure h]
    exact hd
  | true =>
    rw [Decoded.andThen_of_success h]
    exact hd.trans (hf d.xdrs)

theorem ahead_xdr_opaque (xdrs : XDR) (offset len : ℕ) : xdrs.Ahead ( xdr_opaque xdrs offset len).xdrs := by
  rw [ xdr_opaque]
  apply ahead_andThen (ahead_receive _ _ _)
  intro xdrs
  split_ifs
  · exact ahead_receive _ _ _
  · exact .refl xdrs

theorem ahead_receivePair (xdrs : XDR) (offset : ℕ) : xdrs.Ahead (receivePair xdrs offset).xdrs := by
  rw [receivePair]
  by_cases h : 4 ≤ xdrs.x_handy
  · rw [XDR.GETLONG_of_le h]
    exact (xdrs.ahead_skip 4).trans (ahead_receiveLong _ _)
  · rw [XDR.GETLONG_of_lt (Nat.lt_of_not_le h)]
    exact .refl xdrs

end Taken

/-- Decoding has made the stores and left the tail. -/
structure Leaves (d : Decoded) (x_local : Bool) (stores : List Store) (tail : List UInt8) : Prop where
  success : d.success = true
  stores : d.stores = stores
  rest : d.xdrs.rest = tail
  x_local : d.xdrs.x_local = x_local

/-- From these bytes and whatever is behind them, the stores are made and what is behind is left. -/
def Reads (f : XDR → Decoded) (x_local : Bool) (bytes : List UInt8) (stores : List Store) : Prop :=
  ∀ (xdrs : XDR) (tail : List UInt8), xdrs.x_local = x_local → xdrs.rest = bytes ++ tail →
    Leaves (f xdrs) x_local stores tail

section Reads
variable {f g : XDR → Decoded} {x_local : Bool} {bytes bytes' l l' : List UInt8}
variable {stores stores' : List Store}

theorem Reads.andThen (hf : Reads f x_local bytes stores) (hg : Reads g x_local bytes' stores') :
    Reads (fun xdrs => (f xdrs).andThen g) x_local (bytes ++ bytes') (stores ++ stores') := by
  intro xdrs tail hlocal hrest
  have hfirst := hf xdrs (bytes' ++ tail) hlocal (by rw [hrest, List.append_assoc])
  have hsecond := hg (f xdrs).xdrs tail hfirst.x_local hfirst.rest
  change Leaves ((f xdrs).andThen g) _ _ _
  rw [Decoded.andThen_of_success hfirst.success, hfirst.stores, hsecond.stores]
  exact ⟨hsecond.success, rfl, hsecond.rest, hsecond.x_local⟩

theorem reads_receive (hlength : bytes.length = count) (keep : List UInt8 → List Store) :
    Reads (fun xdrs => receive xdrs count keep) x_local bytes (keep bytes) := by
  intro xdrs tail hlocal hrest
  have hle : count ≤ xdrs.x_handy := by
    rw [← XDR.length_rest, hrest, List.length_append]
    omega
  change Leaves (receive xdrs count keep) _ _ _
  rw [receive_of_le hle, hrest, List.take_left' hlength]
  exact ⟨rfl, rfl, by rw [XDR.skip_rest, hrest, List.drop_left' hlength], hlocal⟩

theorem reads_receiveLong (hlength : l.length = 4) (keep : List UInt8 → List Store) :
    Reads (fun xdrs => receiveLong xdrs keep) x_local (ntohl x_local l) (keep l) := by
  intro xdrs tail hlocal hrest
  have hlength' : (ntohl x_local l).length = 4 := by rw [ntohl_length, hlength]
  have hle : 4 ≤ xdrs.x_handy := by
    rw [← XDR.length_rest, hrest, List.length_append]
    omega
  change Leaves (receiveLong xdrs keep) _ _ _
  rw [receiveLong_of_le hle, hrest, List.take_left' hlength', hlocal, ntohl_ntohl]
  exact ⟨rfl, rfl, by rw [XDR.skip_rest, hrest, List.drop_left' hlength'], hlocal⟩

theorem reads_xdr_opaque (x_local : Bool) (offset : ℕ) (bytes : List UInt8) :
    Reads (fun xdrs => xdr_opaque xdrs offset bytes.length) x_local
      (bytes ++ List.replicate (padding bytes.length) 0) [⟨offset, bytes⟩] := by
  have hfirst : Reads (fun xdrs => receive xdrs bytes.length fun bytes => [⟨offset, bytes⟩]) x_local bytes
      [⟨offset, bytes⟩] := reads_receive rfl fun bytes => [⟨offset, bytes⟩]
  have hpad : Reads (fun xdrs => if padding bytes.length ≠ 0 then
      receive xdrs (padding bytes.length) fun _ => [] else ⟨true, [], xdrs⟩) x_local
      (List.replicate (padding bytes.length) 0) [] := by
    intro xdrs tail hlocal hrest
    dsimp only
    split_ifs with hzero
    · exact reads_receive List.length_replicate (fun _ => []) xdrs tail hlocal hrest
    · rw [not_not.1 hzero] at hrest
      exact ⟨rfl, rfl, hrest, hlocal⟩
  exact hfirst.andThen hpad

theorem reads_receivePair (offset : ℕ) (hl : l.length = 4) (hl' : l'.length = 4) :
    Reads (fun xdrs => receivePair xdrs offset) x_local (ntohl x_local l' ++ ntohl x_local l)
      [⟨offset, l ++ l'⟩] := by
  intro xdrs tail hlocal hrest
  have hlength : (ntohl x_local l').length = 4 := by rw [ntohl_length, hl']
  have hle : 4 ≤ xdrs.x_handy := by
    rw [← XDR.length_rest, hrest, List.length_append, List.length_append]
    omega
  rw [List.append_assoc] at hrest
  have hupper : ntohl xdrs.x_local (xdrs.rest.take 4) = l' := by
    rw [hrest, List.take_left' hlength, hlocal, ntohl_ntohl]
  have hlower := reads_receiveLong hl (fun lower => [⟨offset, lower ++ l'⟩]) (xdrs.skip 4) tail hlocal (by
    rw [XDR.skip_rest, hrest, List.drop_left' hlength])
  change Leaves (receivePair xdrs offset) _ _ _
  rw [receivePair, XDR.GETLONG_of_le hle, hupper]
  exact hlower

end Reads

end Decode

/-! ## Writing -/

namespace Output

def putbytes (xdrs : Output) (bytes : List UInt8) : Option Output :=
  if xdrs.x_handy < bytes.length then none
  else some { xdrs with written := xdrs.written ++ bytes, x_handy := xdrs.x_handy - bytes.length }

def PUTLONG (xdrs : Output) (l : List UInt8) : Option Output := xdrs.putbytes (ntohl xdrs.x_local l)

/-- Bytes that are put one after the other are put together. -/
theorem putbytes_bind (xdrs : Output) (first second : List UInt8) :
    ((xdrs.putbytes first).bind fun xdrs => xdrs.putbytes second) = xdrs.putbytes (first ++ second) := by
  unfold putbytes
  rw [List.length_append]
  by_cases hfirst : xdrs.x_handy < first.length
  · rw [if_pos hfirst, if_pos (by omega)]
    rfl
  · rw [if_neg hfirst, Option.bind_some]
    dsimp only
    by_cases hsecond : xdrs.x_handy < first.length + second.length
    · rw [if_pos (by omega), if_pos hsecond]
    · rw [if_neg (by omega), if_neg hsecond, List.append_assoc, Nat.sub_sub]

theorem PUTLONG_bind (xdrs : Output) (l second : List UInt8) :
    ((xdrs.PUTLONG l).bind fun xdrs => xdrs.PUTLONG second) =
      xdrs.putbytes (ntohl xdrs.x_local l ++ ntohl xdrs.x_local second) := by
  rw [← putbytes_bind, PUTLONG]
  cases h : xdrs.putbytes (ntohl xdrs.x_local l) with
  | none => rfl
  | some after =>
    have hlocal : after.x_local = xdrs.x_local := by
      unfold putbytes at h
      split_ifs at h
      cases h
      rfl
    rw [Option.bind_some, Option.bind_some, PUTLONG, hlocal]

end Output

namespace Encode

/-- The bytes of a longword for the shortword at the front. -/
def extendShort (p : List UInt8) : List UInt8 :=
  p.take 2 ++ List.replicate 2 (if 128 ≤ (p.getD 1 0).toNat then 255 else 0)

def xdr_opaque (xdrs : Output) (p : List UInt8) (len : ℕ) : Option Output :=
  (xdrs.putbytes (p.take len)).bind fun xdrs =>
    if padding len ≠ 0 then xdrs.putbytes (List.replicate (padding len) 0) else some xdrs

def xdr_short (xdrs : Output) (p : List UInt8) : Option Output := xdrs.PUTLONG (extendShort p)

def xdr_long (xdrs : Output) (p : List UInt8) : Option Output := xdrs.PUTLONG (p.take 4)

def xdr_float (xdrs : Output) (p : List UInt8) : Option Output := xdrs.PUTLONG (p.take 4)

/-- The upper longword is put first. -/
def putPair (xdrs : Output) (p : List UInt8) : Option Output :=
  (xdrs.PUTLONG ((p.drop 4).take 4)).bind fun xdrs => xdrs.PUTLONG (p.take 4)

def xdr_hyper (xdrs : Output) (p : List UInt8) : Option Output := putPair xdrs p

def xdr_double (xdrs : Output) (p : List UInt8) : Option Output := putPair xdrs p

def xdr_quad (xdrs : Output) (p : List UInt8) : Option Output :=
  (xdrs.PUTLONG (p.take 4)).bind fun xdrs => xdrs.PUTLONG ((p.drop 4).take 4)

theorem xdr_opaque_eq (xdrs : Output) (p : List UInt8) (len : ℕ) :
    xdr_opaque xdrs p len = xdrs.putbytes (p.take len ++ List.replicate (padding len) 0) := by
  rw [← Output.putbytes_bind, xdr_opaque]
  congr 1
  funext xdrs
  split_ifs with h
  · rfl
  · rw [not_not.1 h]
    simp [Output.putbytes]

end Encode

end FirebirdCore.Xdr
