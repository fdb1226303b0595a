import FirebirdCore.Pag.HeaderPage

/-!
# What `add_clump` does to the clumps

A chain of header pages holds clumps page by page. The search for a clump moves from page to page, but
the end offset of the first page stays in use, so a clump that is taken from a later page leaves both
pages wrong.
-/
namespace FirebirdCore.Pag
open FirebirdCore.Buffer

/-! ## Clumps of a page -/

structure Clump where
  type : UInt8
  entry : List UInt8
  type_ne : type ≠ HDR_end
  length_lt : entry.length < 256

def Clump.bytes (c : Clump) : List UInt8 := clump c.type c.entry

def clumpBytes (clumps : List Clump) : List UInt8 := clumps.flatMap Clump.bytes

@[simp] theorem clumpBytes_nil : clumpBytes [] = [] := rfl

@[simp] theorem clumpBytes_cons (c : Clump) (clumps : List Clump) :
    clumpBytes (c :: clumps) = c.bytes ++ clumpBytes clumps := rfl

@[simp] theorem clumpBytes_append (clumps more : List Clump) :
    clumpBytes (clumps ++ more) = clumpBytes clumps ++ clumpBytes more :=
  List.flatMap_append ..

@[simp] theorem Clump.length_bytes (c : Clump) : c.bytes.length = 2 + c.entry.length := by
  simp only [Clump.bytes, clump, List.length_cons]
  omega

theorem Clump.toNat_length (c : Clump) : (UInt8.ofNat c.entry.length).toNat = c.entry.length := by
  rw [UInt8.toNat_ofNat', Nat.mod_eq_of_lt c.length_lt]

theorem Clump.bytes_append (c : Clump) (tail : List UInt8) :
    c.bytes ++ tail = c.type :: UInt8.ofNat c.entry.length :: (c.entry ++ tail) := rfl

theorem Clump.eq_of_bytes {c c' : Clump} {tail tail' : List UInt8}
    (h : c.bytes ++ tail = c'.bytes ++ tail') : c = c' ∧ tail = tail' := by
  rw [Clump.bytes_append, Clump.bytes_append, List.cons.injEq, List.cons.injEq] at h
  obtain ⟨htype, hlength, hrest⟩ := h
  have hlength : c.entry.length = c'.entry.length := by
    rw [← c.toNat_length, ← c'.toNat_length, hlength]
  obtain ⟨hentry, htail⟩ := List.append_inj hrest hlength
  refine ⟨?_, htail⟩
  cases c
  cases c'
  simp only at htype hentry
  subst htype hentry
  rfl

/-- The clumps in front of `HDR_end` can be read back. -/
theorem clumpBytes_inj {clumps clumps' : List Clump} {rest rest' : List UInt8}
    (h : clumpBytes clumps ++ HDR_end :: rest = clumpBytes clumps' ++ HDR_end :: rest') :
    clumps = clumps' := by
  induction clumps generalizing clumps' with
  | nil =>
    cases clumps' with
    | nil => rfl
    | cons c' clumps' =>
      rw [clumpBytes_cons, List.append_assoc, Clump.bytes_append] at h
      exact absurd (List.cons.inj h).1.symm c'.type_ne
  | cons c clumps ih =>
    cases clumps' with
    | nil =>
      rw [clumpBytes_cons, List.append_assoc, Clump.bytes_append] at h
      exact absurd (List.cons.inj h).1 c.type_ne
    | cons c' clumps' =>
      rw [clumpBytes_cons, clumpBytes_cons, List.append_assoc, List.append_assoc] at h
      obtain ⟨rfl, hrest⟩ := Clump.eq_of_bytes h
      rw [ih hrest]

/-- The header page holds the clumps, and `hdr_end` is their end. -/
structure HeaderPage.Holds (dbb : Database) (header : HeaderPage) (clumps : List Clump) : Prop where
  end_eq : header.hdr_end = HDR_SIZE + (clumpBytes clumps).length
  data : ∃ rest, header.hdr_data = clumpBytes clumps ++ HDR_end :: rest
  size : HDR_SIZE + header.hdr_data.length = dbb.dbb_page_size

theorem HeaderPage.Holds.unique {dbb : Database} {header : HeaderPage} {clumps clumps' : List Clump}
    (h : header.Holds dbb clumps) (h' : header.Holds dbb clumps') : clumps = clumps' := by
  obtain ⟨rest, hdata⟩ := h.data
  obtain ⟨rest', hdata'⟩ := h'.data
  exact clumpBytes_inj (hdata ▸ hdata')

/-! ## Looking for a clump -/

def NoType (type : UInt8) (clumps : List Clump) : Prop := ∀ c ∈ clumps, c.type ≠ type

/-- Where the last clump of the type is. -/
def lastPosition (type : UInt8) : List Clump → ℕ → Option ℕ → Option ℕ
  | [], _, q => q
  | c :: clumps, p, q =>
      lastPosition type clumps (p + (2 + c.entry.length)) (if c.type = type then some p else q)

theorem lastPosition_of_noType {type : UInt8} {clumps : List Clump} (h : NoType type clumps) (p : ℕ)
    (q : Option ℕ) : lastPosition type clumps p q = q := by
  induction clumps generalizing p q with
  | nil => rfl
  | cons c clumps ih =>
    obtain ⟨hc, h⟩ := List.forall_mem_cons.1 h
    rw [lastPosition, if_neg hc, ih h]

theorem lastPosition_last {type : UInt8} {front back : List Clump} {old : Clump}
    (hold : old.type = type) (hback : NoType type back) (p : ℕ) (q : Option ℕ) :
    lastPosition type (front ++ old :: back) p q = some (p + (clumpBytes front).length) := by
  induction front generalizing p q with
  | nil => rw [List.nil_append, lastPosition, if_pos hold, lastPosition_of_noType hback]; rfl
  | cons c front ih =>
    rw [List.cons_append, lastPosition, ih, clumpBytes_cons, List.length_append, c.length_bytes,
      add_assoc]

theorem scan_spec (type : UInt8) (clumps : List Clump) (rest : List UInt8) {fuel : ℕ}
    (hfuel : clumps.length < fuel) (p : ℕ) (q : Option ℕ) :
    scan type fuel (clumpBytes clumps ++ HDR_end :: rest) p q =
      .ok (lastPosition type clumps p q, p + (clumpBytes clumps).length) := by
  induction clumps generalizing fuel p q with
  | nil =>
    obtain ⟨fuel, rfl⟩ := Nat.exists_eq_succ_of_ne_zero (by omega : fuel ≠ 0)
    simp [scan, lastPosition]
  | cons c clumps ih =>
    obtain ⟨fuel, rfl⟩ := Nat.exists_eq_succ_of_ne_zero (by omega : fuel ≠ 0)
    rw [List.length_cons] at hfuel
    rw [clumpBytes_cons, List.append_assoc, Clump.bytes_append]
    unfold scan
    simp only [c.type_ne, if_false, c.toNat_length]
    rw [List.drop_left, ih (by omega), lastPosition, List.length_append, c.length_bytes]
    congr 2
    · rw [add_assoc]
    · omega

theorem length_le_length_clumpBytes (clumps : List Clump) :
    clumps.length ≤ (clumpBytes clumps).length := by
  induction clumps with
  | nil => rfl
  | cons c clumps ih =>
    rw [clumpBytes_cons, List.length_append, c.length_bytes, List.length_cons]
    omega

section

variable {dbb : Database} {header : HeaderPage} {clumps front back : List Clump} {type : UInt8}
  {old c : Clump}

theorem HeaderPage.Holds.scan (h : header.Holds dbb clumps) (type : UInt8) :
    Pag.scan type (header.hdr_data.length + 1) header.hdr_data 0 none =
      .ok (lastPosition type clumps 0 none, (clumpBytes clumps).length) := by
  obtain ⟨rest, hdata⟩ := h.data
  have hlength := length_le_length_clumpBytes clumps
  have hfuel : clumps.length < header.hdr_data.length + 1 := by
    rw [hdata, List.length_append]
    omega
  have hscan := scan_spec type clumps rest hfuel 0 none
  rw [← hdata, zero_add] at hscan
  exact hscan

/-! ## Changing a page -/

/-- There is room for the clump and `HDR_end` behind those of the page. -/
def HasRoom (dbb : Database) (c : Clump) (clumps : List Clump) : Prop :=
  HDR_SIZE + (clumpBytes clumps).length + (2 + c.entry.length) < dbb.dbb_page_size

instance (dbb : Database) (c : Clump) (clumps : List Clump) : Decidable (HasRoom dbb c clumps) :=
  inferInstanceAs (Decidable (_ < _))

theorem HeaderPage.Holds.hasRoom_iff (h : header.Holds dbb clumps) (c : Clump) :
    (dbb.dbb_page_size : ℤ) - header.hdr_end > 2 + c.entry.length ↔ HasRoom dbb c clumps := by
  rw [h.end_eq, HasRoom]
  omega

theorem HeaderPage.Holds.put (h : header.Holds dbb clumps) (hroom : HasRoom dbb c clumps) :
    ∃ header', header.put c.type c.entry = .ok header' ∧ header'.Holds dbb (clumps ++ [c]) ∧
      header'.hdr_next_page = header.hdr_next_page := by
  obtain ⟨rest, hdata⟩ := h.data
  have hsize := h.size
  unfold HasRoom at hroom
  have hlength : 2 + c.entry.length ≤ rest.length := by
    rw [hdata, List.length_append, List.length_cons] at hsize
    omega
  unfold HeaderPage.put
  rw [if_neg (by rw [h.end_eq]; omega)]
  have hoffset : header.hdr_end - HDR_SIZE = (clumpBytes clumps).length := by
    rw [h.end_eq]
    omega
  have hsplit : HDR_end :: rest =
      (HDR_end :: rest.take (2 + c.entry.length)) ++ rest.drop (2 + c.entry.length) := by
    rw [List.cons_append, List.take_append_drop]
  have hblit : blit header.hdr_data (header.hdr_end - HDR_SIZE) (clump c.type c.entry ++ [HDR_end]) =
      clumpBytes (clumps ++ [c]) ++ HDR_end :: rest.drop (2 + c.entry.length) := by
    rw [hoffset, hdata, hsplit, blit_replace]
    · simp [Clump.bytes]
    · have := c.length_bytes
      unfold Clump.bytes at this
      rw [List.length_append, this]
      simp [hlength]
  refine ⟨_, rfl, ⟨?_, ⟨_, hblit⟩, ?_⟩, rfl⟩
  · simp only [h.end_eq, clumpBytes_append, clumpBytes_cons, clumpBytes_nil, List.append_nil,
      List.length_append, c.length_bytes]
    omega
  · simp only [hblit]
    rw [← hsize, hdata]
    simp only [clumpBytes_append, clumpBytes_cons, clumpBytes_nil, List.append_nil,
      List.length_append, List.length_cons, c.length_bytes, List.length_drop]
    omega

theorem HeaderPage.Holds.oldLength (h : header.Holds dbb (front ++ old :: back)) :
    (header.hdr_data.getD ((clumpBytes front).length + 1) 0).toNat = old.entry.length := by
  obtain ⟨rest, hdata⟩ := h.data
  rw [hdata, clumpBytes_append, clumpBytes_cons, List.append_assoc, List.append_assoc,
    Clump.bytes_append, List.getD_eq_getElem?_getD, List.getElem?_append_right (by omega),
    Nat.add_sub_cancel_left]
  exact old.toNat_length

/-- An entry of the same length is written over the old one. -/
theorem HeaderPage.Holds.overwrite (h : header.Holds dbb (front ++ old :: back))
    (htype : old.type = c.type) (hlength : old.entry.length = c.entry.length) :
    HeaderPage.Holds dbb
      { header with hdr_data := blit header.hdr_data ((clumpBytes front).length + 2) c.entry }
      (front ++ c :: back) := by
  obtain ⟨rest, hdata⟩ := h.data
  have hsplit : header.hdr_data = (clumpBytes front ++ [old.type, UInt8.ofNat old.entry.length]) ++
      (old.entry ++ (clumpBytes back ++ HDR_end :: rest)) := by
    rw [hdata]
    simp [Clump.bytes, clump]
  have hblit : blit header.hdr_data ((clumpBytes front).length + 2) c.entry =
      clumpBytes (front ++ c :: back) ++ HDR_end :: rest := by
    have hoffset : (clumpBytes front).length + 2 =
        (clumpBytes front ++ [old.type, UInt8.ofNat old.entry.length]).length := by simp
    rw [hoffset, hsplit, blit_replace hlength, htype, hlength]
    simp [Clump.bytes, clump]
  refine ⟨?_, ⟨rest, hblit⟩, ?_⟩
  · rw [h.end_eq]
    simp [hlength]
  · simp only [hblit]
    rw [← h.size, hdata]
    simp [hlength]

/-- What is behind the clump moves to its place, `HDR_end` included. -/
theorem HeaderPage.Holds.remove (h : header.Holds dbb (front ++ old :: back)) :
    (∃ rest, (header.remove (clumpBytes front).length (clumpBytes (front ++ old :: back)).length
        (2 + old.entry.length)).hdr_data = clumpBytes (front ++ back) ++ HDR_end :: rest) ∧
      (header.remove (clumpBytes front).length (clumpBytes (front ++ old :: back)).length
        (2 + old.entry.length)).hdr_data.length = header.hdr_data.length := by
  obtain ⟨rest, hdata⟩ := h.data
  have hmoved : (header.hdr_data.drop ((clumpBytes front).length + (2 + old.entry.length))).take
      ((clumpBytes (front ++ old :: back)).length -
        ((clumpBytes front).length + (2 + old.entry.length)) + 1) = clumpBytes back ++ [HDR_end] := by
    have hdrop : header.hdr_data = (clumpBytes front ++ old.bytes) ++
        ((clumpBytes back ++ [HDR_end]) ++ rest) := by
      rw [hdata]
      simp
    rw [hdrop, List.drop_left' (by simp), List.take_left']
    simp
    omega
  have hlength := congrArg List.length hdata
  have hblit : (header.remove (clumpBytes front).length (clumpBytes (front ++ old :: back)).length
      (2 + old.entry.length)).hdr_data = clumpBytes front ++ (clumpBytes back ++ [HDR_end]) ++
        header.hdr_data.drop ((clumpBytes front).length + ((clumpBytes back).length + 1)) := by
    unfold HeaderPage.remove blit
    simp only [hmoved]
    rw [List.takeD_eq_take _ (by rw [hlength]; simp), hdata, clumpBytes_append, List.append_assoc,
      List.append_assoc, List.take_left]
    simp
  rw [hblit]
  refine ⟨⟨header.hdr_data.drop ((clumpBytes front).length + ((clumpBytes back).length + 1)), by simp⟩,
    ?_⟩
  simp only [List.length_append, List.length_drop, List.length_singleton] at hlength ⊢
  simp only [clumpBytes_append, clumpBytes_cons, List.length_append, List.length_cons,
    Clump.length_bytes] at hlength
  omega

/-- A clump has been taken from the page, and `hdr_end` still has the old value. -/
def HeaderPage.Torn (header : HeaderPage) : Prop :=
  ∃ clumps rest, header.hdr_data = clumpBytes clumps ++ HDR_end :: rest ∧
    HDR_SIZE + (clumpBytes clumps).length < header.hdr_end

theorem HeaderPage.Torn.not_holds (h : header.Torn) : ¬ header.Holds dbb clumps := by
  intro hholds
  obtain ⟨clumps', rest', hdata', hend⟩ := h
  obtain ⟨rest, hdata⟩ := hholds.data
  obtain rfl := clumpBytes_inj (hdata' ▸ hdata)
  exact hend.ne' hholds.end_eq

/-- A clump that is put at `hdr_end` is not found. -/
theorem HeaderPage.Torn.put {header' : HeaderPage} {entry : List UInt8} (h : header.Torn)
    (hput : header.put type entry = .ok header') : header'.Torn := by
  obtain ⟨clumps, rest, hdata, hend⟩ := h
  unfold HeaderPage.put at hput
  split_ifs at hput with hlow
  cases hput
  have hfront : clumpBytes clumps ++ [HDR_end] <+: header.hdr_data := by
    rw [hdata]
    exact ⟨rest, by simp⟩
  have hle : (clumpBytes clumps ++ [HDR_end]).length ≤ header.hdr_end - HDR_SIZE := by
    rw [List.length_append, List.length_singleton]
    omega
  obtain ⟨pad, hpad, -⟩ := takeD_of_front_le hfront hle
  refine ⟨clumps, pad ++ (clump type entry ++ [HDR_end] ++ header.hdr_data.drop
    (header.hdr_end - HDR_SIZE + (clump type entry ++ [HDR_end]).length)), ?_, ?_⟩
  · simp only [blit, hpad]
    simp
  · simp only
    omega

theorem newHeader_holds (hsize : HasRoom dbb c []) :
    (newHeader dbb c.type c.entry).Holds dbb [c] := by
  unfold HasRoom at hsize
  rw [clumpBytes_nil, List.length_nil] at hsize
  have hlength : (clump c.type c.entry ++ [HDR_end]).length = 2 + c.entry.length + 1 := by
    have := c.length_bytes
    unfold Clump.bytes at this
    rw [List.length_append, this, List.length_singleton]
  have hblit : (newHeader dbb c.type c.entry).hdr_data = clumpBytes [c] ++ HDR_end ::
      List.replicate (dbb.dbb_page_size - HDR_SIZE - (2 + c.entry.length + 1)) 0 := by
    unfold newHeader blit
    simp only [List.takeD_zero, List.nil_append, zero_add, List.drop_replicate, hlength]
    simp [Clump.bytes]
  refine ⟨?_, ⟨_, hblit⟩, ?_⟩
  · simp [newHeader]
  · rw [hblit]
    simp only [clumpBytes_cons, clumpBytes_nil, List.append_nil, List.length_append, List.length_cons,
      Clump.length_bytes, List.length_replicate]
    omega

end

end FirebirdCore.Pag
