import FirebirdCore.Sort.Diddle

/-!
# Sort keys compare as their fields do

Field by field, the longwords that `diddleKey` leaves are compared as the values of the fields are. This fails for
quads, whose sign is looked for in the wrong longword, and for strings so long that their rounded length is no
`USHORT`.
-/
namespace FirebirdCore.Sort
open Buffer LittleEndian WordOrder

/-- One key is before another one, as its direction has it. -/
def sort_key_def.Less (key : sort_key_def) (p q : List UInt8) : Prop :=
  if key.SKD_descending then key.value q < key.value p else key.value p < key.value q

instance (key : sort_key_def) (p q : List UInt8) : Decidable (key.Less p q) :=
  inferInstanceAs (Decidable (if key.SKD_descending then _ else _))

/-! ## Numbers -/

section Numbers

theorem toNat_flip (b : UInt8) : (b ^^^ 0x80).toNat = (b.toNat + 128) % 256 := by
  have hall : ∀ n : Fin 256, n.val ^^^ 128 = (n.val + 128) % 256 := by decide +kernel
  have htop : (0x80 : UInt8).toNat = 128 := rfl
  rw [UInt8.toNat_xor, htop]
  exact hall ⟨b.toNat, b.toNat_lt⟩

theorem flip_three (a b c d : UInt8) (p : List UInt8) : flip (a :: b :: c :: d :: p) 3 = a :: b :: c :: (d ^^^ 0x80) :: p :=
  rfl

/-- Flipping the sign makes signed longwords unsigned ones of the same order. -/
theorem ofBytes_flip_long (a b c d : UInt8) :
    (ofBytes [a, b, c, d ^^^ 0x80] : ℤ) = signed 32 (ofBytes [a, b, c, d]) + 2 ^ 31 := by
  have ha := a.toNat_lt
  have hb := b.toNat_lt
  have hc := c.toNat_lt
  have hd := d.toNat_lt
  simp only [ofBytes, toNat_flip, signed]
  split_ifs <;> omega

/-- Times of day have no sign. -/
theorem ofBytes_flip_time {a b c d : UInt8} (h : ofBytes [a, b, c, d] < 24 * 60 * 60 * 10000) :
    (ofBytes [a, b, c, d ^^^ 0x80] : ℤ) = ofBytes [a, b, c, d] + 2 ^ 31 := by
  rw [ofBytes_flip_long, signed, if_pos (by omega)]

theorem longword_lt (a b c d : UInt8) : ofBytes [a, b, c, d] < 2 ^ 32 :=
  (ofBytes_lt [a, b, c, d]).trans_eq (by norm_num)

theorem ofBytes_eight (a b c d e f g h : UInt8) :
    ofBytes [a, b, c, d, e, f, g, h] = ofBytes [a, b, c, d] + 2 ^ 32 * ofBytes [e, f, g, h] := by
  simp only [ofBytes]
  omega

theorem ofBytes_flip_short (a b : UInt8) :
    (ofBytes [a, b ^^^ 0x80, 0, 0] : ℤ) = signed 16 (ofBytes [a, b]) + 2 ^ 15 := by
  have ha := a.toNat_lt
  have hb := b.toNat_lt
  simp only [ofBytes, toNat_flip, signed]
  split_ifs <;> simp <;> omega

/-- An order of numbers that is kept by a shift is that of lists of one of them. -/
theorem singleton_lt_iff {v w : ℕ} {x y c : ℤ} (hv : (v : ℤ) = x + c) (hw : (w : ℤ) = y + c) :
    [v] < [w] ↔ [x] < [y] := by
  simp only [List.cons_lt_cons_iff, List.not_lt_nil, and_false, or_false]
  omega

theorem pair_lt_iff {v w v' w' : ℕ} {x y c : ℤ} (hv : (v : ℤ) = x + c) (hw : (w : ℤ) = y + c) :
    [v, v'] < [w, w'] ↔ [x, (v' : ℤ)] < [y, (w' : ℤ)] := by
  simp only [List.cons_lt_cons_iff, List.not_lt_nil, and_false, or_false]
  omega

/-- The upper longword of a signed number decides first. -/
theorem int64_lt_iff {v w v' w' : ℕ} (hv : v < 2 ^ 32) (hw : w < 2 ^ 32) (hv' : v' < 2 ^ 32) (hw' : w' < 2 ^ 32) :
    [signed 32 v, (v' : ℤ)] < [signed 32 w, (w' : ℤ)] ↔
      [signed 64 (v' + 2 ^ 32 * v)] < [signed 64 (w' + 2 ^ 32 * w)] := by
  simp only [List.cons_lt_cons_iff, List.not_lt_nil, and_false, or_false, signed]
  split_ifs <;> omega

end Numbers

/-! ## Strings -/

section Strings

theorem values_append (p q : List UInt8) : values (p ++ q) = values p ++ values q := List.map_append

theorem length_values (p : List UInt8) : (values p).length = p.length := List.length_map _

/-- Filling up further does not matter. -/
theorem values_padded_lt_iff {fill : UInt8} {x y : List UInt8} {width more : ℕ} (hx : x.length ≤ width)
    (hy : y.length ≤ width) (hmore : width ≤ more) :
    values (padded fill more x) < values (padded fill more y) ↔
      values (padded fill width x) < values (padded fill width y) := by
  have hsplit {z : List UInt8} (hz : z.length ≤ width) :
      padded fill more z = padded fill width z ++ List.replicate (more - width) fill := by
    rw [padded, padded, List.append_assoc, List.replicate_append_replicate]
    congr 2
    omega
  rw [hsplit hx, hsplit hy, values_append, values_append, append_lt_append_right_iff]
  simp only [length_values, padded, List.length_append, List.length_replicate]
  omega

end Strings

/-! ## Fields -/

section Fields
variable {key : sort_key_def} {p q : List UInt8}

theorem long_cases (hvalid : key.Valid p) (hlength : key.skd_length = 4) : ∃ a b c d, p = [a, b, c, d] := by
  have hlen := hvalid.length_eq
  rw [sort_key_def.roundup, hlength] at hlen
  obtain ⟨a, b, c, d, p', rfl, hp'⟩ := @longword_cases p 0 hlen
  obtain rfl : p' = [] := List.length_eq_zero_iff.1 hp'
  exact ⟨a, b, c, d, rfl⟩

theorem short_cases (hvalid : key.Valid p) (hlength : key.skd_length = 2) : ∃ a b, p = [a, b, 0, 0] := by
  have hlen := hvalid.length_eq
  have hzeros := hvalid.zeros
  rw [sort_key_def.roundup, hlength] at hlen hzeros
  obtain ⟨a, b, c, d, p', rfl, hp'⟩ := @longword_cases p 0 hlen
  obtain rfl : p' = [] := List.length_eq_zero_iff.1 hp'
  cases hzeros
  exact ⟨a, b, rfl⟩

theorem quad_cases (hvalid : key.Valid p) (hlength : key.skd_length = 8) :
    ∃ a b c d a' b' c' d', p = [a, b, c, d, a', b', c', d'] := by
  have hlen := hvalid.length_eq
  rw [sort_key_def.roundup, hlength] at hlen
  obtain ⟨a, b, c, d, p', rfl, hp'⟩ := @longword_cases p 1 hlen
  obtain ⟨a', b', c', d', p'', rfl, hp''⟩ := @longword_cases p' 0 hp'
  obtain rfl : p'' = [] := List.length_eq_zero_iff.1 hp''
  exact ⟨a, b, c, d, a', b', c', d', rfl⟩

theorem prepared_cstring (hdtype : key.skd_dtype = .SKD_cstring) (hn : key.n = key.roundup) (hvalid : key.Valid p) :
    prepared key p = padded key.fill_char key.roundup (p.take (strlen p)) := by
  have hl := hvalid.cstring hdtype
  have hle := le_roundup key
  have hlen := hvalid.length_eq
  have hsmall : key.n < 2 ^ 16 := Nat.mod_lt _ (by norm_num)
  have hfill : (key.n + (2 ^ 16 - strlen p)) % 2 ^ 16 = p.length - strlen p := by omega
  unfold prepared
  rw [hdtype]
  dsimp only
  rw [hfill, blit_replicate_end (by omega), padded, List.length_take_of_le (by omega), hlen]

/-- Without complementing, longwords compare as values. -/
theorem diddleField_lt_iff (hfits : key.Fits) (hfloat : key.skd_dtype ≠ .SKD_float ∧ key.skd_dtype ≠ .SKD_double)
    (hquad : key.skd_dtype ≠ .SKD_quad) (hn : key.n = key.roundup) (hp : key.Valid p) (hq : key.Valid q) :
    longwords (diddleField key true (prepared key p)).1 < longwords (diddleField key true (prepared key q)).1 ↔
      key.value p < key.value q := by
  obtain ⟨k, hk⟩ := roundup_dvd key
  have hpk := (length_prepared hp).trans hk
  have hqk := (length_prepared hq).trans hk
  have hle := le_roundup key
  have hplen := hp.length_eq
  have hqlen := hq.length_eq
  unfold diddleField sort_key_def.value sort_key_def.Fits at *
  cases hdtype : key.skd_dtype <;> rw [hdtype] at hfits <;> dsimp only at hfits ⊢
  case SKD_float => exact absurd hdtype hfloat.1
  case SKD_double => exact absurd hdtype hfloat.2
  case SKD_quad => exact absurd hdtype hquad
  case SKD_text | SKD_bytes =>
    have hsplit {z : List UInt8} (hz : key.Valid z) : values z = values (z.take key.skd_length.toNat) ++
        values (List.replicate (key.roundup - key.skd_length.toNat) 0) := by
      rw [← hz.zeros, ← values_append, List.take_append_drop]
    rw [longwords_reverseLongs_lt_iff hpk hqk]
    simp only [prepared, hdtype]
    rw [hsplit hp, hsplit hq, append_lt_append_right_iff]
    rw [length_values, length_values, List.length_take, List.length_take, hplen, hqlen]
  case SKD_varying =>
    have hvp := hp.varying hdtype
    have hvq := hq.varying hdtype
    rw [longwords_reverseLongs_lt_iff hpk hqk, ← values_padded_lt_iff (by rw [List.length_take]; omega)
      (by rw [List.length_take]; omega) (Nat.sub_le_sub_right hle 2)]
    simp only [prepared, hdtype]
    simp only [values, List.map_cons, List.cons_lt_cons_iff, lt_self_iff_false, true_and, false_or]
  case SKD_cstring =>
    have hlp := hp.cstring hdtype
    have hlq := hq.cstring hdtype
    rw [longwords_reverseLongs_lt_iff hpk hqk, prepared_cstring hdtype hn hp, prepared_cstring hdtype hn hq]
    apply values_padded_lt_iff _ _ hle
    · rw [List.length_take]
      omega
    · rw [List.length_take]
      omega
  case SKD_long | SKD_sql_date =>
    obtain ⟨a, b, c, d, rfl⟩ := long_cases hp hfits
    obtain ⟨a', b', c', d', rfl⟩ := long_cases hq hfits
    simp only [prepared, hdtype]
    exact singleton_lt_iff (ofBytes_flip_long a b c d) (ofBytes_flip_long a' b' c' d')
  case SKD_sql_time =>
    have htp := hp.time hdtype
    have htq := hq.time hdtype
    obtain ⟨a, b, c, d, rfl⟩ := long_cases hp hfits
    obtain ⟨a', b', c', d', rfl⟩ := long_cases hq hfits
    simp only [prepared, hdtype]
    exact singleton_lt_iff (ofBytes_flip_time htp) (ofBytes_flip_time htq)
  case SKD_ulong =>
    obtain ⟨a, b, c, d, rfl⟩ := long_cases hp hfits
    obtain ⟨a', b', c', d', rfl⟩ := long_cases hq hfits
    simp only [prepared, hdtype]
    exact singleton_lt_iff (add_zero _).symm (add_zero _).symm
  case SKD_short =>
    obtain ⟨a, b, rfl⟩ := short_cases hp hfits
    obtain ⟨a', b', rfl⟩ := short_cases hq hfits
    simp only [prepared, hdtype]
    exact singleton_lt_iff (ofBytes_flip_short a b) (ofBytes_flip_short a' b')
  case SKD_ushort =>
    obtain ⟨a, b, rfl⟩ := short_cases hp hfits
    obtain ⟨a', b', rfl⟩ := short_cases hq hfits
    simp only [prepared, hdtype]
    exact singleton_lt_iff (add_zero _).symm (add_zero _).symm
  case SKD_timestamp =>
    obtain ⟨a, b, c, d, e, f, g, h, rfl⟩ := quad_cases hp hfits
    obtain ⟨a', b', c', d', e', f', g', h', rfl⟩ := quad_cases hq hfits
    simp only [prepared, hdtype]
    exact pair_lt_iff (ofBytes_flip_long a b c d) (ofBytes_flip_long a' b' c' d')
  case SKD_int64 =>
    obtain ⟨a, b, c, d, e, f, g, h, rfl⟩ := quad_cases hp hfits
    obtain ⟨a', b', c', d', e', f', g', h', rfl⟩ := quad_cases hq hfits
    simp only [prepared, hdtype]
    have horder := int64_lt_iff (longword_lt e f g h) (longword_lt e' f' g' h') (longword_lt a b c d)
      (longword_lt a' b' c' d')
    rw [← ofBytes_eight, ← ofBytes_eight] at horder
    exact (pair_lt_iff (ofBytes_flip_long e f g h) (ofBytes_flip_long e' f' g' h')).trans horder

end Fields

/-! ## One key -/

/-- The longwords of a key compare as its values. -/
def sort_key_def.Agrees (key : sort_key_def) : Prop :=
  ∀ p q, key.Valid p → key.Valid q →
    (longwords (Description.encoded key p) < longwords (Description.encoded key q) ↔ key.Less p q)

section Agrees
variable {key : sort_key_def}

theorem agrees (hfits : key.Fits) (hfloat : key.skd_dtype ≠ .SKD_float ∧ key.skd_dtype ≠ .SKD_double)
    (hquad : key.skd_dtype ≠ .SKD_quad) (hn : key.n = key.roundup) : key.Agrees := by
  intro p q hp hq
  obtain ⟨k, hk⟩ := roundup_dvd key
  have hplen := length_prepared hp
  have hqlen := length_prepared hq
  have hpfield : (diddleField key true (prepared key p)).1.length = 4 * k :=
    (length_diddleField key true _).trans (hplen.trans hk)
  have hqfield : (diddleField key true (prepared key q)).1.length = 4 * k :=
    (length_diddleField key true _).trans (hqlen.trans hk)
  have hcomplement (z : List UInt8) : (diddleField key true z).2 = key.SKD_descending := by
    unfold diddleField
    cases hdtype : key.skd_dtype <;> dsimp only
    · exact absurd hdtype hfloat.1
    · exact absurd hdtype hfloat.2
  rw [Description.encoded, Description.encoded, changed_of_n hplen hn, changed_of_n hqlen hn, change, change]
  rw [hcomplement, hcomplement, sort_key_def.Less]
  split_ifs
  · rw [longwords_complement_lt_iff hpfield hqfield]
    exact diddleField_lt_iff hfits hfloat hquad hn hq hp
  · exact diddleField_lt_iff hfits hfloat hquad hn hp hq

/-- The lower longword of a quad gets the sign. -/
theorem not_agrees_quad (hfits : key.Fits) (hquad : key.skd_dtype = .SKD_quad) : ¬ key.Agrees := by
  intro hagrees
  have hlength : key.skd_length = 8 := by
    unfold sort_key_def.Fits at hfits
    rw [hquad] at hfits
    exact hfits
  have hroundup : key.roundup = 8 := by
    rw [sort_key_def.roundup, hlength]
    rfl
  have hn : key.n = key.roundup := by
    rw [sort_key_def.n, hroundup]
    rfl
  have hvalid {z : List UInt8} (hz : z.length = 8) : key.Valid z := by
    constructor
    · exact hz.trans hroundup.symm
    · rw [hroundup, hlength]
      exact List.drop_eq_nil_of_le hz.le
    all_goals
      intro hdtype
      rw [hquad] at hdtype
      cases hdtype
  have hencoded {z : List UInt8} (hz : z.length = 8) : Description.encoded key z =
      if key.SKD_descending then complement (flip z 7) else flip z 7 := by
    have hprepared : prepared key z = z := by
      unfold prepared
      rw [hquad]
    rw [Description.encoded, hprepared, changed_of_n (hz.trans hroundup.symm) hn, change, diddleField, hquad]
  have hless {z z' : List UInt8} : key.Less z z' ↔ if key.SKD_descending
      then [signed 32 (ofBytes (z'.take 4)), (ofBytes ((z'.drop 4).take 4) : ℤ)] <
        [signed 32 (ofBytes (z.take 4)), (ofBytes ((z.drop 4).take 4) : ℤ)]
      else [signed 32 (ofBytes (z.take 4)), (ofBytes ((z.drop 4).take 4) : ℤ)] <
        [signed 32 (ofBytes (z'.take 4)), (ofBytes ((z'.drop 4).take 4) : ℤ)] := by
    unfold sort_key_def.Less sort_key_def.value
    rw [hquad]
  have hzero := hagrees [0, 0, 0, 0, 0, 0, 0, 0] [0, 0, 0, 0, 0, 0, 0, 0x80] (hvalid rfl) (hvalid rfl)
  have hhigh := hagrees [0, 0, 0, 0, 0, 0, 0, 0x80] [0, 0, 0, 0, 0, 0, 0, 0] (hvalid rfl) (hvalid rfl)
  rw [hencoded rfl, hencoded rfl, hless] at hzero hhigh
  revert hzero hhigh
  cases key.SKD_descending <;> decide +kernel

/-- A string of the greatest length, of which two bytes are given. -/
def longest (key : sort_key_def) (c d : UInt8) : List UInt8 :=
  [2, if key.skd_dtype = .SKD_varying then 0 else 1, c, d] ++ List.replicate (key.roundup - 4) 0

section Longest
variable {c d : UInt8}

theorem length_ge_of_wrapped (hroundup : key.roundup = 2 ^ 16) : 65533 ≤ key.skd_length.toNat := by
  rw [sort_key_def.roundup] at hroundup
  omega

theorem take_longest (key : sort_key_def) (c d : UInt8) (more : ℕ) :
    (longest key c d).take (4 + more) =
      [2, if key.skd_dtype = .SKD_varying then 0 else 1, c, d] ++ List.replicate (min more (key.roundup - 4)) 0 := by
  have hdrop : (longest key c d).drop 4 = List.replicate (key.roundup - 4) 0 := rfl
  rw [List.take_add, hdrop, List.take_replicate]
  rfl

theorem strlen_longest (hdtype : key.skd_dtype = .SKD_cstring) (hroundup : key.roundup = 2 ^ 16) (hc : c ≠ 0)
    (hd : d ≠ 0) : strlen (longest key c d) = 4 := by
  obtain ⟨n, hn⟩ : ∃ n, key.roundup - 4 = n + 1 := ⟨key.roundup - 5, by omega⟩
  rw [longest, hn, List.replicate_succ]
  simp [strlen, hdtype, hc, hd]

theorem count_longest (hdtype : key.skd_dtype = .SKD_varying) : ofBytes ((longest key c d).take 2) = 2 := by
  rw [longest, if_pos hdtype]
  rfl

theorem valid_longest (hfits : key.Fits) (hroundup : key.roundup = 2 ^ 16) (hc : c ≠ 0) (hd : d ≠ 0) :
    key.Valid (longest key c d) := by
  have hlength := length_ge_of_wrapped hroundup
  constructor
  · rw [longest, List.length_append, List.length_replicate]
    simp only [List.length_cons, List.length_nil]
    omega
  · obtain ⟨more, hmore⟩ := Nat.exists_eq_add_of_le (by omega : 4 ≤ key.skd_length.toNat)
    have hdrop : (longest key c d).drop 4 = List.replicate (key.roundup - 4) 0 := rfl
    rw [hmore, ← List.drop_drop, hdrop, List.drop_replicate, Nat.sub_sub]
  · intro hdtype
    rw [count_longest hdtype]
    omega
  · intro hdtype
    rw [strlen_longest hdtype hroundup hc hd]
    omega
  · intro hdtype
    unfold sort_key_def.Fits at hfits
    rw [hdtype] at hfits
    dsimp only at hfits
    rw [hfits] at hlength
    exact absurd hlength (by decide)

/-- What the given bytes are compared with: other bytes are the same for all of them. -/
theorem encoded_longest (hfits : key.Fits) (hn : key.n = 0) (hroundup : key.roundup = 2 ^ 16) :
    ∃ x y tail front rest, ∀ c d, c ≠ 0 → d ≠ 0 →
      longwords (Description.encoded key (longest key c d)) = ofBytes [x, y, c, d] :: tail ∧
        key.value (longest key c d) = front ++ ((c.toNat : ℤ) :: (d.toNat : ℤ) :: rest) := by
  have hlength := length_ge_of_wrapped hroundup
  obtain ⟨more, hmore⟩ := Nat.exists_eq_add_of_le (by omega : 4 ≤ key.skd_length.toNat)
  have hencoded (z : List UInt8) : Description.encoded key z = prepared key z := changed_of_wrapped hn true
  have hfits' := hfits
  unfold sort_key_def.Fits at hfits
  unfold sort_key_def.value
  cases hdtype : key.skd_dtype <;> rw [hdtype] at hfits <;> dsimp only at hfits ⊢
  case SKD_text | SKD_bytes =>
    refine ⟨2, 1, longwords (List.replicate (key.roundup - 4) 0), [2, 1],
      values (List.replicate (min more (key.roundup - 4)) 0), fun c d _ _ => ?_⟩
    constructor
    · rw [hencoded, prepared, hdtype, longest, hdtype]
      rfl
    · rw [hmore, take_longest, hdtype]
      rfl
  case SKD_varying =>
    refine ⟨0, 0, longwords (List.replicate (key.roundup - 4) key.fill_char), [],
      values (List.replicate (key.skd_length.toNat - 4) key.fill_char), fun c d _ _ => ?_⟩
    have hchars : ((longest key c d).drop 2).take 2 = [c, d] := rfl
    rw [count_longest hdtype, hchars, hencoded]
    constructor
    · rw [prepared, hdtype]
      dsimp only
      rw [count_longest hdtype, hchars, padded, List.length_cons, List.length_singleton, Nat.sub_sub]
      rfl
    · rw [padded, List.length_cons, List.length_singleton, Nat.sub_sub]
      rfl
  case SKD_cstring =>
    refine ⟨2, 1, longwords (List.replicate (key.roundup - 4) key.fill_char), [2, 1],
      values (List.replicate (key.skd_length.toNat - 4) key.fill_char), fun c d hc hd => ?_⟩
    have hstrlen := strlen_longest hdtype hroundup hc hd
    have hvalid := valid_longest hfits' hroundup hc hd
    have hchars : (longest key c d).take 4 = [2, 1, c, d] := by
      rw [longest, hdtype]
      rfl
    rw [hstrlen, hchars, hencoded]
    constructor
    · have hfill : (key.n + (2 ^ 16 - 4)) % 2 ^ 16 = (longest key c d).length - 4 := by
        rw [hn, hvalid.length_eq, hroundup]
        norm_num
      have hfour : 4 ≤ (longest key c d).length := by
        rw [hvalid.length_eq]
        omega
      rw [prepared, hdtype]
      dsimp only
      rw [hstrlen, hfill, blit_replicate_end hfour, hchars, hvalid.length_eq]
      rfl
    · rw [padded]
      rfl
  all_goals
    rw [hfits] at hlength
    exact absurd hlength (by decide)

/-- Bytes of the longest strings are compared in the order of their longwords. -/
theorem not_agrees_wrapped (hfits : key.Fits) (hn : key.n = 0) (hroundup : key.roundup = 2 ^ 16) : ¬ key.Agrees := by
  intro hagrees
  obtain ⟨x, y, tail, front, rest, hcompared⟩ := encoded_longest hfits hn hroundup
  have hpair {a b c d : UInt8} (ha : a ≠ 0) (hb : b ≠ 0) (hc : c ≠ 0) (hd : d ≠ 0) :
      a.toNat + 256 * b.toNat < c.toNat + 256 * d.toNat ↔
        if key.SKD_descending then c.toNat < a.toNat ∨ c.toNat = a.toNat ∧ d.toNat < b.toNat
        else a.toNat < c.toNat ∨ a.toNat = c.toNat ∧ b.toNat < d.toNat := by
    have h := hagrees _ _ (valid_longest hfits hroundup ha hb) (valid_longest hfits hroundup hc hd)
    obtain ⟨hwords, hvalue⟩ := hcompared a b ha hb
    obtain ⟨hwords', hvalue'⟩ := hcompared c d hc hd
    rw [sort_key_def.Less, hwords, hwords', hvalue, hvalue', append_lt_append_iff rfl, append_lt_append_iff rfl] at h
    simp only [List.cons_lt_cons_iff, lt_irrefl, and_false, or_false, false_or, true_and, ofBytes, Nat.cast_lt,
      Nat.cast_inj] at h
    rw [← h]
    omega
  have hascending := @hpair 1 2 2 1 (by decide) (by decide) (by decide) (by decide)
  have hdescending := @hpair 2 1 1 1 (by decide) (by decide) (by decide) (by decide)
  revert hascending hdescending
  cases key.SKD_descending <;> decide

theorem agrees_iff (hfits : key.Fits) (hfloat : key.skd_dtype ≠ .SKD_float ∧ key.skd_dtype ≠ .SKD_double) :
    key.Agrees ↔ key.skd_dtype ≠ .SKD_quad ∧ key.skd_length.toNat ≤ 65532 := by
  constructor
  · intro hagrees
    constructor
    · exact fun hquad => not_agrees_quad hfits hquad hagrees
    · by_contra hlong
      have hroundup : key.roundup = 2 ^ 16 := by
        have hlt := key.skd_length.toNat_lt
        rw [sort_key_def.roundup]
        omega
      have hn : key.n = 0 := by rw [sort_key_def.n, hroundup, Nat.mod_self]
      exact not_agrees_wrapped hfits hn hroundup hagrees
  · intro h
    have hn : key.n = key.roundup := by
      have hlt := h.2
      rw [sort_key_def.n, sort_key_def.roundup]
      omega
    exact agrees hfits hfloat h.1 hn

end Longest

end Agrees

/-! ## All keys -/

/-- The first key that differs decides. -/
def Decided (lt eq : sort_key_def → Prop) : List sort_key_def → Prop
  | [] => False
  | key :: keys => lt key ∨ eq key ∧ Decided lt eq keys

section Decided
variable {lt eq lt' eq' : sort_key_def → Prop} {keys : List sort_key_def}

theorem decided_congr (h : ∀ key ∈ keys, (lt key ↔ lt' key) ∧ (eq key ↔ eq' key)) :
    Decided lt eq keys ↔ Decided lt' eq' keys := by
  induction keys with
  | nil => rfl
  | cons key keys ih =>
    obtain ⟨hlt, heq⟩ := h key List.mem_cons_self
    rw [Decided, Decided, hlt, heq, ih fun other hother => h other (List.mem_cons_of_mem key hother)]

theorem not_decided (h : ∀ key ∈ keys, ¬ lt key) : ¬ Decided lt eq keys := by
  induction keys with
  | nil => exact id
  | cons key keys ih =>
    rintro (hlt | hrest)
    · exact h key List.mem_cons_self hlt
    · exact ih (fun other hother => h other (List.mem_cons_of_mem key hother)) hrest.2

/-- One key differs. -/
theorem decided_one {front behind : List sort_key_def} {key : sort_key_def}
    (hfront : ∀ other ∈ front, ¬ lt other ∧ eq other) (hbehind : ∀ other ∈ behind, ¬ lt other) :
    Decided lt eq (front ++ key :: behind) ↔ lt key := by
  induction front with
  | nil =>
    rw [List.nil_append, Decided, or_iff_left]
    exact fun hrest => not_decided hbehind hrest.2
  | cons other front ih =>
    obtain ⟨hlt, heq⟩ := hfront other List.mem_cons_self
    rw [List.cons_append, Decided, ih fun later hlater => hfront later (List.mem_cons_of_mem other hlater)]
    tauto

end Decided

section Area
variable {keys : List sort_key_def} {r s : List UInt8} {start m : ℕ}

theorem slice_add (r : List UInt8) (start n k : ℕ) :
    slice r ⟨start, n + k⟩ = slice r ⟨start, n⟩ ++ slice r ⟨start + n, k⟩ := by
  rw [slice, slice, slice, List.take_add, List.drop_drop]

theorem slice_congr {e : Extent} (h : ∀ i, e.start ≤ i → i < e.finish → r[i]? = s[i]?) : slice r e = slice s e := by
  apply List.ext_getElem?
  intro i
  rw [getElem?_slice, getElem?_slice]
  split_ifs with hi
  · apply h
    · exact Nat.le_add_right _ _
    · exact Nat.add_lt_add_left hi _
  · rfl

/-- The longwords from some place on are compared key by key. -/
theorem longwords_area_lt_iff (haligned : ∀ key ∈ keys, 4 ∣ key.skd_offset)
    (hascending : keys.Pairwise fun a b => a.full.finish ≤ b.skd_offset)
    (hinside : ∀ key ∈ keys, key.full.finish ≤ 4 * m) (hstart : ∀ key ∈ keys, start ≤ key.skd_offset)
    (hdvd : 4 ∣ start) (hle : start ≤ 4 * m) (hr : 4 * m ≤ r.length) (hs : 4 * m ≤ s.length)
    (hgaps : ∀ i, start ≤ i → i < 4 * m → (∀ key ∈ keys, ¬ (key.skd_offset ≤ i ∧ i < key.full.finish)) →
      r[i]? = s[i]?) :
    longwords (slice r ⟨start, 4 * m - start⟩) < longwords (slice s ⟨start, 4 * m - start⟩) ↔
      Decided (fun key => longwords (slice r key.full) < longwords (slice s key.full))
        (fun key => longwords (slice r key.full) = longwords (slice s key.full)) keys := by
  induction keys generalizing start with
  | nil =>
    have hsame : slice r ⟨start, 4 * m - start⟩ = slice s ⟨start, 4 * m - start⟩ := by
      apply slice_congr
      intro i hi hlt
      simp only [Extent.finish] at hi hlt
      exact hgaps i hi (by omega) fun key hkey => absurd hkey List.not_mem_nil
    rw [hsame, Decided]
    exact ⟨fun h => absurd h (lt_irrefl _), False.elim⟩
  | cons key keys ih =>
    obtain ⟨hbehind, hkeys⟩ := List.pairwise_cons.1 hascending
    have hoffset := hstart key List.mem_cons_self
    have hfinish := hinside key List.mem_cons_self
    have hfull : key.full.finish = key.skd_offset + key.roundup := rfl
    obtain ⟨k, hk⟩ := roundup_dvd key
    obtain ⟨o, ho⟩ := haligned key List.mem_cons_self
    obtain ⟨t, ht⟩ := hdvd
    -- what is in front of the key, the key, and what is behind it
    have hsplit (z : List UInt8) : slice z ⟨start, 4 * m - start⟩ =
        slice z ⟨start, key.skd_offset - start⟩ ++
          (slice z key.full ++ slice z ⟨key.full.finish, 4 * m - key.full.finish⟩) := by
      have htotal : 4 * m - start = (key.skd_offset - start) + (key.roundup + (4 * m - key.full.finish)) := by omega
      have hfront : start + (key.skd_offset - start) = key.skd_offset := by omega
      rw [htotal, slice_add, hfront, slice_add]
      rfl
    have hgap : slice r ⟨start, key.skd_offset - start⟩ = slice s ⟨start, key.skd_offset - start⟩ := by
      apply slice_congr
      intro i hi hlt
      simp only [Extent.finish] at hi hlt
      apply hgaps i hi (by omega)
      intro other hother hin
      rcases List.mem_cons.1 hother with rfl | hother
      · omega
      · have hafter := hbehind other hother
        omega
    have hgapLength {z : List UInt8} (hz : 4 * m ≤ z.length) :
        (slice z ⟨start, key.skd_offset - start⟩).length = 4 * (o - t) := by
      rw [slice_length (by simp only [Extent.finish]; omega)]
      dsimp only
      omega
    have hkeyLength {z : List UInt8} (hz : 4 * m ≤ z.length) : (slice z key.full).length = 4 * k := by
      rw [slice_length (hfinish.trans hz)]
      exact hk
    have hrest := @ih key.full.finish (fun other hother => haligned other (List.mem_cons_of_mem key hother))
      hkeys (fun other hother => hinside other (List.mem_cons_of_mem key hother)) hbehind (by omega) hfinish (by
        intro i hi hlt hnone
        apply hgaps i (by omega) hlt
        intro other hother hin
        rcases List.mem_cons.1 hother with rfl | hother
        · omega
        · exact hnone other hother hin)
    rw [hsplit r, hsplit s, hgap, longwords_append (hgapLength hs), longwords_append (hgapLength hs),
      append_lt_append_iff rfl, longwords_append (hkeyLength hr), longwords_append (hkeyLength hs),
      append_lt_append_iff (by rw [length_longwords (hkeyLength hr), length_longwords (hkeyLength hs)]), hrest,
      Decided]
    simp

end Area

/-! ## Records -/

section Zeros

theorem ofBytes_zeros (n : ℕ) : ofBytes (List.replicate n 0) = 0 := by
  induction n with
  | zero => rfl
  | succ n ih =>
    rw [List.replicate_succ, ofBytes, ih]
    rfl

theorem strlen_zeros (n : ℕ) : strlen (List.replicate n 0) = 0 := by
  cases n with
  | zero => rfl
  | succ n => simp [strlen, List.replicate_succ]

theorem slice_zeros {size : ℕ} {e : Extent} (h : e.finish ≤ size) :
    slice (List.replicate size 0) e = List.replicate e.size 0 := by
  rw [Extent.finish] at h
  rw [slice, List.drop_replicate, List.take_replicate, Nat.min_eq_left (by omega)]

theorem valid_zeros {key : sort_key_def} (hfits : key.Fits) : key.Valid (List.replicate key.roundup 0) := by
  constructor
  · exact List.length_replicate
  · exact List.drop_replicate
  · intro hdtype
    unfold sort_key_def.Fits at hfits
    rw [hdtype] at hfits
    rw [List.take_replicate, ofBytes_zeros]
    exact hfits
  · intro hdtype
    unfold sort_key_def.Fits at hfits
    rw [hdtype] at hfits
    rw [strlen_zeros]
    exact hfits
  · intro _
    rw [List.take_replicate, ofBytes_zeros]
    norm_num

end Zeros

theorem eq_iff_not_lt {α : Type*} [LinearOrder α] {a b : α} : a = b ↔ ¬ a < b ∧ ¬ b < a := by
  rw [not_lt, not_lt, and_comm]
  exact le_antisymm_iff

namespace Description
variable (d : Description)

/-- What records are compared by. -/
def words (r : List UInt8) : List ℕ := longwords (slice r d.area)

/-- The typed order of records. -/
def Less (r s : List UInt8) : Prop :=
  Decided (fun key => key.Less (slice r key.full) (slice s key.full))
    (fun key => key.value (slice r key.full) = key.value (slice s key.full)) d.m_description

/-- Records that are put compare as their fields do. -/
def Sorts : Prop :=
  ∀ r s, d.Record r → d.Record s →
    (d.words (diddleKey d.m_description false r true) < d.words (diddleKey d.m_description false s true) ↔
      d.Less r s)

/-- What is got back is what has been put, but for the bytes behind strings. -/
def Restores : Prop :=
  ∀ r scb_sorted, d.Record r →
    let r' := diddleKey d.m_description scb_sorted (diddleKey d.m_description false r true) false
    r'.length = r.length ∧
      (∀ key ∈ d.m_description, (slice r' key.full).take (key.meant (slice r key.full)) =
        (slice r key.full).take (key.meant (slice r key.full))) ∧
      ∀ e, Outside d.m_description e → slice r' e = slice r e

variable {d} {r s : List UInt8}

/-- Between the keys there are zeros still. -/
theorem put_gap (hr : d.Record r) {i : ℕ} (hi : i < 4 * d.m_key_length)
    (hgap : ∀ key ∈ d.m_description, ¬ (key.skd_offset ≤ i ∧ i < key.full.finish)) :
    (diddleKey d.m_description false r true)[i]? = some 0 := by
  have houtside : Outside d.m_description ⟨i, 1⟩ := by
    intro key hkey
    constructor
    · have hnot := hgap key hkey
      simp only [Extent.Apart, Extent.finish, sort_key_def.full] at hnot ⊢
      omega
    · intro hstashes
      have hbehind := d.behind key hkey hstashes
      exact .inl (by simp only [Extent.finish, sort_key_def.stash]; omega)
  have hframe := congrArg (·[0]?) ((put_spec hr).2.2 _ houtside)
  simp only [getElem?_slice, Nat.lt_one_iff, if_pos, Nat.add_zero] at hframe
  exact hframe.trans (hr.zeros i hi hgap)

theorem words_lt_iff (hr : d.Record r) (hs : d.Record s) :
    d.words (diddleKey d.m_description false r true) < d.words (diddleKey d.m_description false s true) ↔
      Decided (fun key => longwords (encoded key (slice r key.full)) < longwords (encoded key (slice s key.full)))
        (fun key => longwords (encoded key (slice r key.full)) = longwords (encoded key (slice s key.full)))
        d.m_description := by
  obtain ⟨hlen, hfields, -⟩ := put_spec hr
  obtain ⟨hlen', hfields', -⟩ := put_spec hs
  have harea := longwords_area_lt_iff d.aligned d.ascending d.inside (fun key _ => Nat.zero_le _) (dvd_zero 4)
    (Nat.zero_le _) (by rw [hlen, hr.length_eq]; exact d.key_length_le)
    (by rw [hlen', hs.length_eq]; exact d.key_length_le) fun i _ hi hgap =>
      (put_gap hr hi hgap).trans (put_gap hs hi hgap).symm
  refine Iff.trans harea (decided_congr fun key hkey => ?_)
  rw [(hfields key hkey).1, (hfields' key hkey).1]
  exact ⟨Iff.rfl, Iff.rfl⟩

/-- A record of zeros but for one field. -/
def withField (d : Description) (key : sort_key_def) (p : List UInt8) : List UInt8 :=
  blit (List.replicate d.size 0) key.skd_offset p

theorem withField_spec {front behind : List sort_key_def} {key : sort_key_def}
    (hsplit : d.m_description = front ++ key :: behind) {p : List UInt8} (hp : key.Valid p) :
    d.Record (d.withField key p) ∧ slice (d.withField key p) key.full = p ∧
      ∀ other, other ∈ front ∨ other ∈ behind →
        slice (d.withField key p) other.full = List.replicate other.roundup 0 := by
  have hkey : key ∈ d.m_description := by
    rw [hsplit]
    simp
  have hothers {other : sort_key_def} (h : other ∈ front ∨ other ∈ behind) :
      other ∈ d.m_description ∧ other.full.Apart key.full := by
    have hseparate := d.separate
    rw [hsplit, List.pairwise_append, List.pairwise_cons] at hseparate
    obtain ⟨-, ⟨hbehind, -⟩, hfront⟩ := hseparate
    rw [hsplit, List.mem_append, List.mem_cons]
    rcases h with h | h
    · exact ⟨.inl h, (hfront other h key List.mem_cons_self).full.symm⟩
    · exact ⟨.inr (.inr h), (hbehind other h).full⟩
  have hfits : key.skd_offset + p.length ≤ (List.replicate d.size (0 : UInt8)).length := by
    rw [hp.length_eq, List.length_replicate]
    exact (d.room hkey).full
  have hfull : key.full = ⟨key.skd_offset, p.length⟩ := by rw [hp.length_eq, sort_key_def.full]
  have hfield : slice (d.withField key p) key.full = p := by
    rw [hfull]
    exact slice_blit_self _ _ _
  have hzero {other : sort_key_def} (h : other ∈ front ∨ other ∈ behind) :
      slice (d.withField key p) other.full = List.replicate other.roundup 0 := by
    obtain ⟨hmem, hapart⟩ := hothers h
    rw [hfull] at hapart
    exact (slice_blit_apart hfits hapart).trans (slice_zeros (d.room hmem).full)
  refine ⟨⟨?_, ?_, ?_⟩, hfield, fun _ => hzero⟩
  · exact (blit_length hfits).trans List.length_replicate
  · intro other hother
    have hcases : other = key ∨ other ∈ front ∨ other ∈ behind := by
      rw [hsplit, List.mem_append, List.mem_cons] at hother
      tauto
    rcases hcases with rfl | h
    · rw [hfield]
      exact hp
    · rw [hzero h]
      exact valid_zeros (d.fits other hother)
  · intro i hi hgap
    have hnot := hgap key hkey
    have hsize := d.key_length_le
    rw [hfull, Extent.finish] at hnot
    rw [withField, getElem?_blit hfits]
    dsimp only at hnot
    split_ifs
    · exact List.getElem?_replicate_of_lt (by omega)
    · omega
    · exact List.getElem?_replicate_of_lt (by omega)

theorem sorts_iff : d.Sorts ↔ ∀ key ∈ d.m_description, key.Agrees := by
  constructor
  · intro hsorts key hkey p q hp hq
    obtain ⟨front, behind, hsplit⟩ := List.append_of_mem hkey
    obtain ⟨hr, hfield, hzero⟩ := withField_spec hsplit hp
    obtain ⟨hs, hfield', hzero'⟩ := withField_spec hsplit hq
    have hsame {other : sort_key_def} (h : other ∈ front ∨ other ∈ behind) :
        slice (d.withField key p) other.full = slice (d.withField key q) other.full :=
      (hzero other h).trans (hzero' other h).symm
    have hboth := hsorts _ _ hr hs
    rw [words_lt_iff hr hs, Less, hsplit, decided_one, decided_one, hfield, hfield'] at hboth
    · exact hboth
    · intro other hother
      rw [hsame (.inl hother), sort_key_def.Less]
      split_ifs <;> exact ⟨lt_irrefl _, rfl⟩
    · intro other hother
      rw [hsame (.inr hother), sort_key_def.Less]
      split_ifs <;> exact lt_irrefl _
    · intro other hother
      rw [hsame (.inl hother)]
      exact ⟨lt_irrefl _, rfl⟩
    · intro other hother
      rw [hsame (.inr hother)]
      exact lt_irrefl _
  · intro hagrees r s hr hs
    rw [words_lt_iff hr hs, Less]
    apply decided_congr
    intro key hkey
    have hp := hr.valid key hkey
    have hq := hs.valid key hkey
    have hless := hagrees key hkey _ _ hp hq
    have hgreater := hagrees key hkey _ _ hq hp
    refine ⟨hless, ?_⟩
    rw [eq_iff_not_lt, eq_iff_not_lt, hless, hgreater, sort_key_def.Less, sort_key_def.Less]
    split_ifs <;> tauto

end Description

/-- Keys compare as their fields, which come back, just where none of them is a quad or one of the longest
strings. -/
theorem diddleKey_sorts_iff (d : Description) : d.Sorts ∧ d.Restores ↔
    ∀ key ∈ d.m_description, key.skd_dtype ≠ .SKD_quad ∧ key.skd_length.toNat ≤ 65532 := by
  have hrestores : d.Restores := fun r scb_sorted hr => Description.get_spec hr scb_sorted rfl
  rw [and_iff_left hrestores, Description.sorts_iff]
  constructor
  · exact fun h key hkey => (agrees_iff (d.fits key hkey) (d.nonfloating key hkey)).1 (h key hkey)
  · exact fun h key hkey => (agrees_iff (d.fits key hkey) (d.nonfloating key hkey)).2 (h key hkey)

/-- One ascending key of a quad. -/
def quadKey : sort_key_def := ⟨.SKD_quad, false, false, 8, 0, 0⟩

def quadKeys : Description where
  m_description := [quadKey]
  m_key_length := 2
  size := 8
  fits := by
    intro key hkey
    obtain rfl := List.mem_singleton.1 hkey
    rfl
  nonfloating := by decide
  aligned := by decide
  ascending := List.pairwise_singleton _ _
  inside := by decide
  key_length_le := le_rfl
  behind := by decide
  stash_le := by decide
  stash_apart := List.pairwise_singleton _ _

/-- Zero is before the quad whose lower longword has its highest bit set, and comes behind it. -/
theorem quads_misordered : ¬ ∀ d : Description, d.Sorts ∧ d.Restores := by
  intro h
  have hrecord {r : List UInt8} (hr : r.length = 8) : quadKeys.Record r := by
    have hslice : slice r quadKey.full = r := List.take_of_length_le hr.le
    refine ⟨hr, fun key hkey => ?_, fun i hi hgap => ?_⟩
    · obtain rfl := List.mem_singleton.1 hkey
      rw [hslice]
      refine ⟨hr, List.drop_eq_nil_of_le hr.le, ?_, ?_, ?_⟩ <;> intro hdtype <;> cases hdtype
    · exact absurd ⟨Nat.zero_le i, hi⟩ (hgap quadKey List.mem_cons_self)
  have hsorts := (h quadKeys).1 [0, 0, 0, 0, 0, 0, 0, 0] [0, 0, 0, 0, 0, 0, 0, 0x80] (hrecord rfl) (hrecord rfl)
  have hless : quadKey.Less [0, 0, 0, 0, 0, 0, 0, 0] [0, 0, 0, 0, 0, 0, 0, 0x80] := by decide +kernel
  have hwords := hsorts.2 (.inl hless)
  revert hwords
  decide +kernel

end FirebirdCore.Sort
