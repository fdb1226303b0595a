import FirebirdCore.Btr.Key
import FirebirdCore.Lib.Blocks

/-!
# The groups of a compound key

The key of an index of several segments is a sequence of groups, each a segment number and up to
`stuffCount` bytes of that segment; only the last group may be shorter. The segment numbers fall,
so the first segments of two keys agree where their groups with the higher numbers do.
-/
namespace FirebirdCore.Btr
open FirebirdCore.KeyOrder FirebirdCore.TupleKey FirebirdCore.Blocks

/-- The groups that hold the bytes of a segment. -/
def groupsOf (marker : UInt8) : Key → List Key
  | [] => []
  | [a] => [[marker, a]]
  | [a, b] => [[marker, a, b]]
  | [a, b, c] => [[marker, a, b, c]]
  | a :: b :: c :: d :: s => [marker, a, b, c, d] :: groupsOf marker s

/-- A segment as it is stored before another one. -/
def fillUp (s : Key) : Key := s ++ List.replicate (room stuffCount 0 s) 0

/-- The segments as the key stores them. -/
def storedTuple : List Key → List Key
  | [] => []
  | [s] => [s]
  | s :: t :: ss => fillUp s :: storedTuple (t :: ss)

/-- The groups of a stored tuple whose first segment has the number `n`. -/
def tupleGroups (idxCount : ℕ) : ℕ → List Key → List Key
  | _, [] => []
  | n, s :: ss => groupsOf (segmentMarker idxCount n) s ++ tupleGroups idxCount (n + 1) ss

/-- Bytes in a full group. -/
def groupSize : ℕ := stuffCount + 1

/-! ## One segment -/

section
-- The equations are derived once, before the proofs that rewrite with them.
attribute [local simp] groupsOf storedTuple
end

theorem flatten_groupsOf (m : UInt8) (s : Key) :
    (groupsOf m s).flatten = stuff stuffCount m 0 s := by
  fun_induction groupsOf m s with
  | case1 => rfl
  | case2 => rfl
  | case3 => rfl
  | case4 => rfl
  | case5 a b c d s ih =>
    rw [List.flatten_cons, ih]
    rfl

theorem fillUp_cons (a b c d : UInt8) (s : Key) :
    fillUp (a :: b :: c :: d :: s) = a :: b :: c :: d :: fillUp s := rfl

theorem flatten_groupsOf_fillUp (m : UInt8) (s : Key) :
    (groupsOf m (fillUp s)).flatten =
      stuff stuffCount m 0 s ++ List.replicate (room stuffCount 0 s) 0 := by
  fun_induction groupsOf m s with
  | case1 => rfl
  | case2 => rfl
  | case3 => rfl
  | case4 => rfl
  | case5 a b c d s ih =>
    rw [fillUp_cons, groupsOf, List.flatten_cons, ih]
    rfl

theorem groupsOf_eq_nil_iff {m : UInt8} {s : Key} : groupsOf m s = [] ↔ s = [] := by
  fun_cases groupsOf m s <;> simp

theorem head_of_mem_groupsOf {m : UInt8} {s g : Key} (h : g ∈ groupsOf m s) : g.head? = some m := by
  fun_induction groupsOf m s with
  | case5 a b c d s ih =>
    rcases List.mem_cons.1 h with rfl | h
    · rfl
    · exact ih h
  | _ => simp_all

theorem flatMap_tail_groupsOf (m : UInt8) (s : Key) : (groupsOf m s).flatMap List.tail = s := by
  fun_induction groupsOf m s <;> simp_all

theorem groupsOf_injective (m : UInt8) : Function.Injective (groupsOf m) :=
  Function.LeftInverse.injective (flatMap_tail_groupsOf m)

theorem cut_groupsOf (m : UInt8) (s : Key) : Cut groupSize (groupsOf m s) := by
  fun_induction groupsOf m s with
  | case5 a b c d s ih =>
    refine ⟨?_, ?_, ?_⟩
    · intro g hg
      rcases List.mem_cons.1 hg with rfl | hg
      · simp
      · exact ih.two_le g hg
    · intro g hg
      rcases List.mem_cons.1 hg with rfl | hg
      · exact le_rfl
      · exact ih.le_size g hg
    · intro g hg
      by_cases hnil : groupsOf m s = []
      · simp [hnil] at hg
      · rw [List.dropLast_cons_of_ne_nil hnil] at hg
        rcases List.mem_cons.1 hg with rfl | hg
        · rfl
        · exact ih.full g hg
  | _ => constructor <;> simp [groupSize, stuffCount]

/-- Only the last segment has a shorter group. -/
theorem length_of_mem_fillUp {m : UInt8} {s g : Key} (h : g ∈ groupsOf m (fillUp s)) :
    g.length = groupSize := by
  fun_induction groupsOf m s with
  | case1 => simp [fillUp, room, groupsOf] at h
  | case2 => simp_all [fillUp, room, groupsOf, stuffCount, groupSize, List.replicate]
  | case3 => simp_all [fillUp, room, groupsOf, stuffCount, groupSize, List.replicate]
  | case4 => simp_all [fillUp, room, groupsOf, stuffCount, groupSize]
  | case5 a b c d s ih =>
    rw [fillUp_cons, groupsOf] at h
    rcases List.mem_cons.1 h with rfl | h
    · rfl
    · exact ih h

/-! ## Several segments -/

theorem length_storedTuple (ss : List Key) : (storedTuple ss).length = ss.length := by
  fun_induction storedTuple ss <;> simp_all

theorem fillUp_eq_nil_iff {s : Key} : fillUp s = [] ↔ s = [] := by
  cases s <;> simp [fillUp, room]

theorem storedTuple_ne_nil {ss : List Key} (h : ∀ s ∈ ss, s ≠ []) : ∀ s ∈ storedTuple ss, s ≠ [] := by
  fun_induction storedTuple ss with
  | case1 => exact h
  | case2 => exact h
  | case3 s t ss ih =>
    intro u hu
    rcases List.mem_cons.1 hu with rfl | hu
    · exact mt fillUp_eq_nil_iff.1 (h s (by simp))
    · exact ih (fun v hv => h v (by simp [hv])) u hu

/-- The joined key is the sequence of the groups. -/
theorem flatten_tupleGroups (idxCount n : ℕ) (ss : List Key) :
    (tupleGroups idxCount n (storedTuple ss)).flatten =
      encodeTuple stuffCount 0 (segmentMarker idxCount) n ss := by
  induction ss generalizing n with
  | nil => rfl
  | cons s ss ih =>
    cases ss with
    | nil => simp [storedTuple, tupleGroups, encodeTuple, flatten_groupsOf]
    | cons t ss =>
      rw [storedTuple, tupleGroups, List.flatten_append, ih, flatten_groupsOf_fillUp, encodeTuple]

theorem cut_append {c a : List Key} (hc : ∀ g ∈ c, g.length = groupSize) (ha : Cut groupSize a) :
    Cut groupSize (c ++ a) := by
  refine ⟨?_, ?_, ?_⟩
  · intro g hg
    rcases List.mem_append.1 hg with hg | hg
    · rw [hc g hg]
      decide
    · exact ha.two_le g hg
  · intro g hg
    rcases List.mem_append.1 hg with hg | hg
    · exact (hc g hg).le
    · exact ha.le_size g hg
  · intro g hg
    by_cases hnil : a = []
    · rw [hnil, List.append_nil] at hg
      exact hc g (List.dropLast_subset c hg)
    · rw [List.dropLast_append_of_ne_nil hnil] at hg
      rcases List.mem_append.1 hg with hg | hg
      · exact hc g hg
      · exact ha.full g hg

theorem cut_tupleGroups (idxCount n : ℕ) (ss : List Key) :
    Cut groupSize (tupleGroups idxCount n (storedTuple ss)) := by
  fun_induction storedTuple ss generalizing n with
  | case1 => constructor <;> simp [tupleGroups]
  | case2 s =>
    rw [tupleGroups, tupleGroups, List.append_nil]
    exact cut_groupsOf _ s
  | case3 s t ss ih =>
    rw [tupleGroups]
    exact cut_append (fun g hg => length_of_mem_fillUp hg) (ih (n + 1))

theorem tupleGroups_append (idxCount n : ℕ) (ss ts : List Key) :
    tupleGroups idxCount n (ss ++ ts) =
      tupleGroups idxCount n ss ++ tupleGroups idxCount (n + ss.length) ts := by
  induction ss generalizing n with
  | nil => simp [tupleGroups]
  | cons s ss ih =>
    rw [List.cons_append, tupleGroups, ih, tupleGroups, List.append_assoc, List.length_cons,
      Nat.add_assoc, Nat.add_comm 1]

/-- The segment number in front of a group. -/
def segmentNumber (g : Key) : ℕ := (g.headD 0).toNat

theorem toNat_segmentMarker {idxCount : ℕ} (hc : idxCount ≤ 255) (n : ℕ) :
    (segmentMarker idxCount n).toNat = idxCount - n := by
  rw [segmentMarker, UInt8.toNat_ofNat']
  omega

theorem segmentNumber_of_mem {idxCount n : ℕ} (hc : idxCount ≤ 255) {s g : Key}
    (h : g ∈ groupsOf (segmentMarker idxCount n) s) : segmentNumber g = idxCount - n := by
  rw [segmentNumber, List.headD_eq_head?_getD, head_of_mem_groupsOf h, Option.getD_some,
    toNat_segmentMarker hc]

theorem segmentNumber_mem_tupleGroups {idxCount n : ℕ} (hc : idxCount ≤ 255) {ss : List Key} {g : Key}
    (h : g ∈ tupleGroups idxCount n ss) :
    idxCount - n - ss.length < segmentNumber g ∨ idxCount < n + ss.length := by
  induction ss generalizing n with
  | nil => simp [tupleGroups] at h
  | cons s ss ih =>
    rw [tupleGroups, List.mem_append] at h
    rw [List.length_cons]
    rcases h with h | h
    · rw [segmentNumber_of_mem hc h]
      omega
    · have := ih h
      omega

theorem segmentNumber_le {idxCount n : ℕ} (hc : idxCount ≤ 255) {ss : List Key} {g : Key}
    (h : g ∈ tupleGroups idxCount n ss) : segmentNumber g ≤ idxCount - n := by
  induction ss generalizing n with
  | nil => simp [tupleGroups] at h
  | cons s ss ih =>
    rw [tupleGroups, List.mem_append] at h
    rcases h with h | h
    · exact (segmentNumber_of_mem hc h).le
    · have := ih h
      omega

theorem falling_tupleGroups {idxCount : ℕ} (hc : idxCount ≤ 255) (n : ℕ) (ss : List Key) :
    Falling segmentNumber (tupleGroups idxCount n ss) := by
  induction ss generalizing n with
  | nil => exact List.Pairwise.nil
  | cons s ss ih =>
    rw [tupleGroups, Falling, List.pairwise_append]
    refine ⟨?_, ih (n + 1), ?_⟩
    · apply List.Pairwise.imp_of_mem (R := fun _ _ => True)
      · intro g h hg hh _
        rw [segmentNumber_of_mem hc hg, segmentNumber_of_mem hc hh]
      · exact List.pairwise_of_forall fun _ _ => trivial
    · intro g hg h hh
      rw [segmentNumber_of_mem hc hg]
      have := segmentNumber_le hc hh
      omega

/-- The groups of the first segments are those with the higher numbers. -/
theorem takeWhile_tupleGroups {idxCount k : ℕ} (hc : idxCount ≤ 255) {ss : List Key}
    (hlen : ss.length = idxCount) (hk : k ≤ idxCount) :
    (tupleGroups idxCount 0 ss).takeWhile (idxCount - k < segmentNumber ·) =
      tupleGroups idxCount 0 (ss.take k) := by
  have htake : (ss.take k).length = k := by simp [hlen, hk]
  conv_lhs => rw [← List.take_append_drop k ss, tupleGroups_append, htake]
  rw [List.takeWhile_append_of_pos, takeWhile_of_headNumber_le, List.append_nil]
  · cases h : tupleGroups idxCount (0 + k) (ss.drop k) with
    | nil => simp
    | cons g gs =>
      have hg : g ∈ tupleGroups idxCount (0 + k) (ss.drop k) := h ▸ List.mem_cons_self
      have := segmentNumber_le hc hg
      rw [headNumber_cons]
      omega
  · intro g hg
    have := segmentNumber_mem_tupleGroups hc hg
    apply decide_eq_true
    rw [htake] at this
    omega

theorem tupleGroups_inj {idxCount n : ℕ} (hc : idxCount ≤ 255) {ss ts : List Key}
    (hlen : ss.length = ts.length) (hn : n + ss.length ≤ idxCount)
    (h : tupleGroups idxCount n ss = tupleGroups idxCount n ts) : ss = ts := by
  induction ss generalizing n ts with
  | nil => exact (List.length_eq_zero_iff.1 hlen.symm).symm
  | cons s ss ih =>
    obtain ⟨t, ts, rfl⟩ := List.exists_cons_of_length_pos (l := ts) (by
      rw [← hlen, List.length_cons]
      omega)
    rw [List.length_cons] at hn
    -- the groups of the first segment are those with the highest number
    have first : ∀ (u : Key) (us : List Key),
        (tupleGroups idxCount n (u :: us)).takeWhile (idxCount - n - 1 < segmentNumber ·) =
          groupsOf (segmentMarker idxCount n) u := by
      intro u us
      rw [tupleGroups, List.takeWhile_append_of_pos, takeWhile_of_headNumber_le, List.append_nil]
      · cases hg : tupleGroups idxCount (n + 1) us with
        | nil => simp
        | cons g gs =>
          have hmem : g ∈ tupleGroups idxCount (n + 1) us := hg ▸ List.mem_cons_self
          have := segmentNumber_le hc hmem
          rw [headNumber_cons]
          omega
      · intro g hg
        apply decide_eq_true
        rw [segmentNumber_of_mem hc hg]
        omega
    have hst : groupsOf (segmentMarker idxCount n) s = groupsOf (segmentMarker idxCount n) t := by
      rw [← first s ss, ← first t ts, h]
    rw [tupleGroups, tupleGroups, hst, List.append_cancel_left_eq] at h
    rw [groupsOf_injective _ hst, ih (by simpa using hlen) (by omega) h]

/-- The first segments are stored alike if and only if the groups with the higher numbers are. -/
theorem take_storedTuple_iff {idxCount k : ℕ} (hc : idxCount ≤ 255) {ss ts : List Key}
    (hs : ss.length = idxCount) (ht : ts.length = idxCount) (hk : k ≤ idxCount) :
    (storedTuple ss).take k = (storedTuple ts).take k ↔
      (tupleGroups idxCount 0 (storedTuple ss)).takeWhile (idxCount - k < segmentNumber ·) =
        (tupleGroups idxCount 0 (storedTuple ts)).takeWhile (idxCount - k < segmentNumber ·) := by
  have hs' := (length_storedTuple ss).trans hs
  have ht' := (length_storedTuple ts).trans ht
  rw [takeWhile_tupleGroups hc hs' hk, takeWhile_tupleGroups hc ht' hk]
  constructor
  · intro h
    rw [h]
  · intro h
    apply tupleGroups_inj hc _ _ h
    · simp [hs', ht']
    · simp [hs', hk]

/-! ## Tuples without a null -/

theorem headNumber_tupleGroups {idxCount n : ℕ} (hc : idxCount ≤ 255) {ss : List Key}
    (hne : ∀ s ∈ ss, s ≠ []) (hlen : n + ss.length = idxCount) :
    headNumber segmentNumber (tupleGroups idxCount n ss) = idxCount - n := by
  cases ss with
  | nil =>
    rw [tupleGroups, headNumber_nil]
    simp at hlen
    omega
  | cons s ss =>
    rw [tupleGroups]
    cases hg : groupsOf (segmentMarker idxCount n) s with
    | nil => exact absurd (groupsOf_eq_nil_iff.1 hg) (hne s (by simp))
    | cons g gs =>
      rw [List.cons_append, headNumber_cons]
      apply segmentNumber_of_mem hc (s := s)
      simp [hg]

/-- Where every segment has a group, the numbers fall one by one. -/
theorem dense_tupleGroups {idxCount n : ℕ} (hc : idxCount ≤ 255) {ss : List Key}
    (hne : ∀ s ∈ ss, s ≠ []) (hlen : n + ss.length = idxCount) :
    Dense segmentNumber (tupleGroups idxCount n ss) := by
  induction ss generalizing n with
  | nil => trivial
  | cons s ss ih =>
    have hne' : ∀ t ∈ ss, t ≠ [] := fun t ht => hne t (by simp [ht])
    rw [List.length_cons] at hlen
    rw [tupleGroups]
    apply dense_append (fun g hg => segmentNumber_of_mem hc hg)
    · right
      rw [headNumber_tupleGroups hc hne' (by omega)]
      omega
    · exact ih hne' (by omega)

/-! ## Keys -/

/-- The bytes of a key as the index holds them. -/
def directed (descending : Bool) (key : Key) : Key :=
  if descending then complementKey key else key

/-- The segments of an entry of a compound index; a descending index stores at least one byte of
each. -/
structure CompoundKey (descending : Bool) (segments : ℕ) where
  tuple : List Key
  length_eq : tuple.length = segments
  ne_nil : descending = true → ∀ s ∈ tuple, s ≠ []
  deriving DecidableEq

variable {descending : Bool} {segments : ℕ}

namespace CompoundKey

def key (x : CompoundKey descending segments) : Key :=
  directed descending (joinSegments segments x.tuple)

def groups (x : CompoundKey descending segments) : List Key :=
  (tupleGroups segments 0 (storedTuple x.tuple)).map (directed descending)

/-- The first `k` segments are stored alike. -/
def SameSegments (k : ℕ) (x y : CompoundKey descending segments) : Prop :=
  (storedTuple x.tuple).take k = (storedTuple y.tuple).take k

instance (k : ℕ) (x y : CompoundKey descending segments) : Decidable (SameSegments k x y) :=
  inferInstanceAs (Decidable (_ = _))

end CompoundKey

/-- The segment number of a group as the index holds it. -/
def groupNumber (descending : Bool) (g : Key) : ℕ := segmentNumber (directed descending g)

theorem directed_flatten (d : Bool) (gs : List Key) :
    directed d gs.flatten = (gs.map (directed d)).flatten := by
  cases d with
  | false => exact congrArg List.flatten (List.map_id gs).symm
  | true => exact List.map_flatten

@[simp] theorem length_directed (d : Bool) (g : Key) : (directed d g).length = g.length := by
  cases d <;> simp [directed, complementKey]

theorem toNat_complement (b : UInt8) : (255 - b).toNat = 255 - b.toNat := by
  have hb := b.toNat_lt
  rw [UInt8.toNat_sub_of_le _ _ (by rw [UInt8.le_iff_toNat_le]; simp; omega)]
  rfl

theorem complement_complement (b : UInt8) : 255 - (255 - b) = b := by
  have hb := b.toNat_lt
  rw [← UInt8.toNat_inj, toNat_complement, toNat_complement]
  omega

@[simp] theorem directed_directed (d : Bool) (g : Key) : directed d (directed d g) = g := by
  cases d
  · rfl
  · have hid : (fun b : UInt8 => 255 - b) ∘ (fun b => 255 - b) = id := funext complement_complement
    simp [directed, complementKey, hid]

theorem directed_injective (d : Bool) : Function.Injective (directed d) :=
  Function.LeftInverse.injective (directed_directed d)

@[simp] theorem groupNumber_directed (d : Bool) (g : Key) :
    groupNumber d (directed d g) = segmentNumber g := by
  rw [groupNumber, directed_directed]

/-- What the code computes from the byte in front of a group. -/
theorem groupNumber_cons (d : Bool) (b : UInt8) (g : Key) :
    groupNumber d (b :: g) = if d then 255 - b.toNat else b.toNat := by
  cases d
  · rfl
  · exact toNat_complement b

/-- Numbers of an ascending index rise with the byte they are stored as, those of a descending
index fall. -/
theorem groupNumber_lt {d : Bool} {a b : UInt8} {u v : Key} (h : a < b) :
    if d then groupNumber d (b :: v) < groupNumber d (a :: u)
      else groupNumber d (a :: u) < groupNumber d (b :: v) := by
  have hb := b.toNat_lt
  rw [UInt8.lt_iff_toNat_lt] at h
  cases d
  · simpa [groupNumber_cons] using h
  · simp only [groupNumber_cons, if_true]
    omega

theorem cut_map_directed {gs : List Key} (h : Cut groupSize gs) (d : Bool) :
    Cut groupSize (gs.map (directed d)) := by
  refine ⟨?_, ?_, ?_⟩
  · intro g hg
    obtain ⟨g', hg', rfl⟩ := List.mem_map.1 hg
    simpa using h.two_le g' hg'
  · intro g hg
    obtain ⟨g', hg', rfl⟩ := List.mem_map.1 hg
    simpa using h.le_size g' hg'
  · intro g hg
    rw [← List.map_dropLast] at hg
    obtain ⟨g', hg', rfl⟩ := List.mem_map.1 hg
    simpa using h.full g' hg'

theorem headNumber_map_directed (d : Bool) (gs : List Key) :
    headNumber (groupNumber d) (gs.map (directed d)) = headNumber segmentNumber gs := by
  cases gs <;> simp

theorem dense_map_directed {gs : List Key} (h : Dense segmentNumber gs) (d : Bool) :
    Dense (groupNumber d) (gs.map (directed d)) := by
  induction gs with
  | nil => trivial
  | cons g gs ih =>
    rw [List.map_cons, dense_cons, headNumber_map_directed, groupNumber_directed]
    exact ⟨h.1, ih h.2⟩

namespace CompoundKey

variable (x y : CompoundKey descending segments)

theorem key_eq_flatten (hs : segments ≠ 1) : x.key = x.groups.flatten := by
  rw [key, groups, joinSegments, if_neg hs, ← flatten_tupleGroups, directed_flatten]

theorem cut_groups : Cut groupSize x.groups := cut_map_directed (cut_tupleGroups _ _ _) _

theorem falling_groups (hc : segments ≤ 255) : Falling (groupNumber descending) x.groups := by
  rw [Falling, groups, List.pairwise_map]
  simpa [Falling] using falling_tupleGroups hc 0 (storedTuple x.tuple)

theorem stored_length : (storedTuple x.tuple).length = segments :=
  (length_storedTuple _).trans x.length_eq

theorem dense_groups (hc : segments ≤ 255) (hd : descending = true) :
    Dense (groupNumber descending) x.groups := by
  apply dense_map_directed
  apply dense_tupleGroups hc (storedTuple_ne_nil (x.ne_nil hd))
  rw [stored_length, Nat.zero_add]

theorem headNumber_groups (hc : segments ≤ 255) (hd : descending = true) :
    headNumber (groupNumber descending) x.groups = segments := by
  rw [groups, headNumber_map_directed,
    headNumber_tupleGroups hc (storedTuple_ne_nil (x.ne_nil hd)) (by rw [stored_length, Nat.zero_add]),
    Nat.sub_zero]

theorem groupNumber_bounds (hc : segments ≤ 255) {g : Key} (hg : g ∈ x.groups) :
    0 < groupNumber descending g ∧ groupNumber descending g ≤ segments := by
  obtain ⟨g', hg', rfl⟩ := List.mem_map.1 hg
  rw [groupNumber_directed]
  have h₁ := segmentNumber_mem_tupleGroups hc hg'
  have h₂ := segmentNumber_le hc hg'
  rw [stored_length] at h₁
  omega

/-- The number of the first segment in which the keys differ, zero for equal keys. -/
def partNumber : ℕ :=
  max (headNumber (groupNumber descending) (parts x.groups y.groups).1)
    (headNumber (groupNumber descending) (parts x.groups y.groups).2)

/-- The first segments agree up to the one in which the keys differ. -/
theorem sameSegments_iff (hc : segments ≤ 255) {k : ℕ} (hk : k ≤ segments) :
    SameSegments k x y ↔ k + partNumber x y ≤ segments := by
  obtain ⟨c, hx, hy, hp⟩ := parts_append x.groups y.groups
  have hmap : ∀ z : CompoundKey descending segments,
      z.groups.takeWhile (segments - k < groupNumber descending ·) =
        ((tupleGroups segments 0 (storedTuple z.tuple)).takeWhile
          (segments - k < segmentNumber ·)).map (directed descending) := by
    intro z
    rw [groups, List.takeWhile_map]
    simp [Function.comp_def]
  have hpart := takeWhile_eq_iff (k := segments - k) hp (hx ▸ x.falling_groups hc)
    (hy ▸ y.falling_groups hc)
  rw [← hx, ← hy, hmap, hmap,
    (List.map_injective_iff.2 (directed_injective descending)).eq_iff] at hpart
  rw [SameSegments, take_storedTuple_iff hc x.length_eq y.length_eq hk, hpart, ← partNumber]
  omega

theorem partNumber_le (hc : segments ≤ 255) : partNumber x y ≤ segments := by
  have h := (sameSegments_iff x y hc (Nat.zero_le _)).1 rfl
  omega

/-- The groups of the keys behind the common ones. -/
structure Parted (c a b : List Key) : Prop where
  left : x.groups = c ++ a
  right : y.groups = c ++ b
  part : Part a b
  parts_eq : parts x.groups y.groups = (a, b)

theorem exists_parted : ∃ c a b, Parted x y c a b := by
  obtain ⟨c, hx, hy, hp⟩ := parts_append x.groups y.groups
  exact ⟨c, _, _, hx, hy, hp, rfl⟩

variable {x y} {c a b : List Key}

theorem Parted.partNumber_eq (h : Parted x y c a b) :
    partNumber x y = max (headNumber (groupNumber descending) a) (headNumber (groupNumber descending) b) := by
  rw [partNumber, h.parts_eq]

theorem Parted.cut_left (h : Parted x y c a b) : Cut groupSize a :=
  (h.left ▸ x.cut_groups).of_append

theorem Parted.cut_right (h : Parted x y c a b) : Cut groupSize b :=
  (h.right ▸ y.cut_groups).of_append

theorem Parted.key_left (h : Parted x y c a b) (hs : segments ≠ 1) :
    x.key = c.flatten ++ a.flatten := by
  rw [x.key_eq_flatten hs, h.left, List.flatten_append]

theorem Parted.key_right (h : Parted x y c a b) (hs : segments ≠ 1) :
    y.key = c.flatten ++ b.flatten := by
  rw [y.key_eq_flatten hs, h.right, List.flatten_append]

theorem Parted.key_eq_iff (h : Parted x y c a b) (hs : segments ≠ 1) :
    x.key = y.key ↔ a = [] ∧ b = [] := by
  rw [h.key_left hs, h.key_right hs, List.append_cancel_left_eq]
  constructor
  · exact h.cut_left.eq_nil_of_flatten_eq h.cut_right h.part
  · rintro ⟨rfl, rfl⟩
    rfl

theorem partNumber_of_key_eq (hs : segments ≠ 1) (heq : x.key = y.key) : x.partNumber y = 0 := by
  obtain ⟨c, a, b, h⟩ := x.exists_parted y
  obtain ⟨rfl, rfl⟩ := (h.key_eq_iff hs).1 heq
  rw [h.partNumber_eq, headNumber_nil, max_self]

/-- The common groups are full where the keys differ. -/
theorem Parted.full (h : Parted x y c a b) (hne : ¬ (a = [] ∧ b = [])) : ∀ g ∈ c, g.length = groupSize := by
  rw [not_and_or] at hne
  rcases hne with ha | hb
  · exact (h.left ▸ x.cut_groups).full_of_append ha
  · exact (h.right ▸ y.cut_groups).full_of_append hb

theorem Parted.length_common (h : Parted x y c a b) (hne : ¬ (a = [] ∧ b = [])) :
    c.flatten.length = groupSize * c.length :=
  length_flatten_of_full (h.full hne)

theorem Parted.lcp_lt (h : Parted x y c a b) : lcp a.flatten b.flatten < groupSize :=
  h.cut_left.lcp_lt h.cut_right (by decide) h.part

theorem Parted.lcp_key (h : Parted x y c a b) (hs : segments ≠ 1) :
    lcp x.key y.key = c.flatten.length + lcp a.flatten b.flatten := by
  rw [h.key_left hs, h.key_right hs, lcp_append]

theorem headNumber_of_flatten {a : List Key} (h : Cut groupSize a) {m : UInt8} {w : Key}
    (hm : a.flatten = m :: w) :
    headNumber (groupNumber descending) a = if descending then 255 - m.toNat else m.toNat := by
  cases a with
  | nil => simp at hm
  | cons g a =>
    obtain ⟨m', g, rfl⟩ := List.exists_cons_of_ne_nil (h.ne_nil g (by simp))
    rw [List.flatten_cons, List.cons_append] at hm
    rw [headNumber_cons, groupNumber_cons, (List.cons.inj hm).1]

theorem Parted.headNumber_pos_left (h : Parted x y c a b) (hc : segments ≤ 255) (ha : a ≠ []) :
    0 < headNumber (groupNumber descending) a := by
  obtain ⟨g, a, rfl⟩ := List.exists_cons_of_ne_nil ha
  rw [headNumber_cons]
  exact (x.groupNumber_bounds hc (by simp [h.left])).1

theorem Parted.headNumber_pos_right (h : Parted x y c a b) (hc : segments ≤ 255) (hb : b ≠ []) :
    0 < headNumber (groupNumber descending) b := by
  obtain ⟨g, b, rfl⟩ := List.exists_cons_of_ne_nil hb
  rw [headNumber_cons]
  exact (y.groupNumber_bounds hc (by simp [h.right])).1

/-- Keys that part within a group do so in one segment. -/
theorem Parted.inside (h : Parted x y c a b) (hpos : 0 < lcp a.flatten b.flatten) :
    ∃ m u v, a.flatten = m :: u ∧ b.flatten = m :: v ∧ u ≠ [] ∧ v ≠ [] ∧
      partNumber x y = (if descending then 255 - m.toNat else m.toNat) := by
  obtain ⟨hhead, hne⟩ := lcp_pos_iff.1 hpos
  obtain ⟨m, u, hu⟩ := List.exists_cons_of_ne_nil hne
  have two : ∀ {a : List Key} {m : UInt8} {u : Key}, Cut groupSize a → a.flatten = m :: u → u ≠ [] := by
    rintro a m u ha hu rfl
    cases a with
    | nil => simp at hu
    | cons g a =>
      have h₁ := ha.two_le g (by simp)
      have h₂ := congrArg List.length hu
      rw [List.flatten_cons, List.length_append, List.length_singleton] at h₂
      omega
  cases hb : b.flatten with
  | nil => simp [hu, hb] at hhead
  | cons m' v =>
    obtain rfl : m = m' := by simpa [hu, hb] using hhead
    refine ⟨m, u, v, hu, rfl, two h.cut_left hu, two h.cut_right hb, ?_⟩
    rw [h.partNumber_eq, headNumber_of_flatten h.cut_left hu, headNumber_of_flatten h.cut_right hb,
      max_self]

theorem Parted.before (h : Parted x y c a b) (hs : segments ≠ 1) (hle : AtMost descending x.key y.key)
    (hne : ¬ (a = [] ∧ b = [])) : Before descending a.flatten b.flatten := by
  rcases hle.eq_or_before with heq | hb
  · exact absurd ((h.key_eq_iff hs).1 heq) hne
  · rwa [h.key_left hs, h.key_right hs, before_append] at hb

/-- Where the keys part between groups, the later one goes on with a higher segment number in an
ascending index, that is with an earlier segment, and with a lower one in a descending index. -/
theorem Parted.boundary (h : Parted x y c a b) (hs : segments ≠ 1) (hc : segments ≤ 255)
    (hle : AtMost descending x.key y.key) (hne : ¬ (a = [] ∧ b = []))
    (hzero : lcp a.flatten b.flatten = 0) :
    if descending
    then a ≠ [] ∧ headNumber (groupNumber descending) b < headNumber (groupNumber descending) a
    else b ≠ [] ∧ headNumber (groupNumber descending) a < headNumber (groupNumber descending) b := by
  have hbefore := h.before hs hle hne
  cases ha : a.flatten with
  | nil =>
    have hanil := h.cut_left.flatten_eq_nil_iff.1 ha
    have hbnil : b ≠ [] := fun hb => hne ⟨hanil, hb⟩
    cases hb : b.flatten with
    | nil => exact absurd (h.cut_right.flatten_eq_nil_iff.1 hb) hbnil
    | cons m v =>
      rw [ha, hb] at hbefore
      have hd : descending = false := hbefore
      simp only [hd, Bool.false_eq_true, if_false]
      refine ⟨hbnil, ?_⟩
      rw [hanil, headNumber_nil, ← hd]
      exact h.headNumber_pos_right hc hbnil
  | cons m u =>
    have hanil : a ≠ [] := by
      rintro rfl
      simp at ha
    cases hb : b.flatten with
    | nil =>
      have hbnil := h.cut_right.flatten_eq_nil_iff.1 hb
      rw [ha, hb] at hbefore
      have hd : descending = true := hbefore
      simp only [hd, if_true]
      refine ⟨hanil, ?_⟩
      rw [hbnil, headNumber_nil, ← hd]
      exact h.headNumber_pos_left hc hanil
    | cons m' v =>
      have hbnil : b ≠ [] := by
        rintro rfl
        simp at hb
      rw [ha, hb] at hbefore hzero
      have hlt : m < m' := by
        rcases hbefore with hlt | ⟨rfl, -⟩
        · exact hlt
        · simp [lcp] at hzero
      have hnum := groupNumber_lt (d := descending) (u := u) (v := v) hlt
      rw [headNumber_of_flatten h.cut_left ha, headNumber_of_flatten h.cut_right hb]
      rw [groupNumber_cons, groupNumber_cons] at hnum
      cases descending
      · exact ⟨hbnil, hnum⟩
      · exact ⟨hanil, hnum⟩

end CompoundKey

end FirebirdCore.Btr
