import FirebirdCore.Btr.JumpNodes
import FirebirdCore.Btr.SegmentGroups

/-!
# Duplicates per segment

`BTR_selectivity` walks the leaf pages and counts, for every number of leading segments, the
entries that repeat those segments of the entry before; `fast_load` counts the same while it fills
the pages. Both deduce the segment in which a key differs from its predecessor from the length of
the common prefix and from the segment numbers stored in the key.
-/
namespace FirebirdCore.Btr
open FirebirdCore.KeyOrder FirebirdCore.Blocks FirebirdCore.TupleKey

/-! ## The count of one entry -/

/-- Look for duplicates in the segments: the last segment number passed, and whether both keys
have ended. A key that ends with a segment number is read beyond its end. -/
def lookForDuplicates : List UInt8 → List UInt8 → ℕ → UInt8 → Option (UInt8 × Bool)
  | a :: p1, b :: p2, 0, count =>
      if a ≠ b then some (count, false)
      else
        match p1, p2 with
        | a' :: p1, b' :: p2 =>
            if a' ≠ b' then some (b, false) else lookForDuplicates p1 p2 (stuffCount - 1) b
        | _, _ => none
  | a :: p1, b :: p2, stuff + 1, count =>
      if a ≠ b then some (count, false) else lookForDuplicates p1 p2 stuff count
  | p1, p2, _, count => some (count, p1.isEmpty && p2.isEmpty)

/-- Where the comparison starts: the rest of the key before, the bytes left of the current group
and the segment number. `behind` is the byte that follows the data. -/
def startOfComparison (key data : List UInt8) (prefixLen : ℕ) (behind : UInt8) :
    Option (List UInt8 × ℕ × UInt8) :=
  if prefixLen = 0 then some (key, 0, data.headD behind)
  else
    -- find the segment number where we're starting
    let i := prefixLen / (stuffCount + 1) * (stuffCount + 1)
    let stuff := stuffCount + 1 - (prefixLen - i)
    if i = prefixLen then some (key.drop prefixLen, stuff, data.headD behind)
    else key[i]?.map fun count => (key.drop prefixLen, stuff, count)

/-- The segment in which an entry differs from the key before it, counted from the end; zero when
all segments are duplicates. -/
def segmentCount (descending : Bool) (key data : List UInt8) (prefixLen : ℕ) (behind : UInt8) :
    Option ℕ := do
  let (p1, stuff, count) ← startOfComparison key data prefixLen behind
  let (count, ended) ← lookForDuplicates p1 data stuff count
  -- the segment number of a descending index is complemented
  let count := if descending then 255 - count.toNat else count.toNat
  return if ended then 0 else count

/-- `for (ULONG i = count + 1; i <= segments; i++) duplicatesList[segments - i]++`. -/
def addDuplicates (segments count : ℕ) (duplicatesList : List ℕ) : List ℕ :=
  (List.range' (count + 1) (segments - count)).foldl
    (fun list i => list.modify (segments - i) (· + 1)) duplicatesList

/-! ## The walk over the leaf pages -/

structure SelectivityState where
  key : Key
  firstNode : Bool
  duplicatesList : List ℕ

/-- The nodes of a bucket from `node` on, which ends before `pointer`; at the end, whether that is
the end of the level. -/
def selectivityBucket (bucket : BtreePage) (descending : Bool) (segments : ℕ) :
    ℕ → IndexNode → ℕ → SelectivityState → Option (SelectivityState × Bool)
  | 0, _, _, _ => none
  | fuel + 1, node, pointer, s =>
      if node.isEndBucket || node.isEndLevel then some (s, node.isEndLevel)
      else do
        let duplicatesList ←
          if segments > 1 && !s.firstNode then
            (segmentCount descending s.key node.data node.prefixLen
              ((bucket.bytesAt pointer).headD 0)).map (addDuplicates segments · s.duplicatesList)
          else some s.duplicatesList
        let r := bucket.readNode pointer
        selectivityBucket bucket descending segments fuel r.1 r.2
          ⟨nodeKey s.key node, false, duplicatesList⟩

/-- The leaf pages from `page` on. -/
def selectivityPages (pages : ℕ → BtreePage) (descending : Bool) (segments : ℕ) :
    ℕ → ℕ → SelectivityState → Option (List ℕ)
  | 0, _, _ => none
  | fuel + 1, page, s => do
      let bucket := pages page
      let r := bucket.readNode bucket.firstNode
      let (s, endLevel) ←
        selectivityBucket bucket descending segments (bucket.btrLength + 1) r.1 r.2 s
      if endLevel || bucket.btrSibling == 0 then return s.duplicatesList
      else selectivityPages pages descending segments fuel bucket.btrSibling s

/-- `BTR_selectivity` from the first leaf page on: the duplicates of each number of segments. -/
def btrSelectivity (pages : ℕ → BtreePage) (descending : Bool) (segments fuel page : ℕ) :
    Option (List ℕ) :=
  selectivityPages pages descending segments fuel page ⟨[], true, List.replicate segments 0⟩

/-! ## The load of sorted keys -/

/-- A record of the sort: the key filled up to the length of all keys, then the
`index_sort_record`. -/
structure SortRecord where
  bytes : List UInt8
  isrKeyLength : ℕ

/-- The record `IDX_create_index` gives to the sort. -/
def SortRecord.ofKey (keyLength : ℕ) (descending : Bool) (key : Key) (isr : List UInt8) :
    SortRecord where
  bytes := key ++ List.replicate (keyLength - key.length) (if descending then 255 else 0) ++ isr
  isrKeyLength := key.length

/-- The duplicate counting of `fast_load`; `count` entries have been loaded. -/
def fastLoadLoop (descending : Bool) (segments : ℕ) :
    List SortRecord → Key → ℕ → List ℕ → Option (List ℕ)
  | [], _, _, duplicatesList => some duplicatesList
  | record :: records, key, count, duplicatesList => do
      let newKey := record.bytes.take record.isrKeyLength
      let prefixLen := computePrefix key newKey
      let duplicatesList ←
        if segments > 1 && count + 1 > 1 then
          (segmentCount descending key (newKey.drop prefixLen) prefixLen
            ((record.bytes.drop record.isrKeyLength).headD 0)).map
              (addDuplicates segments · duplicatesList)
        else some duplicatesList
      fastLoadLoop descending segments records newKey (count + 1) duplicatesList

def fastLoad (descending : Bool) (segments : ℕ) (records : List SortRecord) : Option (List ℕ) :=
  fastLoadLoop descending segments records [] 0 (List.replicate segments 0)

/-! ## What is to be counted -/

/-- The entries next to each other. -/
def adjacent {α : Type} (xs : List α) : List (α × α) := xs.zip xs.tail

/-- For each number of segments the adjacent entries that agree in so many leading ones. -/
def duplicateCounts {descending : Bool} {segments : ℕ}
    (entries : List (CompoundKey descending segments)) : List ℕ :=
  (List.range segments).map fun i =>
    (adjacent entries).countP fun p => CompoundKey.SameSegments (i + 1) p.1 p.2

/-- The keys of the nodes of a leaf page. -/
def leafKeys : Key → List IndexNode → List Key
  | _, [] => []
  | prev, n :: ns =>
      if n.isEndBucket || n.isEndLevel then []
      else nodeKey prev n :: leafKeys (nodeKey prev n) ns

/-- The page holds these keys. -/
structure HoldsKeys (page : BtreePage) (descending endLevel : Bool) (keys : List Key) : Prop where
  nodes : ∃ js ns, Layout page js ns ∧ Chain descending none ns ∧ leafKeys [] ns = keys ∧
    ns.getLast?.any (·.isEndLevel) = endLevel

/-- The leaf pages from `page` on hold the entries, cut into pages. -/
def LeafChain {descending : Bool} {segments : ℕ} (pages : ℕ → BtreePage) :
    ℕ → List (List (CompoundKey descending segments)) → Prop
  | _, [] => False
  | page, [xs] => ∃ endLevel, HoldsKeys (pages page) descending endLevel (xs.map (·.key)) ∧
      (endLevel = true ∨ (pages page).btrSibling = 0)
  | page, xs :: ys :: rest => HoldsKeys (pages page) descending false (xs.map (·.key)) ∧
      (pages page).btrSibling ≠ 0 ∧ LeafChain pages (pages page).btrSibling (ys :: rest)

/-! ## Comparing keys -/

@[simp] theorem lookForDuplicates_nil (k : ℕ) (count : UInt8) :
    lookForDuplicates [] [] k count = some (count, true) := by
  cases k <;> rfl

/-- The comparison stops in the current group when the keys part there. -/
theorem lookForDuplicates_part {u v : List UInt8} {k : ℕ} (count : UInt8) (hne : u ≠ v)
    (h : lcp u v ≤ k) : lookForDuplicates u v k count = some (count, false) := by
  induction u generalizing v k with
  | nil =>
    cases v with
    | nil => exact absurd rfl hne
    | cons b v => cases k <;> rfl
  | cons a u ih =>
    cases v with
    | nil => cases k <;> rfl
    | cons b v =>
      by_cases hab : a = b
      · subst hab
        cases k with
        | zero => simp [lcp] at h
        | succ k =>
          rw [lookForDuplicates, if_neg (by simp)]
          apply ih (by simpa using hne)
          simpa [lcp] using h
      · cases k with
        | zero => cases u <;> cases v <;> simp [lookForDuplicates, hab]
        | succ k => rw [lookForDuplicates, if_pos hab]

theorem lookForDuplicates_self {u : List UInt8} {k : ℕ} (count : UInt8) (h : u.length ≤ k) :
    lookForDuplicates u u k count = some (count, true) := by
  induction u generalizing k with
  | nil => exact lookForDuplicates_nil k count
  | cons a u ih =>
    cases k with
    | zero => simp at h
    | succ k =>
      rw [lookForDuplicates, if_neg (by simp)]
      exact ih (by simpa using h)

theorem exists_group {g : Key} (hg : g.length = groupSize) :
    ∃ m b₁ b₂ b₃ b₄, g = [m, b₁, b₂, b₃, b₄] := by
  obtain ⟨m, g, rfl⟩ := List.exists_cons_of_length_eq_add_one hg
  obtain ⟨b₁, g, rfl⟩ := List.exists_cons_of_length_eq_add_one (Nat.succ.inj hg)
  obtain ⟨b₂, g, rfl⟩ := List.exists_cons_of_length_eq_add_one (Nat.succ.inj (Nat.succ.inj hg))
  simp only [groupSize, stuffCount, List.length_cons] at hg
  obtain ⟨b₃, b₄, rfl⟩ := List.length_eq_two.1 (show g.length = 2 by omega)
  exact ⟨m, b₁, b₂, b₃, b₄, rfl⟩

/-- The comparison passes a common group and notes its segment number. -/
theorem lookForDuplicates_group {g u v : List UInt8} (count : UInt8) (hg : g.length = groupSize) :
    lookForDuplicates (g ++ u) (g ++ v) 0 count = lookForDuplicates u v 0 (g.headD 0) := by
  obtain ⟨m, b₁, b₂, b₃, b₄, rfl⟩ := exists_group hg
  simp [lookForDuplicates, stuffCount]

/-- The segment number noted last when the groups have been passed. -/
def lastNumber (c : List Key) (count : UInt8) : UInt8 := c.foldl (fun _ g => g.headD 0) count

@[simp] theorem lastNumber_concat (c : List Key) (g : Key) (count : UInt8) :
    lastNumber (c ++ [g]) count = g.headD 0 := by
  simp [lastNumber]

theorem lookForDuplicates_common {c : List Key} {u v : List UInt8} (count : UInt8)
    (hc : ∀ g ∈ c, g.length = groupSize) :
    lookForDuplicates (c.flatten ++ u) (c.flatten ++ v) 0 count =
      lookForDuplicates u v 0 (lastNumber c count) := by
  induction c generalizing count with
  | nil => rfl
  | cons g c ih =>
    rw [List.flatten_cons, List.append_assoc, List.append_assoc,
      lookForDuplicates_group count (hc g (by simp)), ih _ fun x hx => hc x (by simp [hx])]
    rfl

/-- The comparison of a key with itself reaches the end. -/
theorem lookForDuplicates_groups {gs : List Key} (count : UInt8) (h : Cut groupSize gs) :
    ∃ n, lookForDuplicates gs.flatten gs.flatten 0 count = some (n, true) := by
  induction gs generalizing count with
  | nil => exact ⟨count, lookForDuplicates_nil 0 count⟩
  | cons g gs ih =>
    have htail : Cut groupSize gs := Cut.of_append (c := [g]) h
    cases gs with
    | nil =>
      have h₁ := h.two_le g (by simp)
      have h₂ := h.le_size g (by simp)
      obtain ⟨m, u, rfl⟩ := List.exists_cons_of_length_pos (l := g) (by omega)
      obtain ⟨b, u, rfl⟩ := List.exists_cons_of_length_pos (l := u) (by
        rw [List.length_cons] at h₁
        omega)
      simp only [List.length_cons, groupSize, stuffCount] at h₂
      refine ⟨m, ?_⟩
      rw [List.flatten_cons, List.flatten_nil, List.append_nil]
      simp only [lookForDuplicates, ne_eq, not_true_eq_false, if_false]
      apply lookForDuplicates_self
      rw [stuffCount]
      omega
    | cons g' gs =>
      obtain ⟨n, hn⟩ := ih (g.headD 0) htail
      refine ⟨n, ?_⟩
      rw [List.flatten_cons, lookForDuplicates_group count (h.full g (by simp))]
      exact hn

/-! ## The count is the segment where the keys part -/

variable {descending : Bool} {segments : ℕ} {x y : CompoundKey descending segments}

/-- The keys differ from the start of a group on. -/
def PartsAtGroup (a b : Key) : Prop := a ≠ b ∧ lcp a b % groupSize = 0

instance (a b : Key) : Decidable (PartsAtGroup a b) := inferInstanceAs (Decidable (_ ∧ _))

theorem CompoundKey.Parted.partsAtGroup_iff {c a b : List Key} (h : x.Parted y c a b) (hs : segments ≠ 1) :
    PartsAtGroup x.key y.key ↔ ¬ (a = [] ∧ b = []) ∧ lcp a.flatten b.flatten = 0 := by
  unfold PartsAtGroup
  rw [Ne, h.key_eq_iff hs]
  apply and_congr_right
  intro hne
  have hlt := h.lcp_lt
  rw [h.lcp_key hs, h.length_common hne, Nat.mul_add_mod, Nat.mod_eq_of_lt hlt]

theorem startOfComparison_mod (key data : List UInt8) {prefixLen : ℕ} (behind : UInt8)
    (h : prefixLen % groupSize = 0) : ∃ stuff,
      startOfComparison key data prefixLen behind =
        some (key.drop prefixLen, stuff, data.headD behind) := by
  unfold startOfComparison
  have hi : prefixLen / (stuffCount + 1) * (stuffCount + 1) = prefixLen :=
    Nat.div_mul_cancel (Nat.dvd_of_mod_eq_zero h)
  by_cases hz : prefixLen = 0
  · refine ⟨0, ?_⟩
    simp [hz]
  · rw [if_neg hz]
    dsimp only
    rw [if_pos hi]
    exact ⟨_, rfl⟩

theorem startOfComparison_inside (key data : List UInt8) {i r : ℕ} (behind : UInt8) {m : UInt8}
    (hi : i % groupSize = 0) (hr : 0 < r) (hlt : r < groupSize) (hm : key[i]? = some m) :
    ∃ stuff, startOfComparison key data (i + r) behind = some (key.drop (i + r), stuff, m) := by
  unfold startOfComparison
  have hdiv : (i + r) / (stuffCount + 1) * (stuffCount + 1) = i := by
    unfold groupSize at hi hlt
    rw [stuffCount] at *
    omega
  rw [if_neg (by omega)]
  dsimp only
  rw [hdiv, if_neg (by omega), hm]
  exact ⟨_, rfl⟩

theorem drop_lcp_ne {a b : Key} (h : a ≠ b) : a.drop (lcp a b) ≠ b.drop (lcp a b) := by
  intro hdrop
  apply h
  rw [← List.take_append_drop (lcp a b) a, hdrop, take_lcp, List.take_append_drop]

theorem segmentCount_eq {d : Bool} {key data p1 : List UInt8} {prefixLen stuff : ℕ}
    {behind m : UInt8} (hstart : startOfComparison key data prefixLen behind = some (p1, stuff, m))
    (hlcp : lcp p1 data = 0) (hne : p1 ≠ data) :
    segmentCount d key data prefixLen behind = some (if d then 255 - m.toNat else m.toNat) := by
  unfold segmentCount
  rw [hstart]
  simp only [Option.bind_eq_bind, Option.bind_some,
    lookForDuplicates_part m hne (hlcp.trans_le (Nat.zero_le stuff))]
  rfl

theorem segmentCount_self (d : Bool) (key : Key) (behind : UInt8) :
    segmentCount d key [] key.length behind = some 0 := by
  have hstart : ∃ stuff m, startOfComparison key [] key.length behind = some ([], stuff, m) := by
    by_cases hmod : key.length % groupSize = 0
    · obtain ⟨stuff, hst⟩ := startOfComparison_mod key [] behind hmod
      rw [List.drop_length] at hst
      exact ⟨stuff, _, hst⟩
    · have hdiv := Nat.div_add_mod key.length groupSize
      have hlt : key.length % groupSize < groupSize := Nat.mod_lt _ (by decide)
      obtain ⟨stuff, hst⟩ := startOfComparison_inside key [] behind
        (Nat.mul_mod_right groupSize (key.length / groupSize)) (Nat.pos_of_ne_zero hmod) hlt
        (List.getElem?_eq_getElem (by omega))
      rw [hdiv, List.drop_length] at hst
      exact ⟨stuff, _, hst⟩
  obtain ⟨stuff, m, hst⟩ := hstart
  unfold segmentCount
  rw [hst]
  simp

namespace CompoundKey

/-- What follows the common bytes of both keys. -/
theorem Parted.drop_common {c a b : List Key} (h : x.Parted y c a b) (hs : segments ≠ 1) :
    x.key.drop c.flatten.length = a.flatten ∧ y.key.drop c.flatten.length = b.flatten := by
  rw [h.key_left hs, h.key_right hs, List.drop_left, List.drop_left]
  exact ⟨rfl, rfl⟩

end CompoundKey

/-- The count of an entry that is compressed against the one before. Where the keys part between
groups it is taken from the later key, or from the byte behind it. -/
theorem segmentCount_lcp (hs : segments ≠ 1) (hc : segments ≤ 255)
    (hle : AtMost descending x.key y.key) (behind : UInt8)
    (hb : descending = true → PartsAtGroup x.key y.key → y.key.length < x.key.length → behind = 255) :
    segmentCount descending x.key (y.key.drop (lcp x.key y.key)) (lcp x.key y.key) behind =
      some (if PartsAtGroup x.key y.key
        then headNumber (groupNumber descending) (parts x.groups y.groups).2
        else x.partNumber y) := by
  obtain ⟨c, a, b, h⟩ := x.exists_parted y
  by_cases hnil : a = [] ∧ b = []
  · have heq := (h.key_eq_iff hs).2 hnil
    rw [if_neg fun hp => hp.1 heq, CompoundKey.partNumber_of_key_eq hs heq, ← heq, lcp_self,
      List.drop_length]
    exact segmentCount_self _ _ _
  have hne : x.key ≠ y.key := mt (h.key_eq_iff hs).1 hnil
  have hlcp := h.lcp_key hs
  have hlen := h.length_common hnil
  have hdrop : lcp (x.key.drop (lcp x.key y.key)) (y.key.drop (lcp x.key y.key)) = 0 := by
    rw [lcp_drop le_rfl, Nat.sub_self]
  obtain hzero | hpos := Nat.eq_zero_or_pos (lcp a.flatten b.flatten)
  · have hparts : PartsAtGroup x.key y.key := (h.partsAtGroup_iff hs).2 ⟨hnil, hzero⟩
    obtain ⟨stuff, hst⟩ := startOfComparison_mod x.key (y.key.drop (lcp x.key y.key)) behind
      hparts.2
    rw [segmentCount_eq hst hdrop (drop_lcp_ne hne), if_pos hparts, h.parts_eq]
    have hb' : y.key.drop (lcp x.key y.key) = b.flatten := by
      rw [hlcp, hzero, Nat.add_zero, (h.drop_common hs).2]
    rw [hb']
    cases hbf : b.flatten with
    | nil =>
      have hbnil := h.cut_right.flatten_eq_nil_iff.1 hbf
      have hbefore := h.boundary hs hc hle hnil hzero
      cases hd : descending with
      | false =>
        rw [if_neg (by simp [hd])] at hbefore
        exact absurd hbnil hbefore.1
      | true =>
        have hshort : y.key.length < x.key.length := by
          have ha : a.flatten ≠ [] := fun ha => hnil ⟨h.cut_left.flatten_eq_nil_iff.1 ha, hbnil⟩
          have hpos := List.length_pos_iff.2 ha
          rw [h.key_left hs, h.key_right hs, hbf, List.length_append, List.length_append,
            List.length_nil]
          omega
        rw [hb hd hparts hshort, hbnil]
        rfl
    | cons m v =>
      rw [CompoundKey.headNumber_of_flatten h.cut_right hbf]
      rfl
  · have hparts : ¬ PartsAtGroup x.key y.key := by
      rw [h.partsAtGroup_iff hs]
      omega
    obtain ⟨m, u, v, ha, -, -, -, hnum⟩ := h.inside hpos
    have hm : x.key[c.flatten.length]? = some m := by
      rw [h.key_left hs, ha, List.getElem?_append_right le_rfl, Nat.sub_self]
      rfl
    have hmod : c.flatten.length % groupSize = 0 := by rw [hlen, Nat.mul_mod_right]
    obtain ⟨stuff, hst⟩ := startOfComparison_inside x.key (y.key.drop (lcp x.key y.key)) behind
      hmod hpos h.lcp_lt hm
    rw [← hlcp] at hst
    rw [segmentCount_eq hst hdrop (drop_lcp_ne hne), if_neg hparts, hnum]

/-- In an ascending index the first byte behind the common prefix belongs to the segment in which
the keys differ. -/
theorem partNumber_ascending (hs : segments ≠ 1) (hc : segments ≤ 255) (hd : descending = false)
    (hle : AtMost descending x.key y.key) (hp : PartsAtGroup x.key y.key) :
    headNumber (groupNumber descending) (parts x.groups y.groups).2 = x.partNumber y := by
  obtain ⟨c, a, b, h⟩ := x.exists_parted y
  obtain ⟨hnil, hzero⟩ := (h.partsAtGroup_iff hs).1 hp
  have hb := h.boundary hs hc hle hnil hzero
  rw [if_neg (by simp [hd])] at hb
  rw [h.parts_eq, h.partNumber_eq, max_eq_right hb.2.le]

/-- In a descending index it belongs to a later one. -/
theorem partNumber_descending (hs : segments ≠ 1) (hc : segments ≤ 255) (hd : descending = true)
    (hle : AtMost descending x.key y.key) (hp : PartsAtGroup x.key y.key) :
    headNumber (groupNumber descending) (parts x.groups y.groups).2 < x.partNumber y := by
  obtain ⟨c, a, b, h⟩ := x.exists_parted y
  obtain ⟨hnil, hzero⟩ := (h.partsAtGroup_iff hs).1 hp
  have hb := h.boundary hs hc hle hnil hzero
  rw [if_pos hd] at hb
  rw [h.parts_eq, h.partNumber_eq]
  exact lt_max_of_lt_left hb.2

/-! ## The first entry of a page -/

/-- The keys differ from the start of a group on, which belongs to another segment than the group
before it. -/
def PartsAtSegment (a b : Key) : Prop :=
  PartsAtGroup a b ∧ 0 < lcp a b ∧ b[lcp a b - groupSize]? ≠ b[lcp a b]?

instance (a b : Key) : Decidable (PartsAtSegment a b) := inferInstanceAs (Decidable (_ ∧ _))

theorem segmentCount_first_self (d : Bool) (hs : segments ≠ 1) (behind : UInt8) :
    segmentCount d x.key x.key 0 behind = some 0 := by
  obtain ⟨n, hn⟩ := lookForDuplicates_groups (x.key.headD behind) x.cut_groups
  rw [← x.key_eq_flatten hs] at hn
  unfold segmentCount startOfComparison
  rw [if_pos rfl]
  simp only [Option.bind_eq_bind, Option.bind_some, hn, if_true]
  rfl

/-- The comparison of whole keys stops in the group in which they part. -/
theorem segmentCount_first_inside (hs : segments ≠ 1) {c a b : List Key} (h : x.Parted y c a b)
    (hpos : 0 < lcp a.flatten b.flatten) (behind : UInt8) :
    segmentCount descending x.key y.key 0 behind = some (x.partNumber y) := by
  have hnil : ¬ (a = [] ∧ b = []) := by
    rintro ⟨rfl, rfl⟩
    simp at hpos
  obtain ⟨m, u, v, ha, hb, hu, hv, hnum⟩ := h.inside hpos
  have hlook : ∀ count, lookForDuplicates a.flatten b.flatten 0 count = some (m, false) := by
    intro count
    have hlt := h.lcp_lt
    have hne : u ≠ v := by
      rintro rfl
      exact hnil (h.cut_left.eq_nil_of_flatten_eq h.cut_right h.part (ha.trans hb.symm))
    obtain ⟨a', u, rfl⟩ := List.exists_cons_of_ne_nil hu
    obtain ⟨b', v, rfl⟩ := List.exists_cons_of_ne_nil hv
    rw [ha, hb] at hlt ⊢
    simp only [lookForDuplicates, ne_eq, not_true_eq_false, if_false]
    by_cases hab : a' = b'
    · subst hab
      rw [if_neg (by simp)]
      apply lookForDuplicates_part m (by simpa using hne)
      simp only [lcp, if_true, groupSize, stuffCount] at hlt ⊢
      omega
    · rw [if_pos hab]
  unfold segmentCount startOfComparison
  rw [if_pos rfl]
  simp only [Option.bind_eq_bind, Option.bind_some]
  rw [h.key_left hs, h.key_right hs, lookForDuplicates_common _ (h.full hnil), hlook, hnum]
  rfl

/-- Where they part between groups, the number of the last common group is counted. -/
theorem segmentCount_first_boundary (hs : segments ≠ 1) {c a b : List Key} (h : x.Parted y c a b)
    (hnil : ¬ (a = [] ∧ b = [])) (hzero : lcp a.flatten b.flatten = 0) (behind : UInt8) :
    let m := lastNumber c (y.key.headD behind)
    segmentCount descending x.key y.key 0 behind =
      some (if descending then 255 - m.toNat else m.toNat) := by
  have hne : a.flatten ≠ b.flatten := by
    intro hab
    exact hnil (h.cut_left.eq_nil_of_flatten_eq h.cut_right h.part hab)
  unfold segmentCount startOfComparison
  rw [if_pos rfl]
  simp only [Option.bind_eq_bind, Option.bind_some]
  rw [h.key_left hs, h.key_right hs, lookForDuplicates_common _ (h.full hnil),
    lookForDuplicates_part _ hne hzero.le]
  rfl

theorem count_headD (d : Bool) {g : Key} (hg : g ≠ []) :
    (if d then 255 - (g.headD 0).toNat else (g.headD 0).toNat) = groupNumber d g := by
  obtain ⟨m, g, rfl⟩ := List.exists_cons_of_ne_nil hg
  rw [groupNumber_cons, List.headD_cons]

/-- In an ascending index the first entry of a page is counted too high when the segment in which
it differs is null in the entry before and an earlier one is not. -/
theorem segmentCount_first_ascending (hs : segments ≠ 1) (hc : segments ≤ 255)
    (hd : descending = false) (hle : AtMost descending x.key y.key) :
    ∃ n, (∀ behind, segmentCount descending x.key y.key 0 behind = some n) ∧
      x.partNumber y ≤ n ∧ n ≤ segments ∧
        (x.partNumber y = n ↔ ¬ PartsAtSegment x.key y.key) := by
  have hd' : ¬ descending = true := by simp [hd]
  obtain ⟨c, a, b, h⟩ := x.exists_parted y
  by_cases hnil : a = [] ∧ b = []
  · have heq := (h.key_eq_iff hs).2 hnil
    refine ⟨0, ?_, ?_, Nat.zero_le _, ?_⟩
    · intro behind
      rw [← heq]
      exact segmentCount_first_self _ hs behind
    · rw [CompoundKey.partNumber_of_key_eq hs heq]
    · rw [CompoundKey.partNumber_of_key_eq hs heq]
      simp [PartsAtSegment, PartsAtGroup, heq]
  obtain hzero | hpos := Nat.eq_zero_or_pos (lcp a.flatten b.flatten)
  · have hgroup : PartsAtGroup x.key y.key := (h.partsAtGroup_iff hs).2 ⟨hnil, hzero⟩
    have hpart := partNumber_ascending hs hc hd hle hgroup
    have hbound := h.boundary hs hc hle hnil hzero
    rw [if_neg hd'] at hbound
    have hbf : b.flatten ≠ [] := mt h.cut_right.flatten_eq_nil_iff.1 hbound.1
    obtain ⟨m, v, hm⟩ := List.exists_cons_of_ne_nil hbf
    rw [h.parts_eq, CompoundKey.headNumber_of_flatten h.cut_right hm, if_neg hd'] at hpart
    have hlcp : lcp x.key y.key = c.flatten.length := by
      rw [h.lcp_key hs, hzero, Nat.add_zero]
    have hnext : y.key[lcp x.key y.key]? = some m := by
      rw [hlcp, h.key_right hs, hm, List.getElem?_append_right le_rfl, Nat.sub_self]
      rfl
    have hcount := segmentCount_first_boundary hs h hnil hzero
    dsimp only at hcount
    obtain rfl | ⟨c', g, rfl⟩ := c.eq_nil_or_concat'
    · -- the first group: its number is taken from the later key
      refine ⟨m.toNat, ?_, hpart.ge, hpart.trans_le (x.partNumber_le y hc), ?_⟩
      · intro behind
        rw [hcount behind, if_neg hd', h.key_right hs, hm]
        rfl
      · have hfirst : ¬ PartsAtSegment x.key y.key := by
          intro hp
          have hpos := hp.2.1
          rw [hlcp] at hpos
          simp at hpos
        simp [hfirst, hpart]
    · have hg : g.length = groupSize := h.full hnil g (by simp)
      obtain ⟨m', u, rfl⟩ := List.exists_cons_of_length_eq_add_one hg
      have hprev : y.key[lcp x.key y.key - groupSize]? = some m' := by
        rw [hlcp, h.key_right hs, List.flatten_append, List.length_append, List.flatten_singleton,
          hg, Nat.add_sub_cancel, List.append_assoc, List.getElem?_append_right le_rfl, Nat.sub_self]
        rfl
      have hle' : m.toNat ≤ m'.toNat := by
        have hfall := h.right ▸ y.falling_groups hc
        cases b with
        | nil => exact absurd rfl hbound.1
        | cons g b =>
          have hpair := (List.pairwise_append.1 hfall).2.2 (m' :: u) (by simp) g (by simp)
          have hnum : headNumber (groupNumber descending) (g :: b) = _ :=
            CompoundKey.headNumber_of_flatten h.cut_right hm
          rw [headNumber_cons] at hnum
          rw [hnum, groupNumber_cons, if_neg hd', if_neg hd'] at hpair
          exact hpair
      have hmax := (y.groupNumber_bounds hc (g := m' :: u) (by simp [h.right])).2
      rw [groupNumber_cons, if_neg hd'] at hmax
      refine ⟨m'.toNat, ?_, ?_, hmax, ?_⟩
      · intro behind
        rw [hcount behind, lastNumber_concat, if_neg hd', List.headD_cons]
      · rw [← hpart]
        exact hle'
      · have hpos : 0 < lcp x.key y.key := by
          rw [hlcp, List.flatten_append, List.length_append, List.flatten_singleton, hg]
          exact Nat.lt_of_lt_of_le (by decide) (Nat.le_add_left _ _)
        rw [PartsAtSegment, hnext, hprev, ← hpart, UInt8.toNat_inj]
        simp [hgroup, hpos, eq_comm]
  · have hgroup : ¬ PartsAtGroup x.key y.key := by
      rw [h.partsAtGroup_iff hs]
      omega
    refine ⟨x.partNumber y, segmentCount_first_inside hs h hpos, le_rfl,
      x.partNumber_le y hc, ?_⟩
    simp [PartsAtSegment, hgroup]

/-- In a descending index, where every segment has a group, the first entry of a page is counted
right. -/
theorem segmentCount_first_descending (hs : segments ≠ 1) (hc : segments ≤ 255)
    (hd : descending = true) (hle : AtMost descending x.key y.key) (behind : UInt8) :
    segmentCount descending x.key y.key 0 behind = some (x.partNumber y) := by
  obtain ⟨c, a, b, h⟩ := x.exists_parted y
  by_cases hnil : a = [] ∧ b = []
  · have heq := (h.key_eq_iff hs).2 hnil
    rw [CompoundKey.partNumber_of_key_eq hs heq, ← heq]
    exact segmentCount_first_self _ hs behind
  obtain hzero | hpos := Nat.eq_zero_or_pos (lcp a.flatten b.flatten)
  · have hbound := h.boundary hs hc hle hnil hzero
    rw [if_pos hd] at hbound
    have hcount := segmentCount_first_boundary hs h hnil hzero behind
    dsimp only at hcount
    obtain rfl | ⟨c', g, rfl⟩ := c.eq_nil_or_concat'
    · have hx := x.headNumber_groups hc hd
      have hy := y.headNumber_groups hc hd
      rw [h.left, List.nil_append] at hx
      rw [h.right, List.nil_append] at hy
      omega
    · have hg : g.length = groupSize := h.full hnil g (by simp)
      have hgnil : g ≠ [] := by
        rintro rfl
        cases hg
      rw [lastNumber_concat, count_headD descending hgnil] at hcount
      have hx := h.left ▸ x.dense_groups hc hd
      have hy := h.right ▸ y.dense_groups hc hd
      rw [hcount, h.partNumber_eq, hx.max_eq hy hbound.2.ne']
  · exact segmentCount_first_inside hs h hpos behind

end FirebirdCore.Btr
