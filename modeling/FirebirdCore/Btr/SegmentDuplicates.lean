import FirebirdCore.Btr.Selectivity

/-!
# The duplicate counters of a whole index

The counters add up what is counted for each entry. Those of `fast_load` are right for an ascending
index, those of `BTR_selectivity` for one in which no page starts just behind a null that follows
a value; in a descending index both are right when no two adjacent keys part between groups.
-/
namespace FirebirdCore.Btr
open FirebirdCore.KeyOrder FirebirdCore.Blocks FirebirdCore.TupleKey

variable {descending : Bool} {segments : ℕ}

/-! ## The counters -/

/-- For each number of segments, the counts that leave so many of them alike. -/
def tally (segments : ℕ) (counts : List ℕ) : List ℕ :=
  (List.range segments).map fun i => counts.countP fun c => i + 1 + c ≤ segments

theorem getElem?_tally {counts : List ℕ} {j : ℕ} (hj : j < segments) :
    (tally segments counts)[j]? = some (counts.countP fun c => j + 1 + c ≤ segments) := by
  rw [tally, List.getElem?_map, List.getElem?_range hj, Option.map_some]

theorem getElem?_addDuplicates_loop {start n j : ℕ} (list : List ℕ) (hn : start + n ≤ segments + 1)
    (hj : j < segments) :
    ((List.range' start n).foldl (fun list i => list.modify (segments - i) (· + 1)) list)[j]? =
      list[j]?.map (· + if start ≤ segments - j ∧ segments - j < start + n then 1 else 0) := by
  induction n generalizing start list with
  | zero =>
    have hout : ¬ (start ≤ segments - j ∧ segments - j < start + 0) := by omega
    rw [if_neg hout]
    simp
  | succ n ih =>
    rw [List.range'_succ, List.foldl_cons, ih _ (by omega), List.getElem?_modify]
    by_cases hs : segments - start = j
    · have h₁ : ¬ (start + 1 ≤ segments - j ∧ segments - j < start + 1 + n) := by omega
      have h₂ : start ≤ segments - j ∧ segments - j < start + (n + 1) := by omega
      simp only [hs, if_true, if_neg h₁, if_pos h₂]
      cases list[j]? <;> rfl
    · have h₁ : (start + 1 ≤ segments - j ∧ segments - j < start + 1 + n) ↔
          (start ≤ segments - j ∧ segments - j < start + (n + 1)) := by omega
      simp only [hs, if_false, h₁]
      cases list[j]? <;> rfl

theorem length_addDuplicates (segments count : ℕ) (list : List ℕ) :
    (addDuplicates segments count list).length = list.length := by
  unfold addDuplicates
  generalize List.range' (count + 1) (segments - count) = is
  induction is generalizing list with
  | nil => rfl
  | cons i is ih => rw [List.foldl_cons, ih, List.length_modify]

/-- One entry is added to the counters of the segments it repeats. -/
theorem addDuplicates_tally (count : ℕ) (counts : List ℕ) :
    addDuplicates segments count (tally segments counts) = tally segments (counts ++ [count]) := by
  apply List.ext_getElem?
  intro j
  by_cases hj : j < segments
  · have hin : (count + 1 ≤ segments - j ∧ segments - j < count + 1 + (segments - count)) ↔
        j + 1 + count ≤ segments := by omega
    have hle : count + 1 + (segments - count) ≤ segments + 1 ∨ segments < count := by omega
    rw [getElem?_tally hj, List.countP_append, List.countP_singleton]
    rcases hle with hle | hle
    · rw [addDuplicates, getElem?_addDuplicates_loop _ hle hj, getElem?_tally hj, Option.map_some]
      simp only [hin, decide_eq_true_eq]
    · have hout : ¬ j + 1 + count ≤ segments := by omega
      rw [addDuplicates, Nat.sub_eq_zero_of_le hle.le, List.range'_zero, List.foldl_nil,
        getElem?_tally hj, if_neg (by simpa using hout)]
      rfl
  · have h₁ : (addDuplicates segments count (tally segments counts)).length ≤ j := by
      rw [length_addDuplicates, tally, List.length_map, List.length_range]
      omega
    have h₂ : (tally segments (counts ++ [count])).length ≤ j := by
      rw [tally, List.length_map, List.length_range]
      omega
    rw [List.getElem?_eq_none h₁, List.getElem?_eq_none h₂]

theorem tally_nil : tally segments [] = List.replicate segments 0 := by
  simp [tally, List.map_const']

/-- Counts that are below others everywhere and add up to the same counters are the same. -/
theorem eq_of_tally_eq {cs ds : List ℕ} (h : List.Forall₂ (· ≤ ·) cs ds)
    (hd : ∀ d ∈ ds, d ≤ segments) (heq : tally segments cs = tally segments ds) : cs = ds := by
  apply eq_of_countP_eq h hd
  intro k hk
  have hi := List.map_inj_left.1 heq (segments - 1 - k) (List.mem_range.2 (by omega))
  have hfun : ∀ c, segments - 1 - k + 1 + c ≤ segments ↔ c ≤ k := by
    intro c
    omega
  simpa only [hfun] using hi

/-! ## The entries one after the other -/

section Steps
variable {α : Type}

/-- The entries of a page with the ones before them; the mark says which of them is the first of
its page. -/
def pageSteps (first : Bool) : Option α → List α → List (Bool × α × α)
  | _, [] => []
  | none, y :: ys => pageSteps false (some y) ys
  | some x, y :: ys => (first, x, y) :: pageSteps false (some y) ys

/-- The entries of all pages with the ones before them. -/
def chainSteps : Option α → List (List α) → List (Bool × α × α)
  | _, [] => []
  | prev, ys :: rest => pageSteps true prev ys ++ chainSteps (ys.getLast?.or prev) rest

theorem adjacent_cons_cons (x y : α) (ys : List α) :
    adjacent (x :: y :: ys) = (x, y) :: adjacent (y :: ys) := rfl

theorem map_snd_pageSteps (first : Bool) (prev : Option α) (ys : List α) :
    (pageSteps first prev ys).map Prod.snd = adjacent (prev.toList ++ ys) := by
  induction ys generalizing first prev with
  | nil => cases prev <;> rfl
  | cons y ys ih =>
    cases prev with
    | none => exact ih false (some y)
    | some x => exact congrArg _ (ih false (some y))

theorem adjacent_append (xs ys : List α) :
    adjacent (xs ++ ys) = adjacent xs ++ adjacent (xs.getLast?.toList ++ ys) := by
  induction xs with
  | nil => rfl
  | cons x xs ih =>
    cases xs with
    | nil => rfl
    | cons x' xs =>
      rw [List.cons_append, List.cons_append, adjacent_cons_cons, ← List.cons_append, ih,
        adjacent_cons_cons, List.getLast?_cons_cons, List.cons_append]

/-- However the entries are cut into pages, the adjacent ones are met in order. -/
theorem map_snd_chainSteps (prev : Option α) (cut : List (List α)) :
    (chainSteps prev cut).map Prod.snd = adjacent (prev.toList ++ cut.flatten) := by
  induction cut generalizing prev with
  | nil => cases prev <;> rfl
  | cons ys rest ih =>
    have hlast : (prev.toList ++ ys).getLast? = ys.getLast?.or prev := by
      rw [List.getLast?_append]
      cases ys.getLast? <;> cases prev <;> rfl
    rw [chainSteps, List.map_append, map_snd_pageSteps, ih, List.flatten_cons, ← List.append_assoc,
      adjacent_append (prev.toList ++ ys), hlast]

theorem rel_of_mem_adjacent {R : α → α → Prop} {xs : List α} (h : xs.Pairwise R) {p : α × α}
    (hp : p ∈ adjacent xs) : R p.1 p.2 := by
  induction xs with
  | nil => simp [adjacent] at hp
  | cons x xs ih =>
    cases xs with
    | nil => simp [adjacent] at hp
    | cons y ys =>
      rw [adjacent_cons_cons, List.mem_cons] at hp
      rw [List.pairwise_cons] at h
      rcases hp with rfl | hp
      · exact h.1 y (by simp)
      · exact ih h.2 hp

end Steps

/-! ## The walk counts every entry once -/

abbrev Step (descending : Bool) (segments : ℕ) :=
  Bool × CompoundKey descending segments × CompoundKey descending segments

/-- The code counts `f s` for an entry: it is stored whole at the start of a page, and compressed
against the entry before it elsewhere. -/
def Counts (f : Step descending segments → ℕ) (s : Step descending segments) : Prop :=
  ∀ behind, if s.1
    then segmentCount descending s.2.1.key s.2.2.key 0 behind = some (f s)
    else segmentCount descending s.2.1.key (s.2.2.key.drop (lcp s.2.1.key s.2.2.key))
      (lcp s.2.1.key s.2.2.key) behind = some (f s)

theorem data_eq_drop {key : Key} {n : IndexNode} (h : n.prefixLen = lcp key (nodeKey key n)) :
    n.data = (nodeKey key n).drop (lcp key (nodeKey key n)) := by
  have hle := lcp_le_left key (nodeKey key n)
  rw [← h] at hle ⊢
  have hlen : (key.take n.prefixLen).length = n.prefixLen := by
    rw [List.length_take, Nat.min_eq_left hle]
  rw [nodeKey]
  exact (List.drop_left' hlen).symm

theorem leafKeys_of_marker {prev : Key} {n : IndexNode} {ns : List IndexNode}
    (h : (n.isEndBucket || n.isEndLevel) = true) : leafKeys prev (n :: ns) = [] := by
  rw [leafKeys, if_pos h]

theorem leafKeys_of_entry {prev : Key} {n : IndexNode} {ns : List IndexNode}
    (h : (n.isEndBucket || n.isEndLevel) = false) :
    leafKeys prev (n :: ns) = nodeKey prev n :: leafKeys (nodeKey prev n) ns := by
  rw [leafKeys, h]
  rfl

/-- Nothing follows a marker. -/
theorem Chain.eq_nil_of_marker {d : Bool} {prev : Option Key} {n : IndexNode} {ns : List IndexNode}
    (h : Chain d prev (n :: ns)) (hm : (n.isEndBucket || n.isEndLevel) = true) : ns = [] := by
  by_contra hne
  obtain ⟨hl, hb, -⟩ := h.tail hne
  simp [hl, hb] at hm

/-- The state of the walk behind some entries. -/
def SelectivityState.after (prev : Option (CompoundKey descending segments)) (counts : List ℕ) :
    SelectivityState where
  key := (prev.map (·.key)).getD []
  firstNode := prev.isNone
  duplicatesList := tally segments counts

/-- The nodes of a page from `n` on, when `x` is the entry before. -/
theorem selectivityBucket_within {bucket : BtreePage} {js : List IndexJumpNode}
    {pre post : List IndexNode} {n : IndexNode} {pointer fuel : ℕ}
    {f : Step descending segments → ℕ} {x : CompoundKey descending segments}
    {ys : List (CompoundKey descending segments)} {counts : List ℕ} (hs : 2 ≤ segments)
    (hlay : Layout bucket js (pre ++ n :: post))
    (hp : pointer = bucket.firstNode + nodesSize bucket.leafPage (pre ++ [n]))
    (hchain : Chain descending (some x.key) (n :: post))
    (hkeys : leafKeys x.key (n :: post) = ys.map (·.key))
    (hcount : ∀ s ∈ pageSteps false (some x) ys, Counts f s) (hfuel : post.length < fuel) :
    selectivityBucket bucket descending segments fuel n pointer (.after (some x) counts) =
      some (.after (ys.getLast?.or (some x)) (counts ++ (pageSteps false (some x) ys).map f),
        (n :: post).getLast?.any (·.isEndLevel)) := by
  obtain ⟨fuel, rfl⟩ := Nat.exists_eq_add_one_of_ne_zero (Nat.ne_zero_of_lt hfuel)
  induction ys generalizing pre post n pointer fuel x counts with
  | nil =>
    have hm : (n.isEndBucket || n.isEndLevel) = true := by
      rw [← Bool.not_eq_false]
      intro hm
      rw [leafKeys_of_entry hm] at hkeys
      simp at hkeys
    obtain rfl := hchain.eq_nil_of_marker hm
    rw [selectivityBucket, if_pos hm]
    simp [pageSteps]
  | cons y ys ih =>
    have hm : (n.isEndBucket || n.isEndLevel) = false := by
      rw [Bool.eq_false_iff]
      intro hm
      rw [leafKeys_of_marker hm] at hkeys
      simp at hkeys
    obtain ⟨hbucket, hlevel⟩ := Bool.or_eq_false_iff.1 hm
    obtain ⟨hlink, hchain⟩ := (chain_node hlevel hbucket).1 hchain
    replace hlink : n.prefixLen = lcp x.key (nodeKey x.key n) := hlink.1
    rw [Option.getD_some] at hchain
    rw [leafKeys_of_entry hm, List.map_cons] at hkeys
    obtain ⟨hy, hkeys⟩ := List.cons.inj hkeys
    rw [hy] at hchain hkeys
    have hprefix : n.prefixLen = lcp x.key y.key := by
      rw [← hy]
      exact hlink
    have hdata : n.data = y.key.drop (lcp x.key y.key) := by
      rw [← hy]
      exact data_eq_drop hlink
    obtain ⟨m, post, rfl⟩ := List.exists_cons_of_ne_nil hchain.ne_nil
    have hstep := hcount (false, x, y) (by simp [pageSteps]) ((bucket.bytesAt pointer).headD 0)
    rw [if_neg Bool.false_ne_true] at hstep
    have hread := Layout.readNode (p := pre ++ [n]) (q := post) (n := m) (by simpa using hlay) hp
    rw [List.length_cons] at hfuel
    obtain ⟨fuel, rfl⟩ := Nat.exists_eq_add_one_of_ne_zero (n := fuel) (by omega)
    have hlay' : Layout bucket js (pre ++ [n] ++ m :: post) := by simpa using hlay
    have hp' : pointer + m.getNodeSize bucket.leafPage =
        bucket.firstNode + nodesSize bucket.leafPage (pre ++ [n] ++ [m]) := by
      rw [hp]
      simp [Nat.add_assoc]
    have hcount' : ∀ s ∈ pageSteps false (some y) ys, Counts f s :=
      fun s hs => hcount s (by simp [pageSteps, hs])
    have hnext := fun c => @ih _ _ _ _ _ c hlay' hp' hchain hkeys hcount' fuel (by omega)
    replace hnext := hnext (counts ++ [f (false, x, y)])
    rw [selectivityBucket, if_neg (by simp [hm])]
    have hseg : (decide (segments > 1) && !(SelectivityState.after (some x) counts).firstNode) = true := by
      simp [SelectivityState.after]
      omega
    rw [if_pos hseg, hdata, hprefix, hread]
    simp only [SelectivityState.after, Option.map_some, Option.getD_some, hstep,
      addDuplicates_tally, Option.bind_eq_bind, Option.bind_some, hy] at hnext ⊢
    rw [Option.isNone_some] at hnext
    rw [hnext]
    simp [pageSteps, List.getLast?_cons]

/-- A page from its first node on, which is stored whole. -/
theorem selectivityBucket_spec {bucket : BtreePage} {f : Step descending segments → ℕ}
    {prev : Option (CompoundKey descending segments)} {ys : List (CompoundKey descending segments)}
    {endLevel : Bool} (counts : List ℕ) (hs : 2 ≤ segments)
    (hold : HoldsKeys bucket descending endLevel (ys.map (·.key)))
    (hcount : ∀ s ∈ pageSteps true prev ys, Counts f s) :
    selectivityBucket bucket descending segments (bucket.btrLength + 1)
        (bucket.readNode bucket.firstNode).1 (bucket.readNode bucket.firstNode).2
        (.after prev counts) =
      some (.after (ys.getLast?.or prev) (counts ++ (pageSteps true prev ys).map f), endLevel) := by
  obtain ⟨js, ns, hlay, hchain, hkeys, rfl⟩ := hold.nodes
  obtain ⟨n, post, rfl⟩ := List.exists_cons_of_ne_nil hchain.ne_nil
  have hread : bucket.readNode bucket.firstNode = _ := hlay.readNode (p := []) rfl
  rw [hread]
  dsimp only
  cases ys with
  | nil =>
    have hm : (n.isEndBucket || n.isEndLevel) = true := by
      rw [← Bool.not_eq_false]
      intro hm
      rw [leafKeys_of_entry hm] at hkeys
      simp at hkeys
    obtain rfl := hchain.eq_nil_of_marker hm
    rw [selectivityBucket, if_pos hm]
    simp [pageSteps]
  | cons y ys =>
    have hm : (n.isEndBucket || n.isEndLevel) = false := by
      rw [Bool.eq_false_iff]
      intro hm
      rw [leafKeys_of_marker hm] at hkeys
      simp at hkeys
    obtain ⟨hbucket, hlevel⟩ := Bool.or_eq_false_iff.1 hm
    obtain ⟨hlink, hchain⟩ := (chain_node hlevel hbucket).1 hchain
    have hprefix : n.prefixLen = 0 := by
      have h := hlink.1
      rwa [Option.getD_none, lcp_nil_left] at h
    have hkey : ∀ key, nodeKey key n = n.data := by
      intro key
      rw [nodeKey, hprefix]
      rfl
    rw [leafKeys_of_entry hm, List.map_cons] at hkeys
    obtain ⟨hy, hkeys⟩ := List.cons.inj hkeys
    rw [Option.getD_none, hy] at hchain
    rw [hy] at hkeys
    rw [hkey] at hy
    obtain ⟨m, post, rfl⟩ := List.exists_cons_of_ne_nil hchain.ne_nil
    have hlen := hlay.length_le
    rw [List.length_cons, List.length_cons] at hlen
    have hread' : bucket.readNode (bucket.firstNode + n.getNodeSize bucket.leafPage) = _ :=
      Layout.readNode (p := [n]) (q := post) (n := m) hlay (by simp)
    -- behind the first node the page goes on as behind any entry
    have hrest : ∀ counts, (∀ s ∈ pageSteps false (some y) ys, Counts f s) →
        selectivityBucket bucket descending segments bucket.btrLength m
            (bucket.firstNode + n.getNodeSize bucket.leafPage + m.getNodeSize bucket.leafPage)
            (.after (some y) counts) =
          some (.after (ys.getLast?.or (some y)) (counts ++ (pageSteps false (some y) ys).map f),
            (m :: post).getLast?.any (·.isEndLevel)) := by
      intro counts hcount
      have hlay' : Layout bucket js ([n] ++ m :: post) := hlay
      exact selectivityBucket_within hs hlay' (by simp [Nat.add_assoc]) hchain hkeys
        hcount (by omega)
    rw [selectivityBucket, if_neg (by simp [hm]), hread']
    cases prev with
    | none =>
      have hnext := hrest counts hcount
      simp only [SelectivityState.after, Option.map_some, Option.getD_some, Option.isNone_some] at hnext
      simp only [SelectivityState.after, Option.isNone_none, Bool.not_true, Bool.and_false,
        Bool.false_eq_true, if_false, Option.bind_eq_bind, Option.bind_some, hkey, hy, hnext]
      simp [pageSteps, List.getLast?_cons]
    | some x =>
      have hstep := hcount (true, x, y) (by simp [pageSteps])
        ((bucket.bytesAt (bucket.firstNode + n.getNodeSize bucket.leafPage)).headD 0)
      rw [if_pos rfl] at hstep
      have hnext := hrest (counts ++ [f (true, x, y)]) fun s hs => hcount s (by simp [pageSteps, hs])
      have hseg : decide (segments > 1) = true := decide_eq_true (by omega)
      simp only [SelectivityState.after, Option.map_some, Option.getD_some, Option.isNone_some] at hnext
      simp only [SelectivityState.after, Option.map_some, Option.getD_some, Option.isNone_some,
        Bool.not_false, Bool.and_true, hseg, if_true, hprefix, hy, hstep, addDuplicates_tally,
        Option.bind_eq_bind, Option.bind_some, hkey, hnext]
      simp [pageSteps, List.getLast?_cons]

/-- The walk adds up what is counted for the entries of all pages. -/
theorem selectivityPages_spec {pages : ℕ → BtreePage} {f : Step descending segments → ℕ}
    {cut : List (List (CompoundKey descending segments))} {page fuel : ℕ}
    {prev : Option (CompoundKey descending segments)} (counts : List ℕ) (hs : 2 ≤ segments)
    (hleaf : LeafChain pages page cut) (hcount : ∀ s ∈ chainSteps prev cut, Counts f s)
    (hfuel : cut.length ≤ fuel) :
    selectivityPages pages descending segments fuel page (.after prev counts) =
      some (tally segments (counts ++ (chainSteps prev cut).map f)) := by
  induction cut generalizing page fuel prev counts with
  | nil => exact hleaf.elim
  | cons ys rest ih =>
    obtain ⟨fuel, rfl⟩ := Nat.exists_eq_add_one_of_ne_zero (n := fuel) (by
      rw [List.length_cons] at hfuel
      omega)
    have hpage : ∀ s ∈ pageSteps true prev ys, Counts f s :=
      fun s hs => hcount s (by simp [chainSteps, hs])
    rw [selectivityPages]
    cases rest with
    | nil =>
      obtain ⟨endLevel, hold, hend⟩ := hleaf
      dsimp only
      rw [selectivityBucket_spec counts hs hold hpage]
      have hstop : (endLevel || (pages page).btrSibling == 0) = true := by
        rcases hend with rfl | hend
        · rfl
        · simp [hend]
      simp only [Option.bind_eq_bind, Option.bind_some, hstop, if_true]
      simp [chainSteps, SelectivityState.after]
    | cons zs rest =>
      obtain ⟨hold, hsib, hleaf⟩ := hleaf
      dsimp only
      rw [selectivityBucket_spec counts hs hold hpage]
      have hgo : (false || (pages page).btrSibling == 0) = false := by simpa using hsib
      simp only [Option.bind_eq_bind, Option.bind_some, hgo, Bool.false_eq_true, if_false]
      rw [ih _ hleaf (fun s hs => hcount s (by rw [chainSteps]; simp [hs])) (by simpa using hfuel)]
      simp [chainSteps]

/-! ## The load counts every entry once -/

/-- What `fast_load` counts for an entry. -/
def loadCount (p : CompoundKey descending segments × CompoundKey descending segments) : ℕ :=
  if PartsAtGroup p.1.key p.2.key
    then headNumber (groupNumber descending) (parts p.1.groups p.2.groups).2
    else p.1.partNumber p.2

/-- The key and the byte behind it, as they stand in a record of the sort. -/
theorem sortRecord_bytes (keyLength : ℕ) (d : Bool) (key : Key) (isr : List UInt8) :
    (SortRecord.ofKey keyLength d key isr).bytes.take key.length = key ∧
      (d = true → key.length < keyLength →
        ((SortRecord.ofKey keyLength d key isr).bytes.drop key.length).headD 0 = 255) := by
  rw [SortRecord.ofKey]
  dsimp only
  rw [List.append_assoc, List.take_left, List.drop_left]
  refine ⟨rfl, ?_⟩
  intro hd hlt
  obtain ⟨n, hn⟩ := Nat.exists_eq_add_one_of_ne_zero (n := keyLength - key.length) (by omega)
  rw [hn, List.replicate_succ, hd]
  rfl

theorem fastLoadLoop_spec {keyLength : ℕ} {x : CompoundKey descending segments}
    {rows : List (CompoundKey descending segments × List UInt8)} {count : ℕ} {counts : List ℕ}
    (hs : 2 ≤ segments) (hc : segments ≤ 255) (hcount : 1 ≤ count)
    (hsorted : (x :: rows.map Prod.fst).Pairwise fun x y => AtMost descending x.key y.key)
    (hlen : ∀ y ∈ x :: rows.map Prod.fst, y.key.length ≤ keyLength) :
    fastLoadLoop descending segments
        (rows.map fun r => .ofKey keyLength descending r.1.key r.2) x.key count (tally segments counts) =
      some (tally segments (counts ++ (adjacent (x :: rows.map Prod.fst)).map loadCount)) := by
  induction rows generalizing x count counts with
  | nil => simp [fastLoadLoop, adjacent]
  | cons r rows ih =>
    obtain ⟨y, isr⟩ := r
    rw [List.map_cons, List.pairwise_cons] at hsorted
    obtain ⟨htake, hpad⟩ := sortRecord_bytes keyLength descending y.key isr
    have hle : AtMost descending x.key y.key := hsorted.1 y (by simp)
    have hx : x.key.length ≤ keyLength := hlen x (by simp)
    have hseg := segmentCount_lcp (by omega) hc hle
      (((SortRecord.ofKey keyLength descending y.key isr).bytes.drop y.key.length).headD 0)
      fun hd _ hlt => hpad hd (by omega)
    have hgo : (decide (segments > 1) && decide (count + 1 > 1)) = true := by
      simp only [Bool.and_eq_true, decide_eq_true_eq]
      omega
    rw [List.map_cons, List.map_cons, fastLoadLoop, adjacent_cons_cons]
    have hkl : (SortRecord.ofKey keyLength descending y.key isr).isrKeyLength = y.key.length := rfl
    dsimp only
    rw [hkl, htake, if_pos hgo, computePrefix, hseg]
    simp only [Option.map_some, Option.bind_eq_bind, Option.bind_some, addDuplicates_tally]
    rw [ih (by omega) hsorted.2 fun z hz => hlen z (by simp only [List.map_cons, List.mem_cons] at hz ⊢; tauto)]
    rw [List.map_cons, List.append_assoc]
    rfl

theorem fastLoad_spec {keyLength : ℕ} {rows : List (CompoundKey descending segments × List UInt8)}
    (hs : 2 ≤ segments) (hc : segments ≤ 255)
    (hsorted : (rows.map Prod.fst).Pairwise fun x y => AtMost descending x.key y.key)
    (hlen : ∀ y ∈ rows.map Prod.fst, y.key.length ≤ keyLength) :
    fastLoad descending segments (rows.map fun r => .ofKey keyLength descending r.1.key r.2) =
      some (tally segments ((adjacent (rows.map Prod.fst)).map loadCount)) := by
  rw [fastLoad, ← tally_nil]
  cases rows with
  | nil => rfl
  | cons r rows =>
    obtain ⟨y, isr⟩ := r
    have hkl : (SortRecord.ofKey keyLength descending y.key isr).isrKeyLength = y.key.length := rfl
    rw [List.map_cons, fastLoadLoop]
    dsimp only
    rw [hkl, (sortRecord_bytes keyLength descending y.key isr).1, if_neg (by simp)]
    simp only [Option.bind_eq_bind, Option.bind_some]
    rw [fastLoadLoop_spec hs hc le_rfl hsorted hlen]
    rfl

/-! ## The counters are those of the equal segments -/

theorem duplicateCounts_eq (hc : segments ≤ 255) (entries : List (CompoundKey descending segments)) :
    duplicateCounts entries =
      tally segments ((adjacent entries).map fun p => p.1.partNumber p.2) := by
  unfold duplicateCounts tally
  apply List.map_congr_left
  intro i hi
  rw [List.countP_map]
  apply List.countP_congr
  intro p _
  have hsame := p.1.sameSegments_iff p.2 hc (k := i + 1) (by
    have := List.mem_range.1 hi
    omega)
  simp [hsame]

/-- The entries for which both counts are right: no page starts with a key that differs from the
one before in a segment that is null there, behind one that is not; in a descending index no two
adjacent keys part between groups. -/
def CountedRight (cut : List (List (CompoundKey descending segments))) : Prop :=
  if descending then ∀ p ∈ adjacent cut.flatten, ¬ PartsAtGroup p.1.key p.2.key
  else ∀ s ∈ chainSteps none cut, s.1 = true → ¬ PartsAtSegment s.2.1.key s.2.2.key

theorem snd_mem_adjacent {cut : List (List (CompoundKey descending segments))}
    {s : Step descending segments} (h : s ∈ chainSteps none cut) : s.2 ∈ adjacent cut.flatten := by
  have hmem := List.mem_map_of_mem (f := Prod.snd) h
  rwa [map_snd_chainSteps] at hmem

theorem map_partNumber_steps (cut : List (List (CompoundKey descending segments))) :
    (chainSteps none cut).map (fun s => s.2.1.partNumber s.2.2) =
      (adjacent cut.flatten).map fun p => p.1.partNumber p.2 := by
  have h := congrArg (List.map fun p => p.1.partNumber p.2) (map_snd_chainSteps none cut)
  rwa [List.map_map] at h

/-- What `BTR_selectivity` counts in an ascending index. -/
def firstCount (s : Step descending segments) : ℕ :=
  if s.1 then (segmentCount descending s.2.1.key s.2.2.key 0 0).getD 0 else s.2.1.partNumber s.2.2

theorem firstCount_spec (hs : segments ≠ 1) (hc : segments ≤ 255) (hd : descending = false)
    {s : Step descending segments} (hle : AtMost descending s.2.1.key s.2.2.key) :
    Counts firstCount s ∧ s.2.1.partNumber s.2.2 ≤ firstCount s ∧ firstCount s ≤ segments ∧
      (s.2.1.partNumber s.2.2 = firstCount s ↔
        (s.1 = true → ¬ PartsAtSegment s.2.1.key s.2.2.key)) := by
  obtain ⟨first, x, y⟩ := s
  cases first with
  | true =>
    obtain ⟨n, hn, hlow, hhigh, hiff⟩ := segmentCount_first_ascending hs hc hd hle
    have hfirst : firstCount (true, x, y) = n := by
      rw [firstCount, if_pos rfl, hn 0]
      rfl
    rw [hfirst]
    refine ⟨?_, hlow, hhigh, by simpa using hiff⟩
    intro behind
    rw [if_pos rfl, hfirst]
    exact hn behind
  | false =>
    have hfirst : firstCount (false, x, y) = x.partNumber y := rfl
    rw [hfirst]
    refine ⟨?_, le_rfl, x.partNumber_le y hc, by simp⟩
    intro behind
    rw [if_neg Bool.false_ne_true, hfirst, segmentCount_lcp hs hc hle _ (by simp [hd])]
    dsimp only
    split_ifs with hp
    · rw [partNumber_ascending hs hc hd hle hp]
    · rfl

theorem loadCount_le (hs : segments ≠ 1) (hc : segments ≤ 255)
    {p : CompoundKey descending segments × CompoundKey descending segments}
    (hle : AtMost descending p.1.key p.2.key) :
    loadCount p ≤ p.1.partNumber p.2 ∧
      (loadCount p = p.1.partNumber p.2 ↔ (descending = true → ¬ PartsAtGroup p.1.key p.2.key)) := by
  unfold loadCount
  split_ifs with hp
  · cases descending with
    | false =>
      rw [partNumber_ascending hs hc rfl hle hp]
      simp
    | true =>
      have hlt := partNumber_descending hs hc rfl hle hp
      simp [hp, hlt.le, hlt.ne]
  · simp [hp]

theorem forall₂_map {α : Type} {f g : α → ℕ} {xs : List α} (h : ∀ x ∈ xs, f x ≤ g x) :
    List.Forall₂ (· ≤ ·) (xs.map f) (xs.map g) := by
  rw [List.forall₂_map_left_iff, List.forall₂_map_right_iff, List.forall₂_same]
  exact h

/-- The counters of `BTR_selectivity` and of `fast_load` are both, for each number of segments, the
adjacent entries that agree in them if and only if the entries are counted right. -/
theorem btrSelectivity_iff {pages : ℕ → BtreePage} {page fuel keyLength : ℕ}
    {cut : List (List (CompoundKey descending segments))}
    {rows : List (CompoundKey descending segments × List UInt8)}
    (hs : 2 ≤ segments) (hmax : segments ≤ maxIndexSegments) (hleaf : LeafChain pages page cut)
    (hfuel : cut.length ≤ fuel) (hrows : rows.map Prod.fst = cut.flatten)
    (hsorted : cut.flatten.Pairwise fun x y => AtMost descending x.key y.key)
    (hlen : ∀ x ∈ cut.flatten, x.key.length ≤ keyLength) :
    (btrSelectivity pages descending segments fuel page = some (duplicateCounts cut.flatten) ∧
      fastLoad descending segments (rows.map fun r => .ofKey keyLength descending r.1.key r.2) =
        some (duplicateCounts cut.flatten)) ↔ CountedRight cut := by
  have hc : segments ≤ 255 := hmax.trans (by decide)
  have hs' : segments ≠ 1 := by omega
  have hpair : ∀ p ∈ adjacent cut.flatten, AtMost descending p.1.key p.2.key :=
    fun p hp => rel_of_mem_adjacent hsorted hp
  have hstep : ∀ s ∈ chainSteps none cut, AtMost descending s.2.1.key s.2.2.key :=
    fun s hs => hpair s.2 (snd_mem_adjacent hs)
  have hload := fastLoad_spec hs hc (hrows ▸ hsorted) (hrows ▸ hlen)
  have hwalk : ∀ f : Step descending segments → ℕ, (∀ s ∈ chainSteps none cut, Counts f s) →
      btrSelectivity pages descending segments fuel page =
        some (tally segments ((chainSteps none cut).map f)) := by
    intro f hf
    have h := selectivityPages_spec [] hs hleaf hf hfuel
    rw [SelectivityState.after, tally_nil, List.nil_append] at h
    exact h
  have hbound : ∀ p ∈ adjacent cut.flatten, p.1.partNumber p.2 ≤ segments :=
    fun p _ => p.1.partNumber_le p.2 hc
  rw [hload, hrows, duplicateCounts_eq hc, CountedRight]
  cases descending with
  | false =>
    have hfirst := fun s hs => firstCount_spec hs' hc rfl (hstep s hs)
    have hloaded : (adjacent cut.flatten).map loadCount =
        (adjacent cut.flatten).map fun p => p.1.partNumber p.2 := by
      rw [List.map_inj_left]
      intro p hp
      exact (loadCount_le hs' hc (hpair p hp)).2.2 (by simp)
    rw [hwalk _ fun s hs => (hfirst s hs).1, hloaded, if_neg Bool.false_ne_true]
    simp only [and_true, Option.some_inj]
    rw [← map_partNumber_steps]
    constructor
    · intro heq s hmem
      have hmaps := eq_of_tally_eq (forall₂_map fun s hs => (hfirst s hs).2.1) (by
        intro d hd
        obtain ⟨s, hs, rfl⟩ := List.mem_map.1 hd
        exact (hfirst s hs).2.2.1) heq.symm
      exact (hfirst s hmem).2.2.2.1 (List.map_inj_left.1 hmaps s hmem)
    · intro hright
      have hmaps : (chainSteps none cut).map (fun s => s.2.1.partNumber s.2.2) =
          (chainSteps none cut).map firstCount := by
        rw [List.map_inj_left]
        intro s hmem
        exact (hfirst s hmem).2.2.2.2 (hright s hmem)
      rw [hmaps]
  | true =>
    have hcounts := fun p hp => loadCount_le hs' hc (hpair p hp)
    rw [if_pos rfl]
    constructor
    · rintro ⟨-, heq⟩ p hmem
      have hmaps := eq_of_tally_eq (forall₂_map fun p hp => (hcounts p hp).1) (by
        intro d hd
        obtain ⟨p, hp, rfl⟩ := List.mem_map.1 hd
        exact hbound p hp) (Option.some_inj.1 heq)
      exact (hcounts p hmem).2.1 (List.map_inj_left.1 hmaps p hmem) rfl
    · intro hright
      have hloaded : (adjacent cut.flatten).map loadCount =
          (adjacent cut.flatten).map fun p => p.1.partNumber p.2 := by
        rw [List.map_inj_left]
        intro p hp
        exact (hcounts p hp).2.2 fun _ => hright p hp
      have hall : ∀ s ∈ chainSteps none cut,
          Counts (fun s : Step true segments => s.2.1.partNumber s.2.2) s := by
        intro s hmem behind
        have hnot := hright s.2 (snd_mem_adjacent hmem)
        split_ifs with hf
        · exact segmentCount_first_descending hs' hc rfl (hstep s hmem) behind
        · rw [segmentCount_lcp hs' hc (hstep s hmem) _ fun _ hp => absurd hp hnot, if_neg hnot]
      rw [hwalk _ hall, map_partNumber_steps, hloaded]
      exact ⟨rfl, rfl⟩

/-! ## A value and a longer one that extends it by a whole group -/

/-- Descending entries whose first segments are a string of five bytes and its first four. -/
def extendedKeys : List (CompoundKey true 2) :=
  [⟨[[65, 66, 67, 68, 69], [1]], rfl, by decide⟩, ⟨[[65, 66, 67, 68], [1]], rfl, by decide⟩]

def extendedNodes : List IndexNode :=
  [.ofParts 0 (complementKey [2, 65, 66, 67, 68, 2, 69, 0, 0, 0, 1, 1]) 1 0,
    .ofParts 5 (complementKey [1, 1]) 2 0, .endLevel]

theorem leafChain_extended :
    LeafChain (fun _ => bucketOf 0 [] extendedNodes) 7 [extendedKeys] :=
  ⟨true, ⟨[], extendedNodes, layout_bucketOf (by decide) (by decide), by decide, by decide, by decide⟩,
    .inl rfl⟩

def extendedRows : List (CompoundKey true 2 × List UInt8) := extendedKeys.map fun x => (x, [0])

/-- Both first segments are taken for equal. -/
theorem fastLoad_extended :
    LeafChain (fun _ => bucketOf 0 [] extendedNodes) 7 [extendedKeys] ∧
      (extendedKeys.Pairwise fun x y => AtMost true x.key y.key) ∧
      duplicateCounts extendedKeys = [0, 0] ∧
      fastLoad true 2 (extendedRows.map fun r => .ofKey 16 true r.1.key r.2) = some [1, 0] ∧
      btrSelectivity (fun _ => bucketOf 0 [] extendedNodes) true 2 1 7 = some [1, 0] :=
  ⟨leafChain_extended, by decide +kernel, by decide +kernel, by decide +kernel, by decide +kernel⟩

theorem btrSelectivity_iff_extended :
    (btrSelectivity (fun _ => bucketOf 0 [] extendedNodes) true 2 1 7 =
        some (duplicateCounts [extendedKeys].flatten) ∧
      fastLoad true 2 (extendedRows.map fun r => .ofKey 16 true r.1.key r.2) =
        some (duplicateCounts [extendedKeys].flatten)) ↔ CountedRight [extendedKeys] :=
  btrSelectivity_iff le_rfl (by decide) leafChain_extended le_rfl rfl (by decide +kernel)
    (by decide +kernel)

end FirebirdCore.Btr
