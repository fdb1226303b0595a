import FirebirdCore.Btr.Find

/-!
# Finding the child of a bucket

`findPage` returns the page number of the last node below the search key and record number.
`Below` is that relation on entries; `childNumber` takes the last entry of the front part of a
bucket that is below.
-/
namespace FirebirdCore.Btr
open FirebirdCore.KeyOrder

/-- The loop of `IndexNode::findPageInDuplicates` at `node`. -/
def findPageInDuplicates (page : BtreePage) (findRecordNumber : ℕ) : ℕ → IndexNode → ℕ → ℕ → ℕ
  | 0, _, _, previousNumber => previousNumber
  | fuel + 1, node, pointer, previousNumber =>
      if node.isEndBucket then previousNumber
      else if findRecordNumber ≤ node.recordNumber then previousNumber
      else
        let previousNumber := node.pageNumber
        let r := page.readNode pointer
        if r.1.isEndLevel ∨ r.1.length ≠ 0 ∨ r.1.prefixLen ≠ node.length + node.prefixLen then
          previousNumber
        else findPageInDuplicates page findRecordNumber fuel r.1 r.2 previousNumber

/-- The scan of `find_page` at `node`, which ends before `pointer`. -/
def findPageLoop (bucket : BtreePage) (key : Key) (descending retrieval : Bool)
    (findRecordNumber : ℕ) : ℕ → IndexNode → ℕ → ℕ → ℕ → Bool → Except BugCheck ℕ
  | 0, _, _, _, _, _ => .error .indexInconsistent
  | fuel + 1, node, pointer, pfx, previousNumber, firstPass =>
      if node.isEndLevel then .ok previousNumber
      else
        match compareNode descending retrieval key pfx firstPass node with
        | .stop equal =>
            if equal && findRecordNumber != noValue then
              .ok (findPageInDuplicates bucket findRecordNumber (fuel + 1) node pointer
                previousNumber)
            else .ok previousNumber
        | .pass pfx' =>
            if node.isEndBucket then .ok node.pageNumber
            else
              let r := bucket.readNode pointer
              if r.2 > bucket.btrLength then .error .indexInconsistent
              else findPageLoop bucket key descending retrieval findRecordNumber fuel r.1 r.2 pfx'
                node.pageNumber (firstPass && (descending || node.prefixLen != pfx))

/-- `find_page` behind the choice of the node to start at. The first node of a level is a
degenerate, zero-length node, which is not compared. -/
def findPageFrom (bucket : BtreePage) (key : Key) (descending retrieval : Bool)
    (findRecordNumber nodePointer : ℕ) (node : IndexNode) (pointer pfx : ℕ) : Except BugCheck ℕ :=
  let scan := findPageLoop bucket key descending retrieval findRecordNumber (bucket.btrLength + 1)
  if node.isEndLevel then .error .exceededIndexLevel
  else if nodePointer = bucket.firstNode then
    if node.prefixLen = 0 ∧ node.length = 0 then
      let r := bucket.readNode pointer
      if r.2 > bucket.btrLength then .error .indexInconsistent
      else scan r.1 r.2 0 node.pageNumber true
    else scan node pointer 0 node.pageNumber true
  else scan node pointer pfx node.pageNumber true

/-- The page number of the last node less than the key, or of the first node of the bucket. -/
def findPage (bucket : BtreePage) (key : TemporaryKey) (idx : IndexDesc) (findRecordNumber : ℕ)
    (retrieval : Bool) : Except BugCheck ℕ :=
  let findRecordNumber := if validateDuplicates idx key then noValue else findRecordNumber
  let start := findAreaStartPoint bucket key.keyData idx.idxDescending retrieval findRecordNumber
  let r := bucket.readNode start.1
  let continueFrom :=
    findPageFrom bucket key.keyData idx.idxDescending retrieval findRecordNumber
  if r.2 > bucket.btrLength then .error .indexInconsistent
  else if r.1.isEndBucket ∨ r.1.isEndLevel then
    let r := bucket.readNode bucket.firstNode
    if r.2 > bucket.btrLength then .error .indexInconsistent
    else continueFrom bucket.firstNode r.1 r.2 start.2
  else continueFrom start.1 r.1 r.2 start.2

/-! ## Entries below a key and record number -/

/-- The entry is below the key, or equal to it with a smaller record number. The marker at the
end of a bucket is only compared by its key. -/
def Below (d r : Bool) (key : Key) (find : ℕ) (e : Entry) : Prop :=
  e.isEndLevel = false ∧ (Passes d r key e.key ∨
    find ≠ noValue ∧ e.isEndBucket = false ∧ e.key = key ∧ e.recordNumber < find)

instance (d r : Bool) (key : Key) (find : ℕ) (e : Entry) : Decidable (Below d r key find e) := by
  unfold Below
  infer_instance

/-- The page number of the last of the leading entries that are below. -/
def childNumber (d r : Bool) (key : Key) (find previousNumber : ℕ) (es : List Entry) : ℕ :=
  ((es.takeWhile (Below d r key find)).getLast?.map (·.pageNumber)).getD previousNumber

theorem childNumber_cons_pos {d r : Bool} {key : Key} {find previousNumber : ℕ} {e : Entry}
    {es : List Entry} (h : Below d r key find e) :
    childNumber d r key find previousNumber (e :: es) =
      childNumber d r key find e.pageNumber es := by
  rw [childNumber, List.takeWhile_cons_of_pos (by simpa using h), List.getLast?_cons, childNumber]
  cases (es.takeWhile (Below d r key find)).getLast? <;> rfl

theorem childNumber_cons_neg {d r : Bool} {key : Key} {find previousNumber : ℕ} {e : Entry}
    {es : List Entry} (h : ¬ Below d r key find e) :
    childNumber d r key find previousNumber (e :: es) = previousNumber := by
  rw [childNumber, List.takeWhile_cons_of_neg (by simpa using h)]
  rfl

/-- Entries before one that is below do not matter. -/
theorem childNumber_append {d r : Bool} {key : Key} {find previousNumber : ℕ} {e : Entry}
    {es es' : List Entry} (h : ∀ a ∈ es, Below d r key find a) (he : Below d r key find e) :
    childNumber d r key find previousNumber (es ++ e :: es') =
      childNumber d r key find e.pageNumber es' := by
  induction es generalizing previousNumber with
  | nil => exact childNumber_cons_pos he
  | cons a es ih =>
    rw [List.cons_append, childNumber_cons_pos (h a (by simp))]
    exact ih fun b hb => h b (by simp [hb])

/-- In a sorted bucket the entries below come first. -/
theorem below_pairwise {d r : Bool} {find : ℕ} {prev : Option Key} {ns : List IndexNode} (key : Key)
    (hc : Chain d prev ns)
    (ho : find ≠ noValue → RecordsOrdered key (decode (prev.getD []) ns))
    (hr : r = true → find = noValue) :
    (decode (prev.getD []) ns).Pairwise fun a b => Below d r key find b → Below d r key find a := by
  by_cases hfind : find = noValue
  · refine hc.pairwise.imp fun {a b} ⟨hl, hb, hle⟩ hbelow => ⟨hl, ?_⟩
    obtain ⟨hbl, hp | ⟨hne, -⟩⟩ := hbelow
    · exact .inl (hp.of_atMost (hle hbl))
    · exact absurd hfind hne
  · refine (hc.pairwise.and (ho hfind)).imp fun {a b} ⟨⟨hl, hb, hle⟩, hrec⟩ hbelow => ⟨hl, ?_⟩
    obtain ⟨hbl, hp | ⟨-, -, hkey, hlt⟩⟩ := hbelow
    · exact .inl (hp.of_atMost (hle hbl))
    · have hak := hle hbl
      rw [hkey] at hak
      rcases hak.eq_or_before with he | hbef
      · have := hrec hbl he hkey
        exact .inr ⟨hfind, hb, he, by omega⟩
      · exact .inl ⟨hbef, fun h => hfind (hr h.2.1)⟩

/-- Where what is below comes first, the leading entries below are all that are. -/
theorem filter_eq_takeWhile {es : List Entry} {p : Entry → Bool}
    (h : es.Pairwise fun a b => p b = true → p a = true) : es.filter p = es.takeWhile p := by
  induction es with
  | nil => rfl
  | cons e es ih =>
    rw [List.pairwise_cons] at h
    cases hp : p e with
    | true => rw [List.filter_cons_of_pos hp, List.takeWhile_cons_of_pos hp, ih h.2]
    | false =>
      rw [List.filter_cons_of_neg (by simp [hp]), List.takeWhile_cons_of_neg (by simp [hp]),
        List.filter_eq_nil_iff]
      exact fun a ha hpa => by simpa [hp] using h.1 a ha hpa

/-! ## The scan -/

theorem below_of_passes {d r : Bool} {key prev : Key} {find : ℕ} {n : IndexNode}
    (hl : n.isEndLevel = false) (hp : Passes d r key (nodeKey prev n)) :
    Below d r key find (entryOf prev n) := ⟨hl, .inl hp⟩

/-- A node that repeats the key before it is recognised by its prefix and length alone. -/
theorem isDuplicate_iff {prev : Key} {n m : IndexNode} (hn : (nodeKey prev n).length =
    n.prefixLen + n.length) (hm : m.prefixLen = lcp (nodeKey prev n) (nodeKey (nodeKey prev n) m)) :
    m.length = 0 ∧ m.prefixLen = n.length + n.prefixLen ↔
      nodeKey (nodeKey prev n) m = nodeKey prev n := by
  have hlen := nodeKey_length hm
  constructor
  · rintro ⟨hz, hp⟩
    refine (eq_of_lcp_eq_lengths ?_ ?_).symm <;> omega
  · intro he
    rw [he, lcp_self] at hm
    rw [he] at hlen
    omega

/-- The walk through duplicates from a node equal to the key. -/
theorem findPageInDuplicates_spec {page : BtreePage} {js : List IndexJumpNode} {d r : Bool}
    {key : Key} {find pointer : ℕ} {pre post : List IndexNode} {n : IndexNode} {prev : Option Key}
    (fuel previousNumber : ℕ) (hlay : Layout page js (pre ++ n :: post))
    (hc : Chain d prev (n :: post)) (hl : n.isEndLevel = false)
    (hkey : nodeKey (prev.getD []) n = key) (hfind : find ≠ noValue)
    (hfuel : post.length < fuel)
    (hptr : pointer = page.firstNode + nodesSize page.leafPage (pre ++ [n])) :
    findPageInDuplicates page find fuel n pointer previousNumber =
      childNumber d r key find previousNumber (decode (prev.getD []) (n :: post)) := by
  induction fuel generalizing pre n post prev previousNumber pointer with
  | zero => omega
  | succ fuel ih =>
    have hnot : ¬ Passes d r key (nodeKey (prev.getD []) n) := fun hp => hp.ne hkey
    rw [findPageInDuplicates, decode_cons]
    by_cases hb : n.isEndBucket = true
    · rw [if_pos hb, childNumber_cons_neg]
      simp [Below, entryOf, hnot, hb]
    by_cases hrec : find ≤ n.recordNumber
    · rw [if_neg hb, if_pos hrec, childNumber_cons_neg]
      simp [Below, entryOf, hnot, hrec]
    have hbelow : Below d r key find (entryOf (prev.getD []) n) :=
      ⟨hl, .inr ⟨hfind, by simpa [entryOf] using hb, hkey, by simpa [entryOf] using hrec⟩⟩
    have ht := (chain_node hl (by simpa using hb)).1 hc
    obtain ⟨m, post, rfl⟩ := List.exists_cons_of_ne_nil ht.2.ne_nil
    have hlay' : Layout page js ((pre ++ [n]) ++ m :: post) := by simpa using hlay
    rw [if_neg hb, if_neg hrec, childNumber_cons_pos hbelow, hlay'.readNode hptr]
    dsimp only
    cases hml : m.isEndLevel with
    | true =>
      rw [if_pos (.inl rfl), decode_cons, childNumber_cons_neg]
      · rfl
      · simp [Below, entryOf, hml]
    | false =>
      have hlink := ht.2.linked hml
      have hdup := isDuplicate_iff (nodeKey_length ht.1.1) hlink.1
      by_cases hsame : nodeKey (nodeKey (prev.getD []) n) m = nodeKey (prev.getD []) n
      · obtain ⟨hz, hp⟩ := hdup.2 hsame
        have hcond : ¬ (false = true ∨ m.length ≠ 0 ∨ m.prefixLen ≠ n.length + n.prefixLen) := by
          simp [hz, hp]
        rw [if_neg hcond]
        have hptr' : pointer + m.getNodeSize page.leafPage =
            page.firstNode + nodesSize page.leafPage (pre ++ [n] ++ [m]) := by
          simp only [hptr, nodesSize_append, nodesSize_cons, nodesSize_nil]
          omega
        have hi := ih n.pageNumber hlay' ht.2 hml (hsame.trans hkey)
          (by simp only [List.length_cons] at hfuel; omega) hptr'
        rw [Option.getD_some] at hi
        exact hi
      · have hcond : false = true ∨ m.length ≠ 0 ∨ m.prefixLen ≠ n.length + n.prefixLen := by
          by_contra hcon
          simp only [Bool.false_eq_true, false_or, not_or, not_not] at hcon
          exact hsame (hdup.1 hcon)
        have hle := hlink.2 _ rfl
        have hmnot : ¬ Passes d r key (nodeKey (nodeKey (prev.getD []) n) m) := fun hp => by
          rw [hkey] at hle hp
          exact hle hp.before
        rw [if_pos hcond, decode_cons, childNumber_cons_neg]
        · rfl
        · rintro ⟨-, hp | ⟨-, -, hk, -⟩⟩
          · exact hmnot hp
          · exact hsame (hk.trans hkey.symm)

/-- From a node before which every key is passed, the scan takes the last node below. -/
theorem findPageLoop_spec {page : BtreePage} {js : List IndexJumpNode} {d r : Bool} {key : Key}
    {pointer : ℕ} {pre post : List IndexNode} {n : IndexNode} {prev : Option Key}
    (find fuel previousNumber : ℕ) (firstPass : Bool) (hlay : Layout page js (pre ++ n :: post))
    (hc : Chain d prev (n :: post)) (hprev : ∀ k ∈ prev, Passes d r key k)
    (hfirst : prev = none → firstPass = true) (hfuel : post.length < fuel)
    (hptr : pointer = page.firstNode + nodesSize page.leafPage (pre ++ [n])) :
    findPageLoop page key d r find fuel n pointer (lcp (prev.getD []) key) previousNumber
      firstPass = .ok (childNumber d r key find previousNumber (decode (prev.getD []) (n :: post))) := by
  induction fuel generalizing pre n post prev previousNumber pointer firstPass with
  | zero => omega
  | succ fuel ih =>
    rw [findPageLoop, decode_cons]
    cases hl : n.isEndLevel with
    | true =>
      rw [if_pos rfl, childNumber_cons_neg]
      simp [Below, entryOf, hl]
    | false =>
      have hlink := hc.linked hl
      rw [if_neg Bool.false_ne_true, compareNode_spec hlink hprev hfirst]
      by_cases hp : Passes d r key (nodeKey (prev.getD []) n)
      · rw [if_pos hp, childNumber_cons_pos (below_of_passes hl hp)]
        dsimp only
        cases hb : n.isEndBucket with
        | true =>
          obtain rfl := ((chain_endBucket hl hb).1 hc).2
          rfl
        | false =>
          have ht := (chain_node hl hb).1 hc
          obtain ⟨m, post, rfl⟩ := List.exists_cons_of_ne_nil ht.2.ne_nil
          have hlay' : Layout page js ((pre ++ [n]) ++ m :: post) := by simpa using hlay
          have hend := hlay'.node_end_le
          rw [hlay'.readNode hptr, if_neg Bool.false_ne_true, if_neg (by omega)]
          refine ih _ _ hlay' ht.2 (by simpa using hp) (by simp) ?_ ?_
          · simp only [List.length_cons] at hfuel
            omega
          · simp only [hptr, nodesSize_append, nodesSize_cons, nodesSize_nil]
            omega
      · rw [if_neg hp]
        dsimp only
        by_cases heq : key = nodeKey (prev.getD []) n ∧ find ≠ noValue
        · have hcond : (decide (key = nodeKey (prev.getD []) n) && find != noValue) = true := by
            simpa using heq
          rw [if_pos hcond]
          rw [findPageInDuplicates_spec _ _ hlay hc hl heq.1.symm heq.2 hfuel hptr, decode_cons]
        · have hcond : ¬ (decide (key = nodeKey (prev.getD []) n) && find != noValue) = true := by
            simpa using heq
          rw [if_neg hcond, childNumber_cons_neg]
          rintro ⟨-, hp' | ⟨hfind, -, hk, -⟩⟩
          · exact hp hp'
          · exact heq ⟨hk.symm, hfind⟩

/-- The scan from the first node, behind the degenerate one. -/
theorem findPageFrom_first {page : BtreePage} {js : List IndexJumpNode} {ns : List IndexNode}
    {n : IndexNode} {d : Bool} (r : Bool) (key : Key) (find pfx : ℕ) (hlay : Layout page js (n :: ns))
    (hn : Nodes d false (n :: ns)) (hne : ns ≠ []) :
    findPageFrom page key d r find page.firstNode n (page.firstNode + n.getNodeSize page.leafPage)
      pfx =
    .ok (childNumber d r key find n.pageNumber (decode [] (comparedNodes false (n :: ns)))) := by
  have hlen := hlay.length_le
  simp only [List.length_cons] at hlen
  have hfirst : n.isEndLevel = false ∧ ((n.prefixLen = 0 ∧ n.length = 0) ↔ Degenerate false n) := by
    by_cases hdeg : Degenerate false n
    · exact ⟨hdeg.2.2.2.2, by simp [hdeg, hdeg.2.1, IndexNode.length, hdeg.2.2.1]⟩
    · obtain ⟨hl, hb, -⟩ := (hn.chain (.inr (by simpa using hdeg))).tail hne
      exact ⟨hl, fun h => ⟨rfl, h.1, List.length_eq_zero_iff.1 h.2, hb, hl⟩, fun h => absurd h hdeg⟩
  have hc := hn.chain_compared
  rw [findPageFrom, hfirst.1, if_neg Bool.false_ne_true, if_pos rfl]
  rw [comparedNodes] at hc ⊢
  by_cases hdeg : Degenerate false n
  · rw [if_pos hdeg] at hc
    obtain ⟨m, post, rfl⟩ := List.exists_cons_of_ne_nil hne
    have hptr : page.firstNode + n.getNodeSize page.leafPage =
      page.firstNode + nodesSize page.leafPage [n] := by simp
    have hend := hlay.node_end_le (p := [n])
    simp only [List.length_cons] at hlen
    rw [if_pos (hfirst.2.2 hdeg), if_pos hdeg, hlay.readNode (p := [n]) hptr]
    dsimp only
    rw [if_neg (by omega), ← lcp_nil_left key]
    exact findPageLoop_spec find (page.btrLength + 1) n.pageNumber true
      (show Layout page js ([n] ++ m :: post) from hlay) hc (by simp) (by simp) (by omega)
      (by simp [Nat.add_assoc])
  · rw [if_neg hdeg] at hc
    rw [if_neg (mt hfirst.2.1 hdeg), if_neg hdeg, ← lcp_nil_left key]
    exact findPageLoop_spec find (page.btrLength + 1) n.pageNumber true
      (show Layout page js ([] ++ n :: ns) from hlay) hc (by simp) (by simp) (by omega)
      (by simp)

/-- The scan from a later node that is below gives the same child as a scan of all nodes. -/
theorem findPageFrom_later {page : BtreePage} {js : List IndexJumpNode} {pre post : List IndexNode}
    {a n : IndexNode} {d r : Bool} {key : Key} {find : ℕ}
    (hlay : Layout page js (a :: pre ++ n :: post)) (hn : Nodes d false (a :: pre ++ n :: post))
    (ho : find ≠ noValue →
      RecordsOrdered key (decode [] (comparedNodes false (a :: pre ++ n :: post))))
    (hr : r = true → find = noValue) (hl : n.isEndLevel = false) (hb : n.isEndBucket = false)
    (hor : Passes d r key (nodeKey (lastKey [] (a :: pre)) n) ∨
      find ≠ noValue ∧ nodeKey (lastKey [] (a :: pre)) n = key ∧ n.recordNumber < find) :
    findPageFrom page key d r find (page.firstNode + nodesSize page.leafPage (a :: pre)) n
      (page.firstNode + nodesSize page.leafPage (a :: pre) + n.getNodeSize page.leafPage)
      (lcp (lastKey [] (a :: pre)) key) =
    .ok (childNumber d r key find a.pageNumber
      (decode [] (comparedNodes false (a :: pre ++ n :: post)))) := by
  have hlen := hlay.length_le
  simp only [List.length_cons, List.length_append] at hlen
  have hne : page.firstNode + nodesSize page.leafPage (a :: pre) ≠ page.firstNode := by
    have := nodesSize_ge_length page.leafPage (a :: pre)
    simp only [List.length_cons] at this
    omega
  have hc := hn.chain_compared
  obtain ⟨pre', hpre', hlast⟩ := comparedNodes_append false a pre (n :: post)
  rw [hpre'] at hc ho ⊢
  have hpair := below_pairwise key hc ho hr
  rw [← hlast] at hor ⊢
  have hpk : (prevKey none pre').getD [] = lastKey [] pre' := prevKey_getD none pre'
  have hn' : Chain d (prevKey none pre') (n :: post) := (hc.append_right (by simp)).2
  have hlink := hn'.linked hl
  have hbelow : Below d r key find (entryOf (lastKey [] pre') n) := ⟨hl, hor.imp id fun h =>
    ⟨h.1, hb, h.2.1, h.2.2⟩⟩
  simp only [Option.getD_none, decode_append, decode_cons] at hpair ⊢
  rw [childNumber_append (fun e he => (List.pairwise_append.1 hpair).2.2 e he _ (by simp) hbelow)
    hbelow, findPageFrom, hl, if_neg Bool.false_ne_true, if_neg hne]
  have hptr : page.firstNode + nodesSize page.leafPage (a :: pre) + n.getNodeSize page.leafPage =
      page.firstNode + nodesSize page.leafPage (a :: pre ++ [n]) := by
    simp only [nodesSize_append, nodesSize_cons, nodesSize_nil]
    omega
  rcases hor with hp | ⟨hfind, hkey, hrec⟩
  · have hprev : ∀ k ∈ prevKey none pre', Passes d r key k := by
      intro k hk
      rw [← hpk, hk] at hp
      exact hp.of_atMost (hlink.2 k hk)
    have hscan := findPageLoop_spec find (page.btrLength + 1) n.pageNumber true hlay hn' hprev (by simp) (by omega) hptr
    rw [hpk, decode_cons, childNumber_cons_pos hbelow] at hscan
    exact hscan
  · have hpfx : n.prefixLen = lcp (lastKey [] pre') key := by rw [hlink.1, hpk, hkey]
    have hdup := findPageInDuplicates_spec (r := r) (page.btrLength + 1) n.pageNumber hlay hn' hl (by rw [hpk, hkey]) hfind (by omega) hptr
    rw [hpk, decode_cons, childNumber_cons_pos hbelow] at hdup
    rw [findPageLoop, hl, if_neg Bool.false_ne_true, ← hpfx, compareNode_equal hpfx hkey]
    dsimp only
    rw [if_pos (by simpa using hfind), hdup]

/-- The child is that of the last entry below the key and record number, or of the first node
where no entry is. -/
theorem findPage_eq_last_below {page : BtreePage} {js : List IndexJumpNode} {n : IndexNode}
    {ns : List IndexNode} {key : TemporaryKey} {idx : IndexDesc} {find : ℕ} {r : Bool}
    (hlay : Layout page js (n :: ns)) (hleaf : page.leafPage = false)
    (hn : Nodes idx.idxDescending false (n :: ns)) (hne : ns ≠ [])
    (hj : JumpChain page.firstNode false (n :: ns) [] js)
    (ho : validateDuplicates idx key = false →
      RecordsOrdered key.keyData (decode [] (comparedNodes false (n :: ns))))
    (hr : r = true → find = noValue) :
    findPage page key idx find r = .ok
      ((((decode [] (comparedNodes false (n :: ns))).filter fun e => Below idx.idxDescending r
          key.keyData (if validateDuplicates idx key then noValue else find) e).getLast?.map
        (·.pageNumber)).getD n.pageNumber) := by
  obtain ⟨find', hfind'⟩ : ∃ f, f = if validateDuplicates idx key then noValue else find := ⟨_, rfl⟩
  have hr' : r = true → find' = noValue := fun h => by rw [hfind', hr h, ite_self]
  have ho' : find' ≠ noValue →
      RecordsOrdered key.keyData (decode [] (comparedNodes false (n :: ns))) := by
    intro h
    refine ho (Bool.eq_false_iff.2 fun hv => h ?_)
    rw [hfind', if_pos hv]
  have hpair := below_pairwise key.keyData hn.chain_compared ho' hr'
  rw [findPage, ← hfind', filter_eq_takeWhile (by simpa using hpair)]
  change _ = Except.ok (childNumber idx.idxDescending r key.keyData find' n.pageNumber
    (decode [] (comparedNodes false (n :: ns))))
  obtain ⟨pre, m, post, hns, hptr, hpfx, hor⟩ := findAreaStartPoint_spec r key.keyData find' hlay (hleaf ▸ hn) (hleaf ▸ hj)
  have hfirst := hlay.readNode (p := []) (show page.firstNode = _ by simp)
  have hend := hlay.node_end_le (p := [])
  simp only [nodesSize_nil, Nat.add_zero] at hend
  have hfrom := fun pfx => findPageFrom_first r key.keyData find' pfx hlay hn hne
  have hlay' : Layout page js (pre ++ m :: post) := hns ▸ hlay
  have hend' := hlay'.node_end_le
  dsimp only
  rw [hptr, hlay'.readNode rfl, if_neg (by omega)]
  dsimp only
  cases pre with
  | nil =>
    obtain ⟨rfl, rfl⟩ := List.cons.inj hns
    simp only [nodesSize_nil, Nat.add_zero, hfirst, if_neg (Nat.not_lt.2 hend), gt_iff_lt, ite_self]
    exact hfrom _
  | cons a pre =>
    obtain ⟨rfl, rfl⟩ := List.cons.inj hns
    obtain ⟨hl, hor⟩ := hor.resolve_left (by simp)
    cases hb : m.isEndBucket with
    | true =>
      rw [if_pos (.inl rfl), hfirst]
      dsimp only
      rw [if_neg (by omega)]
      exact hfrom _
    | false =>
      rw [hl, if_neg (by simp), hpfx]
      exact findPageFrom_later hlay hn ho' hr' hl hb hor

/-- A bucket of level 1 behind whose nodes a right sibling follows. -/
def childNodes : List IndexNode :=
  [⟨0, [], 0, 10, false, false⟩, ⟨0, [65], 3, 11, false, false⟩, ⟨1, [], 5, 12, false, false⟩,
    ⟨0, [66], 1, 13, true, false⟩]

theorem layout_children : Layout (bucketOf 1 [] childNodes) [] childNodes :=
  layout_bucketOf (by decide) (by decide)

theorem nodes_children : Nodes false false childNodes :=
  .inr ⟨_, _, rfl, by decide, by decide⟩

theorem ordered_children : (decode [] (comparedNodes false childNodes)).Pairwise fun a b =>
    b.isEndLevel = false → a.key = b.key → a.recordNumber ≤ b.recordNumber := by
  decide

/-- A key behind the marker leads to the child the marker carries, and the constant `END_BUCKET`
is not returned. -/
theorem findPage_ne_endBucket :
    ¬ ∀ (page : BtreePage) (js : List IndexJumpNode) (ns : List IndexNode) (key : TemporaryKey)
      (idx : IndexDesc) (find : ℕ), Layout page js ns → page.leafPage = false →
      Nodes idx.idxDescending false ns → JumpChain page.firstNode false ns [] js →
      (∀ key, RecordsOrdered key (decode [] (comparedNodes false ns))) → 1 < ns.length →
      (∃ m ∈ ns.getLast?, m.isEndBucket = true ∧
        Before idx.idxDescending (nodeKey (lastKey [] ns.dropLast) m) key.keyData) →
      findPage page key idx find false = .ok endBucketNumber := by
  intro h
  have heq := h _ _ _ ⟨[67], 0, false⟩ ⟨1, false, false, false⟩ 7 layout_children rfl nodes_children
    trivial (fun _ => ordered_children.imp fun h hl ha hk => h hl (ha.trans hk.symm)) (by decide)
    (by decide)
  revert heq
  decide +kernel

/-- Record number 4 of the key `A` belongs to the child of the first node of that key. -/
theorem findPage_eq_last_below_witness :
    findPage (bucketOf 1 [] childNodes) ⟨[65], 0, false⟩ ⟨1, false, false, false⟩ 4 false = .ok 11 :=
  findPage_eq_last_below layout_children rfl nodes_children (by decide) trivial
    (fun _ => by decide) (by decide)

end FirebirdCore.Btr