import FirebirdCore.Btr.InsertNoSplit
import FirebirdCore.Btr.RemoveLeafNode

/-!
# A leaf bucket over its life

Keys are inserted into a leaf bucket and removed from it, until an insertion splits it. In every state it is a valid
bucket, and its entries are what the same insertions and removals make of a list of entries.
-/
namespace FirebirdCore.Btr

/-! ## Operations -/

inductive LeafOp where
  | insert (key : TemporaryKey) (recordNumber : ℕ)
  | remove (key : TemporaryKey) (recordNumber : ℕ)
  deriving DecidableEq, Repr

namespace LeafOp

/-- The page behind an operation, or `none` if it would be split or is corrupt. -/
def apply (ctx : InsertContext) (idx : IndexDesc) (page : BtreePage) : LeafOp → Option BtreePage
  | insert key recordNumber =>
      match insertNode ctx page key idx recordNumber 0 with
      | .ok (.noSplit page', _) => some page'
      | _ => none
  | remove key recordNumber =>
      match removeLeafNode page key idx recordNumber with
      | .ok (.found pointer) => some (deleteNode ctx.pageSize page pointer).1
      | .ok _ => some page
      | .error _ => none

def run (ctx : InsertContext) (idx : IndexDesc) : List LeafOp → BtreePage → Option BtreePage
  | [], page => some page
  | op :: ops, page => (op.apply ctx idx page).bind (run ctx idx ops)

/-- Keys and record numbers that there can be; `ordered` are the keys whose duplicates are not validated. -/
def Fits (pageSize : ℕ) (idx : IndexDesc) (ordered : Key → Prop) : LeafOp → Prop
  | insert key recordNumber => key.keyData.length < pageSize / 4 ∧ recordNumber < 2 ^ 40 ∧
      (validateDuplicates idx key = false ↔ ordered key.keyData)
  | remove key _ => validateDuplicates idx key = false ↔ ordered key.keyData

/-- What an operation makes of a list of entries. -/
def Changes (idx : IndexDesc) : LeafOp → List Entry → List Entry → Prop
  | insert key recordNumber, es, es' => InsertedAt idx.idxDescending (validateDuplicates idx key)
      ⟨key.keyData, recordNumber, 0, false, false⟩ es es'
  | remove key recordNumber, es, es' =>
      (∃ i e, es[i]? = some e ∧ e.IsOf key.keyData recordNumber ∧ es' = es.eraseIdx i) ∨
        es' = es ∧ ∀ e ∈ es, ¬ e.IsOf key.keyData recordNumber

def ChangesAll (idx : IndexDesc) : List LeafOp → List Entry → List Entry → Prop
  | [], es, es' => es' = es
  | op :: ops, es, es' => ∃ next, op.Changes idx es next ∧ ChangesAll idx ops next es'

end LeafOp

/-- A valid leaf bucket with its entries, of which those of a key are in the order of their records if its
duplicates are not validated. -/
structure LeafHolds (pageSize : ℕ) (d : Bool) (ordered : Key → Prop) (page : BtreePage) (es : List Entry) :
    Prop where
  leaf : page.leafPage = true
  valid : ∃ js ns, ValidBucket pageSize d page js ns ∧ decode [] ns = es
  records : ∀ k, ordered k → RecordsOrdered k es

/-! ## One operation -/

section
variable {page page' : BtreePage} {ordered : Key → Prop} {es : List Entry} {ctx : InsertContext} {idx : IndexDesc}

theorem LeafHolds.insert {key : TemporaryKey} {recordNumber : ℕ} {duplicates : List ℕ}
    (h : LeafHolds ctx.pageSize idx.idxDescending ordered page es) (hmin : minPageSize ≤ ctx.pageSize)
    (hmax : ctx.pageSize ≤ maxPageSize) (hkeyLen : ctx.keyLength < ctx.pageSize / 4)
    (hfits : (LeafOp.insert key recordNumber).Fits ctx.pageSize idx ordered)
    (hrun : insertNode ctx page key idx recordNumber 0 = .ok (.noSplit page', duplicates)) :
    ∃ es', (LeafOp.insert key recordNumber).Changes idx es es' ∧
      LeafHolds ctx.pageSize idx.idxDescending ordered page' es' := by
  obtain ⟨hkey, hrec, hordered⟩ := hfits
  obtain ⟨js, ns, hv, rfl⟩ := h.valid
  have hscan : scanned idx.idxDescending page.leafPage ns = ns := by
    rw [h.leaf]
    exact scanned_leaf _ _
  have ho : validateDuplicates idx key = false →
      RecordsOrdered key.keyData (decode [] (scanned idx.idxDescending page.leafPage ns)) := fun hvalidate => by
    rw [hscan]
    exact h.records _ (hordered.1 hvalidate)
  obtain ⟨pre, n, post, hplace, hat⟩ := insertNode_place hv (.inl h.leaf) ho hrun
  obtain ⟨hlevel, js', hvalid⟩ := hplace.insertAt hv (.inl h.leaf) hmin hmax hkey hkeyLen hrec (by decide) hat
  have hw : n.WellFormed page.leafPage := hv.layout.nodes n (by rw [hplace.eq]; simp)
  have hinserted := hplace.insertedAt (if page.leafPage then 0 else 0) hv.nodes (.inl h.leaf) hw ho
  rw [hscan, h.leaf, scanned_leaf] at hinserted
  rw [h.leaf] at hvalid
  refine ⟨_, hinserted, ?_, ⟨js', _, hvalid, rfl⟩, fun k hk => hinserted.recordsOrdered (fun he => ?_)
    (h.records k hk)⟩
  · rw [BtreePage.leafPage, hlevel]
    exact h.leaf
  · have hsame : key.keyData = k := he
    rw [hordered, hsame]
    exact hk

theorem LeafHolds.remove {key : TemporaryKey} {recordNumber : ℕ}
    (h : LeafHolds ctx.pageSize idx.idxDescending ordered page es) (hmax : ctx.pageSize ≤ maxPageSize)
    (hfits : (LeafOp.remove key recordNumber).Fits ctx.pageSize idx ordered)
    (hop : (LeafOp.remove key recordNumber).apply ctx idx page = some page') :
    ∃ es', (LeafOp.remove key recordNumber).Changes idx es es' ∧
      LeafHolds ctx.pageSize idx.idxDescending ordered page' es' := by
  obtain ⟨js, ns, hv, rfl⟩ := h.valid
  obtain ⟨result, hresult, hof⟩ := @removeLeafNode_spec page js ns recordNumber key idx hv.layout hv.nodes
    hv.jumps.chain h.leaf fun hvalidate => h.records _ (hfits.1 hvalidate)
  rw [LeafOp.apply, hresult] at hop
  cases result with
  | missing =>
    cases hop
    exact ⟨_, .inr ⟨rfl, hof⟩, h⟩
  | sibling =>
    cases hop
    exact ⟨_, .inr ⟨rfl, hof⟩, h⟩
  | found pointer =>
    cases hop
    obtain ⟨A, x, D, rfl, hpointer, hof⟩ := hof
    rw [List.nil_append] at hpointer hof
    obtain ⟨m, B, rfl⟩ := hv.nodes.exists_next hof.2.2.2 hof.2.2.1
    obtain ⟨js', hv', -⟩ := deleteNode_next hv hmax hof.2.2.2 hof.2.2.1 hpointer
    have hlength : (decode [] A).length = A.length := decode_length [] A
    have herased := decode_erased (A := A) (x := x) (hv.layout.nodes m (by simp)) hv.nodes.last_of_endLevel
    refine ⟨_, .inl ⟨A.length, _, ?_, hof, herased⟩, h.leaf, ⟨js', _, hv', rfl⟩, fun k hk => ?_⟩
    · rw [decode_append, decode_cons, ← hlength, List.getElem?_append_right le_rfl, Nat.sub_self]
      rfl
    · rw [herased]
      exact (h.records k hk).sublist (List.eraseIdx_sublist _ _)

theorem LeafHolds.apply {op : LeafOp} (h : LeafHolds ctx.pageSize idx.idxDescending ordered page es)
    (hmin : minPageSize ≤ ctx.pageSize) (hmax : ctx.pageSize ≤ maxPageSize)
    (hkeyLen : ctx.keyLength < ctx.pageSize / 4) (hfits : op.Fits ctx.pageSize idx ordered)
    (hop : op.apply ctx idx page = some page') :
    ∃ es', op.Changes idx es es' ∧ LeafHolds ctx.pageSize idx.idxDescending ordered page' es' := by
  cases op with
  | insert key recordNumber =>
    rw [LeafOp.apply] at hop
    split at hop
    · cases hop
      exact h.insert hmin hmax hkeyLen hfits ‹_›
    · cases hop
  | remove key recordNumber => exact h.remove hmax hfits hop

/-! ## All operations -/

/-- After any insertions without a split and removals the bucket is valid, with the entries that these operations
make of the old ones. -/
theorem leafRun_holds {ops : List LeafOp} (hmin : minPageSize ≤ ctx.pageSize) (hmax : ctx.pageSize ≤ maxPageSize)
    (hkeyLen : ctx.keyLength < ctx.pageSize / 4) (hfits : ∀ op ∈ ops, op.Fits ctx.pageSize idx ordered)
    (h : LeafHolds ctx.pageSize idx.idxDescending ordered page es) (hrun : LeafOp.run ctx idx ops page = some page') :
    ∃ es', LeafOp.ChangesAll idx ops es es' ∧ LeafHolds ctx.pageSize idx.idxDescending ordered page' es' := by
  induction ops generalizing page es with
  | nil =>
    cases hrun
    exact ⟨es, rfl, h⟩
  | cons op ops ih =>
    obtain ⟨next, hop, hrest⟩ := Option.bind_eq_some_iff.1 hrun
    obtain ⟨hhere, hbehind⟩ := List.forall_mem_cons.1 hfits
    obtain ⟨middle, hchanges, hnext⟩ := h.apply hmin hmax hkeyLen hhere hop
    obtain ⟨es', hall, hlast⟩ := ih hbehind hnext hrest
    exact ⟨es', ⟨middle, hchanges, hall⟩, hlast⟩

/-- A duplicate is inserted, removed and looked for again. -/
def duplicateOps : List LeafOp :=
  [.insert ⟨[65, 66], 0, false⟩ 7, .remove ⟨[65, 66], 0, false⟩ 7, .remove ⟨[65, 66], 0, false⟩ 7]

theorem leafRun_holds_duplicate : ∃ page' es',
    LeafOp.run ⟨4096, 4, 10, 11, ⟨[], 1, false⟩⟩ ⟨1, false, false, false⟩ duplicateOps
      (bucketOf 0 duplicateJumps duplicateNodes) = some page' ∧
    LeafOp.ChangesAll ⟨1, false, false, false⟩ duplicateOps (decode [] duplicateNodes) es' ∧
    LeafHolds 4096 false (· = [65, 66]) page' es' := by
  obtain ⟨page', hrun⟩ := Option.isSome_iff_exists.1 (by decide +kernel :
    (LeafOp.run ⟨4096, 4, 10, 11, ⟨[], 1, false⟩⟩ ⟨1, false, false, false⟩ duplicateOps
      (bucketOf 0 duplicateJumps duplicateNodes)).isSome = true)
  have hholds : LeafHolds 4096 false (· = [65, 66]) (bucketOf 0 duplicateJumps duplicateNodes)
      (decode [] duplicateNodes) :=
    ⟨by decide, ⟨duplicateJumps, duplicateNodes, validBucket_duplicate, rfl⟩, by rintro k rfl; decide⟩
  obtain ⟨es', hchanges, hlast⟩ := @leafRun_holds _ page' _ _ ⟨4096, 4, 10, 11, ⟨[], 1, false⟩⟩
    ⟨1, false, false, false⟩ duplicateOps (by decide) (by decide) (by decide)
    (by
      intro op hop
      obtain rfl | rfl : op = .insert ⟨[65, 66], 0, false⟩ 7 ∨ op = .remove ⟨[65, 66], 0, false⟩ 7 := by
        simpa [duplicateOps] using hop
      · exact ⟨by decide, by decide, by decide⟩
      · exact ⟨fun _ => rfl, fun _ => rfl⟩) hholds hrun
  exact ⟨page', es', hrun, hchanges, hlast⟩

end

end FirebirdCore.Btr
