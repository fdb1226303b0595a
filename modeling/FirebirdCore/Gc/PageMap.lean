import FirebirdCore.Lib.LowerBound
import FirebirdCore.Lib.Run
import Mathlib.Data.Fin.Basic
import Mathlib.Data.List.MinMax
import Mathlib.Tactic

/-!
# The page map of the garbage collector

Pages with old record versions are posted with a transaction number. `getPages` hands out the pages
of one relation whose numbers are below a bound, and goes round the relations by `nextRelID`. The
tree of the pages of a relation is the sequence of its items.
-/
namespace FirebirdCore.Gc
open FirebirdCore.LowerBound FirebirdCore.Run

/-- A `USHORT`. -/
abbrev RelId := Fin (2 ^ 16)

abbrev TraNumber := ℤ

def maxTraNumber : TraNumber := 0x0000FFFFFFFFFFFF

structure PageTran where
  pageno : ℕ
  tranid : TraNumber
  deriving DecidableEq, Repr

/-- The numbers of the pages that were set. -/
abbrev PageBitmap := List ℕ

structure RelationData where
  relID : RelId
  pages : List PageTran
  deriving DecidableEq, Repr

namespace RelationData

def findPage (data : RelationData) (pageno : ℕ) (tranid : TraNumber) : RelationData × TraNumber :=
  match lookup PageTran.pageno data.pages pageno with
  | none => (data, maxTraNumber)
  | some current =>
      if current.tranid > tranid then
        ({ data with pages := putSorted PageTran.pageno ⟨pageno, tranid⟩ data.pages }, tranid)
      else (data, current.tranid)

/-- The tree takes no item whose key it has. -/
def add (data : RelationData) (page : PageTran) : RelationData :=
  if lookup PageTran.pageno data.pages page.pageno = none then
    { data with pages := putSorted PageTran.pageno page data.pages }
  else data

def addPage (data : RelationData) (pageno : ℕ) (tranid : TraNumber) : RelationData × TraNumber :=
  let (data, findTran) := data.findPage pageno tranid
  if findTran ≠ maxTraNumber then (data, findTran)
  else (data.add ⟨pageno, tranid⟩, tranid)

/-- What the accessor leaves behind, and the bitmap, which is made for its first page. -/
def sweptLoop (oldestSnapshot : TraNumber) :
    List PageTran → Option PageBitmap → List PageTran × Option PageBitmap
  | [], bm => ([], bm)
  | current :: pages, bm =>
      if current.tranid < oldestSnapshot then
        sweptLoop oldestSnapshot pages (some (bm.getD [] ++ [current.pageno]))
      else
        let (left, bm) := sweptLoop oldestSnapshot pages bm
        (current :: left, bm)

def swept (data : RelationData) (oldestSnapshot : TraNumber) : RelationData × Option PageBitmap :=
  let (pages, bm) := sweptLoop oldestSnapshot data.pages none
  ({ data with pages := pages }, bm)

end RelationData

structure GarbageCollector where
  relations : List RelationData
  nextRelID : RelId
  deriving DecidableEq, Repr

namespace GarbageCollector

def empty : GarbageCollector := ⟨[], 0⟩

def getRelData (gc : GarbageCollector) (relID : RelId) (allowCreate : Bool) :
    GarbageCollector × Option RelationData :=
  let (found, pos) := findSorted RelationData.relID gc.relations relID
  if found then (gc, gc.relations[pos]?)
  else if allowCreate then
    ({ gc with relations := putSorted RelationData.relID ⟨relID, []⟩ gc.relations },
      some ⟨relID, []⟩)
  else (gc, none)

/-- What is done through a pointer to the data of a relation is done to the array's element. -/
def store (gc : GarbageCollector) (data : RelationData) : GarbageCollector :=
  { gc with relations := putSorted RelationData.relID data gc.relations }

def addPage (gc : GarbageCollector) (relID : RelId) (pageno : ℕ) (tranid : TraNumber) :
    GarbageCollector × TraNumber :=
  match gc.getRelData relID true with
  | (gc, none) => (gc, maxTraNumber)
  | (gc, some relData) =>
      let (relData, minTraID) := relData.findPage pageno tranid
      if minTraID ≠ maxTraNumber then (gc.store relData, minTraID)
      else
        let (relData, minTraID) := relData.addPage pageno tranid
        (gc.store relData, minTraID)

/-- The loop of `getPages`: the relations it has passed, and those in front of it. -/
def getPagesLoop (oldestSnapshot : TraNumber) (passed : List RelationData) :
    List RelationData → List RelationData × Option (RelId × PageBitmap)
  | [] => (passed, none)
  | relData :: relations =>
      match relData.swept oldestSnapshot with
      | (relData, some bm) => (passed ++ relData :: relations, some (relData.relID, bm))
      | (relData, none) => getPagesLoop oldestSnapshot (passed ++ [relData]) relations

/-- The relation at the cursor or behind it, or the first one if there is none. -/
def startPos (gc : GarbageCollector) : ℕ :=
  let (found, pos) := findSorted RelationData.relID gc.relations gc.nextRelID
  if ¬ found ∧ pos = gc.relations.length then 0 else pos

def getPages (gc : GarbageCollector) (oldestSnapshot : TraNumber) :
    GarbageCollector × Option (RelId × PageBitmap) :=
  if gc.relations = [] then ({ gc with nextRelID := 0 }, none)
  else
    let pos := gc.startPos
    match getPagesLoop oldestSnapshot (gc.relations.take pos) (gc.relations.drop pos) with
    | (relations, some (relID, bm)) => (⟨relations, relID + 1⟩, some (relID, bm))
    | (relations, none) => (⟨relations, 0⟩, none)

def removeRelation (gc : GarbageCollector) (relID : RelId) : GarbageCollector :=
  let (found, pos) := findSorted RelationData.relID gc.relations relID
  if found then { gc with relations := gc.relations.eraseIdx pos } else gc

def sweptRelation (gc : GarbageCollector) (oldestSnapshot : TraNumber) (relID : RelId) :
    GarbageCollector :=
  match gc.getRelData relID false with
  | (gc, none) => gc
  | (gc, some relData) => gc.store (relData.swept oldestSnapshot).1

end GarbageCollector

/-! ## The numbers of the pages of a relation -/

namespace RelationData

/-- The number for which a page is tracked. -/
def number (data : RelationData) (pageno : ℕ) : Option TraNumber :=
  (lookup PageTran.pageno data.pages pageno).map PageTran.tranid

def Sorted (data : RelationData) : Prop := data.pages.Pairwise fun x y => x.pageno < y.pageno

variable {data : RelationData}

theorem number_eq_some_iff (h : data.Sorted) {pageno : ℕ} {tranid : TraNumber} :
    data.number pageno = some tranid ↔ ⟨pageno, tranid⟩ ∈ data.pages := by
  unfold number
  rw [Option.map_eq_some_iff]
  constructor
  · rintro ⟨page, hpage, rfl⟩
    obtain ⟨hmem, rfl⟩ := (lookup_eq_some_iff h).1 hpage
    exact hmem
  · intro hmem
    exact ⟨_, (lookup_eq_some_iff h).2 ⟨hmem, rfl⟩, rfl⟩

theorem number_put (h : data.Sorted) (page : PageTran) (pageno : ℕ) :
    number { data with pages := putSorted PageTran.pageno page data.pages } pageno =
      if page.pageno = pageno then some page.tranid else data.number pageno := by
  simp only [number, lookup_putSorted h]
  split_ifs <;> rfl

/-- The posted number, or the smaller one for which the page is already tracked. -/
def lower (tranid : TraNumber) (number : Option TraNumber) : TraNumber :=
  number.elim tranid (min tranid)

theorem findPage_relID (pageno : ℕ) (tranid : TraNumber) :
    (data.findPage pageno tranid).1.relID = data.relID := by
  unfold findPage
  split
  · rfl
  · split_ifs <;> rfl

theorem findPage_sorted (h : data.Sorted) (pageno : ℕ) (tranid : TraNumber) :
    (data.findPage pageno tranid).1.Sorted := by
  unfold findPage
  split
  · exact h
  · split_ifs
    · exact putSorted_sorted h _
    · exact h

/-- A tracked page gets the smaller number, another one is not found. -/
theorem findPage_number (h : data.Sorted) (pageno : ℕ) (tranid : TraNumber) (other : ℕ) :
    (data.findPage pageno tranid).1.number other =
      if pageno = other then (data.number pageno).map (min tranid) else data.number other := by
  unfold findPage
  split
  · rename_i hnone
    split_ifs with heq
    · subst heq
      simp [number, hnone]
    · rfl
  · rename_i current hcurrent
    have hnumber : data.number pageno = some current.tranid := by
      simp [number, hcurrent]
    split_ifs with hgt heq heq
    · rw [number_put h, if_pos heq, hnumber, Option.map_some, min_eq_left hgt.le]
    · rw [number_put h, if_neg heq]
    · rw [← heq, hnumber, Option.map_some, min_eq_right (not_lt.1 hgt)]
    · rfl

/-- Only a page that is not tracked, or is tracked for the greatest number, is not found. -/
theorem findPage_result (pageno : ℕ) (tranid : TraNumber) :
    (data.findPage pageno tranid).2 =
      ((data.number pageno).map (min tranid)).getD maxTraNumber := by
  unfold findPage number
  split
  · rename_i hnone
    simp [hnone]
  · rename_i current hcurrent
    split_ifs with hgt
    · simp [hcurrent, hgt.le]
    · simp [hcurrent, not_lt.1 hgt]

theorem add_relID (page : PageTran) : (data.add page).relID = data.relID := by
  unfold add
  split_ifs <;> rfl

theorem add_sorted (h : data.Sorted) (page : PageTran) : (data.add page).Sorted := by
  unfold add
  split_ifs
  · exact putSorted_sorted h _
  · exact h

theorem add_number (h : data.Sorted) (page : PageTran) (other : ℕ) :
    (data.add page).number other =
      if page.pageno = other then some ((data.number other).getD page.tranid)
      else data.number other := by
  unfold add
  split_ifs with hnone heq heq
  · rw [number_put h, if_pos heq]
    subst heq
    simp [number, hnone]
  · rw [number_put h, if_neg heq]
  · obtain ⟨current, hcurrent⟩ := Option.ne_none_iff_exists'.1 hnone
    subst heq
    simp [number, hcurrent]
  · rfl

theorem addPage_relID (pageno : ℕ) (tranid : TraNumber) :
    (data.addPage pageno tranid).1.relID = data.relID := by
  unfold addPage
  dsimp only
  split_ifs
  · exact findPage_relID pageno tranid
  · exact (add_relID _).trans (findPage_relID pageno tranid)

theorem addPage_sorted (h : data.Sorted) (pageno : ℕ) (tranid : TraNumber) :
    (data.addPage pageno tranid).1.Sorted := by
  unfold addPage
  dsimp only
  split_ifs
  · exact findPage_sorted h pageno tranid
  · exact add_sorted (findPage_sorted h pageno tranid) _

theorem addPage_number (h : data.Sorted) (pageno : ℕ) (tranid : TraNumber) (other : ℕ) :
    (data.addPage pageno tranid).1.number other =
      if pageno = other then some (lower tranid (data.number other)) else data.number other := by
  have hfound := findPage_number h pageno tranid other
  have hresult := data.findPage_result pageno tranid
  unfold addPage
  dsimp only
  split_ifs with hmax heq heq
  · subst heq
    rw [hfound, if_pos rfl]
    cases hnumber : data.number pageno with
    | none => exact absurd (by rw [hresult, hnumber]; rfl) hmax
    | some current => rfl
  · rw [hfound, if_neg heq]
  · rw [add_number (findPage_sorted h pageno tranid), if_pos heq, hfound, if_pos heq]
    subst heq
    cases data.number pageno <;> rfl
  · rw [add_number (findPage_sorted h pageno tranid), if_neg heq, hfound, if_neg heq]

/-! ## The pages below a bound -/

/-- The page is tracked for a number below the bound. -/
def Below (data : RelationData) (oldestSnapshot : TraNumber) : Prop :=
  ∃ page ∈ data.pages, page.tranid < oldestSnapshot

instance (data : RelationData) (oldestSnapshot : TraNumber) :
    Decidable (data.Below oldestSnapshot) :=
  inferInstanceAs (Decidable (∃ page ∈ data.pages, page.tranid < oldestSnapshot))

theorem sweptLoop_pages (oldestSnapshot : TraNumber) (pages : List PageTran)
    (bm : Option PageBitmap) : (sweptLoop oldestSnapshot pages bm).1 =
      pages.filter fun page => ¬ page.tranid < oldestSnapshot := by
  fun_induction sweptLoop oldestSnapshot pages bm with
  | case1 bm => rfl
  | case2 bm current pages hlt ih => simp [hlt, ih]
  | case3 current pages bm hlt left bm' heq ih =>
    rw [heq] at ih
    rw [List.filter_cons_of_pos (by simpa using hlt), ← ih]

theorem sweptLoop_bitmap (oldestSnapshot : TraNumber) (pages : List PageTran)
    (bm : Option PageBitmap) : (sweptLoop oldestSnapshot pages bm).2 =
      if ∃ page ∈ pages, page.tranid < oldestSnapshot then
        some (bm.getD [] ++
          (pages.filter fun page => page.tranid < oldestSnapshot).map PageTran.pageno)
      else bm := by
  fun_induction sweptLoop oldestSnapshot pages bm with
  | case1 bm => simp
  | case2 bm current pages hlt ih =>
    rw [ih]
    simp [hlt]
  | case3 current pages bm hlt left bm' heq ih =>
    rw [heq] at ih
    simpa [hlt] using ih

theorem swept_eq (oldestSnapshot : TraNumber) : data.swept oldestSnapshot =
    ({ data with pages := data.pages.filter fun page => ¬ page.tranid < oldestSnapshot },
      if data.Below oldestSnapshot then
        some ((data.pages.filter fun page => page.tranid < oldestSnapshot).map PageTran.pageno)
      else none) := by
  unfold swept
  ext1
  · exact congrArg (RelationData.mk data.relID) (sweptLoop_pages ..)
  · exact sweptLoop_bitmap ..

theorem swept_sorted (h : data.Sorted) (oldestSnapshot : TraNumber) :
    (data.swept oldestSnapshot).1.Sorted := by
  rw [swept_eq]
  exact List.Pairwise.filter _ h

theorem swept_number (h : data.Sorted) (oldestSnapshot : TraNumber) (pageno : ℕ) :
    (data.swept oldestSnapshot).1.number pageno =
      (data.number pageno).filter fun tranid => ¬ tranid < oldestSnapshot := by
  simp only [number, swept_eq, lookup_filter h]
  cases lookup PageTran.pageno data.pages pageno with
  | none => rfl
  | some page => by_cases hlt : page.tranid < oldestSnapshot <;> simp [Option.filter, hlt]

theorem swept_quiet {oldestSnapshot : TraNumber} (hnone : ¬ data.Below oldestSnapshot) :
    data.swept oldestSnapshot = (data, none) := by
  rw [swept_eq, if_neg hnone, List.filter_eq_self.2]
  intro page hpage
  simpa using fun hlt => hnone ⟨page, hpage, hlt⟩

/-- What is swept is what was tracked for a number below the bound. -/
theorem swept_bitmap (h : data.Sorted) {oldestSnapshot : TraNumber}
    (hbelow : data.Below oldestSnapshot) :
    ∃ bm, (data.swept oldestSnapshot).2 = some bm ∧ ∀ pageno, pageno ∈ bm ↔
      ∃ tranid, data.number pageno = some tranid ∧ tranid < oldestSnapshot := by
  rw [swept_eq, if_pos hbelow]
  refine ⟨_, rfl, fun pageno => ?_⟩
  simp only [List.mem_map, List.mem_filter, decide_eq_true_eq, number_eq_some_iff h]
  constructor
  · rintro ⟨page, ⟨hmem, hlt⟩, rfl⟩
    exact ⟨page.tranid, hmem, hlt⟩
  · rintro ⟨tranid, hmem, hlt⟩
    exact ⟨⟨pageno, tranid⟩, ⟨hmem, hlt⟩, rfl⟩

end RelationData

/-! ## The numbers of all pages -/

namespace GarbageCollector

def number (gc : GarbageCollector) (relID : RelId) (pageno : ℕ) : Option TraNumber :=
  (lookup RelationData.relID gc.relations relID).bind fun data => data.number pageno

structure Sorted (gc : GarbageCollector) : Prop where
  relations : gc.relations.Pairwise fun x y => x.relID < y.relID
  pages : ∀ data ∈ gc.relations, data.Sorted

theorem empty_sorted : empty.Sorted := ⟨List.Pairwise.nil, fun _ h => absurd h List.not_mem_nil⟩

variable {gc : GarbageCollector}

theorem Sorted.lookup (h : gc.Sorted) {relID : RelId} {data : RelationData}
    (hdata : LowerBound.lookup RelationData.relID gc.relations relID = some data) :
    data.relID = relID ∧ data.Sorted := by
  obtain ⟨hmem, hkey⟩ := (lookup_eq_some_iff h.relations).1 hdata
  exact ⟨hkey, h.pages data hmem⟩

theorem number_of_mem (h : gc.Sorted) {data : RelationData} (hdata : data ∈ gc.relations)
    (pageno : ℕ) : gc.number data.relID pageno = data.number pageno := by
  rw [number, (lookup_eq_some_iff h.relations).2 ⟨hdata, rfl⟩, Option.bind_some]

theorem store_sorted (h : gc.Sorted) {data : RelationData} (hdata : data.Sorted) :
    (gc.store data).Sorted where
  relations := putSorted_sorted h.relations data
  pages x hx := by
    obtain rfl | hx := mem_of_mem_putSorted h.relations hx
    · exact hdata
    · exact h.pages x hx

theorem store_number (h : gc.Sorted) (data : RelationData) (relID : RelId) (pageno : ℕ) :
    (gc.store data).number relID pageno =
      if data.relID = relID then data.number pageno else gc.number relID pageno := by
  unfold number store
  rw [lookup_putSorted h.relations]
  split_ifs <;> rfl

theorem getRelData_found (h : gc.Sorted) {relID : RelId} {data : RelationData}
    (hdata : LowerBound.lookup RelationData.relID gc.relations relID = some data)
    (allowCreate : Bool) : gc.getRelData relID allowCreate = (gc, some data) := by
  have hfound := findSorted_fst h.relations relID
  rw [hdata, Option.isSome_some] at hfound
  simp only [getRelData, hfound, if_true, getElem?_findSorted h.relations hdata]

theorem getRelData_missing (h : gc.Sorted) {relID : RelId}
    (hnone : LowerBound.lookup RelationData.relID gc.relations relID = none) :
    gc.getRelData relID true = (gc.store ⟨relID, []⟩, some ⟨relID, []⟩) ∧
      gc.getRelData relID false = (gc, none) := by
  have hfound := findSorted_fst h.relations relID
  rw [hnone, Option.isSome_none] at hfound
  simp [getRelData, hfound, store]

/-- The data of a relation is there, or it is made and tracks no page. -/
theorem getRelData_spec (h : gc.Sorted) (relID : RelId) :
    ∃ gc' data, gc.getRelData relID true = (gc', some data) ∧ gc'.Sorted ∧ data.Sorted ∧
      data.relID = relID ∧ (∀ pageno, data.number pageno = gc.number relID pageno) ∧
      ∀ r pageno, gc'.number r pageno = gc.number r pageno := by
  cases hdata : LowerBound.lookup RelationData.relID gc.relations relID with
  | some data =>
    obtain ⟨hrelID, hsorted⟩ := h.lookup hdata
    refine ⟨gc, data, getRelData_found h hdata true, h, hsorted, hrelID, fun pageno => ?_,
      fun _ _ => rfl⟩
    rw [number, hdata, Option.bind_some]
  | none =>
    have hempty : RelationData.Sorted ⟨relID, []⟩ := List.Pairwise.nil
    have hnumber : ∀ pageno, gc.number relID pageno = none := by
      intro pageno
      rw [number, hdata, Option.bind_none]
    refine ⟨_, _, (getRelData_missing h hdata).1, store_sorted h hempty, hempty, rfl,
      fun pageno => (hnumber pageno).symm, fun r pageno => ?_⟩
    rw [store_number h]
    split_ifs with heq
    · exact heq ▸ (hnumber pageno).symm
    · rfl

/-- The page gets the smaller of the posted number and its own, and no other page changes. -/
theorem addPage_spec (h : gc.Sorted) (relID : RelId) (pageno : ℕ) (tranid : TraNumber) :
    (gc.addPage relID pageno tranid).1.Sorted ∧ ∀ r p,
      (gc.addPage relID pageno tranid).1.number r p =
        if relID = r ∧ pageno = p then some (RelationData.lower tranid (gc.number r p))
        else gc.number r p := by
  obtain ⟨gc', data, hget, hgc, hdata, rfl, hnumber, hsame⟩ := getRelData_spec h relID
  have hfound := data.findPage_number hdata pageno tranid
  have hfoundSorted := data.findPage_sorted hdata pageno tranid
  have hresult := data.findPage_result pageno tranid
  unfold addPage
  rw [hget]
  dsimp only
  split_ifs with hmax
  · refine ⟨store_sorted hgc hfoundSorted, fun r p => ?_⟩
    rw [store_number hgc, RelationData.findPage_relID, hfound, hsame]
    by_cases hr : data.relID = r
    · subst hr
      simp only [true_and, if_true, hnumber]
      split_ifs with hp
      · subst hp
        rw [hnumber] at hresult
        cases hp : gc.number data.relID pageno with
        | none => exact absurd (by rw [hresult, hp]; rfl) hmax
        | some current => rfl
      · rfl
    · simp [hr]
  · have hadd := RelationData.addPage_number hfoundSorted pageno tranid
    have haddSorted := RelationData.addPage_sorted hfoundSorted pageno tranid
    refine ⟨store_sorted hgc haddSorted, fun r p => ?_⟩
    rw [store_number hgc, RelationData.addPage_relID, RelationData.findPage_relID, hadd, hfound,
      hsame]
    by_cases hr : data.relID = r
    · subst hr
      simp only [true_and, if_true, hnumber]
      split_ifs with hp
      · subst hp
        cases gc.number data.relID pageno with
        | none => rfl
        | some current => simp [RelationData.lower]
      · rfl
    · simp [hr]

theorem sweptRelation_spec (h : gc.Sorted) (oldestSnapshot : TraNumber) (relID : RelId) :
    (gc.sweptRelation oldestSnapshot relID).Sorted ∧ ∀ r p,
      (gc.sweptRelation oldestSnapshot relID).number r p =
        if relID = r then (gc.number r p).filter fun tranid => ¬ tranid < oldestSnapshot
        else gc.number r p := by
  unfold sweptRelation
  cases hdata : LowerBound.lookup RelationData.relID gc.relations relID with
  | some data =>
    obtain ⟨hrelID, hsorted⟩ := h.lookup hdata
    rw [getRelData_found h hdata]
    refine ⟨store_sorted h (RelationData.swept_sorted hsorted _), fun r p => ?_⟩
    have hkept : (data.swept oldestSnapshot).1.relID = relID := hrelID
    rw [store_number h, hkept, RelationData.swept_number hsorted]
    split_ifs with heq
    · rw [← heq, number, hdata, Option.bind_some]
    · rfl
  | none =>
    rw [(getRelData_missing h hdata).2]
    refine ⟨h, fun r p => ?_⟩
    split_ifs with heq
    · rw [← heq, number, hdata, Option.bind_none]
      rfl
    · rfl

theorem removeRelation_spec (h : gc.Sorted) (relID : RelId) :
    (gc.removeRelation relID).Sorted ∧ ∀ r p,
      (gc.removeRelation relID).number r p = if relID = r then none else gc.number r p := by
  have hfound := findSorted_fst h.relations relID
  unfold removeRelation
  cases hdata : LowerBound.lookup RelationData.relID gc.relations relID with
  | some data =>
    rw [hdata, Option.isSome_some] at hfound
    simp only [hfound, if_true]
    rw [eraseIdx_findSorted h.relations hfound]
    refine ⟨⟨h.relations.filter _, fun x hx => h.pages x (List.mem_filter.1 hx).1⟩, fun r p => ?_⟩
    simp only [number, lookup_filter h.relations]
    cases hr : LowerBound.lookup RelationData.relID gc.relations r with
    | none => simp
    | some other =>
      obtain ⟨rfl, -⟩ := h.lookup hr
      by_cases heq : relID = other.relID
      · simp [Option.filter, heq]
      · simp [Option.filter, heq, Ne.symm heq]
  | none =>
    rw [hdata, Option.isSome_none] at hfound
    simp only [hfound, Bool.false_eq_true, if_false]
    refine ⟨h, fun r p => ?_⟩
    split_ifs with heq
    · rw [← heq, number, hdata, Option.bind_none]
    · rfl

/-! ## Going round the relations -/

theorem getPagesLoop_spec (oldestSnapshot : TraNumber) (passed rest : List RelationData) :
    ((∀ data ∈ rest, ¬ data.Below oldestSnapshot) ∧
      getPagesLoop oldestSnapshot passed rest = (passed ++ rest, none)) ∨
    ∃ quiet data more bm, rest = quiet ++ data :: more ∧ data.Below oldestSnapshot ∧
      (data.swept oldestSnapshot).2 = some bm ∧ getPagesLoop oldestSnapshot passed rest =
        (passed ++ quiet ++ (data.swept oldestSnapshot).1 :: more, some (data.relID, bm)) := by
  induction rest generalizing passed with
  | nil =>
    left
    simp [getPagesLoop]
  | cons data rest ih =>
    unfold getPagesLoop
    by_cases hbelow : data.Below oldestSnapshot
    · right
      have hbm : (data.swept oldestSnapshot).2.isSome := by
        rw [RelationData.swept_eq, if_pos hbelow, Option.isSome_some]
      obtain ⟨bm, hbm⟩ := Option.isSome_iff_exists.1 hbm
      have hswept : data.swept oldestSnapshot = ((data.swept oldestSnapshot).1, some bm) :=
        Prod.ext rfl hbm
      refine ⟨[], data, rest, bm, rfl, hbelow, hbm, ?_⟩
      rw [hswept, List.append_nil]
      rfl
    · rw [RelationData.swept_quiet hbelow]
      dsimp only
      obtain ⟨hnone, heq⟩ | ⟨quiet, found, more, bm, rfl, hfound, hbm, heq⟩ := ih (passed ++ [data])
      · left
        refine ⟨List.forall_mem_cons.2 ⟨hbelow, hnone⟩, ?_⟩
        rw [heq, List.append_assoc, List.singleton_append]
      · right
        refine ⟨data :: quiet, found, more, bm, rfl, hfound, hbm, ?_⟩
        rw [heq, List.append_assoc passed, List.singleton_append]

/-- Only relations in front of the cursor have pages below the bound, but there is a relation behind
it. -/
def Overlooks (gc : GarbageCollector) (oldestSnapshot : TraNumber) : Prop :=
  (∃ data ∈ gc.relations, data.Below oldestSnapshot) ∧
    (∃ data ∈ gc.relations, gc.nextRelID ≤ data.relID) ∧
      ∀ data ∈ gc.relations, gc.nextRelID ≤ data.relID → ¬ data.Below oldestSnapshot

instance (gc : GarbageCollector) (oldestSnapshot : TraNumber) :
    Decidable (gc.Overlooks oldestSnapshot) :=
  inferInstanceAs (Decidable (_ ∧ _ ∧ _))

/-- The loop passes the relations from the cursor on, or all if there is none. -/
theorem mem_drop_startPos (h : gc.Sorted) (data : RelationData) :
    data ∈ gc.relations.drop gc.startPos ↔ data ∈ gc.relations ∧
      (gc.nextRelID ≤ data.relID ∨ ∀ other ∈ gc.relations, other.relID < gc.nextRelID) := by
  obtain ⟨front, back, hcut, hfront, hback⟩ := exists_cut h.relations gc.nextRelID
  have hpos : gc.startPos = if back = [] then 0 else front.length := by
    have hfind := findSorted_append hfront hback
    rw [← hcut] at hfind
    unfold startPos
    rw [hfind]
    cases back with
    | nil => simp [hcut]
    | cons y back => simp [hcut]
  rw [hpos, hcut]
  split_ifs with hnil
  · subst hnil
    simpa using fun _ => .inr hfront
  · obtain ⟨y, hy⟩ := List.exists_mem_of_ne_nil back hnil
    have hsome : ¬ ∀ other ∈ front ++ back, other.relID < gc.nextRelID := fun hall =>
      absurd (hall y (List.mem_append_right _ hy)) (not_lt.2 (hback y hy))
    rw [List.drop_left, or_iff_left hsome, List.mem_append]
    constructor
    · exact fun hdata => ⟨.inr hdata, hback data hdata⟩
    · rintro ⟨hdata | hdata, hle⟩
      · exact absurd (hfront data hdata) (not_lt.2 hle)
      · exact hdata

/-- `getPages` sweeps one relation, or returns `NULL` since no relation has a page below the bound
or those that have are overlooked. -/
theorem getPages_cases (h : gc.Sorted) (oldestSnapshot : TraNumber) :
    (((∀ data ∈ gc.relations, ¬ data.Below oldestSnapshot) ∨ gc.Overlooks oldestSnapshot) ∧
      gc.getPages oldestSnapshot = ({ gc with nextRelID := 0 }, none)) ∨
    (¬ gc.Overlooks oldestSnapshot ∧ ∃ data ∈ gc.relations, ∃ bm, data.Below oldestSnapshot ∧
      (data.swept oldestSnapshot).2 = some bm ∧ gc.getPages oldestSnapshot =
        ({ gc.store (data.swept oldestSnapshot).1 with nextRelID := data.relID + 1 },
          some (data.relID, bm))) := by
  have hin := mem_drop_startPos h
  unfold getPages
  split_ifs with hempty
  · left
    refine ⟨.inl ?_, rfl⟩
    simp [hempty]
  · dsimp only
    obtain ⟨hnone, heq⟩ | ⟨quiet, data, more, bm, hrest, hbelow, hbm, heq⟩ := getPagesLoop_spec
      oldestSnapshot (gc.relations.take gc.startPos) (gc.relations.drop gc.startPos)
    · left
      rw [heq, List.take_append_drop]
      refine ⟨?_, rfl⟩
      by_cases hany : ∃ data ∈ gc.relations, data.Below oldestSnapshot
      · right
        refine ⟨hany, ?_, fun data hdata hle => hnone data ((hin data).2 ⟨hdata, .inl hle⟩)⟩
        obtain ⟨data, hdata, hbelow⟩ := hany
        by_contra hcon
        push Not at hcon
        exact hnone data ((hin data).2 ⟨hdata, .inr hcon⟩) hbelow
      · left
        push Not at hany
        exact hany
    · right
      have hdata : data ∈ gc.relations.drop gc.startPos := by
        rw [hrest]
        exact List.mem_append_right _ List.mem_cons_self
      have hcut : gc.relations = gc.relations.take gc.startPos ++ quiet ++ data :: more := by
        rw [List.append_assoc, ← hrest, List.take_append_drop]
      obtain ⟨hmem, hfrom⟩ := (hin data).1 hdata
      refine ⟨?_, data, hmem, bm, hbelow, hbm, ?_⟩
      · rintro ⟨-, ⟨other, hother, hle⟩, hquiet⟩
        obtain hle' | hall := hfrom
        · exact hquiet data hmem hle' hbelow
        · exact absurd (hall other hother) (not_lt.2 hle)
      · have hsorted := h.relations
        rw [hcut] at hsorted
        have hkey : (data.swept oldestSnapshot).1.relID = data.relID := rfl
        have hreplace := putSorted_replace hsorted hkey
        rw [← hcut] at hreplace
        rw [heq, store, hreplace]

/-- A page below the bound, in the numbers. -/
theorem exists_below_iff (h : gc.Sorted) (oldestSnapshot : TraNumber) :
    (∃ data ∈ gc.relations, data.Below oldestSnapshot) ↔
      ∃ relID pageno tranid, gc.number relID pageno = some tranid ∧ tranid < oldestSnapshot := by
  constructor
  · rintro ⟨data, hdata, ⟨pageno, tranid⟩, hpage, hlt⟩
    refine ⟨data.relID, pageno, tranid, ?_, hlt⟩
    rw [number_of_mem h hdata]
    exact (RelationData.number_eq_some_iff (h.pages data hdata)).2 hpage
  · rintro ⟨relID, pageno, tranid, hnumber, hlt⟩
    obtain ⟨data, hdata, hpage⟩ := Option.bind_eq_some_iff.1 hnumber
    obtain ⟨hmem, -⟩ := (lookup_eq_some_iff h.relations).1 hdata
    exact ⟨data, hmem, _, (RelationData.number_eq_some_iff (h.pages data hmem)).1 hpage, hlt⟩

/-- What `getPages` hands out: the pages of one relation below the bound, which it removes. -/
structure Hands (gc gc' : GarbageCollector) (oldestSnapshot : TraNumber) (relID : RelId)
    (bm : PageBitmap) : Prop where
  nonempty : bm ≠ []
  below : ∀ pageno, pageno ∈ bm ↔
    ∃ tranid, gc.number relID pageno = some tranid ∧ tranid < oldestSnapshot
  left : ∀ r p, gc'.number r p = if relID = r ∧ p ∈ bm then none else gc.number r p

theorem getPages_spec (h : gc.Sorted) (oldestSnapshot : TraNumber) :
    (gc.getPages oldestSnapshot).1.Sorted ∧ match (gc.getPages oldestSnapshot).2 with
      | some (relID, bm) =>
          ¬ gc.Overlooks oldestSnapshot ∧
            gc.Hands (gc.getPages oldestSnapshot).1 oldestSnapshot relID bm
      | none =>
          (∀ r p, (gc.getPages oldestSnapshot).1.number r p = gc.number r p) ∧
            ((∀ relID pageno tranid, gc.number relID pageno = some tranid →
              ¬ tranid < oldestSnapshot) ↔ ¬ gc.Overlooks oldestSnapshot) := by
  obtain ⟨hnone, heq⟩ | ⟨hover, data, hmem, bm, hbelow, hbm, heq⟩ := getPages_cases h oldestSnapshot
  · rw [heq]
    refine ⟨⟨h.relations, h.pages⟩, fun _ _ => rfl, ?_⟩
    have hiff := exists_below_iff h oldestSnapshot
    constructor
    · intro hall hover
      obtain ⟨r, p, t, hnumber, hlt⟩ := hiff.1 hover.1
      exact hall r p t hnumber hlt
    · intro hover r p t hnumber hlt
      obtain ⟨data, hdata, hbelow⟩ := hiff.2 ⟨r, p, t, hnumber, hlt⟩
      exact hnone.resolve_right hover data hdata hbelow
  · have hsorted := h.pages data hmem
    have hstored : (gc.store (data.swept oldestSnapshot).1).Sorted :=
      store_sorted h (RelationData.swept_sorted hsorted oldestSnapshot)
    obtain ⟨bm', hbm', hbits⟩ := RelationData.swept_bitmap hsorted hbelow
    cases hbm.symm.trans hbm'
    have hnumber := number_of_mem h hmem
    rw [heq]
    refine ⟨⟨hstored.relations, hstored.pages⟩, hover, ?_, fun pageno => ?_, fun r p => ?_⟩
    · obtain ⟨page, hpage, hlt⟩ := hbelow
      refine List.ne_nil_of_mem ((hbits page.pageno).2 ⟨page.tranid, ?_, hlt⟩)
      exact (RelationData.number_eq_some_iff hsorted).2 hpage
    · rw [hnumber]
      exact hbits pageno
    · change (gc.store (data.swept oldestSnapshot).1).number r p = _
      have hrelID : (data.swept oldestSnapshot).1.relID = data.relID := rfl
      rw [store_number h, hrelID, RelationData.swept_number hsorted]
      by_cases hr : data.relID = r
      · subst hr
        simp only [true_and, if_true, hbits, hnumber]
        cases data.number p with
        | none => simp
        | some tranid => by_cases hlt : tranid < oldestSnapshot <;> simp [Option.filter, hlt]
      · simp [hr]

end GarbageCollector

/-! ## Runs -/

inductive Op where
  | addPage (relID : RelId) (pageno : ℕ) (tranid : TraNumber)
  | getPages (oldestSnapshot : TraNumber)
  | sweptRelation (oldestSnapshot : TraNumber) (relID : RelId)
  | removeRelation (relID : RelId)
  deriving DecidableEq, Repr

/-- The map, and the numbers that were posted for each page since it was last handed out, swept or
removed with its relation. -/
structure History where
  gc : GarbageCollector
  posted : RelId → ℕ → List TraNumber

namespace History

def empty : History := ⟨.empty, fun _ _ => []⟩

def step (h : History) : Op → History
  | .addPage relID pageno tranid =>
      ⟨(h.gc.addPage relID pageno tranid).1,
        fun r p => if relID = r ∧ pageno = p then tranid :: h.posted r p else h.posted r p⟩
  | .getPages oldestSnapshot =>
      match h.gc.getPages oldestSnapshot with
      | (gc, some (relID, bm)) => ⟨gc, fun r p => if relID = r ∧ p ∈ bm then [] else h.posted r p⟩
      | (gc, none) => ⟨gc, h.posted⟩
  | .sweptRelation oldestSnapshot relID =>
      ⟨h.gc.sweptRelation oldestSnapshot relID, fun r p =>
        if relID = r ∧ ∃ tranid ∈ h.posted r p, tranid < oldestSnapshot then [] else h.posted r p⟩
  | .removeRelation relID =>
      ⟨h.gc.removeRelation relID, fun r p => if relID = r then [] else h.posted r p⟩

/-- Each page for which a number was posted is tracked for the smallest one, no other page is. -/
def Tracks (h : History) : Prop := ∀ r p, h.gc.number r p = (h.posted r p).min?

/-- A call of `getPages` hands out the pages of one relation, or there are none. -/
def Collects (h : History) : Op → Prop
  | .getPages oldestSnapshot =>
      match h.gc.getPages oldestSnapshot with
      | (gc, some (relID, bm)) => h.gc.Hands gc oldestSnapshot relID bm
      | (_, none) =>
          ∀ r p tranid, h.gc.number r p = some tranid → ¬ tranid < oldestSnapshot
  | _ => True

/-- The pages below the bound are not all in front of a cursor that has a relation behind it. -/
def InReach (h : History) : Op → Prop
  | .getPages oldestSnapshot => ¬ h.gc.Overlooks oldestSnapshot
  | _ => True

instance (h : History) : (op : Op) → Decidable (h.InReach op)
  | .getPages oldestSnapshot => inferInstanceAs (Decidable (¬ h.gc.Overlooks oldestSnapshot))
  | .addPage .. => instDecidableTrue
  | .sweptRelation .. => instDecidableTrue
  | .removeRelation _ => instDecidableTrue

structure Inv (h : History) : Prop where
  sorted : h.gc.Sorted
  tracks : h.Tracks

theorem empty_inv : empty.Inv := ⟨GarbageCollector.empty_sorted, fun _ _ => rfl⟩

theorem min?_lt_iff (posted : List TraNumber) (oldestSnapshot : TraNumber) :
    (∃ tranid ∈ posted, tranid < oldestSnapshot) ↔
      ∃ tranid, posted.min? = some tranid ∧ tranid < oldestSnapshot := by
  constructor
  · rintro ⟨tranid, hmem, hlt⟩
    obtain ⟨least, hleast⟩ := Option.isSome_iff_exists.1 (List.isSome_min?_of_mem hmem)
    exact ⟨least, hleast, ((List.min?_eq_some_iff.1 hleast).2 tranid hmem).trans_lt hlt⟩
  · rintro ⟨tranid, hmin, hlt⟩
    exact ⟨tranid, List.min?_mem hmin, hlt⟩

theorem step_inv {h : History} (hinv : h.Inv) (op : Op) : (h.step op).Inv := by
  cases op with
  | addPage relID pageno tranid =>
    obtain ⟨hsorted, hnumber⟩ := GarbageCollector.addPage_spec hinv.sorted relID pageno tranid
    refine ⟨hsorted, fun r p => ?_⟩
    simp only [step, hnumber, hinv.tracks r p]
    split_ifs
    · rw [List.min?_cons]
      rfl
    · rfl
  | getPages oldestSnapshot =>
    obtain ⟨hsorted, hspec⟩ := GarbageCollector.getPages_spec hinv.sorted oldestSnapshot
    rcases hget : h.gc.getPages oldestSnapshot with ⟨gc, _ | ⟨relID, bm⟩⟩
    · simp only [hget] at hsorted hspec
      simp only [step, hget]
      exact ⟨hsorted, fun r p => (hspec.1 r p).trans (hinv.tracks r p)⟩
    · simp only [hget] at hsorted hspec
      simp only [step, hget]
      refine ⟨hsorted, fun r p => ?_⟩
      simp only [hspec.2.left, hinv.tracks r p]
      split_ifs <;> rfl
  | sweptRelation oldestSnapshot relID =>
    obtain ⟨hsorted, hnumber⟩ :=
      GarbageCollector.sweptRelation_spec hinv.sorted oldestSnapshot relID
    refine ⟨hsorted, fun r p => ?_⟩
    simp only [step, hnumber, hinv.tracks r p, min?_lt_iff]
    by_cases hr : relID = r
    · simp only [hr, if_true, true_and]
      cases hmin : (h.posted r p).min? with
      | none => simp [hmin]
      | some least => by_cases hlt : least < oldestSnapshot <;> simp [Option.filter, hlt, hmin]
    · simp [hr]
  | removeRelation relID =>
    obtain ⟨hsorted, hnumber⟩ := GarbageCollector.removeRelation_spec hinv.sorted relID
    refine ⟨hsorted, fun r p => ?_⟩
    simp only [step, hnumber, hinv.tracks r p]
    split_ifs <;> rfl

theorem collects_iff {h : History} (hinv : h.Inv) (op : Op) : h.Collects op ↔ h.InReach op := by
  cases op with
  | getPages oldestSnapshot =>
    obtain ⟨-, hspec⟩ := GarbageCollector.getPages_spec hinv.sorted oldestSnapshot
    rcases hget : h.gc.getPages oldestSnapshot with ⟨gc, _ | ⟨relID, bm⟩⟩
    · simp only [hget] at hspec
      simp only [Collects, InReach, hget]
      exact hspec.2
    · simp only [hget] at hspec
      simp only [Collects, InReach, hget]
      exact iff_of_true hspec.2 hspec.1
  | addPage relID pageno tranid => exact Iff.rfl
  | sweptRelation oldestSnapshot relID => exact Iff.rfl
  | removeRelation relID => exact Iff.rfl

/-- In every run each page is tracked for the smallest number that was posted since it was last
handed out, and the calls of `getPages` find a page below the bound, if there is one, just as long
as no call overlooks the relations in front of the cursor. -/
theorem pageMap_iff (ops : List Op) :
    (AlongRun step (fun h op => h.Tracks ∧ h.Collects op) empty ops ∧ (run step empty ops).Tracks) ↔
      AlongRun step InReach empty ops := by
  suffices hall : ∀ h : History, h.Inv →
      ((AlongRun step (fun h op => h.Tracks ∧ h.Collects op) h ops ∧ (run step h ops).Tracks) ↔
        AlongRun step InReach h ops) from hall empty empty_inv
  induction ops with
  | nil => exact fun h hinv => ⟨fun _ => trivial, fun _ => ⟨trivial, hinv.tracks⟩⟩
  | cons op ops ih =>
    intro h hinv
    rw [AlongRun, AlongRun, run_cons, and_assoc, ih (h.step op) (step_inv hinv op),
      collects_iff hinv, and_iff_right hinv.tracks]

/-- The relation 1 is handed out and gets a page again while the relation 2 has none below the
bound. -/
def reposted : List Op :=
  [.addPage 1 7 5, .addPage 2 8 100, .getPages 10, .addPage 1 7 6, .getPages 10]

/-- The second call returns `NULL`, but the page 7 of the relation 1 is tracked for 6. -/
theorem reposted_not_collected :
    ¬ AlongRun step (fun h op => h.Tracks ∧ h.Collects op) empty reposted := by
  intro h
  obtain ⟨-, -, -, -, ⟨-, hcollects⟩, -⟩ := h
  exact hcollects 1 7 6 (by decide) (by decide)

end History

end FirebirdCore.Gc
