import FirebirdCore.Lib.LinkedRow
import FirebirdCore.Lib.LowerBound

/-!
# The B+ tree

Leaf pages hold items in the order of their keys, node pages hold the addresses of pages one level
below. The pages of one height are numbered on their own, leaves have height 0, and a field of the
pages is a map over these numbers. A node page of height `h + 1` has `nodeLevel h`. Freed pages just
stay as they are.
-/
namespace FirebirdCore.Tree
open FirebirdCore.LowerBound FirebirdCore.LinkedRow

/-- What a tree is made for: the key of an item, and how much the pages hold. -/
structure Config (V K : Type*) where
  key : V → K
  leafCount : ℕ
  nodeCount : ℕ
  leafCount_pos : 0 < leafCount
  two_le_nodeCount : 2 ≤ nodeCount

/-- `NEED_MERGE`: the page would be three quarters full at most. -/
def needMerge (currentCount pageCount : ℕ) : Prop := currentCount * 4 / 3 ≤ pageCount

instance (currentCount pageCount : ℕ) : Decidable (needMerge currentCount pageCount) :=
  inferInstanceAs (Decidable (_ ≤ _))

/-- The pages of one height. Leaf pages have no `nodeLevel` and no `children`. -/
structure Level where
  next : ℕ → Option ℕ
  prev : ℕ → Option ℕ
  parent : ℕ → Option ℕ
  nodeLevel : ℕ → ℕ
  children : ℕ → List ℕ

inductive LocType where
  | locEqual
  | locLess
  | locGreat
  | locGreatEqual
  | locLessEqual
  deriving DecidableEq, Repr

/-- The position of an accessor. -/
structure Accessor where
  curr : Option ℕ
  curPos : ℕ
  deriving DecidableEq, Repr

structure BePlusTree (V : Type*) where
  level : ℕ
  root : Option ℕ
  items : ℕ → List V
  page : ℕ → Level
  /-- Pages from this number on are not in use. -/
  fresh : ℕ
  defaultAccessor : Accessor

namespace Level

/-- `ItemList(items)` and `NodeList(items)`: the page `n` is put behind the page `x`. -/
def insertAfter (L : Level) (x n : ℕ) : Level :=
  { L with
    next := Function.update (Function.update L.next n (L.next x)) x (some n)
    prev := Function.update (setAt L.prev (L.next x) (some n)) n (some x)
    parent := Function.update L.parent n none
    children := Function.update L.children n [] }

/-- The first page of a height. -/
def first (L : Level) (n : ℕ) : Level :=
  { L with
    next := Function.update L.next n none
    prev := Function.update L.prev n none
    parent := Function.update L.parent n none
    children := Function.update L.children n [] }

/-- The neighbours of a page are linked to each other. -/
def unlink (L : Level) (x : ℕ) : Level :=
  { L with
    next := setAt L.next (L.prev x) (L.next x)
    prev := setAt L.prev (L.next x) (L.prev x) }

def setParent (L : Level) (i : ℕ) (parent : Option ℕ) : Level :=
  { L with parent := Function.update L.parent i parent }

def setParents (L : Level) (is : List ℕ) (parent : Option ℕ) : Level :=
  { L with parent := fun i => if i ∈ is then parent else L.parent i }

def setChildren (L : Level) (i : ℕ) (children : List ℕ) : Level :=
  { L with children := Function.update L.children i children }

def setNodeLevel (L : Level) (i level : ℕ) : Level :=
  { L with nodeLevel := Function.update L.nodeLevel i level }

end Level

namespace BePlusTree

variable {V K : Type*}

/-- A new tree. -/
def empty : BePlusTree V where
  level := 0
  root := none
  items _ := []
  page _ := ⟨fun _ => none, fun _ => none, fun _ => none, fun _ => 0, fun _ => []⟩
  fresh := 0
  defaultAccessor := ⟨none, 0⟩

/-- The pages of height `h` change. -/
def onLevel (t : BePlusTree V) (h : ℕ) (f : Level → Level) : BePlusTree V :=
  { t with page := Function.update t.page h (f (t.page h)) }

def setItems (t : BePlusTree V) (i : ℕ) (items : List V) : BePlusTree V :=
  { t with items := Function.update t.items i items }

def setChildren (t : BePlusTree V) (h i : ℕ) (children : List ℕ) : BePlusTree V :=
  t.onLevel h (·.setChildren i children)

/-- `setNodeParent` for a page of height `h`. -/
def setNodeParent (t : BePlusTree V) (h i : ℕ) (parent : Option ℕ) : BePlusTree V :=
  t.onLevel h (·.setParent i parent)

/-- `setNodeParentAndLevel` for a page of height `h`. -/
def setNodeParentAndLevel (t : BePlusTree V) (h i parent : ℕ) : BePlusTree V :=
  if h = 0 then t.setNodeParent h i (some parent)
  else (t.setNodeParent h i (some parent)).onLevel h (·.setNodeLevel i (h - 1))

/-- A new page of height `h` behind the page `x`. -/
def newAfter (t : BePlusTree V) (h x : ℕ) : BePlusTree V :=
  { t.onLevel h (·.insertAfter x t.fresh) with fresh := t.fresh + 1 }

/-- The first page of height `h`. -/
def newFirst (t : BePlusTree V) (h : ℕ) : BePlusTree V :=
  { t.onLevel h (·.first t.fresh) with fresh := t.fresh + 1 }

/-- The item in front of the position. -/
def locateLess (t : BePlusTree V) (curr curPos : ℕ) : Accessor × Bool :=
  if curPos = 0 then
    match (t.page 0).prev curr with
    | none => (⟨none, 0⟩, false)
    | some prev => (⟨some prev, (t.items prev).length - 1⟩, true)
  else (⟨some curr, curPos - 1⟩, true)

section Search
variable [Inhabited V] [LinearOrder K] (C : Config V K)

/-- The key of a page of height `h`: that of the first item under it. -/
def generate (t : BePlusTree V) : ℕ → ℕ → K
  | 0, i => C.key (t.items i).headI
  | h + 1, i => t.generate h ((t.page (h + 1)).children i).headI

/-- `NodeList::find` in a page of height `h`. -/
def findNode (t : BePlusTree V) (h list : ℕ) (key : K) : Bool × ℕ :=
  findSorted (t.generate C ((t.page h).nodeLevel list)) ((t.page h).children list) key

/-- `ItemList::find`. -/
def findItem (t : BePlusTree V) (leaf : ℕ) (key : K) : Bool × ℕ :=
  findSorted C.key (t.items leaf) key

/-- The leaf for a key, from a page of height `h`. -/
def findLeaf (t : BePlusTree V) (key : K) : ℕ → ℕ → ℕ
  | 0, list => list
  | h + 1, list =>
      let r := t.findNode C (h + 1) list key
      let pos := if ¬ r.1 ∧ r.2 > 0 then r.2 - 1 else r.2
      t.findLeaf key h (((t.page (h + 1)).children list).getD pos 0)

/-! ## Accessors -/

/-- `ConstAccessor::locate`. -/
def locate (t : BePlusTree V) (acc : Accessor) (lt : LocType) (key : K) : Accessor × Bool :=
  match t.root with
  | none => (acc, false)
  | some root =>
      let curr := t.findLeaf C key t.level root
      let r := t.findItem C curr key
      let next := (t.page 0).next curr
      match lt with
      | .locEqual => (⟨some curr, r.2⟩, r.1)
      | .locGreatEqual =>
          if r.2 = (t.items curr).length then (⟨next, 0⟩, r.1 || next.isSome)
          else (⟨some curr, r.2⟩, true)
      | .locLessEqual =>
          if r.1 then (⟨some curr, r.2⟩, true) else locateLess t curr r.2
      | .locLess => locateLess t curr r.2
      | .locGreat =>
          let curPos := if r.1 then r.2 + 1 else r.2
          if curPos = (t.items curr).length then (⟨next, 0⟩, next.isSome) else (⟨some curr, curPos⟩, true)

end Search

/-- The first leaf under a page of height `h`. -/
def firstLeaf (t : BePlusTree V) : ℕ → ℕ → ℕ
  | 0, i => i
  | h + 1, i => t.firstLeaf h (((t.page (h + 1)).children i).getD 0 0)

/-- The last leaf under a page of height `h`. -/
def lastLeaf (t : BePlusTree V) : ℕ → ℕ → ℕ
  | 0, i => i
  | h + 1, i =>
      let children := (t.page (h + 1)).children i
      t.lastLeaf h (children.getD (children.length - 1) 0)

def getFirst (t : BePlusTree V) (acc : Accessor) : Accessor × Bool :=
  match t.root with
  | none => (acc, false)
  | some root =>
      let curr := t.firstLeaf t.level root
      (⟨some curr, 0⟩, (t.items curr).length ≠ 0)

def getLast (t : BePlusTree V) (acc : Accessor) : Accessor × Bool :=
  match t.root with
  | none => (acc, false)
  | some root =>
      let curr := t.lastLeaf t.level root
      if (t.items curr).length ≠ 0 then (⟨some curr, (t.items curr).length - 1⟩, true)
      else (⟨some curr, acc.curPos⟩, false)

/-- Only for an accessor that has a position. -/
def getNext (t : BePlusTree V) (acc : Accessor) : Accessor × Bool :=
  match acc.curr with
  | none => (acc, false)
  | some curr =>
      if acc.curPos + 1 ≥ (t.items curr).length then
        match (t.page 0).next curr with
        | some next => (⟨some next, 0⟩, true)
        | none => (acc, false)
      else (⟨some curr, acc.curPos + 1⟩, true)

/-- Only for an accessor that has a position. -/
def getPrev (t : BePlusTree V) (acc : Accessor) : Accessor × Bool :=
  match acc.curr with
  | none => (acc, false)
  | some curr =>
      if acc.curPos = 0 then
        match (t.page 0).prev curr with
        | some prev => (⟨some prev, (t.items prev).length - 1⟩, true)
        | none => (acc, false)
      else (⟨some curr, acc.curPos - 1⟩, true)

/-- The item at the position. -/
def current (t : BePlusTree V) (acc : Accessor) : Option V :=
  acc.curr.bind fun curr => (t.items curr)[acc.curPos]?

/-- The position is valid and at this key. -/
def isPositioned [DecidableEq K] (C : Config V K) (t : BePlusTree V) (key : K) : Bool :=
  (t.current t.defaultAccessor).any fun item => C.key item = key

def isEmpty (t : BePlusTree V) : Bool :=
  match t.root with
  | none => true
  | some root => t.level = 0 ∧ t.items root = []

/-- A tree of pages is freed, a single leaf is cleared. -/
def clear (t : BePlusTree V) : BePlusTree V :=
  let t := { t with defaultAccessor := { t.defaultAccessor with curr := none } }
  if t.level = 0 then
    match t.root with
    | none => t
    | some root => t.setItems root []
  else { t with
    root := none
    level := 0 }

end BePlusTree

end FirebirdCore.Tree
