import FirebirdCore.Tree.Pages

/-!
# Adding and removing items

An item for which there is no room goes to a neighbour of its leaf, or to a new leaf whose address is
added one level above in the same way. When pages get nearly empty they are joined, or removed if
nothing is left, which goes on one level above too. The loops over the levels count down from the
height of the tree.
-/
namespace FirebirdCore.Tree
open FirebirdCore.LowerBound FirebirdCore.LinkedRow

/-- `Vector::insert`. -/
def insertAt {α : Type*} (xs : List α) (pos : ℕ) (x : α) : List α := xs.take pos ++ x :: xs.drop pos

namespace BePlusTree

variable {V K : Type*} [Inhabited V] [LinearOrder K] (C : Config V K)

/-! ## Adding -/

/-- `SortedVector::add` for a page of height `h`. -/
def addChild (t : BePlusTree V) (h nodeList newNode : ℕ) : BePlusTree V :=
  let key := t.generate C ((t.page h).nodeLevel nodeList) newNode
  t.setChildren h nodeList
    (insertAt ((t.page h).children nodeList) (t.findNode C h nodeList key).2 newNode)

/-- The page is full: its last child, or the new one, goes to the front of `list`. -/
def spillNext (t : BePlusTree V) (curLevel nodeList newNode pos list : ℕ) : BePlusTree V :=
  let h := curLevel + 1
  let children := (t.page h).children nodeList
  if pos = C.nodeCount then
    (t.setNodeParentAndLevel curLevel newNode list).setChildren h list
      (newNode :: (t.page h).children list)
  else
    let last := children.getD (C.nodeCount - 1) 0
    let t := (t.setNodeParent curLevel last (some list)).setChildren h list
      (last :: (t.page h).children list)
    let t := t.setNodeParentAndLevel curLevel newNode nodeList
    t.setChildren h nodeList (insertAt (children.take (C.nodeCount - 1)) pos newNode)

/-- The page is full: its first child, or the new one, goes to the end of `list`. -/
def spillPrev (t : BePlusTree V) (curLevel nodeList newNode pos list : ℕ) : BePlusTree V :=
  let h := curLevel + 1
  let children := (t.page h).children nodeList
  if pos = 0 then
    (t.setNodeParentAndLevel curLevel newNode list).setChildren h list
      ((t.page h).children list ++ [newNode])
  else
    let first := children.getD 0 0
    let t := (t.setNodeParent curLevel first (some list)).setChildren h list
      ((t.page h).children list ++ [first])
    let t := t.setNodeParentAndLevel curLevel newNode nodeList
    t.setChildren h nodeList (insertAt (children.eraseIdx 0) (pos - 1) newNode)

/-- A new root over the old one and the new page. -/
def newRoot (t : BePlusTree V) (newNode : ℕ) : BePlusTree V :=
  let nodeList := t.fresh
  let level := t.level
  let root := t.root.getD 0
  let t := (t.newFirst (level + 1)).onLevel (level + 1) (·.setNodeLevel nodeList level)
  let t := t.setChildren (level + 1) nodeList [root]
  let t := (t.setNodeParentAndLevel level newNode nodeList).setNodeParent level root (some nodeList)
  let t := t.addChild C (level + 1) nodeList newNode
  { t with
    root := some nodeList
    level := level + 1 }

/-- The page is in this place, and has room for another child. -/
def withSpace (t : BePlusTree V) (h : ℕ) (list? : Option ℕ) : Option ℕ :=
  list?.filter fun list => ((t.page h).children list).length < C.nodeCount

/-- Traverse the tree up, with a new page of height `curLevel`. -/
def addNode : ℕ → BePlusTree V → ℕ → ℕ → Option ℕ → BePlusTree V
  | 0, t, _, _, _ => t
  | _ + 1, t, _, newNode, none => t.newRoot C newNode
  | fuel + 1, t, curLevel, newNode, some nodeList =>
      let h := curLevel + 1
      if ((t.page h).children nodeList).length < C.nodeCount then
        (t.setNodeParentAndLevel curLevel newNode nodeList).addChild C h nodeList newNode
      else
        let key := t.generate C ((t.page h).nodeLevel nodeList) newNode
        let pos := (t.findNode C h nodeList key).2
        match t.withSpace C h ((t.page h).next nodeList) with
        | some list => t.spillNext C curLevel nodeList newNode pos list
        | none =>
            match t.withSpace C h ((t.page h).prev nodeList) with
            | some list => t.spillPrev curLevel nodeList newNode pos list
            | none =>
                let newList := t.fresh
                let parent := (t.page h).parent nodeList
                let t := (t.newAfter h nodeList).spillNext C curLevel nodeList newNode pos newList
                addNode fuel t h newList parent

/-- The leaf is full: its last item, or the new one, goes to the front of the leaf `temp`. -/
def spillItemNext (t : BePlusTree V) (leaf pos : ℕ) (item : V) (temp : ℕ) : BePlusTree V :=
  let items := t.items leaf
  if pos = C.leafCount then t.setItems temp (item :: t.items temp)
  else
    let t := t.setItems temp (items.getD (C.leafCount - 1) default :: t.items temp)
    t.setItems leaf (insertAt (items.take (C.leafCount - 1)) pos item)

/-- The leaf is full: its first item, or the new one, goes to the end of the leaf `temp`. -/
def spillItemPrev (t : BePlusTree V) (leaf pos : ℕ) (item : V) (temp : ℕ) : BePlusTree V :=
  let items := t.items leaf
  if pos = 0 then t.setItems temp (t.items temp ++ [item])
  else
    let t := t.setItems temp (t.items temp ++ [items.getD 0 default])
    t.setItems leaf (insertAt (items.eraseIdx 0) (pos - 1) item)

/-- Add an item to a leaf, at a position in it. -/
def addItem (t : BePlusTree V) (leaf pos : ℕ) (item : V) : BePlusTree V :=
  let space := Option.filter fun temp => (t.items temp).length < C.leafCount
  if (t.items leaf).length < C.leafCount then t.setItems leaf (insertAt (t.items leaf) pos item)
  else
    match space ((t.page 0).next leaf) with
    | some temp => t.spillItemNext C leaf pos item temp
    | none =>
        match space ((t.page 0).prev leaf) with
        | some temp => t.spillItemPrev leaf pos item temp
        | none =>
            let newLeaf := t.fresh
            let parent := (t.page 0).parent leaf
            let t := ((t.newAfter 0 leaf).setItems newLeaf []).spillItemNext C leaf pos item newLeaf
            t.addNode C (t.level + 1) 0 newLeaf parent

/-- `add`: false if there is an item with this key, which is the current one then. -/
def add (t : BePlusTree V) (item : V) : BePlusTree V × Bool :=
  let t := match t.root with
    | some _ => t
    | none => { (t.newFirst 0).setItems t.fresh [] with root := some t.fresh }
  let leaf := t.findLeaf C (C.key item) t.level (t.root.getD 0)
  let r := t.findItem C leaf (C.key item)
  if r.1 then ({ t with defaultAccessor := ⟨some leaf, r.2⟩ }, false)
  else (t.addItem C leaf r.2 item, true)

/-! ## Removing -/

/-- The only child of `list` is replaced by a child of a neighbour. -/
def refill (t : BePlusTree V) (nodeLevel list : ℕ) : BePlusTree V :=
  let h := nodeLevel + 1
  let children := (t.page h).children
  match (t.page h).prev list with
  | some temp =>
      let last := (children temp).getD ((children temp).length - 1) 0
      let t := (t.setChildren h list ((children list).set 0 last)).setNodeParent nodeLevel last (some list)
      t.setChildren h temp ((children temp).take ((children temp).length - 1))
  | none =>
      match (t.page h).next list with
      | some temp =>
          let first := (children temp).getD 0 0
          let t := (t.setChildren h list ((children list).set 0 first)).setNodeParent nodeLevel first
            (some list)
          t.setChildren h temp ((children temp).eraseIdx 0)
      | none => t

/-- The children of `temp` are put behind those of `list`. -/
def joinNodes (t : BePlusTree V) (nodeLevel list temp : ℕ) : BePlusTree V :=
  let h := nodeLevel + 1
  let moved := (t.page h).children temp
  (t.setChildren h list ((t.page h).children list ++ moved)).onLevel nodeLevel
    (·.setParents moved (some list))

/-- `_removePage`. -/
def removePage : ℕ → BePlusTree V → ℕ → ℕ → BePlusTree V
  | 0, t, _, _ => t
  | fuel + 1, t, nodeLevel, node =>
      let list := ((t.page nodeLevel).parent node).getD 0
      let h := nodeLevel + 1
      let t := t.onLevel nodeLevel (·.unlink node)
      let L := t.page h
      let merges := fun more temp => decide (needMerge ((L.children temp).length + more) C.nodeCount)
      if (L.children list).length = 1 then
        if (L.prev list).any (merges 0) ∨ (L.next list).any (merges 0) then removePage fuel t h list
        else t.refill nodeLevel list
      else
        let key := t.generate C (L.nodeLevel list) node
        let children := (L.children list).eraseIdx (t.findNode C h list key).2
        let t := t.setChildren h list children
        if t.level = h ∧ t.root = some list ∧ children.length = 1 then
          let root := children.getD 0 0
          { t with
            root := some root
            level := nodeLevel }.setNodeParent nodeLevel root none
        else
          match (L.prev list).filter (merges children.length) with
          | some temp => removePage fuel (t.joinNodes nodeLevel temp list) h list
          | none =>
              match (L.next list).filter (merges children.length) with
              | some temp => removePage fuel (t.joinNodes nodeLevel list temp) h temp
              | none => t

/-- `_removePage(0, leaf)`. -/
def removeLeaf (t : BePlusTree V) (leaf : ℕ) : BePlusTree V := t.removePage C (t.level + 1) 0 leaf

/-- The tree with the default accessor there, and whether it is on an item. -/
def positioned (t : BePlusTree V) (curr : Option ℕ) (curPos : ℕ) : BePlusTree V × Bool :=
  ({ t with defaultAccessor := ⟨curr, curPos⟩ }, curr.isSome)

/-- The last item of a leaf that may not get empty is removed. -/
def removeLast (t : BePlusTree V) (curr curPos : ℕ) : BePlusTree V × Bool :=
  let prev := (t.page 0).prev curr
  let next := (t.page 0).next curr
  let merges := fun temp => decide (needMerge (t.items temp).length C.leafCount)
  if prev.any merges ∨ next.any merges then (t.removeLeaf C curr).positioned next curPos
  else
    match prev, next with
    | some temp, _ =>
        let items := t.items temp
        let t := t.setItems curr [items.getD (items.length - 1) default]
        (t.setItems temp (items.take (items.length - 1))).positioned next curPos
    | none, some temp =>
        let items := t.items temp
        ((t.setItems curr [items.getD 0 default]).setItems temp (items.eraseIdx 0)).positioned
          (some curr) curPos
    | none, none => (t, false)

/-- `fastRemove` of the default accessor, which has a position. -/
def fastRemove (t : BePlusTree V) : BePlusTree V × Bool :=
  match t.defaultAccessor.curr with
  | none => (t, false)
  | some curr =>
      let curPos := t.defaultAccessor.curPos
      let prev := (t.page 0).prev curr
      let next := (t.page 0).next curr
      let items := (t.items curr).eraseIdx curPos
      let merges := fun temp => decide (needMerge ((t.items temp).length + items.length) C.leafCount)
      if t.level = 0 then (t.setItems curr items, curPos < items.length)
      else if (t.items curr).length = 1 then t.removeLast C curr curPos
      else
        let t := t.setItems curr items
        match prev.filter merges with
        | some temp =>
            let curPos := curPos + (t.items temp).length
            let joined := t.items temp ++ items
            let t := (t.setItems temp joined).removeLeaf C curr
            if curPos ≥ joined.length then t.positioned ((t.page 0).next temp) 0
            else t.positioned (some temp) curPos
        | none =>
            match next.filter merges with
            | some temp => ((t.setItems curr (items ++ t.items temp)).removeLeaf C temp).positioned
                (some curr) curPos
            | none =>
                if curPos ≥ items.length then t.positioned next 0 else t.positioned (some curr) curPos

end BePlusTree

end FirebirdCore.Tree
