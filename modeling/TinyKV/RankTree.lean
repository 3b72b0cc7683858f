import TinyKV.Btree
import TinyKV.Slice

/-!
# The B-tree with its indices

The updates of the B-tree of `scheduler/pkg/btree/btree.go`.
-/

namespace TinyKV.RankTree

variable {α β σ : Type}

def insertAt (xs : List α) (index : ℕ) (x : α) : Go (List α) :=
  if index ≤ xs.length then .ok (xs.take index ++ x :: xs.drop index) else .error .indexOutOfRange

def removeAt (xs : List α) (index : ℕ) : Go (α × List α) := do
  let x ← Go.index xs index
  .ok (x, xs.eraseIdx index)

def pop (xs : List α) : Go (α × List α) :=
  match xs.getLast? with
  | none => .error .indexOutOfRange
  | some x => .ok (x, xs.dropLast)

namespace Indices

def addAt (s : List ℤ) (index : ℕ) (delta : ℤ) : List ℤ :=
  s.take index ++ (s.drop index).map (· + delta)

def insertAt (s : List ℤ) (index : ℕ) (sz : ℤ) : List ℤ :=
  (s ++ [-1]).take index ++
    if index = 0 then sz :: s.map (· + sz + 1) else (s.drop (index - 1)).map (· + sz + 1)

def push (s : List ℤ) (sz : ℤ) : List ℤ :=
  match s.getLast? with
  | none => [sz]
  | some last => s ++ [last + 1 + sz]

def split (s : List ℤ) (index : ℕ) (nextSize : ℤ) : Go (List ℤ) := do
  let s := insertAt s (index + 1) (-1)
  let x ← Go.index s index
  Go.setIndex s index (x - (1 + nextSize))

def merge (s : List ℤ) (index : ℕ) : Go (List ℤ) :=
  if s = [] then .error .sliceOutOfRange
  else .ok ((s.take index ++ s.drop (index + 1)).take (s.length - 1))

def removeAt (s : List ℤ) (index : ℕ) : Go (ℤ × List ℤ) := do
  let x ← Go.index s index
  let sz ← if 0 < index then do
      let y ← Go.index s (index - 1)
      pure (x - y - 1)
    else pure x
  .ok (sz, s.take index ++ (s.drop (index + 1)).map (· - sz - 1))

def pop (s : List ℤ) : Go (ℤ × List ℤ) := do
  let (x, s') ← RankTree.pop s
  match s'.getLast? with
  | none => .ok (x, s')
  | some y => .ok (x - (y + 1), s')

def find (s : List ℤ) (k : ℤ) : Go (ℕ × Bool) := do
  let i := Search.search s.length fun i => s[i]?.any fun x => k ≤ x
  let x ← Go.index s i
  .ok (i, x = k)

end Indices

inductive Node (β : Type)
  | mk (items : List β) (children : List (Node β)) (indices : List ℤ)

namespace Node

def items : Node β → List β
  | mk items _ _ => items

def children : Node β → List (Node β)
  | mk _ children _ => children

def indices : Node β → List ℤ
  | mk _ _ indices => indices

def depth : Node β → ℕ
  | mk _ [] _ => 0
  | mk _ (child :: _) _ => child.depth + 1

def length (n : Node β) : ℤ :=
  match n.indices.getLast? with
  | none => n.items.length
  | some x => x

def initSize (children : List (Node β)) : List ℤ :=
  children.foldl (fun s child => Indices.push s child.length) []

def split (n : Node β) (i : ℕ) : Go (β × Node β × Node β) := do
  let item ← Go.index n.items i
  let nextItems ← Go.slice n.items (i + 1) n.items.length
  let items ← Go.slice n.items 0 i
  if 0 < n.children.length then
    let nextChildren ← Go.slice n.children (i + 1) n.children.length
    let children ← Go.slice n.children 0 (i + 1)
    let indices ← Go.slice n.indices 0 (i + 1)
    .ok (item, mk items children indices, mk nextItems nextChildren (initSize nextChildren))
  else .ok (item, mk items n.children n.indices, mk nextItems [] [])

def maybeSplitChild (n : Node β) (i maxItems : ℕ) : Go (Node β × Bool) := do
  let first ← Go.index n.children i
  if first.items.length < maxItems then .ok (n, false)
  else
    let (item, first, second) ← first.split (maxItems / 2)
    let children ← Go.setIndex n.children i first
    let items ← insertAt n.items i item
    let children ← insertAt children (i + 1) second
    let indices ← Indices.split n.indices i second.length
    .ok (mk items children indices, true)

def stealLeft (stealFrom : Node β) (item : β) (child : Node β) :
    Go (Node β × β × Node β × ℤ) := do
  let (stolenItem, stealItems) ← pop stealFrom.items
  if 0 < stealFrom.children.length then
    let (stolen, stealChildren) ← pop stealFrom.children
    let (stealSize, stealIndices) ← Indices.pop stealFrom.indices
    .ok (mk stealItems stealChildren stealIndices, stolenItem,
      mk (item :: child.items) (stolen :: child.children)
        (Indices.insertAt child.indices 0 stealSize), stealSize)
  else
    .ok (mk stealItems stealFrom.children stealFrom.indices, stolenItem,
      mk (item :: child.items) child.children child.indices, 0)

/-- The child of a node and its right sibling, with the item between them, after an item was stolen
from the sibling. -/
def stealRight (child : Node β) (item : β) (stealFrom : Node β) :
    Go (Node β × β × Node β × ℤ) := do
  let (stolenItem, stealItems) ← removeAt stealFrom.items 0
  if 0 < stealFrom.children.length then
    let (stolen, stealChildren) ← removeAt stealFrom.children 0
    let (stealSize, stealIndices) ← Indices.removeAt stealFrom.indices 0
    .ok (mk (child.items ++ [item]) (child.children ++ [stolen])
        (Indices.push child.indices stealSize), stolenItem,
      mk stealItems stealChildren stealIndices, stealSize)
  else
    .ok (mk (child.items ++ [item]) child.children child.indices, stolenItem,
      mk stealItems stealFrom.children stealFrom.indices, 0)

def mergeChild (child : Node β) (mergeItem : β) (next : Node β) : Node β :=
  mk (child.items ++ [mergeItem] ++ next.items) (child.children ++ next.children)
    (next.children.foldl (fun s nn => Indices.push s nn.length) child.indices)

def growLeft (n : Node β) (i : ℕ) : Go (Node β) := do
  let child ← Go.index n.children i
  let stealFrom ← Go.index n.children (i - 1)
  let item ← Go.index n.items (i - 1)
  let (stealFrom, stolenItem, child, stealSize) ← stealLeft stealFrom item child
  let items ← Go.setIndex n.items (i - 1) stolenItem
  let x ← Go.index n.indices (i - 1)
  let indices ← Go.setIndex n.indices (i - 1) (x - 1 - stealSize)
  let children ← Go.setIndex n.children i child
  let children ← Go.setIndex children (i - 1) stealFrom
  .ok (mk items children indices)

def growRight (n : Node β) (i : ℕ) : Go (Node β) := do
  let child ← Go.index n.children i
  let stealFrom ← Go.index n.children (i + 1)
  let item ← Go.index n.items i
  let (child, stolenItem, stealFrom, stealSize) ← stealRight child item stealFrom
  let items ← Go.setIndex n.items i stolenItem
  let x ← Go.index n.indices i
  let indices ← Go.setIndex n.indices i (x + 1 + stealSize)
  let children ← Go.setIndex n.children i child
  let children ← Go.setIndex children (i + 1) stealFrom
  .ok (mk items children indices)

def growMerge (n : Node β) (i : ℕ) : Go (Node β) := do
  let child ← Go.index n.children i
  let (mergeItem, items) ← removeAt n.items i
  let (next, children) ← removeAt n.children (i + 1)
  let children ← Go.setIndex children i (mergeChild child mergeItem next)
  let indices ← Indices.merge n.indices i
  .ok (mk items children indices)

def spares (n : Node β) (i minItems : ℕ) : Go Bool := do
  let child ← Go.index n.children i
  .ok (minItems < child.items.length)

def leftSpares (n : Node β) (i minItems : ℕ) : Go Bool :=
  if 0 < i then n.spares (i - 1) minItems else .ok false

def rightSpares (n : Node β) (i minItems : ℕ) : Go Bool :=
  if i < n.items.length then n.spares (i + 1) minItems else .ok false

def growChild (n : Node β) (i minItems : ℕ) : Go (Node β) := do
  let left ← n.leftSpares i minItems
  if left then n.growLeft i
  else
    let right ← n.rightSpares i minItems
    if right then n.growRight i
    else n.growMerge (if n.items.length ≤ i then i - 1 else i)

def getAt : ℕ → Node β → ℤ → Go (Option β)
  | 0, _, _ => .error (.text "stack overflow")
  | calls + 1, n, k =>
    if n.length ≤ k ∨ k < 0 then .ok none
    else if n.children.length = 0 then do
      let item ← Go.index n.items k.toNat
      .ok (some item)
    else do
      let (i, found) ← Indices.find n.indices k
      if found then
        let item ← Go.index n.items i
        .ok (some item)
      else if i = 0 then
        let child ← Go.index n.children 0
        getAt calls child k
      else
        let child ← Go.index n.children i
        let x ← Go.index n.indices (i - 1)
        getAt calls child (k - x - 1)

def ascendChild (walk : Node β → σ → Go (σ × Bool)) (n : Node β) (i : ℕ) (s : σ) :
    Go (σ × Bool) :=
  if 0 < n.children.length then do
    let child ← Go.index n.children i
    walk child s
  else .ok (s, true)

def ascendLoop (iter : β → σ → σ × Bool) (walk : Node β → σ → Go (σ × Bool)) (n : Node β) :
    ℕ → ℕ → σ → Go (σ × Bool)
  | 0, _, s => n.ascendChild walk (n.children.length - 1) s
  | rounds + 1, i, s => do
    let (s, ok) ← n.ascendChild walk i s
    if ok then
      let item ← Go.index n.items i
      let (s, ok) := iter item s
      if ok then ascendLoop iter walk n rounds (i + 1) s else .ok (s, false)
    else .ok (s, false)

def ascend (iter : β → σ → σ × Bool) : ℕ → Node β → σ → Go (σ × Bool)
  | 0, _, _ => .error (.text "stack overflow")
  | calls + 1, n, s => ascendLoop iter (ascend iter calls) n n.items.length 0 s

end Node

section

variable (less : β → β → Bool)

def find (items : List β) (item : β) : ℕ × Bool :=
  let i := Search.search items.length fun i => items[i]?.any fun x => less item x
  if 0 < i ∧ items[i - 1]?.any fun x => !less x item then (i - 1, true) else (i, false)

namespace Node

def insertChild (insert : Node β → β → Go (Node β × Option β)) (n : Node β) (i : ℕ) (item : β) :
    Go (Node β × Option β) := do
  let child ← Go.index n.children i
  let (child, out) ← insert child item
  let children ← Go.setIndex n.children i child
  .ok (mk n.items children (if out.isNone then Indices.addAt n.indices i 1 else n.indices), out)

def replaceItem (n : Node β) (i : ℕ) (item : β) : Go (Node β × Option β) := do
  let out ← Go.index n.items i
  let items ← Go.setIndex n.items i item
  .ok (mk items n.children n.indices, some out)

def insert (maxItems : ℕ) : ℕ → Node β → β → Go (Node β × Option β)
  | 0, _, _ => .error (.text "stack overflow")
  | calls + 1, n, item =>
    let (i, found) := find less n.items item
    if found then n.replaceItem i item
    else if n.children.length = 0 then do
      let items ← insertAt n.items i item
      .ok (mk items n.children n.indices, none)
    else do
      let (n, split) ← n.maybeSplitChild i maxItems
      if split then
        let inTree ← Go.index n.items i
        if less item inTree then n.insertChild (insert maxItems calls) i item
        else if less inTree item then n.insertChild (insert maxItems calls) (i + 1) item
        else n.replaceItem i item
      else n.insertChild (insert maxItems calls) i item

def rank (n : Node β) (i : ℕ) : Go ℤ :=
  if 0 < n.indices.length then Go.index n.indices i else .ok i

def getWithIndex : ℕ → Node β → β → Go (Option β × ℤ)
  | 0, _, _ => .error (.text "stack overflow")
  | calls + 1, n, key =>
    let (i, found) := find less n.items key
    if found then do
      let rk ← n.rank i
      let item ← Go.index n.items i
      .ok (some item, rk)
    else if 0 < n.children.length then do
      let child ← Go.index n.children i
      let (out, rk) ← getWithIndex calls child key
      if 0 < i then
        let x ← Go.index n.indices (i - 1)
        .ok (out, rk + (x + 1))
      else .ok (out, rk)
    else .ok (none, i)

end Node

/-- `toRemove`, with the item to be removed. -/
inductive ToRemove (β : Type)
  | removeItem (item : β)
  | removeMin
  | removeMax

def locate (items : List β) : ToRemove β → ℕ × Bool
  | .removeItem item => find less items item
  | .removeMin => (0, false)
  | .removeMax => (items.length, false)

namespace Node

def removeLeaf (n : Node β) (typ : ToRemove β) : Go (Node β × Option β) :=
  match typ with
  | .removeMax => do
    let (out, items) ← pop n.items
    .ok (mk items n.children n.indices, some out)
  | .removeMin => do
    let (out, items) ← removeAt n.items 0
    .ok (mk items n.children n.indices, some out)
  | .removeItem item =>
    let (i, found) := find less n.items item
    if found then do
      let (out, items) ← removeAt n.items i
      .ok (mk items n.children n.indices, some out)
    else .ok (n, none)

def remove (minItems : ℕ) : ℕ → Node β → ToRemove β → Go (Node β × Option β)
  | 0, _, _ => .error (.text "stack overflow")
  | calls + 1, n, typ =>
    if n.children.length = 0 then n.removeLeaf less typ
    else do
      let (i, found) := locate less n.items typ
      let child ← Go.index n.children i
      if child.items.length ≤ minItems then
        let n ← n.growChild i minItems
        remove minItems calls n typ
      else if found then
        -- The item is replaced by the greatest one before it.
        let out ← Go.index n.items i
        let (child, last) ← remove minItems calls child .removeMax
        let last ← Go.deref last
        let items ← Go.setIndex n.items i last
        let children ← Go.setIndex n.children i child
        .ok (mk items children (Indices.addAt n.indices i (-1)), some out)
      else
        let (child, out) ← remove minItems calls child typ
        let children ← Go.setIndex n.children i child
        .ok (mk n.items children
          (if out.isSome then Indices.addAt n.indices i (-1) else n.indices), out)

end Node

end

structure BTree (β : Type) where
  degree : ℕ
  length : ℤ := 0
  root : Option (Node β) := none

namespace BTree

def new (degree : ℕ) : Go (BTree β) :=
  if degree ≤ 1 then .error (.text "bad degree") else .ok { degree }

def maxItems (t : BTree β) : ℕ := t.degree * 2 - 1

def minItems (t : BTree β) : ℕ := t.degree - 1

def growRoot (t : BTree β) (root : Node β) : Go (Node β) :=
  if t.maxItems ≤ root.items.length then do
    let (item2, oldroot, second) ← root.split (t.maxItems / 2)
    .ok (.mk [item2] [oldroot, second] (Node.initSize [oldroot, second]))
  else .ok root

def replaceOrInsert (less : β → β → Bool) (t : BTree β) (item : β) : Go (BTree β × Option β) :=
  match t.root with
  | none => .ok ({ t with length := t.length + 1, root := some (.mk [item] [] []) }, none)
  | some root => do
    let root ← t.growRoot root
    let (root, out) ← root.insert less t.maxItems (root.depth + 1) item
    .ok ({ t with length := if out.isNone then t.length + 1 else t.length, root := some root }, out)

def shrinkRoot (root : Node β) : Go (Node β) :=
  if root.items.length = 0 ∧ 0 < root.children.length then Go.index root.children 0 else .ok root

def deleteItem (less : β → β → Bool) (t : BTree β) (typ : ToRemove β) :
    Go (BTree β × Option β) :=
  match t.root with
  | none => .ok (t, none)
  | some root =>
    if root.items.length = 0 then .ok (t, none)
    else do
      let (root, out) ← root.remove less t.minItems (2 * root.depth + 1) typ
      let root ← shrinkRoot root
      .ok ({ t with length := if out.isSome then t.length - 1 else t.length, root := some root },
        out)

def delete (less : β → β → Bool) (t : BTree β) (item : β) : Go (BTree β × Option β) :=
  t.deleteItem less (.removeItem item)

def deleteMin (less : β → β → Bool) (t : BTree β) : Go (BTree β × Option β) :=
  t.deleteItem less .removeMin

def deleteMax (less : β → β → Bool) (t : BTree β) : Go (BTree β × Option β) :=
  t.deleteItem less .removeMax

def len (t : BTree β) : ℤ := t.length

def getAt (t : BTree β) (k : ℤ) : Go (Option β) :=
  match t.root with
  | none => .ok none
  | some root => root.getAt (root.depth + 1) k

def getWithIndex (less : β → β → Bool) (t : BTree β) (key : β) : Go (Option β × ℤ) :=
  match t.root with
  | none => .ok (none, 0)
  | some root => root.getWithIndex less (root.depth + 1) key

def ascend (iter : β → σ → σ × Bool) (t : BTree β) (s : σ) : Go σ :=
  match t.root with
  | none => .ok s
  | some root => do
    let (s, _) ← root.ascend iter (root.depth + 1) s
    .ok s

end BTree

end TinyKV.RankTree
