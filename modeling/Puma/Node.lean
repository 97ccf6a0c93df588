import Puma.Heap

namespace Puma

variable {α : Type}

def getElement (node : NodePtr) (i : Nat) : ElemPtr := ⟨node, i⟩

def getNodeForElement (element : ElemPtr) : NodePtr := element.node

def getIndexOfElement (element : ElemPtr) : Nat := element.slot

/-- `_allocElementOnNode`. Here and below `none` is a call that does not return: a `NULL` pointer or a released
block was dereferenced, or `exit` was called. Assertions are compiled out, as in the default build. -/
def allocElementOnNode (h : Heap α) (node : NodePtr) (element : ElemPtr) : Option (Heap α) := do
  let n ← h.node node
  let index := getIndexOfElement element
  let h := h.setNode node { n with
    freeMask := pumaBitmaskSet n.freeMask index maskNotFree
    numElements := n.numElements + 1 }
  pure (h.modifyList n.threadList fun tl => { tl with numElements := tl.numElements + 1 })

/-- Unlink a node from its list and release its block. The mask lies inside
the block, so `destroyPumaBitmask` has nothing to free. -/
def freePumaNode (h : Heap α) (node : NodePtr) : Option (Heap α) := do
  let n ← h.node node
  let h := h.modifyList n.threadList fun tl => { tl with
    tail := if tl.tail = some node then n.prev else tl.tail
    head := if tl.head = some node then n.next else tl.head }
  let h ← h.modifyNodeIf n.prev fun m => { m with next := n.next }
  let h ← h.modifyNodeIf n.next fun m => { m with prev := n.prev }
  pure (h.nufreeAligned node)

/-- The end of `_freeElementOnNode`: a node that runs below half its capacity
gives up the inactive node behind it. -/
def releaseSpareNode (h : Heap α) (node : NodePtr) : Option (Heap α) := do
  let n ← h.node node
  if n.numElements < n.capacity / 2 then
    match n.next with
    | none => pure h
    | some spare => do
      let s ← h.node spare
      if s.active then pure h
      else do
        let h ← freePumaNode h spare
        h.modifyNode node fun m => { m with next := none }
  else pure h

def freeElementOnNode (h : Heap α) (element : ElemPtr) (node : NodePtr) : Option (Heap α) := do
  let n ← h.node node
  let index := getIndexOfElement element
  let h := h.setNode node { n with
    dirty := true
    freeMask := pumaBitmaskSet n.freeMask index maskFree
    numElements := sizeSub n.numElements 1 }
  let h := h.modifyList n.threadList fun tl => { tl with numElements := sizeSub tl.numElements 1 }
  releaseSpareNode h node

def pufree (h : Heap α) (element : ElemPtr) : Option (Heap α) :=
  freeElementOnNode h element (getNodeForElement element)

/-- `_getLastElement` leaves an empty tail node behind: it becomes inactive and
the node in front of it, if any, becomes the tail. -/
def deactivateTail (h : Heap α) (list : ListPtr) (tail : NodePtr) (t : PumaNode α) : Heap α :=
  let h := h.modifyList list fun tl => { tl with
    numNodes := if 0 < tl.numNodes then tl.numNodes - 1 else tl.numNodes }
  let h := h.setNode tail { t with active := false }
  match t.prev with
  | none => h
  | some before => h.modifyList list fun tl => { tl with tail := some before }

/-- The loop of `_getLastElement`. Each turn but the last deactivates an
active node, so the number of blocks bounds the turns. -/
def getLastElementLoop : Nat → Heap α → ListPtr → Option NodePtr → Option (Heap α × Option ElemPtr)
  | _, h, _, none => some (h, none)
  | 0, _, _, some _ => none
  | turns + 1, h, list, some tail => do
    let t ← h.node tail
    if t.active then
      match pumaLastIndexOfValue t.freeMask maskNotFree with
      | none => getLastElementLoop turns (deactivateTail h list tail t) list t.prev
      | some lastElementIndex => pure (h, some (getElement tail lastElementIndex))
    else pure (h, none)

def getLastElement (h : Heap α) (list : ListPtr) : Option (Heap α × Option ElemPtr) :=
  getLastElementLoop (h.blocks.card + 1) h list (h.lists list).tail

/-- `memcpy` of one element onto another. -/
def copyElement (h : Heap α) (target source : ElemPtr) : Option (Heap α) := do
  let s ← h.node source.node
  h.modifyNode target.node fun n => { n with
    elements := Function.update n.elements target.slot (s.elements source.slot) }

/-- The body of the loop of `_cleanupNode` up to its call of `_freeElementOnNode`:
the address whose content it has copied into the first hole, or `none` when the
loop ends here. -/
def cleanupTurn (h : Heap α) (currentNode : NodePtr) (list : ListPtr) : Option (Heap α × Option ElemPtr) := do
  let n ← h.node currentNode
  if n.numElements < n.capacity then
    let firstFree := pumaFirstIndexOfValue n.freeMask maskFree
    let (h, lastElement) ← getLastElement h list
    match lastElement, firstFree with
    | some lastElement, some firstFree => do
      let firstFreeElement := getElement currentNode firstFree
      let last ← h.node (getNodeForElement lastElement)
      let current ← h.node currentNode
      if last.index < current.index ∨
          (last.index = current.index ∧ firstFreeElement.ge lastElement) then pure (h, none)
      else do
        let h ← allocElementOnNode h currentNode firstFreeElement
        let h ← copyElement h firstFreeElement lastElement
        pure (h, some lastElement)
    | _, _ => pure (h, none)
  else pure (h, none)

/-- The loop of `_cleanupNode`. Each turn but the last fills the first hole of
the node and opens none before it, so the capacity bounds the turns. -/
def cleanupNodeLoop : Nat → Heap α → NodePtr → ListPtr → Option (Heap α)
  | 0, _, _, _ => none
  | turns + 1, h, currentNode, list => do
    let (h, moved) ← cleanupTurn h currentNode list
    match moved with
    | none => pure h
    | some lastElement => do
      let h ← freeElementOnNode h lastElement (getNodeForElement lastElement)
      cleanupNodeLoop turns h currentNode list

def cleanupNode (h : Heap α) (currentNode : NodePtr) (list : ListPtr) : Option (Heap α) := do
  let n ← h.node currentNode
  let h ← cleanupNodeLoop (n.capacity + 1) h currentNode list
  h.modifyNode currentNode fun n => { n with dirty := false, firstKnownFree := n.numElements }

variable [Inhabited α]

/-- The node that `_appendPumaNode` builds in a fresh block. What the block
held before is unspecified; `default` stands for it. -/
def newPumaNode (h : Heap α) (threadList : ListPtr) (elementSize : Nat) (tail : Option NodePtr)
    (nextIndex : Nat) : PumaNode α :=
  let layout := createPumaBitmaskForElemArray (h.nodeSize - sizeofPumaNode) maskFree elementSize
  { freeMask := layout.1
    capacity := layout.2
    numElements := 0
    firstKnownFree := 0
    prev := tail
    next := none
    dirty := false
    active := true
    index := nextIndex
    threadList := threadList
    elements := fun _ => default }

/-- The part of `_appendPumaNode` that needs a new block. `posix_memalign`
returns `block`; it never returns a block still in use. -/
def appendNewBlock (h : Heap α) (threadList : ListPtr) (elementSize : Nat) (tail : Option NodePtr)
    (nextIndex : Nat) (block : NodePtr) : Option (Heap α) :=
  if block ∈ h.blocks ∨ h.nodeSize - sizeofPumaNode < elementSize then none
  else do
    let h := h.setNode block (newPumaNode h threadList elementSize tail nextIndex)
    let h := h.modifyList threadList fun tl => { tl with tail := some block }
    let h ← h.modifyNodeIf tail fun t => { t with next := some block }
    pure (h.modifyList threadList fun tl => { tl with
      head := if tl.head = none then some block else tl.head })

/-- `_appendPumaNode`: reactivate the tail, activate the spare node behind it,
or build a new node in `block`. -/
def appendPumaNode (h : Heap α) (threadList : ListPtr) (elementSize : Nat) (block : NodePtr) :
    Option (Heap α × NodePtr) := do
  let (h, retNode) ← match (h.lists threadList).tail with
    | none => do
      let h ← appendNewBlock h threadList elementSize none 0 block
      pure (h, block)
    | some tail => do
      let t ← h.node tail
      let nextIndex := t.index + 1
      if t.active = false then pure (h.setNode tail { t with active := true }, tail)
      else match t.next with
        | some spare => do
          let h := h.modifyList threadList fun tl => { tl with tail := some spare }
          let h ← h.modifyNode spare fun s => { s with active := true, index := nextIndex }
          pure (h, spare)
        | none => do
          let h ← appendNewBlock h threadList elementSize (some tail) nextIndex block
          pure (h, block)
  let r ← h.node retNode
  pure (h.modifyList threadList fun tl => { tl with numNodes := r.index + 1 }, retNode)

/-- The first part of `_pumallocOnThreadList`: the tail node that is to hold the new element. -/
def tailWithRoom (h : Heap α) (threadList : ListPtr) (block : NodePtr) : Option (Heap α × NodePtr) :=
  match (h.lists threadList).tail with
  | none => appendPumaNode h threadList (h.lists threadList).elementSize block
  | some tail => do
    let t ← h.node tail
    if t.numElements = t.capacity then appendPumaNode h threadList (h.lists threadList).elementSize block
    else pure (h, tail)

/-- The choice of the slot: the cursor, or the first slot behind the elements of
the node once it has been cleaned up. -/
def nextFreeIndex (h : Heap α) (threadList : ListPtr) (tail : NodePtr) : Option (Heap α × Nat) := do
  let t ← h.node tail
  let freeIndex := t.firstKnownFree
  let h := h.setNode tail { t with firstKnownFree := t.firstKnownFree + 1 }
  if t.capacity ≤ freeIndex then do
    let h ← cleanupNode h tail threadList
    let t ← h.node tail
    pure (h.setNode tail { t with firstKnownFree := t.numElements + 1 }, t.numElements)
  else pure (h, freeIndex)

/-- `_pumallocOnThreadList` up to its call of `_allocElementOnNode`. -/
def reserveSlot (h : Heap α) (threadList : ListPtr) (block : NodePtr) : Option (Heap α × NodePtr × Nat) := do
  let (h, tail) ← tailWithRoom h threadList block
  let (h, freeIndex) ← nextFreeIndex h threadList tail
  let t ← h.node tail
  let h := h.modifyList threadList fun tl => { tl with
    numNodes := tl.numNodes + if t.active then 0 else 1
    tail := some tail }
  pure (h.setNode tail { t with active := true }, tail, freeIndex)

def pumallocOnThreadList (h : Heap α) (threadList : ListPtr) (block : NodePtr) :
    Option (Heap α × ElemPtr) := do
  let (h, tail, freeIndex) ← reserveSlot h threadList block
  let newElement := getElement tail freeIndex
  let h ← allocElementOnNode h tail newElement
  pure (h, newElement)

/-- The number of active nodes from the head on, as the assertions of
`_transferNNodes` count them. -/
def countNodesFrom : Nat → Heap α → Option NodePtr → Option Nat
  | _, _, none => some 0
  | 0, _, some _ => none
  | turns + 1, h, some c => do
    let n ← h.node c
    if n.active then (countNodesFrom turns h n.next).map (· + 1) else some 0

def countNodes (h : Heap α) (tl : ListPtr) : Option Nat :=
  countNodesFrom (h.blocks.card + 1) h (h.lists tl).head

end Puma
