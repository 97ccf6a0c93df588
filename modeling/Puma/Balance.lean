import Puma.Node

namespace Puma

variable {α : Type}

/-- The loops over `start .. end` of `_indexNodes`, `_moveNodeThreadLists` and
`_updatenumElements`; `k` counts the nodes passed. -/
def forNodes (body : Nat → Heap α → NodePtr → PumaNode α → Heap α) (stop : NodePtr) :
    Nat → Nat → Heap α → NodePtr → Option (Heap α)
  | 0, _, _, _ => none
  | turns + 1, k, h, start => do
    let s ← h.node start
    let h := body k h start s
    if start = stop then pure h
    else do
      let after ← h.next start
      forNodes body stop turns (k + 1) h after

def indexNodes (h : Heap α) (start stop : NodePtr) : Option (Heap α) := do
  let s ← h.node start
  let index ← match s.prev with
    | none => pure 0
    | some before => (h.node before).map fun n => n.index + 1
  forNodes (fun k h p n => h.setNode p { n with index := index + k }) stop (h.blocks.card + 1) 0 h start

def moveNodeThreadLists (h : Heap α) (start stop : NodePtr) (tl : ListPtr) : Option (Heap α) :=
  forNodes (fun _ h p n => h.setNode p { n with threadList := tl }) stop (h.blocks.card + 1) 0 h start

def updateNumElements (h : Heap α) (start stop : NodePtr) (source target : ListPtr) : Option (Heap α) :=
  forNodes (fun _ h _ n =>
    (h.modifyList source fun tl => { tl with numElements := sizeSub tl.numElements n.numElements }).modifyList
      target fun tl => { tl with numElements := tl.numElements + n.numElements })
    stop (h.blocks.card + 1) 0 h start

/-- `start = start->prev`, the given number of times. -/
def walkBack (h : Heap α) : Nat → NodePtr → Option NodePtr
  | 0, start => some start
  | n + 1, start => do
    let before ← h.prev start
    walkBack h n before

/-- The splice of `_transferNNodes` on the side of `to`. -/
def spliceTarget (h : Heap α) (target : ListPtr) (start stop : NodePtr) : Option (Heap α) := do
  let h ← match (h.lists target).tail with
    | none => do
      let h := h.modifyList target fun tl => { tl with head := some start }
      let h ← h.modifyNode stop fun e => { e with next := none }
      h.modifyNode start fun s => { s with prev := none }
    | some tail => do
      let t ← h.node tail
      if t.active then
        let h ← h.modifyNode stop fun e => { e with next := t.next }
        let h ← h.modifyNodeIf t.next fun s => { s with prev := some stop }
        let h ← h.modifyNode tail fun t => { t with next := some start, dirty := true }
        h.modifyNode start fun s => { s with prev := some tail }
      else
        let h := h.modifyList target fun tl => { tl with head := some start }
        let h ← h.modifyNode stop fun e => { e with next := some tail }
        let e ← h.node stop
        let h ← h.modifyNode tail fun t => { t with prev := some stop, index := e.index + 1 }
        h.modifyNode start fun s => { s with prev := none }
  pure (h.modifyList target fun tl => { tl with tail := some stop })

/-- The splice of `_transferNNodes` on the side of `from`, whose tail has
already been moved in front of the nodes that go. -/
def spliceSource (h : Heap α) (source : ListPtr) (sourceTailNext : Option NodePtr) : Option (Heap α) :=
  match (h.lists source).tail with
  | none => do
    let h := h.modifyList source fun tl => { tl with head := sourceTailNext, tail := sourceTailNext }
    h.modifyNodeIf sourceTailNext fun s => { s with prev := none, index := 0 }
  | some tail => do
    let h ← h.modifyNode tail fun t => { t with next := sourceTailNext }
    h.modifyNodeIf sourceTailNext fun s => { s with prev := some tail }

/-- `_transferNNodes`. The migration of the moved pages between memory domains
leaves their contents alone. -/
def transferNNodes (h : Heap α) (n : Nat) (source target : ListPtr) : Option (Heap α) := do
  let stop ← (h.lists source).tail
  let e ← h.node stop
  let start ← walkBack h (n - 1) stop
  let s ← h.node start
  let h := h.modifyList source fun tl => { tl with tail := s.prev }
  let h ← spliceTarget h target start stop
  let h ← spliceSource h source e.next
  let h ← indexNodes h start stop
  let h ← moveNodeThreadLists h start stop target
  let h ← updateNumElements h start stop source target
  let h := h.modifyList source fun tl => { tl with numNodes := sizeSub tl.numNodes n }
  pure (h.modifyList target fun tl => { tl with numNodes := tl.numNodes + n })

/-- `struct pumaSet`: the thread lists of each domain, the list of each thread
of the pool, and the balancing strategy. -/
structure PumaSet where
  domains : List (List ListPtr)
  tidToThreadList : List ListPtr
  autoBalance : Bool
  splitter : Nat → Nat → Nat

/-- The variables of `_autobalanceThreadLoad` that its loops carry; the head of
a list is the top of the stack. -/
structure BalanceState (α : Type) where
  heap : Heap α
  rem : Nat
  posStack : List ListPtr
  negStack : List ListPtr

/-- The truth value of `rem > 0` as a number. -/
def BalanceState.extra (s : BalanceState α) : Nat := if 0 < s.rem then 1 else 0

/-- One of the `rem` lists with a node more than the average has been met. -/
def BalanceState.spendRem (s : BalanceState α) (met : Prop) [Decidable met] : BalanceState α :=
  { s with rem := s.rem - if 0 < s.rem ∧ met then 1 else 0 }

/-- The body of the loop over the lists of a domain. `tlAvgNodes tl` stands for
the value of `(size_t)(tl->relativeSpeed * avgNodes)`, computed in floating point. -/
def classifyList (tlAvgNodes : ListPtr → Nat) (s : BalanceState α) (tl : ListPtr) : BalanceState α :=
  let list := s.heap.lists tl
  if list.active then
    let s := s.spendRem (list.numNodes = tlAvgNodes tl + 1)
    if tlAvgNodes tl + s.extra < list.numNodes then { s with posStack := tl :: s.posStack }
    else if list.numNodes < tlAvgNodes tl then { s with negStack := tl :: s.negStack }
    else s
  else s

/-- The transfer loop. Every turn pops one of the two stacks. -/
def transferLoop (tlAvgNodes : ListPtr → Nat) : Nat → BalanceState α → Option (BalanceState α)
  | turns, s =>
    match s.posStack, s.negStack, turns with
    | pos :: posRest, neg :: negRest, turns + 1 => do
      let posAvgNodes := tlAvgNodes pos
      let negAvgNodes := tlAvgNodes neg
      let nToTransfer := min (sizeSub negAvgNodes (s.heap.lists neg).numNodes)
        (sizeSub (s.heap.lists pos).numNodes (posAvgNodes + s.extra))
      let h ← transferNNodes s.heap nToTransfer pos neg
      let posIsTarget := (h.lists pos).numNodes = posAvgNodes + s.extra
      let negIsTarget := (h.lists neg).numNodes = negAvgNodes
      transferLoop tlAvgNodes turns
        { s.spendRem posIsTarget with
          heap := h
          posStack := if posIsTarget then posRest else pos :: posRest
          negStack := if negIsTarget then negRest else neg :: negRest }
    | _ :: _, _ :: _, 0 => none
    | _, _, _ => some s

/-- One turn of the loop over the domains. -/
def balanceDomain (tlAvgNodes : ListPtr → Nat) (s : BalanceState α) (domain : List ListPtr) :
    Option (BalanceState α) :=
  let s := domain.foldl (classifyList tlAvgNodes) s
  transferLoop tlAvgNodes (s.posStack.length + s.negStack.length) s

/-- `_autobalanceThreadLoad`, given the rounded products of the relative speeds
and the average number of nodes. A set without active lists divides by zero. -/
def autobalanceThreadLoad (set : PumaSet) (h : Heap α) (tlAvgNodes : ListPtr → Nat → Nat) : Option (Heap α) :=
  let active := set.tidToThreadList.filter fun tl => (h.lists tl).active
  let numLists := active.length
  let totalNodes := (active.map fun tl => (h.lists tl).numNodes).sum
  if numLists = 0 then none
  else do
    let s ← set.domains.foldlM (balanceDomain fun tl => tlAvgNodes tl (totalNodes / numLists))
      { heap := h, rem := totalNodes % numLists, posStack := [], negStack := [] }
    pure s.heap

def balanceThreadLoad (set : PumaSet) (h : Heap α) (tlAvgNodes : ListPtr → Nat → Nat) : Option (Heap α) :=
  if set.autoBalance then autobalanceThreadLoad set h tlAvgNodes else pure h

end Puma
