import Puma.Node

namespace Puma

variable {σ α : Type}

/-- What a kernel works on: the library's memory, and whatever its extra data leads to. -/
structure World (σ α : Type) where
  extra : σ
  heap : Heap α

/-- `pumaKernel`, with its `extraData` argument filled in: it is given the address of an element. -/
abbrev Kernel (σ α : Type) := World σ α → ElemPtr → Option (World σ α)

/-- The loop of `_runKernelOnNode`. A free slot is counted and met again until
`i - skippedElements` wraps, so `i` and `skippedElements` bound the turns. -/
def runKernelOnNodeLoop (node : NodePtr) (kernel : Kernel σ α)
    (originalElements elementsDone numElements : Nat) :
    Nat → World σ α → Nat → Nat → Option (World σ α × Nat × List (ElemPtr × α))
  | 0, _, _, _ => none
  | turns + 1, w, i, skippedElements => do
    let n ← w.heap.node node
    if sizeSub i skippedElements < originalElements ∧ i < n.capacity ∧ elementsDone < numElements then
      if pumaBitmaskGet n.freeMask i = maskFree then
        runKernelOnNodeLoop node kernel originalElements elementsDone numElements turns w i (skippedElements + 1)
      else do
        let currentElement := getElement node i
        let w ← kernel w currentElement
        let (w, i', calls) ← runKernelOnNodeLoop node kernel originalElements elementsDone numElements
          turns w (i + 1) skippedElements
        pure (w, i', (currentElement, n.elements i) :: calls)
    else pure (w, i, [])

/-- `_runKernelOnNode`; returns the new `*elementsDone` and the calls of the kernel, as the pairs of the
address and the content found there. -/
def runKernelOnNode (w : World σ α) (node : NodePtr) (kernel : Kernel σ α) (elementsDone numElements : Nat) :
    Option (World σ α × Nat × List (ElemPtr × α)) := do
  let n ← w.heap.node node
  let (w, i, calls) ← runKernelOnNodeLoop node kernel n.numElements elementsDone numElements
    (2 * n.capacity + 2) w 0 0
  pure (w, elementsDone + i, calls)

/-- The dirty node that a pass has reached is cleaned up first. -/
def cleanupIfDirty (h : Heap α) (node : NodePtr) (tl : ListPtr) : Option (Heap α) := do
  let n ← h.node node
  if n.dirty then cleanupNode h node tl else pure h

/-- The body of the loop of `_runKernelThread`; also returns the next node. -/
def runKernelThreadTurn (tl : ListPtr) (kernel : Kernel σ α) (initNumElements : Nat) (w : World σ α)
    (currentNode : NodePtr) (elementsDone : Nat) :
    Option (World σ α × Option NodePtr × Nat × List (ElemPtr × α)) := do
  let h ← cleanupIfDirty w.heap currentNode tl
  let (w, elementsDone, calls) ← runKernelOnNode { w with heap := h } currentNode kernel elementsDone initNumElements
  let n ← w.heap.node currentNode
  pure (w, n.next, elementsDone, calls)

/-- The loop of `_runKernelThread`. -/
def runKernelThreadLoop (tl : ListPtr) (kernel : Kernel σ α) (initNumElements : Nat) :
    Nat → World σ α → Option NodePtr → Nat → Option (World σ α × List (ElemPtr × α))
  | _, w, none, _ => some (w, [])
  | 0, _, some _, _ => none
  | turns + 1, w, some currentNode, elementsDone => do
    let n ← w.heap.node currentNode
    if n.active ∧ elementsDone < initNumElements then
      let (w, next, elementsDone, calls) ← runKernelThreadTurn tl kernel initNumElements w currentNode elementsDone
      let (w, later) ← runKernelThreadLoop tl kernel initNumElements turns w next elementsDone
      pure (w, calls ++ later)
    else pure (w, [])

/-- The run time bookkeeping at the end of `_runKernelThread`. -/
def PumaThreadList.recordRunTime (tl : PumaThreadList) (elapsed : ℚ) : PumaThreadList :=
  { tl with
    lastNRunTime := tl.lastNRunTime - tl.kernelRunTimes.getD tl.nextRunTimeSlot 0 + elapsed
    kernelRunTimes := tl.kernelRunTimes.set tl.nextRunTimeSlot elapsed
    latestRunTime := elapsed
    nextRunTimeSlot := (tl.nextRunTimeSlot + 1) % numKernelRuntimes }

/-- `_runKernelThread` on the list of the calling thread; `elapsed` is the time
that the profiling macros measure. `turns` bounds the nodes that it may visit: a
kernel that allocates can make the list longer under the pass. -/
def runKernelThread (turns : Nat) (w : World σ α) (tl : ListPtr) (kernel : Kernel σ α) (elapsed : ℚ) :
    Option (World σ α × List (ElemPtr × α)) := do
  let (w, calls) ← runKernelThreadLoop tl kernel (w.heap.lists tl).numElements turns w (w.heap.lists tl).head 0
  pure ({ w with heap := w.heap.modifyList tl fun l => l.recordRunTime elapsed }, calls)

end Puma
