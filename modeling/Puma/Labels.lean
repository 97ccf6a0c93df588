import Puma.Pass

namespace Puma

variable {σ α ι : Type}

/-- Each slot's content labelled with the slot's address. A label travels with its element when the
element is copied to another slot; the library and the kernels do not see it. -/
noncomputable def Heap.label (h : Heap α) : Heap (α × ElemPtr) := h.mapContents fun e x => (x, e)

/-- The memory as the program sees it. -/
noncomputable def Heap.erase (h : Heap (α × ι)) : Heap α := h.view Prod.fst

def PumaNode.erase (n : PumaNode (α × ι)) : PumaNode α := n.mapContents fun _ => Prod.fst

theorem Heap.erase_label (h : Heap α) : h.label.erase = h := by
  refine Heap.ext_node (fun p => ?_) rfl rfl
  rw [Heap.erase, Heap.view, Heap.node_mapContents, Heap.label, Heap.node_mapContents, Option.map_map]
  cases h.node p <;> rfl

section Erase

@[simp] theorem Heap.node_erase (h : Heap (α × ι)) (p : NodePtr) : h.erase.node p = (h.node p).map PumaNode.erase :=
  Heap.node_mapContents (fun _ => Prod.fst) h p

@[simp] theorem Heap.lists_erase (h : Heap (α × ι)) : h.erase.lists = h.lists := rfl

@[simp] theorem Heap.blocks_erase (h : Heap (α × ι)) : h.erase.blocks = h.blocks := by
  ext p
  rw [Heap.mem_blocks, Heap.mem_blocks, Heap.node_erase]
  cases h.node p <;> simp

theorem Heap.erase_setNode (h : Heap (α × ι)) (p : NodePtr) (n : PumaNode (α × ι)) :
    (h.setNode p n).erase = h.erase.setNode p n.erase := by
  refine Heap.ext_node (fun q => ?_) rfl rfl
  rw [Heap.node_erase, Heap.node_setNode, Heap.node_setNode, Heap.node_erase]
  split <;> rfl

theorem Heap.erase_modifyList (h : Heap (α × ι)) (l : ListPtr) (f : PumaThreadList → PumaThreadList) :
    (h.modifyList l f).erase = h.erase.modifyList l f :=
  Heap.ext_node (fun q => by simp) rfl rfl

theorem Heap.erase_nufreeAligned (h : Heap (α × ι)) (p : NodePtr) :
    (h.nufreeAligned p).erase = h.erase.nufreeAligned p := by
  refine Heap.ext_node (fun q => ?_) rfl rfl
  rw [Heap.node_erase, Heap.node_nufreeAligned, Heap.node_nufreeAligned, Heap.node_erase]
  split <;> rfl

theorem Heap.erase_modifyNode {f : PumaNode (α × ι) → PumaNode (α × ι)} {g : PumaNode α → PumaNode α}
    (same : ∀ n, g n.erase = (f n).erase) (h : Heap (α × ι)) (p : NodePtr) :
    h.erase.modifyNode p g = (h.modifyNode p f).map Heap.erase := by
  rw [Heap.modifyNode, Heap.modifyNode, Heap.node_erase]
  cases h.node p with
  | none => rfl
  | some n =>
    simp only [Option.map_some, same, Heap.erase_setNode]

theorem Heap.erase_modifyNodeIf {f : PumaNode (α × ι) → PumaNode (α × ι)} {g : PumaNode α → PumaNode α}
    (same : ∀ n, g n.erase = (f n).erase) (h : Heap (α × ι)) (p : Option NodePtr) :
    h.erase.modifyNodeIf p g = (h.modifyNodeIf p f).map Heap.erase := by
  cases p with
  | none => rfl
  | some p => exact Heap.erase_modifyNode same h p

/-- Two computations that agree up to erasure go on to do so. -/
theorem bind_erase {A A' B B' : Type} {e : A → A'} {f : B → B'} {k : A → Option B} {k' : A' → Option B'}
    (m : Option A) (same : ∀ a, k' (e a) = (k a).map f) : (m.map e).bind k' = (m.bind k).map f := by
  cases m with
  | none => rfl
  | some a => exact same a

theorem allocElementOnNode_erase (h : Heap (α × ι)) (node : NodePtr) (element : ElemPtr) :
    allocElementOnNode h.erase node element = (allocElementOnNode h node element).map Heap.erase := by
  simp only [allocElementOnNode, Heap.node_erase, Option.bind_eq_bind]
  refine bind_erase _ fun n => ?_
  simp only [Option.pure_def, Option.map_some, Heap.erase_modifyList, Heap.erase_setNode]
  rfl

theorem freePumaNode_erase (h : Heap (α × ι)) (node : NodePtr) :
    freePumaNode h.erase node = (freePumaNode h node).map Heap.erase := by
  simp only [freePumaNode, Heap.node_erase, Option.bind_eq_bind]
  refine bind_erase _ fun n => ?_
  rw [← Heap.erase_modifyList, Heap.erase_modifyNodeIf (f := fun m => { m with next := n.next }) fun _ => rfl]
  refine bind_erase _ fun h₁ => ?_
  rw [Heap.erase_modifyNodeIf (f := fun m => { m with prev := n.prev }) fun _ => rfl]
  refine bind_erase _ fun h₂ => ?_
  rw [Option.pure_def, ← Heap.erase_nufreeAligned]
  rfl

theorem releaseSpareNode_erase (h : Heap (α × ι)) (node : NodePtr) :
    releaseSpareNode h.erase node = (releaseSpareNode h node).map Heap.erase := by
  simp only [releaseSpareNode, Heap.node_erase, Option.bind_eq_bind]
  refine bind_erase _ fun n => ?_
  by_cases few : n.numElements < n.capacity / 2
  · rw [if_pos few, if_pos (show n.erase.numElements < n.erase.capacity / 2 from few)]
    cases after : n.next with
    | none => simp only [show n.erase.next = none from after]; rfl
    | some spare =>
      simp only [show n.erase.next = some spare from after]
      refine bind_erase _ fun s => ?_
      by_cases on : s.active = true
      · rw [if_pos on, if_pos (show s.erase.active = true from on)]
        rfl
      · rw [if_neg on, if_neg (show ¬ s.erase.active = true from on), freePumaNode_erase]
        exact bind_erase _ fun h₁ => Heap.erase_modifyNode (fun _ => rfl) h₁ node
  · rw [if_neg few, if_neg (show ¬ n.erase.numElements < n.erase.capacity / 2 from few)]
    rfl

theorem freeElementOnNode_erase (h : Heap (α × ι)) (element : ElemPtr) (node : NodePtr) :
    freeElementOnNode h.erase element node = (freeElementOnNode h element node).map Heap.erase := by
  simp only [freeElementOnNode, Heap.node_erase, Option.bind_eq_bind]
  refine bind_erase _ fun n => ?_
  rw [← releaseSpareNode_erase, Heap.erase_modifyList, Heap.erase_setNode]
  rfl

theorem deactivateTail_erase (h : Heap (α × ι)) (list : ListPtr) (tail : NodePtr) (t : PumaNode (α × ι)) :
    deactivateTail h.erase list tail t.erase = (deactivateTail h list tail t).erase := by
  unfold deactivateTail
  dsimp only
  cases before : t.prev with
  | none =>
    simp only [show t.erase.prev = none from before, Heap.erase_setNode, Heap.erase_modifyList]
    rfl
  | some p =>
    simp only [show t.erase.prev = some p from before, Heap.erase_setNode, Heap.erase_modifyList]
    rfl

theorem getLastElementLoop_erase (turns : Nat) (h : Heap (α × ι)) (list : ListPtr) (tail : Option NodePtr) :
    getLastElementLoop turns h.erase list tail =
      (getLastElementLoop turns h list tail).map fun r => (r.1.erase, r.2) := by
  induction turns generalizing h tail with
  | zero => cases tail <;> rfl
  | succ turns ih =>
    cases tail with
    | none => rfl
    | some tail =>
      simp only [getLastElementLoop, Heap.node_erase, Option.bind_eq_bind]
      refine bind_erase _ fun t => ?_
      by_cases on : t.active = true
      · rw [if_pos on, if_pos (show t.erase.active = true from on)]
        cases last : pumaLastIndexOfValue t.freeMask maskNotFree with
        | none =>
          simp only [show pumaLastIndexOfValue t.erase.freeMask maskNotFree = none from last]
          rw [deactivateTail_erase]
          exact ih _ _
        | some i =>
          simp only [show pumaLastIndexOfValue t.erase.freeMask maskNotFree = some i from last]
          rfl
      · rw [if_neg on, if_neg (show ¬ t.erase.active = true from on)]
        rfl

theorem copyElement_erase (h : Heap (α × ι)) (target source : ElemPtr) :
    copyElement h.erase target source = (copyElement h target source).map Heap.erase := by
  simp only [copyElement, Heap.node_erase, Option.bind_eq_bind]
  refine bind_erase _ fun s => Heap.erase_modifyNode (fun n => ?_) h target.node
  simp only [PumaNode.erase, PumaNode.mapContents, PumaNode.mk.injEq, Slots.mk.injEq, true_and]
  funext i
  by_cases here : i = target.slot
  · simp [here]
  · simp [here]

theorem cleanupTurn_erase (h : Heap (α × ι)) (currentNode : NodePtr) (list : ListPtr) :
    cleanupTurn h.erase currentNode list = (cleanupTurn h currentNode list).map fun r => (r.1.erase, r.2) := by
  simp only [cleanupTurn, Heap.node_erase, Option.bind_eq_bind]
  refine bind_erase _ fun n => ?_
  by_cases room : n.numElements < n.capacity
  · rw [if_pos room, if_pos (show n.erase.numElements < n.erase.capacity from room)]
    simp only [getLastElement, Heap.blocks_erase, Heap.lists_erase, getLastElementLoop_erase]
    refine bind_erase _ fun r => ?_
    obtain ⟨h₁, lastElement⟩ := r
    have hole : pumaFirstIndexOfValue n.erase.freeMask maskFree = pumaFirstIndexOfValue n.freeMask maskFree := rfl
    rw [hole]
    cases lastElement with
    | none => rfl
    | some last =>
      cases pumaFirstIndexOfValue n.freeMask maskFree with
      | none => rfl
      | some firstFree =>
        simp only [Heap.node_erase]
        refine bind_erase _ fun l => bind_erase _ fun c => ?_
        by_cases stop : l.index < c.index ∨ (l.index = c.index ∧ (getElement currentNode firstFree).ge last)
        · rw [if_pos stop, if_pos (show l.erase.index < c.erase.index ∨
            (l.erase.index = c.erase.index ∧ (getElement currentNode firstFree).ge last) from stop)]
          rfl
        · rw [if_neg stop, if_neg (show ¬ (l.erase.index < c.erase.index ∨
            (l.erase.index = c.erase.index ∧ (getElement currentNode firstFree).ge last)) from stop),
            allocElementOnNode_erase]
          refine bind_erase _ fun h₂ => ?_
          rw [copyElement_erase]
          exact bind_erase _ fun h₃ => rfl
  · rw [if_neg room, if_neg (show ¬ n.erase.numElements < n.erase.capacity from room)]
    rfl

theorem cleanupNodeLoop_erase (turns : Nat) (h : Heap (α × ι)) (currentNode : NodePtr) (list : ListPtr) :
    cleanupNodeLoop turns h.erase currentNode list = (cleanupNodeLoop turns h currentNode list).map Heap.erase := by
  induction turns generalizing h with
  | zero => rfl
  | succ turns ih =>
    simp only [cleanupNodeLoop, Option.bind_eq_bind, cleanupTurn_erase]
    refine bind_erase _ fun r => ?_
    obtain ⟨h₁, moved⟩ := r
    cases moved with
    | none => rfl
    | some last =>
      simp only [freeElementOnNode_erase]
      exact bind_erase _ fun h₂ => ih h₂

theorem cleanupNode_erase (h : Heap (α × ι)) (currentNode : NodePtr) (list : ListPtr) :
    cleanupNode h.erase currentNode list = (cleanupNode h currentNode list).map Heap.erase := by
  simp only [cleanupNode, Heap.node_erase, Option.bind_eq_bind]
  refine bind_erase _ fun n => ?_
  have turns : n.erase.capacity = n.capacity := rfl
  rw [turns, cleanupNodeLoop_erase]
  exact bind_erase _ fun h₁ => Heap.erase_modifyNode (fun _ => rfl) h₁ currentNode

theorem cleanupIfDirty_erase (h : Heap (α × ι)) (node : NodePtr) (tl : ListPtr) :
    cleanupIfDirty h.erase node tl = (cleanupIfDirty h node tl).map Heap.erase := by
  simp only [cleanupIfDirty, Heap.node_erase, Option.bind_eq_bind]
  refine bind_erase _ fun n => ?_
  by_cases on : n.dirty = true
  · rw [if_pos on, if_pos (show n.erase.dirty = true from on), cleanupNode_erase]
  · rw [if_neg on, if_neg (show ¬ n.erase.dirty = true from on)]
    rfl

end Erase

section Passes

noncomputable def World.erase (w : World σ (α × ι)) : World σ α := ⟨w.extra, w.heap.erase⟩

/-- The memory `h'`, with the labels of `h`. -/
noncomputable def Heap.relabel (h : Heap (α × ι)) (h' : Heap α) : Heap (α × ι) :=
  h.mapContents fun e v => (((h'.node e.node).map fun n => n.elements e.slot).getD v.1, v.2)

/-- What a kernel does to labelled elements: the labels stay. -/
noncomputable def Kernel.labelled (kernel : Kernel σ α) : Kernel σ (α × ι) := fun w e =>
  (kernel w.erase e).map fun after => ⟨after.extra, w.heap.relabel after.heap⟩

theorem Heap.erase_relabel {h : Heap (α × ι)} {h' : Heap α} (same : h'.skeleton = h.erase.skeleton) :
    (h.relabel h').erase = h' := by
  have lists : h'.lists = h.lists := congrArg Heap.lists same
  have size : h'.nodeSize = h.nodeSize := congrArg Heap.nodeSize same
  refine Heap.ext_node (fun p => ?_) lists.symm size.symm
  rw [Heap.node_erase, Heap.relabel, Heap.node_mapContents]
  cases atNode : h.node p with
  | none =>
    have released : h'.skeleton.node p = none := by
      rw [same, Heap.skeleton, Heap.view, Heap.node_mapContents, Heap.node_erase, atNode]
      rfl
    rw [Heap.skeleton, Heap.view, Heap.node_mapContents, Option.map_eq_none_iff] at released
    exact released.symm
  | some n =>
    obtain ⟨n', atNode', equal⟩ := Heap.node_of_view_eq same (p := p) (n := n.erase) (by rw [Heap.node_erase, atNode]; rfl)
    simp only [PumaNode.mapContents, PumaNode.mk.injEq, Slots.mk.injEq] at equal
    obtain ⟨links, capacity, numElements, cursor, freeMask, dirty, _⟩ := equal
    simp only [atNode', Option.map_some, Option.getD_some, Option.some.injEq, PumaNode.erase, PumaNode.mapContents]
    exact congr (congrArg PumaNode.mk links.symm) (by
      rw [Slots.mk.injEq]
      exact ⟨capacity.symm, numElements.symm, cursor.symm, freeMask.symm, dirty.symm, rfl⟩)

theorem Heap.view_relabel (h : Heap (α × ι)) (h' : Heap α) : (h.relabel h').view Prod.snd = h.view Prod.snd := by
  refine Heap.ext_node (fun p => ?_) rfl rfl
  rw [Heap.view, Heap.view, Heap.relabel, Heap.node_mapContents, Heap.node_mapContents, Heap.node_mapContents,
    Option.map_map]
  rfl

theorem World.isSome_read_erase (w : World σ (α × ι)) (e : ElemPtr) :
    (w.erase.heap.read e).isSome ↔ (w.heap.read e).isSome := Heap.isSome_read_mapContents (fun _ => Prod.fst) w.heap e

variable {kernel : Kernel σ α}

theorem Kernel.Returns.labelled (returns : kernel.Returns) : Kernel.Returns (kernel.labelled (ι := ι)) := by
  intro w e live
  rw [Kernel.labelled, Option.isSome_map]
  exact returns w.erase e ((w.isSome_read_erase e).mpr live)

theorem Kernel.labelled_writes (kernel : Kernel σ α) : Kernel.Writes (kernel.labelled (ι := ι)) Prod.snd := by
  intro w e w' _ run
  obtain ⟨after, _, rfl⟩ := Option.map_eq_some_iff.mp run
  exact Heap.view_relabel w.heap after.heap

/-- `lifted` does to labelled elements what `kernel` does to elements. -/
def Kernel.Lifts (lifted : Kernel σ (α × ι)) (kernel : Kernel σ α) : Prop :=
  ∀ (w : World σ (α × ι)) (e : ElemPtr), (w.heap.read e).isSome → kernel w.erase e = (lifted w e).map World.erase

/-- A kernel that only writes does the same to labelled elements. -/
theorem Kernel.Writes.lifts {γ : Type} {g : α → γ} (writes : kernel.Writes g) :
    (kernel.labelled (ι := ι)).Lifts kernel := by
  intro w e live
  rw [Kernel.labelled]
  cases run : kernel w.erase e with
  | none => rfl
  | some after =>
    have same := Heap.skeleton_of_view_eq (writes w.erase e after ((w.isSome_read_erase e).mpr live) run)
    simp only [Option.map_some, World.erase, Heap.erase_relabel same]

variable {lifted : Kernel σ (α × ι)}

/-- A call of a kernel without the label of its element. -/
def eraseCall (call : ElemPtr × (α × ι)) : ElemPtr × α := (call.1, call.2.1)

theorem runKernelOnNodeLoop_erase (lifts : lifted.Lifts kernel) {node : NodePtr}
    {originalElements elementsDone numElements : Nat} (turns : Nat) (w : World σ (α × ι)) (i skipped : Nat) :
    runKernelOnNodeLoop node kernel originalElements elementsDone numElements turns w.erase i skipped =
      (runKernelOnNodeLoop node lifted originalElements elementsDone numElements turns w i skipped).map
        fun r => (r.1.erase, r.2.1, r.2.2.map eraseCall) := by
  induction turns generalizing w i skipped with
  | zero => rfl
  | succ turns ih =>
    have nodes : w.erase.heap.node node = (w.heap.node node).map PumaNode.erase := Heap.node_erase w.heap node
    simp only [runKernelOnNodeLoop, Option.bind_eq_bind, nodes]
    cases atNode : w.heap.node node with
    | none => rfl
    | some n =>
      simp only [Option.map_some, Option.bind_some]
      have same : n.erase.capacity = n.capacity ∧ n.erase.freeMask = n.freeMask := ⟨rfl, rfl⟩
      rw [same.1, same.2]
      split
      · rename_i more
        split
        · exact ih w i (skipped + 1)
        · rename_i held
          have live : (w.heap.read (getElement node i)).isSome := by
            rw [Heap.read_eq (e := getElement node i) (Heap.slots_eq atNode), Slots.read_isSome]
            exact Slots.mem_liveSlots.mpr ⟨more.2.1, (pumaBitmaskGet_cases n.freeMask i).resolve_left held⟩
          rw [lifts w (getElement node i) live]
          refine bind_erase _ fun w₁ => ?_
          rw [ih]
          exact bind_erase _ fun r => rfl
      · rfl

theorem runKernelThreadTurn_erase (lifts : lifted.Lifts kernel) {tl : ListPtr} {init : Nat} (w : World σ (α × ι))
    (currentNode : NodePtr) (elementsDone : Nat) :
    runKernelThreadTurn tl kernel init w.erase currentNode elementsDone =
      (runKernelThreadTurn tl lifted init w currentNode elementsDone).map
        fun r => (r.1.erase, r.2.1, r.2.2.1, r.2.2.2.map eraseCall) := by
  have cleaned : cleanupIfDirty w.erase.heap currentNode tl = (cleanupIfDirty w.heap currentNode tl).map Heap.erase :=
    cleanupIfDirty_erase w.heap currentNode tl
  simp only [runKernelThreadTurn, Option.bind_eq_bind, cleaned]
  refine bind_erase _ fun h => ?_
  have visited : runKernelOnNode ({ w.erase with heap := h.erase } : World σ α) currentNode kernel elementsDone init =
      (runKernelOnNode ({ w with heap := h } : World σ (α × ι)) currentNode lifted elementsDone init).map
        fun r => (r.1.erase, r.2.1, r.2.2.map eraseCall) := by
    simp only [runKernelOnNode, Option.bind_eq_bind, Heap.node_erase]
    refine bind_erase _ fun n => ?_
    have start : ({ w.erase with heap := h.erase } : World σ α) = World.erase { w with heap := h } := rfl
    rw [start, runKernelOnNodeLoop_erase lifts]
    exact bind_erase _ fun r => rfl
  rw [visited]
  refine bind_erase _ fun r => ?_
  have nodes : r.1.erase.heap.node currentNode = (r.1.heap.node currentNode).map PumaNode.erase :=
    Heap.node_erase r.1.heap currentNode
  simp only [nodes]
  exact bind_erase _ fun n => rfl

theorem runKernelThreadLoop_erase (lifts : lifted.Lifts kernel) {tl : ListPtr} {init : Nat} (turns : Nat)
    (w : World σ (α × ι)) (current : Option NodePtr) (elementsDone : Nat) :
    runKernelThreadLoop tl kernel init turns w.erase current elementsDone =
      (runKernelThreadLoop tl lifted init turns w current elementsDone).map
        fun r => (r.1.erase, r.2.map eraseCall) := by
  induction turns generalizing w current elementsDone with
  | zero => cases current <;> rfl
  | succ turns ih =>
    cases current with
    | none => rfl
    | some p =>
      have nodes : w.erase.heap.node p = (w.heap.node p).map PumaNode.erase := Heap.node_erase w.heap p
      simp only [runKernelThreadLoop, Option.bind_eq_bind, nodes]
      refine bind_erase _ fun n => ?_
      have same : n.erase.active = n.active := rfl
      rw [same]
      split
      · rw [runKernelThreadTurn_erase lifts]
        refine bind_erase _ fun r => ?_
        simp only [ih]
        refine bind_erase _ fun r' => ?_
        simp only [Option.pure_def, Option.map_some, List.map_append]
      · rfl

/-- A pass does not see the labels. -/
theorem runKernelThread_erase (lifts : lifted.Lifts kernel) (turns : Nat) (w : World σ (α × ι)) (tl : ListPtr)
    (elapsed : ℚ) :
    runKernelThread turns w.erase tl kernel elapsed =
      (runKernelThread turns w tl lifted elapsed).map fun r => (r.1.erase, r.2.map eraseCall) := by
  have lists : w.erase.heap.lists = w.heap.lists := Heap.lists_erase w.heap
  simp only [runKernelThread, Option.bind_eq_bind, lists, runKernelThreadLoop_erase lifts]
  refine bind_erase _ fun r => ?_
  have timed : ({ r.1.erase with heap := r.1.erase.heap.modifyList tl fun l => l.recordRunTime elapsed } : World σ α) =
      World.erase { r.1 with heap := r.1.heap.modifyList tl fun l => l.recordRunTime elapsed } := by
    simp only [World.erase, Heap.erase_modifyList]
  simp only [timed, Option.pure_def, Option.map_some]

end Passes

end Puma
