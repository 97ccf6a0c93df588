import Puma.Runs
import Puma.Lib.Postcondition
import Mathlib.Data.ZMod.Basic
import Mathlib.Tactic.Ring

namespace Puma

open Postcondition

variable {σ α : Type}

/-- The fields of a thread list that only its registration and the end of a pass write. -/
structure ListRecord where
  active : Bool
  lastNRunTime : ℚ
  nextRunTimeSlot : Nat
  kernelRunTimes : List ℚ

def PumaThreadList.record (tl : PumaThreadList) : ListRecord where
  active := tl.active
  lastNRunTime := tl.lastNRunTime
  nextRunTimeSlot := tl.nextRunTimeSlot
  kernelRunTimes := tl.kernelRunTimes

/-- What no store of the library outside the end of a pass changes in a thread list. -/
def PumaThreadList.fixed (tl : PumaThreadList) : ListRecord × Nat := (tl.record, tl.elementSize)

/-- Writes to the contents of elements leave the links of the nodes alone. -/
theorem Heap.links_of_skeleton {h h' : Heap α} (same : h'.skeleton = h.skeleton) : h'.links = h.links := by
  rw [← Heap.links_mapContents (fun _ _ => ()) h', ← Heap.links_mapContents (fun _ _ => ()) h]
  exact congrArg Heap.links same

/-- A property of the memory, and of a count `c` in the arithmetic of `size_t`, that the stores of the library
keep as long as nodes belong to the given lists; `c` follows the counters of the lists. -/
structure StoreRule (lists : Finset ListPtr) (P : ZMod (2 ^ 64) → Heap α → Prop) : Prop where
  owner : ∀ {c h p n}, P c h → h.node p = some n → n.threadList ∈ lists
  active : ∀ {c h l}, P c h → (h.lists l).active = true → l ∈ lists
  setNode : ∀ {c h p} {m n : PumaNode α}, P c h → h.node p = some m → n.threadList ∈ lists → n.capacity = m.capacity →
    P c (h.setNode p n)
  newNode : ∀ [Inhabited α] {c h l} (p : NodePtr) (tail : Option NodePtr) (nextIndex : Nat), P c h → l ∈ lists →
    P c (h.setNode p (newPumaNode h l (h.lists l).elementSize tail nextIndex))
  nufreeAligned : ∀ {c h} p, P c h → P c (h.nufreeAligned p)
  modifyList : ∀ {c h l} {f : PumaThreadList → PumaThreadList}, P c h → (f (h.lists l)).fixed = (h.lists l).fixed →
    (f (h.lists l)).numElements = (h.lists l).numElements → P c (h.modifyList l f)
  count : ∀ {c h l} {f : PumaThreadList → PumaThreadList}, P c h → l ∈ lists → (f (h.lists l)).fixed = (h.lists l).fixed →
    P (c + ((f (h.lists l)).numElements - (h.lists l).numElements)) (h.modifyList l f)

theorem sizeSub_cast (a b : Nat) : ((sizeSub a b : Nat) : ZMod (2 ^ 64)) = a - b := by
  unfold sizeSub
  split
  · rename_i less
    exact Nat.cast_sub less
  · rename_i more
    have below : (b - a) % 2 ^ 64 ≤ 2 ^ 64 := (Nat.mod_lt _ (by norm_num)).le
    rw [Nat.cast_sub below, ZMod.natCast_mod, ZMod.natCast_self, Nat.cast_sub (by omega)]
    ring

variable {lists : Finset ListPtr} {P : ZMod (2 ^ 64) → Heap α → Prop} {c : ZMod (2 ^ 64)} {h : Heap α}

section Operations

/-- A store to a node that leaves it in its list, with its slots. -/
theorem StoreRule.store (rule : StoreRule lists P) (kept : P c h) {p : NodePtr} {m : PumaNode α}
    (atNode : h.node p = some m) {n : PumaNode α} (owner : n.threadList = m.threadList) (capacity : n.capacity = m.capacity) :
    P c (h.setNode p n) :=
  rule.setNode kept atNode (by rw [owner]; exact rule.owner kept atNode) capacity

theorem StoreRule.modifyNode (rule : StoreRule lists P) (kept : P c h) (p : NodePtr) {f : PumaNode α → PumaNode α}
    (owner : ∀ n, (f n).threadList = n.threadList) (capacity : ∀ n, (f n).capacity = n.capacity) :
    Ensures (h.modifyNode p f) (P c) := by
  intro h' run
  obtain ⟨n, atNode, rfl⟩ := Option.map_eq_some_iff.mp run
  exact rule.store kept atNode (owner n) (capacity n)

theorem StoreRule.modifyNodeIf (rule : StoreRule lists P) (kept : P c h) (p : Option NodePtr)
    {f : PumaNode α → PumaNode α} (owner : ∀ n, (f n).threadList = n.threadList)
    (capacity : ∀ n, (f n).capacity = n.capacity) : Ensures (h.modifyNodeIf p f) (P c) := by
  cases p with
  | none => exact Ensures.some kept
  | some p => exact rule.modifyNode kept p owner capacity

theorem StoreRule.allocElementOnNode (rule : StoreRule lists P) (kept : P c h) (node : NodePtr) (element : ElemPtr) :
    Ensures (allocElementOnNode h node element) (P (c + 1)) := by
  simp only [Puma.allocElementOnNode, Option.bind_eq_bind]
  refine Ensures.read fun n atNode => Ensures.some ?_
  have owner := rule.owner kept atNode
  generalize marked : ({ n with
    freeMask := pumaBitmaskSet n.freeMask (getIndexOfElement element) maskNotFree
    numElements := n.numElements + 1 } : PumaNode α) = n'
  have after := rule.count (rule.setNode (p := node) (n := n') kept atNode (by rw [← marked]; exact owner) (by rw [← marked])) owner
    (f := fun tl => { tl with numElements := tl.numElements + 1 }) rfl
  have one : (((((h.setNode node n').lists n.threadList).numElements + 1 : Nat) : ZMod (2 ^ 64))) -
      ((h.setNode node n').lists n.threadList).numElements = 1 := by
    push_cast
    ring
  rwa [one] at after

theorem StoreRule.freePumaNode (rule : StoreRule lists P) (kept : P c h) (node : NodePtr) :
    Ensures (freePumaNode h node) (P c) := by
  simp only [Puma.freePumaNode, Option.bind_eq_bind]
  refine Ensures.read fun n atNode => ?_
  refine Ensures.bind (rule.modifyNodeIf (rule.modifyList (l := n.threadList) kept rfl rfl) n.prev (fun _ => rfl) fun _ => rfl)
    fun h₁ kept₁ => ?_
  exact Ensures.bind (rule.modifyNodeIf kept₁ n.next (fun _ => rfl) fun _ => rfl) fun h₂ kept₂ =>
    Ensures.some (rule.nufreeAligned node kept₂)

theorem StoreRule.releaseSpareNode (rule : StoreRule lists P) (kept : P c h) (node : NodePtr) :
    Ensures (releaseSpareNode h node) (P c) := by
  simp only [Puma.releaseSpareNode, Option.bind_eq_bind]
  refine Ensures.read fun n atNode => ?_
  split
  · cases n.next with
    | none => exact Ensures.some kept
    | some spare =>
      refine Ensures.read fun s atSpare => ?_
      split
      · exact Ensures.some kept
      · exact Ensures.bind (rule.freePumaNode kept spare) fun h₁ kept₁ => rule.modifyNode kept₁ node (fun _ => rfl) fun _ => rfl
  · exact Ensures.some kept

theorem StoreRule.freeElementOnNode (rule : StoreRule lists P) (kept : P c h) (element : ElemPtr) (node : NodePtr) :
    Ensures (freeElementOnNode h element node) (P (c - 1)) := by
  simp only [Puma.freeElementOnNode, Option.bind_eq_bind]
  refine Ensures.read fun n atNode => ?_
  have owner := rule.owner kept atNode
  generalize marked : ({ n with
    dirty := true
    freeMask := pumaBitmaskSet n.freeMask (getIndexOfElement element) maskFree
    numElements := sizeSub n.numElements 1 } : PumaNode α) = n'
  have after := rule.count (rule.setNode (p := node) (n := n') kept atNode (by rw [← marked]; exact owner) (by rw [← marked])) owner
    (f := fun tl => { tl with numElements := sizeSub tl.numElements 1 }) rfl
  have one : ((sizeSub ((h.setNode node n').lists n.threadList).numElements 1 : Nat) : ZMod (2 ^ 64)) -
      ((h.setNode node n').lists n.threadList).numElements = -1 := by
    rw [sizeSub_cast]
    push_cast
    ring
  rw [one, ← sub_eq_add_neg] at after
  exact rule.releaseSpareNode after node

theorem StoreRule.pufree (rule : StoreRule lists P) (kept : P c h) (element : ElemPtr) :
    Ensures (pufree h element) (P (c - 1)) := rule.freeElementOnNode kept element _

theorem StoreRule.deactivateTail (rule : StoreRule lists P) (kept : P c h) (list : ListPtr) {tail : NodePtr}
    {t : PumaNode α} (atTail : h.node tail = some t) : P c (deactivateTail h list tail t) := by
  have moved : P c (h.modifyList list fun tl => { tl with
      numNodes := if 0 < tl.numNodes then tl.numNodes - 1 else tl.numNodes }) := rule.modifyList kept rfl rfl
  have off := rule.store (n := { t with active := false }) moved atTail rfl rfl
  simp only [Puma.deactivateTail]
  split
  · exact off
  · exact rule.modifyList off rfl rfl

theorem StoreRule.getLastElementLoop (rule : StoreRule lists P) {turns : Nat} {list : ListPtr} {tail : Option NodePtr}
    (kept : P c h) : Ensures (getLastElementLoop turns h list tail) fun r => P c r.1 := by
  induction turns generalizing h tail with
  | zero =>
    cases tail with
    | none => exact Ensures.some kept
    | some tail => exact Ensures.none
  | succ turns ih =>
    cases tail with
    | none => exact Ensures.some kept
    | some tail =>
      simp only [Puma.getLastElementLoop, Option.bind_eq_bind]
      refine Ensures.read fun t atTail => ?_
      split
      · cases pumaLastIndexOfValue t.freeMask maskNotFree with
        | none => exact ih (rule.deactivateTail kept list atTail)
        | some last => exact Ensures.some kept
      · exact Ensures.some kept

theorem StoreRule.copyElement (rule : StoreRule lists P) (kept : P c h) (target source : ElemPtr) :
    Ensures (copyElement h target source) (P c) := by
  simp only [Puma.copyElement, Option.bind_eq_bind]
  exact Ensures.read fun s _ => rule.modifyNode kept target.node (fun _ => rfl) fun _ => rfl

/-- A turn of the compaction that has copied an element counts it twice. -/
theorem StoreRule.cleanupTurn (rule : StoreRule lists P) (kept : P c h) (currentNode : NodePtr) (list : ListPtr) :
    Ensures (cleanupTurn h currentNode list) fun r => P (c + if r.2.isSome then 1 else 0) r.1 := by
  have stay {h' : Heap α} (kept' : P c h') : P (c + if (none : Option ElemPtr).isSome then 1 else 0) h' := by
    simpa using kept'
  simp only [Puma.cleanupTurn, Option.bind_eq_bind]
  refine Ensures.read fun n _ => ?_
  split
  · refine Ensures.bind (rule.getLastElementLoop kept) fun r kept₁ => ?_
    obtain ⟨h₁, lastElement⟩ := r
    cases lastElement with
    | none => exact Ensures.some (stay kept₁)
    | some lastElement =>
      cases pumaFirstIndexOfValue n.freeMask maskFree with
      | none => exact Ensures.some (stay kept₁)
      | some firstFree =>
        refine Ensures.read fun last _ => Ensures.read fun current _ => ?_
        split
        · exact Ensures.some (stay kept₁)
        · refine Ensures.bind (rule.allocElementOnNode kept₁ currentNode _) fun h₂ kept₂ => ?_
          exact Ensures.bind (rule.copyElement kept₂ _ lastElement) fun h₃ kept₃ => Ensures.some (by simpa using kept₃)
  · exact Ensures.some (stay kept)

theorem StoreRule.cleanupNodeLoop (rule : StoreRule lists P) {turns : Nat} {currentNode : NodePtr} {list : ListPtr}
    (kept : P c h) : Ensures (cleanupNodeLoop turns h currentNode list) (P c) := by
  induction turns generalizing h with
  | zero => exact Ensures.none
  | succ turns ih =>
    simp only [Puma.cleanupNodeLoop, Option.bind_eq_bind]
    refine Ensures.bind (rule.cleanupTurn kept currentNode list) fun r kept₁ => ?_
    obtain ⟨h₁, moved⟩ := r
    cases moved with
    | none => exact Ensures.some (by simpa using kept₁)
    | some lastElement =>
      have twice : P (c + 1) h₁ := by simpa using kept₁
      refine Ensures.bind (rule.freeElementOnNode twice lastElement _) fun h₂ kept₂ => ih ?_
      rwa [add_sub_cancel_right] at kept₂

theorem StoreRule.cleanupNode (rule : StoreRule lists P) (kept : P c h) (currentNode : NodePtr) (list : ListPtr) :
    Ensures (cleanupNode h currentNode list) (P c) := by
  simp only [Puma.cleanupNode, Option.bind_eq_bind]
  exact Ensures.read fun n _ => Ensures.bind (rule.cleanupNodeLoop kept) fun h₁ kept₁ =>
    rule.modifyNode kept₁ currentNode (fun _ => rfl) fun _ => rfl

section Allocation

variable [Inhabited α]

theorem StoreRule.appendNewBlock (rule : StoreRule lists P) (kept : P c h) {threadList : ListPtr}
    (member : threadList ∈ lists) (tail : Option NodePtr) (nextIndex : Nat) (block : NodePtr) :
    Ensures (appendNewBlock h threadList (h.lists threadList).elementSize tail nextIndex block) (P c) := by
  simp only [Puma.appendNewBlock, Option.bind_eq_bind]
  split
  · exact Ensures.none
  · have built := rule.newNode block tail nextIndex kept member
    have last := rule.modifyList (l := threadList) (f := fun tl => { tl with tail := some block }) built rfl rfl
    exact Ensures.bind (rule.modifyNodeIf last tail (fun _ => rfl) fun _ => rfl) fun h₁ kept₁ =>
      Ensures.some (rule.modifyList kept₁ rfl rfl)

theorem StoreRule.appendPumaNode (rule : StoreRule lists P) (kept : P c h) {threadList : ListPtr}
    (member : threadList ∈ lists) (block : NodePtr) :
    Ensures (appendPumaNode h threadList (h.lists threadList).elementSize block) fun r => P c r.1 := by
  have finish {h₁ : Heap α} (kept₁ : P c h₁) (retNode : NodePtr) :
      Ensures ((h₁.node retNode).bind fun r => some (h₁.modifyList threadList fun tl =>
        { tl with numNodes := r.index + 1 }, retNode)) fun r => P c r.1 := by
    refine Ensures.read fun r _ => Ensures.some ?_
    exact rule.modifyList (l := threadList) (f := fun tl => { tl with numNodes := r.index + 1 }) kept₁ rfl rfl
  simp only [Puma.appendPumaNode, Option.bind_eq_bind]
  split
  · exact Ensures.bind (rule.appendNewBlock kept member none 0 block) fun h₁ kept₁ => finish kept₁ block
  · rename_i tail _
    refine Ensures.read fun t atNode => ?_
    split
    · exact finish (rule.store (n := { t with active := true }) kept atNode rfl rfl) tail
    · split
      · rename_i spare _
        have last := rule.modifyList (l := threadList) (f := fun tl => { tl with tail := some spare }) kept rfl rfl
        exact Ensures.bind (rule.modifyNode last spare (fun _ => rfl) fun _ => rfl) fun h₁ kept₁ => finish kept₁ spare
      · exact Ensures.bind (rule.appendNewBlock kept member (some tail) (t.index + 1) block)
          fun h₁ kept₁ => finish kept₁ block

theorem StoreRule.tailWithRoom (rule : StoreRule lists P) (kept : P c h) {threadList : ListPtr}
    (member : threadList ∈ lists) (block : NodePtr) :
    Ensures (tailWithRoom h threadList block) fun r => P c r.1 := by
  simp only [Puma.tailWithRoom, Option.bind_eq_bind]
  split
  · exact rule.appendPumaNode kept member block
  · refine Ensures.read fun t _ => ?_
    split
    · exact rule.appendPumaNode kept member block
    · exact Ensures.some kept

omit [Inhabited α] in
theorem StoreRule.nextFreeIndex (rule : StoreRule lists P) (kept : P c h) (threadList : ListPtr) (tail : NodePtr) :
    Ensures (nextFreeIndex h threadList tail) fun r => P c r.1 := by
  simp only [Puma.nextFreeIndex, Option.bind_eq_bind]
  refine Ensures.read fun t atTail => ?_
  have taken := rule.store (n := { t with firstKnownFree := t.firstKnownFree + 1 }) kept atTail rfl rfl
  split
  · exact Ensures.bind (rule.cleanupNode taken tail threadList) fun h₁ kept₁ =>
      Ensures.read fun t₁ atTail₁ => Ensures.some (rule.store kept₁ atTail₁ rfl rfl)
  · exact Ensures.some taken

theorem StoreRule.reserveSlot (rule : StoreRule lists P) (kept : P c h) {threadList : ListPtr}
    (member : threadList ∈ lists) (block : NodePtr) : Ensures (reserveSlot h threadList block) fun r => P c r.1 := by
  simp only [Puma.reserveSlot, Option.bind_eq_bind]
  refine Ensures.bind (rule.tailWithRoom kept member block) fun r kept₁ => ?_
  refine Ensures.bind (rule.nextFreeIndex kept₁ threadList r.2) fun r₂ kept₂ => ?_
  refine Ensures.read fun t atTail => Ensures.some ?_
  exact rule.store (rule.modifyList (l := threadList) kept₂ rfl rfl) atTail rfl rfl

theorem StoreRule.pumallocOnThreadList (rule : StoreRule lists P) (kept : P c h) {threadList : ListPtr}
    (member : threadList ∈ lists) (block : NodePtr) :
    Ensures (pumallocOnThreadList h threadList block) fun r => P (c + 1) r.1 := by
  simp only [Puma.pumallocOnThreadList, Option.bind_eq_bind]
  refine Ensures.bind (rule.reserveSlot kept member block) fun r kept₁ => ?_
  exact Ensures.bind (rule.allocElementOnNode kept₁ r.2.1 _) fun h₁ kept₂ => Ensures.some kept₂

end Allocation

end Operations

section Transfers

/-- A loop over nodes keeps what its body keeps on each of them. -/
theorem forNodes_keeps {body : Nat → Heap α → NodePtr → PumaNode α → Heap α} {Q : Heap α → Prop}
    (turn : ∀ k h p n, Q h → h.node p = some n → Q (body k h p n)) {stop : NodePtr} {turns k : Nat} {start : NodePtr}
    (kept : Q h) : Ensures (forNodes body stop turns k h start) Q := by
  induction turns generalizing h k start with
  | zero => exact Ensures.none
  | succ turns ih =>
    simp only [forNodes, Option.bind_eq_bind]
    refine Ensures.read fun s atStart => ?_
    have after := turn k h start s kept atStart
    split
    · exact Ensures.some after
    · exact Ensures.read fun next _ => ih after

theorem StoreRule.indexNodes (rule : StoreRule lists P) (kept : P c h) (start stop : NodePtr) :
    Ensures (indexNodes h start stop) (P c) := by
  simp only [Puma.indexNodes, Option.bind_eq_bind]
  have index (i : Nat) : Ensures (Puma.forNodes (fun k h p n => h.setNode p { n with index := i + k }) stop
      (h.blocks.card + 1) 0 h start) (P c) :=
    forNodes_keeps (fun k h p n kept atNode => rule.store (n := { n with index := i + k }) kept atNode rfl rfl) kept
  refine Ensures.read fun s _ => ?_
  split
  · exact index 0
  · exact Ensures.read fun i _ => index i

theorem StoreRule.moveNodeThreadLists (rule : StoreRule lists P) (kept : P c h) (start stop : NodePtr) {tl : ListPtr}
    (member : tl ∈ lists) : Ensures (moveNodeThreadLists h start stop tl) (P c) :=
  forNodes_keeps (fun _ _ _ _ kept atNode => rule.setNode kept atNode member (by rfl)) kept

/-- What one list loses the other gains. -/
theorem StoreRule.updateNumElements (rule : StoreRule lists P) (kept : P c h) (start stop : NodePtr)
    {source target : ListPtr} (inSource : source ∈ lists) (inTarget : target ∈ lists) :
    Ensures (updateNumElements h start stop source target) (P c) := by
  refine forNodes_keeps (fun k h p n kept _ => ?_) kept
  have less := rule.count kept inSource
    (f := fun tl => { tl with numElements := sizeSub tl.numElements n.numElements }) rfl
  generalize h.modifyList source (fun tl => { tl with numElements := sizeSub tl.numElements n.numElements }) = h₁ at less
  have more := rule.count less inTarget (f := fun tl => { tl with numElements := tl.numElements + n.numElements }) rfl
  have even : c + (((sizeSub (h.lists source).numElements n.numElements : Nat) : ZMod (2 ^ 64)) - (h.lists source).numElements) +
      ((((h₁.lists target).numElements + n.numElements : Nat) : ZMod (2 ^ 64)) - (h₁.lists target).numElements) = c := by
    rw [sizeSub_cast]
    push_cast
    ring
  rwa [even] at more

theorem StoreRule.spliceTarget (rule : StoreRule lists P) (kept : P c h) (target : ListPtr) (start stop : NodePtr) :
    Ensures (spliceTarget h target start stop) (P c) := by
  simp only [Puma.spliceTarget, Option.bind_eq_bind]
  have finish {h₁ : Heap α} (kept₁ : P c h₁) :
      Ensures (some (h₁.modifyList target fun tl => { tl with tail := some stop })) (P c) :=
    Ensures.some (rule.modifyList kept₁ rfl rfl)
  split
  · have first := rule.modifyList (l := target) (f := fun tl => { tl with head := some start }) kept rfl rfl
    exact Ensures.bind (rule.modifyNode first stop (fun _ => rfl) fun _ => rfl) fun h₁ kept₁ =>
      Ensures.bind (rule.modifyNode kept₁ start (fun _ => rfl) fun _ => rfl) fun h₂ kept₂ => finish kept₂
  · rename_i tail _
    refine Ensures.read fun t _ => ?_
    split
    · refine Ensures.bind (rule.modifyNode kept stop (fun _ => rfl) fun _ => rfl) fun h₁ kept₁ => ?_
      refine Ensures.bind (rule.modifyNodeIf kept₁ t.next (fun _ => rfl) fun _ => rfl) fun h₂ kept₂ => ?_
      exact Ensures.bind (rule.modifyNode kept₂ tail (fun _ => rfl) fun _ => rfl) fun h₃ kept₃ =>
        Ensures.bind (rule.modifyNode kept₃ start (fun _ => rfl) fun _ => rfl) fun h₄ kept₄ => finish kept₄
    · have first := rule.modifyList (l := target) (f := fun tl => { tl with head := some start }) kept rfl rfl
      refine Ensures.bind (rule.modifyNode first stop (fun _ => rfl) fun _ => rfl) fun h₁ kept₁ => ?_
      refine Ensures.read fun e _ => ?_
      exact Ensures.bind (rule.modifyNode kept₁ tail (fun _ => rfl) fun _ => rfl) fun h₂ kept₂ =>
        Ensures.bind (rule.modifyNode kept₂ start (fun _ => rfl) fun _ => rfl) fun h₃ kept₃ => finish kept₃

theorem StoreRule.spliceSource (rule : StoreRule lists P) (kept : P c h) (source : ListPtr)
    (sourceTailNext : Option NodePtr) : Ensures (spliceSource h source sourceTailNext) (P c) := by
  unfold Puma.spliceSource
  split
  · exact rule.modifyNodeIf (rule.modifyList (l := source) kept rfl rfl) sourceTailNext (fun _ => rfl) fun _ => rfl
  · rename_i tail _
    exact Ensures.bind (rule.modifyNode kept tail (fun _ => rfl) fun _ => rfl) fun h₁ kept₁ =>
      rule.modifyNodeIf kept₁ sourceTailNext (fun _ => rfl) fun _ => rfl

/-- A transfer between two of the lists changes their counters against each other. -/
theorem StoreRule.transferNNodes (rule : StoreRule lists P) (kept : P c h) (n : Nat) {source target : ListPtr}
    (inSource : source ∈ lists) (inTarget : target ∈ lists) :
    Ensures (transferNNodes h n source target) (P c) := by
  simp only [Puma.transferNNodes, Option.bind_eq_bind]
  refine Ensures.read fun stop _ => Ensures.read fun e _ => Ensures.read fun start _ => Ensures.read fun s _ => ?_
  have cut := rule.modifyList (l := source) (f := fun tl => { tl with tail := s.prev }) kept rfl rfl
  refine Ensures.bind (rule.spliceTarget cut target start stop) fun h₁ kept₁ => ?_
  refine Ensures.bind (rule.spliceSource kept₁ source e.next) fun h₂ kept₂ => ?_
  refine Ensures.bind (rule.indexNodes kept₂ start stop) fun h₃ kept₃ => ?_
  refine Ensures.bind (rule.moveNodeThreadLists kept₃ start stop inTarget) fun h₄ kept₄ => ?_
  refine Ensures.bind (rule.updateNumElements kept₄ start stop inSource inTarget) fun h₅ kept₅ => Ensures.some ?_
  exact rule.modifyList (rule.modifyList (l := source) kept₅ rfl rfl) rfl rfl

/-- A state of the balancer that has only the given lists on its stacks. -/
structure KeptBalance (lists : Finset ListPtr) (Q : Heap α → Prop) (s : BalanceState α) : Prop where
  kept : Q s.heap
  pos : ∀ l ∈ s.posStack, l ∈ lists
  neg : ∀ l ∈ s.negStack, l ∈ lists

theorem StoreRule.classifyList (rule : StoreRule lists P) {s : BalanceState α} (kept : KeptBalance lists (P c) s)
    (tlAvgNodes : ListPtr → Nat) (tl : ListPtr) : KeptBalance lists (P c) (classifyList tlAvgNodes s tl) := by
  unfold Puma.classifyList
  dsimp only
  split
  · rename_i on
    have member := rule.active kept.kept on
    split
    · exact ⟨kept.kept, List.forall_mem_cons.mpr ⟨member, kept.pos⟩, kept.neg⟩
    · split
      · exact ⟨kept.kept, kept.pos, List.forall_mem_cons.mpr ⟨member, kept.neg⟩⟩
      · exact ⟨kept.kept, kept.pos, kept.neg⟩
  · exact kept

theorem StoreRule.transferLoop (rule : StoreRule lists P) {turns : Nat} {s : BalanceState α}
    (kept : KeptBalance lists (P c) s) (tlAvgNodes : ListPtr → Nat) :
    Ensures (transferLoop tlAvgNodes turns s) (KeptBalance lists (P c)) := by
  induction turns generalizing s with
  | zero =>
    cases atPos : s.posStack with
    | nil => simpa [Puma.transferLoop, atPos] using Ensures.some kept
    | cons pos posRest =>
      cases atNeg : s.negStack with
      | nil => simpa [Puma.transferLoop, atPos, atNeg] using Ensures.some kept
      | cons neg negRest =>
        rw [transferLoop.eq_def]
        simp only [atPos, atNeg]
        exact Ensures.none
  | succ turns ih =>
    cases atPos : s.posStack with
    | nil => simpa [Puma.transferLoop, atPos] using Ensures.some kept
    | cons pos posRest =>
      cases atNeg : s.negStack with
      | nil => simpa [Puma.transferLoop, atPos, atNeg] using Ensures.some kept
      | cons neg negRest =>
        rw [transferLoop_turn tlAvgNodes turns atPos atNeg]
        have inPos := kept.pos pos (by simp [atPos])
        have inNeg := kept.neg neg (by simp [atNeg])
        refine Ensures.bind (rule.transferNNodes kept.kept _ inPos inNeg) fun h₁ kept₁ => ih ⟨kept₁, ?_, ?_⟩
        · simp only [TransferCall.settle]
          split
          · exact fun l member => kept.pos l (List.mem_of_mem_tail member)
          · exact kept.pos
        · simp only [TransferCall.settle]
          split
          · exact fun l member => kept.neg l (List.mem_of_mem_tail member)
          · exact kept.neg

theorem StoreRule.balanceDomain (rule : StoreRule lists P) {s : BalanceState α} (kept : KeptBalance lists (P c) s)
    (tlAvgNodes : ListPtr → Nat) (domain : List ListPtr) :
    Ensures (balanceDomain tlAvgNodes s domain) (KeptBalance lists (P c)) := by
  refine rule.transferLoop ?_ tlAvgNodes
  induction domain generalizing s with
  | nil => exact kept
  | cons tl domain ih => exact ih (rule.classifyList kept tlAvgNodes tl)

theorem StoreRule.balanceThreadLoad (rule : StoreRule lists P) (kept : P c h) (set : PumaSet)
    (tlAvgNodes : ListPtr → Nat → Nat) : Ensures (balanceThreadLoad set h tlAvgNodes) (P c) := by
  unfold Puma.balanceThreadLoad Puma.autobalanceThreadLoad
  split
  · dsimp only
    split
    · exact Ensures.none
    · have start (rem : Nat) : KeptBalance lists (P c) ⟨h, rem, [], []⟩ :=
        ⟨kept, fun _ member => absurd member List.not_mem_nil, fun _ member => absurd member List.not_mem_nil⟩
      exact Ensures.bind (Ensures.foldlM (start _) fun s domain _ kept => rule.balanceDomain kept _ domain)
        fun s kept => Ensures.some kept.kept
  · exact Ensures.some kept

end Transfers

/-- A property of the world that the compaction of a node and the kernel's calls keep. -/
structure PassRule (kernel : Kernel σ α) (Q : World σ α → Prop) : Prop where
  cleanup : ∀ {w h'} node tl, Q w → cleanupNode w.heap node tl = some h' → Q { w with heap := h' }
  call : ∀ {w e w'}, Q w → (w.heap.read e).isSome → kernel w e = some w' → Q w'

section Pass

variable {kernel : Kernel σ α} {Q : World σ α → Prop} {w : World σ α}

theorem PassRule.runKernelOnNodeLoop (rule : PassRule kernel Q) {node : NodePtr}
    {originalElements elementsDone numElements turns i skipped : Nat} (kept : Q w) :
    Ensures (runKernelOnNodeLoop node kernel originalElements elementsDone numElements turns w i skipped)
      fun r => Q r.1 := by
  induction turns generalizing w i skipped with
  | zero => exact Ensures.none
  | succ turns ih =>
    simp only [Puma.runKernelOnNodeLoop, Option.bind_eq_bind]
    refine Ensures.read fun n atNode => ?_
    split
    · rename_i more
      split
      · exact ih kept
      · rename_i held
        refine Ensures.read fun w₁ called => ?_
        have live : (w.heap.read ⟨node, i⟩).isSome := by
          rw [Heap.read_eq (Heap.slots_eq atNode), Slots.read_isSome, Slots.mem_liveSlots]
          exact ⟨more.2.1, (pumaBitmaskGet_cases n.freeMask i).resolve_left held⟩
        exact Ensures.bind (ih (rule.call kept live called)) fun r kept₁ => Ensures.some kept₁
    · exact Ensures.some kept

theorem PassRule.runKernelOnNode (rule : PassRule kernel Q) (kept : Q w) (node : NodePtr)
    (elementsDone numElements : Nat) :
    Ensures (runKernelOnNode w node kernel elementsDone numElements) fun r => Q r.1 := by
  simp only [Puma.runKernelOnNode, Option.bind_eq_bind]
  exact Ensures.read fun n _ => Ensures.bind (rule.runKernelOnNodeLoop kept) fun r kept₁ => Ensures.some kept₁

theorem PassRule.runKernelThreadTurn (rule : PassRule kernel Q) (kept : Q w) (tl : ListPtr) (initNumElements : Nat)
    (currentNode : NodePtr) (elementsDone : Nat) :
    Ensures (runKernelThreadTurn tl kernel initNumElements w currentNode elementsDone) fun r => Q r.1 := by
  simp only [Puma.runKernelThreadTurn, Option.bind_eq_bind]
  have cleaned : Ensures (cleanupIfDirty w.heap currentNode tl) fun h => Q { w with heap := h } := by
    simp only [cleanupIfDirty, Option.bind_eq_bind]
    refine Ensures.read fun n _ => ?_
    split
    · exact fun h' run => rule.cleanup currentNode tl kept run
    · exact Ensures.some kept
  refine Ensures.bind cleaned fun h kept₁ => ?_
  refine Ensures.bind (rule.runKernelOnNode kept₁ currentNode elementsDone initNumElements) fun r kept₂ => ?_
  exact Ensures.read fun n _ => Ensures.some kept₂

/-- A pass keeps what its compactions and its kernel's calls keep, up to the record of its run time. -/
theorem PassRule.runKernelThreadLoop (rule : PassRule kernel Q) {tl : ListPtr} {initNumElements turns : Nat}
    {current : Option NodePtr} {elementsDone : Nat} (kept : Q w) :
    Ensures (runKernelThreadLoop tl kernel initNumElements turns w current elementsDone) fun r => Q r.1 := by
  induction turns generalizing w current elementsDone with
  | zero =>
    cases current with
    | none => exact Ensures.some kept
    | some p => exact Ensures.none
  | succ turns ih =>
    cases current with
    | none => exact Ensures.some kept
    | some p =>
      simp only [Puma.runKernelThreadLoop, Option.bind_eq_bind]
      refine Ensures.read fun n _ => ?_
      split
      · refine Ensures.bind (rule.runKernelThreadTurn kept tl initNumElements p elementsDone) fun r kept₁ => ?_
        exact Ensures.bind (ih kept₁) fun r₂ kept₂ => Ensures.some kept₂
      · exact Ensures.some kept

end Pass

end Puma
