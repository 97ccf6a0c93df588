import Puma.Uniform

namespace Puma

open Postcondition Relation

variable {σ α : Type} {h : Heap α} {l : ListPtr} {X : Set NodePtr}

/-- A node of list `l` that is in use and not dirty has no free slot. -/
def PumaNode.Filling (l : ListPtr) (n : PumaNode α) : Prop :=
  n.threadList = l → n.active = true → n.dirty = false → n.numElements = n.capacity

/-- The nodes outside `X` are dirty or have no free slot. -/
def FullBut (l : ListPtr) (X : Set NodePtr) (h : Heap α) : Prop :=
  ∀ p n, h.node p = some n → p ∉ X → n.Filling l

/-- Between two operations only the tail may have room without being dirty. -/
def Settled (h : Heap α) (l : ListPtr) : Prop := FullBut l { p | (h.lists l).tail = some p } h

section Stores

theorem PumaNode.Filling.of_dirty {n : PumaNode α} (dirty : n.dirty = true) : n.Filling l := fun _ _ clean => by
  rw [dirty] at clean
  cases clean

theorem PumaNode.Filling.of_inactive {n : PumaNode α} (off : n.active = false) : n.Filling l := fun _ active => by
  rw [off] at active
  cases active

theorem FullBut.mono {Y : Set NodePtr} (full : FullBut l X h) (more : X ⊆ Y) : FullBut l Y h :=
  fun p n atNode out => full p n atNode fun member => out (more member)

theorem FullBut.setNode (full : FullBut l X h) (p : NodePtr) {n : PumaNode α} (fine : p ∉ X → n.Filling l) :
    FullBut l X (h.setNode p n) := by
  intro q m atNode out
  rw [Heap.node_setNode] at atNode
  split at atNode
  · rename_i same
    cases atNode
    exact fine (same ▸ out)
  · exact full q m atNode out

theorem FullBut.modifyNode (full : FullBut l X h) (p : NodePtr) {f : PumaNode α → PumaNode α}
    (fine : p ∉ X → ∀ n, n.Filling l → (f n).Filling l) : Ensures (h.modifyNode p f) (FullBut l X) := by
  intro h' run
  obtain ⟨n, atNode, rfl⟩ := Option.map_eq_some_iff.mp run
  exact full.setNode p fun out => fine out n (full p n atNode out)

theorem FullBut.modifyNodeIf (full : FullBut l X h) (p : Option NodePtr) {f : PumaNode α → PumaNode α}
    (fine : ∀ n, n.Filling l → (f n).Filling l) : Ensures (h.modifyNodeIf p f) (FullBut l X) := by
  cases p with
  | none => exact Ensures.some full
  | some p => exact full.modifyNode p fun _ => fine

theorem FullBut.modifyList (full : FullBut l X h) (m : ListPtr) (f : PumaThreadList → PumaThreadList) :
    FullBut l X (h.modifyList m f) := full

theorem FullBut.nufreeAligned (full : FullBut l X h) (p : NodePtr) : FullBut l X (h.nufreeAligned p) := by
  intro q m atNode out
  rw [Heap.node_nufreeAligned] at atNode
  split at atNode
  · cases atNode
  · exact full q m atNode out

end Stores

section Operations

theorem FullBut.allocElementOnNode (full : FullBut l X h) {node : NodePtr} (exempt : node ∈ X) (element : ElemPtr) :
    Ensures (allocElementOnNode h node element) (FullBut l X) := by
  simp only [Puma.allocElementOnNode, Option.bind_eq_bind]
  exact Ensures.read fun n _ => Ensures.some ((full.setNode node fun out => (out exempt).elim).modifyList _ _)

theorem FullBut.freePumaNode (full : FullBut l X h) (node : NodePtr) : Ensures (freePumaNode h node) (FullBut l X) := by
  simp only [Puma.freePumaNode, Option.bind_eq_bind]
  refine Ensures.read fun n _ => ?_
  refine Ensures.bind ((full.modifyList n.threadList _).modifyNodeIf n.prev fun _ filling => filling) fun h₁ full₁ => ?_
  exact Ensures.bind (full₁.modifyNodeIf n.next fun _ filling => filling) fun h₂ full₂ =>
    Ensures.some (full₂.nufreeAligned node)

theorem FullBut.releaseSpareNode (full : FullBut l X h) (node : NodePtr) :
    Ensures (releaseSpareNode h node) (FullBut l X) := by
  simp only [Puma.releaseSpareNode, Option.bind_eq_bind]
  refine Ensures.read fun n _ => ?_
  split
  · cases n.next with
    | none => exact Ensures.some full
    | some spare =>
      refine Ensures.read fun s _ => ?_
      split
      · exact Ensures.some full
      · exact Ensures.bind (full.freePumaNode spare) fun h₁ full₁ => full₁.modifyNode node fun _ _ filling => filling
  · exact Ensures.some full

/-- A node that loses an element becomes dirty. -/
theorem FullBut.freeElementOnNode (full : FullBut l X h) (element : ElemPtr) (node : NodePtr) :
    Ensures (freeElementOnNode h element node) (FullBut l X) := by
  simp only [Puma.freeElementOnNode, Option.bind_eq_bind]
  refine Ensures.read fun n _ => FullBut.releaseSpareNode (FullBut.modifyList ?_ n.threadList _) node
  exact full.setNode node fun _ => .of_dirty rfl

/-- The nodes that are given up become inactive. -/
theorem FullBut.getLastElementLoop (full : FullBut l X h) {turns : Nat} {list : ListPtr} {tail : Option NodePtr} :
    Ensures (getLastElementLoop turns h list tail) fun r => FullBut l X r.1 := by
  induction turns generalizing h tail with
  | zero =>
    cases tail with
    | none => exact Ensures.some full
    | some tail => exact Ensures.none
  | succ turns ih =>
    cases tail with
    | none => exact Ensures.some full
    | some tail =>
      simp only [Puma.getLastElementLoop, Option.bind_eq_bind]
      refine Ensures.read fun t _ => ?_
      split
      · cases pumaLastIndexOfValue t.freeMask maskNotFree with
        | some last => exact Ensures.some full
        | none =>
          refine ih ?_
          have off := (full.modifyList list fun tl => { tl with
            numNodes := if 0 < tl.numNodes then tl.numNodes - 1 else tl.numNodes }).setNode tail
              (n := { t with active := false }) fun _ => .of_inactive rfl
          simp only [deactivateTail]
          split
          · exact off
          · exact off.modifyList list _
      · exact Ensures.some full

theorem FullBut.cleanupTurn (full : FullBut l X h) {currentNode : NodePtr} (exempt : currentNode ∈ X) (list : ListPtr) :
    Ensures (cleanupTurn h currentNode list) fun r => FullBut l X r.1 := by
  simp only [Puma.cleanupTurn, Option.bind_eq_bind]
  refine Ensures.read fun n _ => ?_
  split
  · refine Ensures.bind full.getLastElementLoop fun r full₁ => ?_
    obtain ⟨h₁, lastElement⟩ := r
    cases lastElement with
    | none => exact Ensures.some full₁
    | some lastElement =>
      cases pumaFirstIndexOfValue n.freeMask maskFree with
      | none => exact Ensures.some full₁
      | some firstFree =>
        refine Ensures.read fun last _ => Ensures.read fun current _ => ?_
        split
        · exact Ensures.some full₁
        · refine Ensures.bind (full₁.allocElementOnNode exempt _) fun h₂ full₂ => ?_
          simp only [copyElement, Option.bind_eq_bind]
          have copied := Ensures.read fun (s : PumaNode α) (_ : h₂.node lastElement.node = some s) =>
            full₂.modifyNode currentNode (f := fun n => { n with
              elements := Function.update n.elements firstFree (s.elements lastElement.slot) }) fun _ _ filling => filling
          exact Ensures.bind copied fun h₃ full₃ => Ensures.some full₃
  · exact Ensures.some full

theorem FullBut.cleanupNode (full : FullBut l X h) {currentNode : NodePtr} (exempt : currentNode ∈ X) (list : ListPtr) :
    Ensures (cleanupNode h currentNode list) (FullBut l X) := by
  have loop (turns : Nat) {h : Heap α} (full : FullBut l X h) :
      Ensures (cleanupNodeLoop turns h currentNode list) (FullBut l X) := by
    induction turns generalizing h with
    | zero => exact Ensures.none
    | succ turns ih =>
      simp only [Puma.cleanupNodeLoop, Option.bind_eq_bind]
      refine Ensures.bind (full.cleanupTurn exempt list) fun r full₁ => ?_
      obtain ⟨h₁, moved⟩ := r
      cases moved with
      | none => exact Ensures.some full₁
      | some lastElement => exact Ensures.bind (full₁.freeElementOnNode lastElement _) fun h₂ full₂ => ih full₂
  simp only [Puma.cleanupNode, Option.bind_eq_bind]
  exact Ensures.read fun n _ => Ensures.bind (loop _ full) fun h₁ full₁ =>
    full₁.modifyNode currentNode fun out => (out exempt).elim

end Operations

section Allocation

variable [Inhabited α] {threadList : ListPtr}

theorem FullBut.appendNewBlock (full : FullBut l ∅ h) (threadList : ListPtr) (elementSize : Nat) (tail : Option NodePtr)
    (nextIndex : Nat) (block : NodePtr) :
    Ensures (appendNewBlock h threadList elementSize tail nextIndex block) (FullBut l {block}) := by
  simp only [Puma.appendNewBlock, Option.bind_eq_bind]
  split
  · exact Ensures.none
  · have built : FullBut l {block} (h.setNode block (newPumaNode h threadList elementSize tail nextIndex)) :=
      (full.mono (Set.empty_subset _)).setNode block fun out => (out rfl).elim
    exact Ensures.bind ((built.modifyList threadList _).modifyNodeIf tail fun _ filling => filling) fun h₁ full₁ =>
      Ensures.some (full₁.modifyList threadList _)

/-- Where no node has room, only the appended one has. -/
theorem FullBut.appendPumaNode (full : FullBut l ∅ h) (threadList : ListPtr) (elementSize : Nat) (block : NodePtr) :
    Ensures (appendPumaNode h threadList elementSize block) fun r => FullBut l {r.2} r.1 := by
  have finish {h₁ : Heap α} {retNode : NodePtr} (full₁ : FullBut l {retNode} h₁) :
      Ensures ((h₁.node retNode).bind fun r => some (h₁.modifyList threadList fun tl =>
        { tl with numNodes := r.index + 1 }, retNode)) fun r => FullBut l {r.2} r.1 :=
    Ensures.read fun r _ => Ensures.some (full₁.modifyList threadList _)
  simp only [Puma.appendPumaNode, Option.bind_eq_bind]
  split
  · exact Ensures.bind (full.appendNewBlock threadList elementSize none 0 block) fun h₁ full₁ => finish full₁
  · rename_i tail _
    refine Ensures.read fun t _ => ?_
    split
    · exact finish ((full.mono (Set.empty_subset _)).setNode tail fun out => (out rfl).elim)
    · split
      · rename_i spare _
        exact Ensures.bind (((full.mono (Set.empty_subset {spare})).modifyList threadList _).modifyNode spare
          fun out => (out rfl).elim) fun h₁ full₁ => finish full₁
      · exact Ensures.bind (full.appendNewBlock threadList elementSize (some tail) (t.index + 1) block)
          fun h₁ full₁ => finish full₁

/-- The node that is chosen for the new element is the only one with room that is not dirty. -/
theorem Settled.tailWithRoom (settled : Settled h l) (block : NodePtr) :
    Ensures (tailWithRoom h l block) fun r => FullBut l {r.2} r.1 := by
  simp only [Puma.tailWithRoom, Option.bind_eq_bind]
  split
  · rename_i missing
    refine FullBut.appendPumaNode (fun p n atNode _ => settled p n atNode fun last => ?_) l _ block
    cases missing.symm.trans last
  · rename_i tail atTail
    refine Ensures.read fun t atNode => ?_
    split
    · rename_i whole
      refine FullBut.appendPumaNode (fun p n there _ => ?_) l _ block
      by_cases last : p = tail
      · rw [last, atNode] at there
        cases there
        exact fun _ _ _ => whole
      · refine settled p n there fun same => last ?_
        exact Option.some.inj (same.symm.trans atTail)
    · refine Ensures.some (settled.mono fun p same => ?_)
      exact Option.some.inj (same.symm.trans atTail)

theorem Settled.pumallocOnThreadList (settled : Settled h l) (block : NodePtr) :
    Ensures (pumallocOnThreadList h l block) fun r => Settled r.1 l := by
  have chosen {h₁ : Heap α} {tail : NodePtr} (full₁ : FullBut l {tail} h₁) :
      Ensures (nextFreeIndex h₁ l tail) fun r => FullBut l {tail} r.1 := by
    simp only [Puma.nextFreeIndex, Option.bind_eq_bind]
    refine Ensures.read fun t _ => ?_
    have taken : FullBut l {tail} (h₁.setNode tail { t with firstKnownFree := t.firstKnownFree + 1 }) :=
      full₁.setNode tail fun out => (out rfl).elim
    split
    · exact Ensures.bind (taken.cleanupNode rfl l) fun h₂ full₂ =>
        Ensures.read fun t₂ _ => Ensures.some (full₂.setNode tail fun out => (out rfl).elim)
    · exact Ensures.some taken
  have reserved : Ensures (reserveSlot h l block) fun r => FullBut l {r.2.1} r.1 ∧ (r.1.lists l).tail = some r.2.1 := by
    simp only [Puma.reserveSlot, Option.bind_eq_bind]
    refine Ensures.bind (settled.tailWithRoom block) fun r full₁ => Ensures.bind (chosen full₁) fun r₂ full₂ => ?_
    refine Ensures.read fun t _ => Ensures.some ⟨(full₂.modifyList l _).setNode r.2 fun out => (out rfl).elim, ?_⟩
    rw [Heap.lists_setNode, Heap.lists_modifyList_self]
  simp only [Puma.pumallocOnThreadList, Option.bind_eq_bind]
  refine Ensures.bind reserved fun r post => Ensures.read fun h₁ alloc => Ensures.some ?_
  obtain ⟨full₁, atTail⟩ := post
  have full₂ := full₁.allocElementOnNode rfl _ h₁ alloc
  simp only [Puma.allocElementOnNode, Option.bind_eq_bind] at alloc
  obtain ⟨n, _, alloc⟩ := Option.bind_eq_some_iff.mp alloc
  cases alloc
  refine full₂.mono fun p member => ?_
  rw [Set.mem_singleton_iff.mp member]
  refine Eq.trans ?_ atTail
  by_cases owner : l = n.threadList
  · subst owner
    rw [Heap.lists_modifyList_self, Heap.lists_setNode]
  · rw [Heap.lists_modifyList_ne _ _ owner, Heap.lists_setNode]

end Allocation

section Steps

variable {h' : Heap α} {A S A' S' : List NodePtr}

/-- An initial part that still holds the last element is the whole list. -/
theorem getLast?_of_initial {B : List NodePtr} (initial : B <+: A) (nodup : A.Nodup) {p : NodePtr}
    (last : A.getLast? = some p) (inside : p ∈ B) : B.getLast? = some p := by
  obtain ⟨C, rfl⟩ := initial
  rcases List.eq_nil_or_concat C with rfl | ⟨C, t, rfl⟩
  · rwa [List.append_nil] at last
  · rw [List.concat_eq_append, ← List.append_assoc, List.getLast?_concat] at last
    rw [List.concat_eq_append, List.nodup_append] at nodup
    exact absurd (Option.some.inj last).symm (nodup.2.2 p inside t (by simp))

theorem Shape.tail_last (shape : Shape h l A S) {p : NodePtr} (last : A.getLast? = some p) :
    (h.lists l).tail = some p := by
  rw [shape.tail, last, Option.some_or]

/-- While the active nodes stay the same, so does the tail. -/
theorem Settled.pufree (settled : Settled h l) (ok : h.Ok) (list : ThreadListOk h l A S) {e : ElemPtr} (live : h.Live l e)
    (run : pufree h e = some h') : Settled h' l := by
  have member := live.active list.toShape ok
  obtain ⟨S', post, _⟩ := pufree_step ok list live run
  obtain ⟨p, last⟩ : ∃ p, A.getLast? = some p := ⟨_, List.getLast?_eq_some_getLast (List.ne_nil_of_mem member)⟩
  have full := FullBut.freeElementOnNode settled e (getNodeForElement e) h' run
  refine full.mono fun q atTail => ?_
  have same : (h.lists l).tail = some q := atTail
  rw [list.toShape.tail_last last] at same
  exact (post.shape.tail_last last).trans same

/-- A node that has been cleaned up is full or the tail. -/
theorem Settled.cleanupNode (settled : Settled h l) (ok : h.Ok) (list : ThreadListOk h l A S) {p : NodePtr}
    (member : p ∈ A) (run : cleanupNode h p l = some h') : Settled h' l := by
  obtain ⟨B, D, rfl⟩ := List.append_of_mem member
  obtain ⟨h₁, A', S', cleaned, post⟩ := cleanupNode_spec list.toShape (ok.except (some p))
  cases Option.some.inj (cleaned.symm.trans run)
  have full := FullBut.cleanupNode (settled.mono (Set.subset_union_left (t := {p}))) (Or.inr rfl) l h' run
  intro q n atNode out owner active clean
  have inside : q ∈ A' := (post.shape.active q _ (Heap.links_eq atNode) owner).mp active
  have other {t : NodePtr} (last : A'.getLast? = some t) : q ≠ t := fun same => out (same ▸ post.shape.tail_last last)
  by_cases here : q = p
  · rcases post.last with whole | short
    · exact whole _ (by rw [← here]; exact Heap.slots_eq atNode)
    · -- The node is the last of the active ones.
      exfalso
      obtain ⟨D', rfl⟩ | ⟨early, spare⟩ := post.place
      · have empty : D' = [] := by
          have length := short.length_le
          simp only [List.length_append, List.length_cons, List.length_nil] at length
          exact List.length_eq_zero_iff.mp (by omega)
        subst empty
        exact other (by simp) here
      · exact post.shape.notMem_active spare (here ▸ inside)
  · refine full q n atNode (fun exempt => ?_) owner active clean
    rcases exempt with atTail | same
    · -- The old tail is still active, so it is the tail still.
      have last : (B ++ p :: D).getLast? = some q := by
        obtain ⟨t, last⟩ : ∃ t, (B ++ p :: D).getLast? = some t := ⟨_, List.getLast?_eq_some_getLast (by simp)⟩
        rw [last, ← list.toShape.tail_last last]
        exact atTail
      exact other (getLast?_of_initial post.activePrefix list.toShape.nodup_active last inside) rfl
    · exact here same

theorem settled_mapContents {β : Type} {f : ElemPtr → α → β} : Settled (h.mapContents f) l ↔ Settled h l := by
  constructor
  · intro settled p n atNode out owner active clean
    exact settled p _ (Heap.mapContents_eq atNode) out owner active clean
  · intro settled p n atNode out owner active clean
    obtain ⟨m, atNode', rfl⟩ := Heap.node_of_mapContents atNode
    exact settled p m atNode' out owner active clean

theorem Settled.write (settled : Settled h l) (same : h'.skeleton = h.skeleton) : Settled h' l := by
  have before : Settled h.skeleton l := settled_mapContents.mpr settled
  rw [← same] at before
  exact settled_mapContents.mp before

theorem Settled.of_untouched (settled : Settled h l) (untouched : Untouched h h' l) : Settled h' l := by
  intro p n atNode out owner active clean
  refine settled p n ((untouched.nodes p n owner).mp atNode) (fun atTail => out ?_) owner active clean
  exact (congrArg PumaThreadList.tail untouched.list).trans atTail

/-- What is done to other lists leaves this one settled, whatever it writes to elements. -/
theorem Settled.local {β : Type} {g : α → β} {m : ListPtr} (settled : Settled h l) (loc : Local (h.view g) (h'.view g) m)
    (other : l ≠ m) : Settled h' l :=
  settled_mapContents.mp ((settled_mapContents.mpr settled).of_untouched (loc.untouched other))

variable [Inhabited α] {allowed : Allowed α}

theorem ListStep.settled (step : ListStep allowed l h h') (inv : ListInv h l) (settled : Settled h l) : Settled h' l := by
  obtain ⟨ok, _, A, S, list⟩ := inv
  cases step with
  | pumalloc block _ run => exact settled.pumallocOnThreadList block _ run
  | pufree e live run => exact settled.pufree ok list live run
  | write same => exact settled.write same
  | cleanup atNode owner active run =>
    exact settled.cleanupNode ok list ((list.active _ _ (Heap.links_eq atNode) owner).mp active) run
  | recordRunTime elapsed =>
    intro p n atNode out
    refine settled p n atNode fun atTail => out ?_
    rw [Heap.lists_modifyList_self]
    exact atTail

theorem ListRun.settled (safe : ∀ g, allowed g l → AllocSafe g l) (run : ListRun allowed l h h') (inv : ListInv h l)
    (settled : Settled h l) : Settled h' l := by
  induction run with
  | refl => exact settled
  | tail before step ih => exact step.settled (ListRun.inv before safe inv).1 ih

end Steps

section Transfers

variable {h' : Heap α} {source target : ListPtr} {K M Ss At St : List NodePtr} {start stop : NodePtr} {stopIndex : Nat}

/-- A node that is full is full after the transfer, too. -/
theorem Transferred.filling (moved : Transferred h h' source target K M Ss At St start stop stopIndex) {p : NodePtr}
    {n' : PumaNode α} (atNode' : h'.node p = some n') (active : n'.active = true) (clean : n'.dirty = false) :
    ∃ n, h.node p = some n ∧ At.getLast? ≠ some p ∧ (n.Filling n.threadList → n'.numElements = n'.capacity) := by
  rw [moved.maps p] at atNode'
  obtain ⟨n, atNode, rfl⟩ := Option.map_eq_some_iff.mp atNode'
  have same := transferNode_toSlots K M Ss At St start stop stopIndex target p n
  rw [transferNode_active] at active
  have dirty := congrArg Slots.dirty same
  have numElements := congrArg Slots.numElements same
  have capacity := congrArg Slots.capacity same
  refine ⟨n, atNode, fun last => ?_, fun filling => ?_⟩
  · rw [clean, if_pos last] at dirty
    cases dirty
  · rw [clean] at dirty
    refine (numElements.trans (filling rfl active ?_)).trans capacity.symm
    by_contra other
    rw [Bool.not_eq_false] at other
    rw [other, ite_self] at dirty
    cases dirty

/-- The tail of the target, which may have room, becomes dirty; the last of the moved nodes becomes the tail. -/
theorem Transferred.settled (pre : TransferPre h source target K M Ss At St)
    (moved : Transferred h h' source target K M Ss At St start stop stopIndex)
    (post : TransferShapes h h' source target K M Ss At St) (last : M.getLast? = some stop)
    (atSource : Settled h source) (atTarget : Settled h target) : Settled h' source ∧ Settled h' target := by
  have ends (B : List NodePtr) : (B ++ M).getLast? = some stop := by
    rw [List.getLast?_append, last, Option.some_or]
  have sourceTail := pre.sourceShape.tail_last (ends K)
  have targetTail := post.targetShape.tail_last (ends At)
  have inTarget {p : NodePtr} {n' : PumaNode α} (atNode' : h'.node p = some n') (member : p ∈ At ++ M) :
      n'.threadList = target := by
    obtain ⟨m, there, owner⟩ := post.targetShape.node (List.mem_append_left St member)
    rw [Option.some.inj (atNode'.symm.trans there), owner]
  constructor
  · intro p n' atNode' _ owner active clean
    obtain ⟨n, atNode, _, full⟩ := moved.filling atNode' active clean
    have before : n.threadList = source := by
      rcases post.owner p n' atNode' with here | ⟨m, there, same⟩
      · exact absurd (owner.symm.trans here) pre.apart
      · rw [Option.some.inj (atNode.symm.trans there), ← same, owner]
    refine full (before ▸ atSource p n atNode fun tail => ?_)
    have same : stop = p := Option.some.inj (sourceTail.symm.trans tail)
    have moving : p ∈ At ++ M := List.mem_append_right At (List.mem_of_getLast? (same ▸ last))
    exact pre.apart (owner.symm.trans (inTarget atNode' moving))
  · intro p n' atNode' out owner active clean
    obtain ⟨n, atNode, inner, full⟩ := moved.filling atNode' active clean
    have member : p ∈ At ++ M := (post.targetShape.active p _ (Heap.links_eq atNode') owner).mp active
    rcases List.mem_append.mp member with old | new
    · obtain ⟨m, there, before⟩ := pre.targetShape.node (List.mem_append_left St old)
      rw [← Option.some.inj (atNode.symm.trans there)] at before
      refine full (before ▸ atTarget p n atNode fun tail => inner ?_)
      obtain ⟨t, final⟩ : ∃ t, At.getLast? = some t := ⟨_, List.getLast?_eq_some_getLast (List.ne_nil_of_mem old)⟩
      rw [final, ← pre.targetShape.tail_last final]
      exact tail
    · obtain ⟨m, there, before⟩ := pre.sourceShape.node (List.mem_append_left Ss (List.mem_append_right K new))
      rw [← Option.some.inj (atNode.symm.trans there)] at before
      refine full (before ▸ atSource p n atNode fun tail => out ?_)
      exact targetTail.trans (sourceTail.symm.trans tail)

variable {lists : List ListPtr}

theorem settled_balanceable (lists : List ListPtr) :
    Balanceable lists fun h : Heap α => SetOk h lists ∧ ∀ l ∈ lists, Settled h l where
  active h kept := kept.1.active
  transfer h source target n kept apart inSource inTarget nonempty most := by
    obtain ⟨h', run, set, _, atSource, atTarget, others⟩ := kept.1.transfer apart inSource inTarget nonempty most
    obtain ⟨K, M, Ss, At, St, pre, length⟩ := kept.1.transferPre apart inSource inTarget nonempty most
    obtain ⟨h₁, start, stop, stopIndex, run₁, first, last, moved⟩ := transferNNodes_run pre
    obtain ⟨h₂, run₂, post⟩ := transferNNodes_shapes pre
    rw [length, run] at run₁ run₂
    cases run₁
    cases run₂
    obtain ⟨settled, settled'⟩ := moved.settled pre post last (kept.2 source inSource) (kept.2 target inTarget)
    refine ⟨h', run, ⟨set, fun l member => ?_⟩, atSource, atTarget, fun m notSource notTarget => by
      rw [others m notSource notTarget]⟩
    by_cases isSource : l = source
    · exact isSource ▸ settled
    · by_cases isTarget : l = target
      · exact isTarget ▸ settled'
      · exact (kept.2 l member).of_untouched (post.others l isSource isTarget)

theorem settled_balanceThreadLoad {set : PumaSet} (setOk : SetOk h set.tidToThreadList)
    (settled : ∀ l ∈ set.tidToThreadList, Settled h l) (threads : set.tidToThreadList ≠ [])
    (nodup : set.domains.flatten.Nodup) (tlAvgNodes : ListPtr → Nat → Nat) :
    Ensures (balanceThreadLoad set h tlAvgNodes) fun h' =>
      SetOk h' set.tidToThreadList ∧ ∀ l ∈ set.tidToThreadList, Settled h' l := by
  unfold Puma.balanceThreadLoad
  split
  · obtain ⟨s, finished, run, inv, _⟩ := autobalanceThreadLoad_spec (settled_balanceable _) ⟨setOk, settled⟩ threads nodup
      tlAvgNodes
    rw [run]
    exact Ensures.some inv.good
  · exact Ensures.some ⟨setOk, settled⟩

end Transfers

section Runs

variable [Inhabited α] {allowed : Allowed α} {h' : Heap α} {lists : List ListPtr}

theorem ListRun.all_settled (safe : ∀ g, allowed g l → AllocSafe g l) (setOk : SetOk h lists) (member : l ∈ lists)
    (run : ListRun allowed l h h') (settled : ∀ m ∈ lists, Settled h m) : ∀ m ∈ lists, Settled h' m := by
  intro m inLists
  by_cases same : m = l
  · subst same
    exact run.settled safe (setOk.inv member) (settled m inLists)
  · exact (settled m inLists).local (run.inv safe (setOk.inv member)).2 same

theorem settled_runKernelPasses {set : PumaSet} {kernels : List (Nat → Kernel σ α)} {elapsed : Nat → Nat → ℚ}
    {turns : Nat} {schedule : List Nat} {done : Nat → Nat} {w : World σ α} (safe : ∀ g l, allowed g l → AllocSafe g l)
    (respects : ∀ kernel ∈ kernels, ∀ (thread : Nat) (l : ListPtr), set.tidToThreadList[thread]? = some l →
      (kernel thread).Respects allowed l) (setOk : SetOk w.heap set.tidToThreadList)
    (settled : ∀ l ∈ set.tidToThreadList, Settled w.heap l) :
    Ensures (runKernelPasses set kernels elapsed turns schedule done w) fun r =>
      ∀ l ∈ set.tidToThreadList, Settled r.1.heap l := by
  induction schedule generalizing done w with
  | nil => exact Ensures.some settled
  | cons thread schedule ih =>
    simp only [Puma.runKernelPasses, Option.bind_eq_bind]
    refine Ensures.read fun tl atThread => Ensures.read fun kernel atKernel => Ensures.read fun r pass => ?_
    have member := List.mem_of_getElem? atThread
    have run := runKernelThread_run (respects kernel (List.mem_of_getElem? atKernel) thread tl atThread)
      (fun g => safe g tl) (setOk.inv member) pass
    exact Ensures.bind (ih (setOk.run member (fun g => safe g tl) run)
      (run.all_settled (fun g => safe g tl) setOk member settled)) fun r₂ settled₂ => Ensures.some settled₂

theorem SetStep.settled {set : CreatedSet} (safe : ∀ g l, allowed g l → AllocSafe g l)
    (setOk : SetOk h set.tidToThreadList) (step : SetStep set.toPumaSet allowed h h') (settled : ∀ l ∈ set.tidToThreadList, Settled h l) :
    ∀ l ∈ set.tidToThreadList, Settled h' l := by
  have own {l : ListPtr} (member : l ∈ set.tidToThreadList) (step : ListStep allowed l h h') :
      ∀ m ∈ set.tidToThreadList, Settled h' m :=
    ListRun.all_settled (fun g => safe g l) setOk member (ReflTransGen.single step) settled
  cases step with
  | pumalloc thread block here run =>
    obtain ⟨l, atThread, run⟩ := Option.bind_eq_some_iff.mp run
    exact own (List.mem_of_getElem? atThread) (.pumalloc block (here l atThread) run)
  | pumallocManualBalancing balData block here run =>
    obtain ⟨l, atThread, run⟩ := Option.bind_eq_some_iff.mp run
    exact own (List.mem_of_getElem? atThread) (.pumalloc block (here l atThread) run)
  | pufree e live run => exact own (setOk.member live) (.pufree e live run)
  | write same => exact fun l member => (settled l member).write same
  | runKernelList kernels oracle respects run =>
    obtain ⟨h₁, balanced, passes⟩ := Option.bind_eq_some_iff.mp run
    obtain ⟨setOk₁, settled₁⟩ := settled_balanceThreadLoad setOk settled set.threads set.cpus oracle.tlAvgNodes h₁ balanced
    exact settled_runKernelPasses safe respects setOk₁ settled₁ _ passes

/-- In every reachable state the holes of a list are in its dirty nodes and in its tail. -/
theorem Reachable.settled {set : CreatedSet} (safe : ∀ g l, allowed g l → AllocSafe g l)
    (reachable : Reachable set allowed h) : ∀ l ∈ set.tidToThreadList, Settled h l := by
  obtain ⟨elementSize, nodeSize, capacity, run⟩ := reachable
  induction run with
  | refl =>
    intro l _ p n atNode
    cases atNode
  | tail before step ih => exact step.settled safe (Reachable.ok safe ⟨elementSize, nodeSize, capacity, before⟩) ih

end Runs

end Puma
