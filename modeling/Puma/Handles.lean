import Puma.ThreadRuns

namespace Puma

variable {α : Type}

/-- Unlinking a node touches the links of its neighbours only. -/
theorem freePumaNode_node {h h' : Heap α} {x : NodePtr} {m : PumaNode α} (atNode : h.node x = some m)
    (run : freePumaNode h x = some h') :
    (∀ l, (h'.lists l).tail = (h.lists l).tail ∨ (h.lists l).tail = some x) ∧
      (∀ l, h'.nodeSize = h.nodeSize ∧ (h'.lists l).elementSize = (h.lists l).elementSize) ∧
      ∀ q, h'.node q = if q = x then none else (h.node q).map fun o => { o with
        next := if m.prev = some q then m.next else o.next
        prev := if m.next = some q then m.prev else o.prev } := by
  simp only [freePumaNode, atNode, Option.bind_eq_bind, Option.bind_some] at run
  obtain ⟨h₁, first, run⟩ := Option.bind_eq_some_iff.mp run
  obtain ⟨h₂, second, run⟩ := Option.bind_eq_some_iff.mp run
  cases run
  obtain ⟨lists₁, size₁, nodes₁⟩ := Heap.modifyNodeIf_node first
  obtain ⟨lists₂, size₂, nodes₂⟩ := Heap.modifyNodeIf_node second
  refine ⟨fun l => ?_, fun l => ⟨by rw [Heap.nodeSize_nufreeAligned, size₂, size₁]; rfl, ?_⟩, fun q => ?_⟩
  · rw [Heap.lists_nufreeAligned, lists₂, lists₁]
    by_cases here : l = m.threadList
    · subst here
      rw [Heap.lists_modifyList_self]
      by_cases atTail : (h.lists m.threadList).tail = some x
      · exact Or.inr atTail
      · exact Or.inl (if_neg atTail)
    · rw [Heap.lists_modifyList_ne _ _ here]
      exact Or.inl rfl
  · rw [Heap.lists_nufreeAligned, lists₂, lists₁]
    by_cases here : l = m.threadList
    · subst here
      rw [Heap.lists_modifyList_self]
    · rw [Heap.lists_modifyList_ne _ _ here]
  · rw [Heap.node_nufreeAligned, nodes₂, nodes₁, Heap.node_modifyList]
    split
    · rfl
    · rw [Option.map_map]
      refine congrArg (fun f => (h.node q).map f) (funext fun o => ?_)
      dsimp only [Function.comp]
      split <;> split <;> rfl

/-- What a list needs for new nodes stays. -/
def SameSizes (h h' : Heap α) (l : ListPtr) : Prop :=
  h'.nodeSize = h.nodeSize ∧ (h'.lists l).elementSize = (h.lists l).elementSize

/-- A caller's view of a list: the elements it holds are live, nothing stands behind the tail, whose
number is the highest, and links forward are matched by links back. The chain may have gaps. -/
structure HandleInv (h : Heap α) (l : ListPtr) (held : Finset ElemPtr) : Prop where
  ok : h.Ok
  capacity : 0 < h.capacityFor (h.lists l).elementSize
  held : ∀ e ∈ held, (h.read e).isSome
  empty : (h.lists l).tail = none → ∀ p, h.node p = none
  tail : ∀ t n, (h.lists l).tail = some t → h.node t = some n → n.active = true ∧ n.next = none
  top : ∀ t n p m, (h.lists l).tail = some t → h.node t = some n → h.node p = some m → p ≠ t → m.index < n.index
  linked : ∀ p n x, h.node p = some n → n.next = some x → ∃ m, h.node x = some m ∧ m.prev = some p

/-- The bytes stored in a slot, live or not. -/
def Heap.bytes (h : Heap α) (e : ElemPtr) : Option α := (h.node e.node).map fun n => n.elements e.slot

theorem Heap.live_iff {h : Heap α} {e : ElemPtr} {n : PumaNode α} (atNode : h.node e.node = some n) :
    (h.read e).isSome ↔ e.slot ∈ n.toSlots.liveSlots := by
  rw [Heap.read_eq (Heap.slots_eq atNode), Slots.read_isSome]

theorem Heap.node_of_live {h : Heap α} {e : ElemPtr} (live : (h.read e).isSome) :
    ∃ n, h.node e.node = some n ∧ e.slot ∈ n.toSlots.liveSlots := by
  cases atNode : h.node e.node with
  | none => simp [Heap.read, Heap.slots, atNode] at live
  | some n => exact ⟨n, rfl, (Heap.live_iff atNode).mp live⟩

theorem HandleInv.start {l : ListPtr} {elementSize nodeSize : Nat}
    (capacity : 0 < (newThreadList l elementSize nodeSize : Heap α).capacityFor elementSize) :
    HandleInv (newThreadList l elementSize nodeSize : Heap α) l ∅ :=
  ⟨fun p n atNode => (by cases atNode), (newThreadList_inv capacity).2.1, fun e member => (by cases member),
    fun _ _ => rfl, fun t n _ atNode => (by cases atNode), fun t n p m _ atNode => (by cases atNode),
    fun p n x atNode => (by cases atNode)⟩

section Slots

variable {h h' : Heap α} {l : ListPtr} {held held' : Finset ElemPtr} {p : NodePtr} {n : PumaNode α}

/-- A store to the slots of a node and to the counters of a list. -/
theorem HandleInv.setSlots (inv : HandleInv h l held) (atNode : h.node p = some n) {s : Slots α} (fine : s.Ok)
    (idle : n.active = false → s.liveSlots = ∅)
    (still : ∀ e ∈ held', (e.node = p ∧ e.slot ∈ s.liveSlots) ∨ (e.node ≠ p ∧ e ∈ held)) {m : ListPtr}
    {f : PumaThreadList → PumaThreadList} (tail : (f (h.lists m)).tail = (h.lists m).tail)
    (size : (f (h.lists m)).elementSize = (h.lists m).elementSize) :
    HandleInv ((h.setNode p { n with toSlots := s }).modifyList m f) l held' := by
  generalize later : (h.setNode p { n with toSlots := s }).modifyList m f = h'
  have node (q : NodePtr) : h'.node q = if q = p then some { n with toSlots := s } else h.node q := by
    rw [← later, Heap.node_modifyList, Heap.node_setNode]
  have atTail : (h'.lists l).tail = (h.lists l).tail ∧ (h'.lists l).elementSize = (h.lists l).elementSize := by
    rw [← later]
    by_cases here : l = m
    · subst here
      rw [Heap.lists_modifyList_self]
      exact ⟨tail, size⟩
    · rw [Heap.lists_modifyList_ne _ _ here]
      exact ⟨rfl, rfl⟩
  have links {q : NodePtr} {k : PumaNode α} (atQ : h'.node q = some k) :
      ∃ k₀, h.node q = some k₀ ∧ k.toLinks = k₀.toLinks := by
    rw [node] at atQ
    split at atQ
    · rename_i same
      rw [← Option.some.inj atQ, same]
      exact ⟨n, atNode, rfl⟩
    · exact ⟨k, atQ, rfl⟩
  refine ⟨fun q k atQ => ?_, ?_, fun e member => ?_, fun missing => ?_, fun t k tailT atT => ?_,
    fun t k q m tailT atT atQ apart => ?_, fun q k y atQ after => ?_⟩
  · rw [node] at atQ
    split at atQ
    · rw [← Option.some.inj atQ]
      exact ⟨fine, idle⟩
    · exact inv.ok q k atQ
  · rw [atTail.2, ← later]
    exact inv.capacity
  · rcases still e member with ⟨same, live⟩ | ⟨other, old⟩
    · exact (Heap.live_iff (n := { n with toSlots := s }) (by rw [node, if_pos same])).mpr live
    · rw [Heap.read_congr (h := h) (by rw [Heap.slots, Heap.slots, node, if_neg other])]
      exact inv.held e old
  · rw [atTail.1] at missing
    have gone := inv.empty missing p
    rw [atNode] at gone
    cases gone
  · obtain ⟨k₀, atT₀, same⟩ := links atT
    rw [same]
    exact inv.tail t k₀ (atTail.1 ▸ tailT) atT₀
  · obtain ⟨k₀, atT₀, sameT⟩ := links atT
    obtain ⟨m₀, atQ₀, sameQ⟩ := links atQ
    rw [sameT, sameQ]
    exact inv.top t k₀ q m₀ (atTail.1 ▸ tailT) atT₀ atQ₀ apart
  · obtain ⟨k₀, atQ₀, same⟩ := links atQ
    rw [same] at after
    obtain ⟨m₀, atY, back⟩ := inv.linked q k₀ y atQ₀ after
    by_cases here : y = p
    · subst here
      rw [Option.some.inj (atY.symm.trans atNode)] at back
      exact ⟨{ n with toSlots := s }, by rw [node, if_pos rfl], back⟩
    · exact ⟨m₀, by rw [node, if_neg here, atY], back⟩

/-- The held elements of a node are among its live slots. -/
theorem HandleInv.still (inv : HandleInv h l held) (atNode : h.node p = some n) :
    ∀ e ∈ held, (e.node = p ∧ e.slot ∈ n.toSlots.liveSlots) ∨ (e.node ≠ p ∧ e ∈ held) := by
  intro e member
  by_cases same : e.node = p
  · obtain ⟨k, atE, live⟩ := Heap.node_of_live (inv.held e member)
    rw [same] at atE
    cases Option.some.inj (atNode.symm.trans atE)
    exact Or.inl ⟨same, live⟩
  · exact Or.inr ⟨same, member⟩

/-- The spare node `x`, whose contents were `m`, is gone from behind `p`. -/
structure SpareGone (h h' : Heap α) (l : ListPtr) (p x : NodePtr) (m : PumaNode α) : Prop where
  atSpare : h.node x = some m
  off : m.active = false
  back : m.prev = some p
  gone : h'.node x = none
  node : ∀ q, q ≠ x → h'.node q = (h.node q).map fun o => { o with
    next := if q = p then none else o.next
    prev := if m.next = some q then some p else o.prev }
  tail : (h'.lists l).tail = (h.lists l).tail
  sizes : SameSizes h h' l

/-- The end of `_freeElementOnNode` on an active node does nothing, or releases the spare node behind it. -/
theorem HandleInv.releaseSpareNode_cases (inv : HandleInv h l held) (atNode : h.node p = some n)
    (on : n.active = true) (run : Puma.releaseSpareNode h p = some h') :
    h' = h ∨ ∃ x m, n.next = some x ∧ SpareGone h h' l p x m := by
  simp only [Puma.releaseSpareNode, atNode, Option.bind_eq_bind, Option.bind_some] at run
  split at run
  · split at run
    · cases run
      exact Or.inl rfl
    · rename_i x behind
      obtain ⟨m, atSpare, run⟩ := Option.bind_eq_some_iff.mp run
      split at run
      · cases run
        exact Or.inl rfl
      · rename_i active
        have off : m.active = false := by simpa using active
        obtain ⟨h₁, freed, run⟩ := Option.bind_eq_some_iff.mp run
        obtain ⟨k, atNode₁, rfl⟩ := Option.map_eq_some_iff.mp run
        obtain ⟨m', atSpare', back⟩ := inv.linked p n x atNode behind
        rw [Option.some.inj (atSpare'.symm.trans atSpare)] at back
        obtain ⟨tails, sizes, nodes⟩ := freePumaNode_node atSpare freed
        have apart : p ≠ x := fun same => by
          subst same
          rw [Option.some.inj (atNode.symm.trans atSpare), off] at on
          cases on
        have notTail : (h.lists l).tail ≠ some x := fun same => by
          have lit := (inv.tail x m same atSpare).1
          rw [off] at lit
          cases lit
        refine Or.inr ⟨x, m, behind, atSpare, off, back, ?_, fun q other => ?_, (tails l).resolve_right notTail, ?_⟩
        · rw [Heap.node_setNode_ne _ _ apart.symm, nodes, if_pos rfl]
        · rw [Heap.node_setNode]
          split
          · rename_i same
            rw [nodes, if_neg apart, atNode, Option.map_some] at atNode₁
            rw [same, atNode, Option.map_some, ← Option.some.inj atNode₁, back]
          · rename_i same
            have away : ¬ some p = some q := fun equal => same (Option.some.inj equal).symm
            rw [nodes, if_neg other, back]
            simp only [if_neg away]
        · have stay := sizes l
          exact stay
  · cases run
    exact Or.inl rfl

theorem SpareGone.old {x : NodePtr} {m : PumaNode α} (released : SpareGone h h' l p x m) {q : NodePtr}
    {o' : PumaNode α} (atQ : h'.node q = some o') :
    ∃ o, q ≠ x ∧ h.node q = some o ∧ o'.toSlots = o.toSlots ∧ o'.active = o.active ∧ o'.index = o.index ∧
      o'.next = (if q = p then none else o.next) ∧ o'.prev = if m.next = some q then some p else o.prev := by
  have other : q ≠ x := fun same => by
    rw [same, released.gone] at atQ
    cases atQ
  rw [released.node q other] at atQ
  obtain ⟨o, atQ₀, rfl⟩ := Option.map_eq_some_iff.mp atQ
  exact ⟨o, other, atQ₀, rfl, rfl, rfl, rfl, rfl⟩

/-- No held element stood in the spare node. -/
theorem SpareGone.away {x : NodePtr} {m : PumaNode α} (released : SpareGone h h' l p x m) (inv : HandleInv h l held)
    {e : ElemPtr} (member : e ∈ held) : e.node ≠ x := fun same => by
  obtain ⟨o, atE, live⟩ := Heap.node_of_live (inv.held e member)
  rw [same] at atE
  cases Option.some.inj (atE.symm.trans released.atSpare)
  rw [(inv.ok x m released.atSpare).2 released.off] at live
  cases live

theorem SpareGone.handleInv {x : NodePtr} {m : PumaNode α} (released : SpareGone h h' l p x m)
    (inv : HandleInv h l held) (atNode : h.node p = some n) (behind : n.next = some x) : HandleInv h' l held where
  ok q o' atQ := by
    obtain ⟨o, _, atQ₀, slots, active, _⟩ := released.old atQ
    rw [slots, active]
    exact inv.ok q o atQ₀
  capacity := by
    have := inv.capacity
    rw [Heap.capacityFor] at this ⊢
    rw [released.sizes.1, released.sizes.2]
    exact this
  held e member := by
    rw [Heap.read_congr (h := h) (by
      rw [Heap.slots, Heap.slots, released.node e.node (released.away inv member), Option.map_map]
      rfl)]
    exact inv.held e member
  empty missing := by
    have vanished := inv.empty (released.tail ▸ missing) p
    rw [atNode] at vanished
    cases vanished
  tail t o' tailT atT := by
    obtain ⟨o, _, atT₀, _, active, _, next, _⟩ := released.old atT
    rw [released.tail] at tailT
    have different : t ≠ p := fun same => by
      have last := (inv.tail p n (same ▸ tailT) atNode).2
      rw [behind] at last
      cases last
    rw [active, next, if_neg different]
    exact inv.tail t o tailT atT₀
  top t o' q u tailT atT atQ other := by
    obtain ⟨o, _, atT₀, _, _, indexT, _⟩ := released.old atT
    obtain ⟨u₀, _, atQ₀, _, _, indexQ, _⟩ := released.old atQ
    rw [indexT, indexQ]
    exact inv.top t o q u₀ (released.tail ▸ tailT) atT₀ atQ₀ other
  linked q o' y atQ after := by
    obtain ⟨o, other, atQ₀, _, _, _, next, _⟩ := released.old atQ
    rw [next] at after
    split at after
    · cases after
    rename_i notHere
    obtain ⟨u, atY, backY⟩ := inv.linked q o y atQ₀ after
    have notX : y ≠ x := fun same => by
      subst same
      rw [Option.some.inj (atY.symm.trans released.atSpare), released.back] at backY
      exact notHere (Option.some.inj backY).symm
    have notNext : m.next ≠ some y := fun same => by
      obtain ⟨u', atY', backY'⟩ := inv.linked x m y released.atSpare same
      rw [Option.some.inj (atY'.symm.trans atY), backY] at backY'
      exact other (Option.some.inj backY')
    refine ⟨_, by rw [released.node y notX, atY]; rfl, ?_⟩
    simp only [if_neg notNext]
    exact backY

/-- The end of `_freeElementOnNode` on an active node. -/
theorem HandleInv.releaseSpareNode (inv : HandleInv h l held) (atNode : h.node p = some n) (on : n.active = true)
    (run : Puma.releaseSpareNode h p = some h') :
    HandleInv h' l held ∧ ∀ e ∈ held, h'.bytes e = h.bytes e := by
  rcases inv.releaseSpareNode_cases atNode on run with rfl | ⟨x, m, behind, released⟩
  · exact ⟨inv, fun _ _ => rfl⟩
  · refine ⟨released.handleInv inv atNode behind, fun e member => ?_⟩
    rw [Heap.bytes, Heap.bytes, released.node e.node (released.away inv member), Option.map_map]
    rfl

/-- `pufree` of a held element changes no byte of a held element. -/
theorem HandleInv.pufree (inv : HandleInv h l held) {e : ElemPtr} (member : e ∈ held)
    (run : Puma.pufree h e = some h') :
    HandleInv h' l (held.erase e) ∧ ∀ o ∈ held, o ≠ e → h'.bytes o = h.bytes o := by
  obtain ⟨n, atNode, live⟩ := Heap.node_of_live (inv.held e member)
  obtain ⟨fine, idle⟩ := inv.ok e.node n atNode
  have on : n.active = true := by
    by_contra off
    rw [idle (by simpa using off)] at live
    cases live
  simp only [Puma.pufree, freeElementOnNode, getNodeForElement, atNode, Option.bind_eq_bind, Option.bind_some] at run
  have marked : HandleInv ((h.setNode e.node { n with toSlots := n.toSlots.free e.slot }).modifyList n.threadList
      fun tl => { tl with numElements := sizeSub tl.numElements 1 }) l (held.erase e) := by
    refine inv.setSlots atNode (fine.free live) (fun off => by rw [off] at on; cases on) (fun o inside => ?_) rfl rfl
    obtain ⟨other, old⟩ := Finset.mem_erase.mp inside
    by_cases same : o.node = e.node
    · obtain ⟨k, atO, liveO⟩ := Heap.node_of_live (inv.held o old)
      rw [same] at atO
      cases Option.some.inj (atO.symm.trans atNode)
      refine Or.inl ⟨same, ?_⟩
      rw [fine.liveSlots_free (Slots.lt_capacity live), Finset.mem_erase]
      exact ⟨fun slot => other (by cases o; cases e; simp_all), liveO⟩
    · exact Or.inr ⟨same, old⟩
  obtain ⟨inv', kept⟩ := marked.releaseSpareNode (n := { n with toSlots := n.toSlots.free e.slot })
    (Heap.node_setNode_self ..) on run
  refine ⟨inv', fun o old other => (kept o (Finset.mem_erase.mpr ⟨other, old⟩)).trans ?_⟩
  rw [Heap.bytes, Heap.bytes, Heap.node_modifyList, Heap.node_setNode]
  split
  · rename_i same
    rw [same, atNode]
    rfl
  · rfl

end Slots

/-- Some empty nodes have become inactive. -/
def Idled (h h' : Heap α) : Prop :=
  ∀ p, (h.node p = none ∧ h'.node p = none) ∨ ∃ n a, h.node p = some n ∧ h'.node p = some { n with active := a } ∧
    (a = n.active ∨ n.toSlots.liveSlots = ∅)

theorem Idled.refl (h : Heap α) : Idled h h := by
  intro p
  cases atNode : h.node p with
  | none => exact Or.inl ⟨rfl, rfl⟩
  | some n => exact Or.inr ⟨n, n.active, rfl, rfl, Or.inl rfl⟩

theorem Idled.trans {h h' h'' : Heap α} (first : Idled h h') (second : Idled h' h'') : Idled h h'' := by
  intro p
  rcases first p with ⟨missing, missing'⟩ | ⟨n, a, atNode, atNode', idle⟩
  · rcases second p with ⟨_, missing''⟩ | ⟨n', b, atNode', _⟩
    · exact Or.inl ⟨missing, missing''⟩
    · rw [missing'] at atNode'
      cases atNode'
  · rcases second p with ⟨missing', _⟩ | ⟨n', b, same, atNode'', idle'⟩
    · rw [missing'] at atNode'
      cases atNode'
    · cases Option.some.inj (atNode'.symm.trans same)
      refine Or.inr ⟨n, b, atNode, atNode'', ?_⟩
      rcases idle' with rfl | vacant
      · exact idle
      · exact Or.inr vacant

theorem Idled.node {h h' : Heap α} (idled : Idled h h') {p : NodePtr} {n : PumaNode α} (atNode : h.node p = some n) :
    ∃ a, h'.node p = some { n with active := a } ∧ (a = n.active ∨ n.toSlots.liveSlots = ∅) := by
  rcases idled p with ⟨missing, _⟩ | ⟨m, a, same, atNode', idle⟩
  · rw [missing] at atNode
    cases atNode
  · cases Option.some.inj (same.symm.trans atNode)
    exact ⟨a, atNode', idle⟩

/-- `_getLastElement` deactivates empty nodes, and returns the last live slot of a node. -/
theorem getLastElementLoop_idled {h h' : Heap α} {l : ListPtr} {p₀ : Option NodePtr} (ok : h.OkExcept p₀) {turns : Nat}
    {tail : Option NodePtr} {r : Option ElemPtr} (run : getLastElementLoop turns h l tail = some (h', r)) :
    Idled h h' ∧ SameSizes h h' l ∧ ∀ e, r = some e → ∃ n, h.node e.node = some n ∧
      pumaLastIndexOfValue n.freeMask maskNotFree = some e.slot := by
  induction turns generalizing h tail with
  | zero =>
    cases tail with
    | none =>
      cases run
      exact ⟨Idled.refl _, ⟨rfl, rfl⟩, fun e same => by cases same⟩
    | some t => cases run
  | succ turns ih =>
    cases tail with
    | none =>
      cases run
      exact ⟨Idled.refl _, ⟨rfl, rfl⟩, fun e same => by cases same⟩
    | some t =>
      simp only [getLastElementLoop, Option.bind_eq_bind] at run
      obtain ⟨n, atNode, run⟩ := Option.bind_eq_some_iff.mp run
      split at run
      · split at run
        · rename_i absent
          obtain ⟨counted, _, _⟩ := ok t n atNode
          have vacant : n.toSlots.liveSlots = ∅ := by
            refine Finset.eq_empty_of_forall_notMem fun i live => ?_
            obtain ⟨within, held⟩ := Slots.mem_liveSlots.mp live
            exact pumaLastIndexOfValue_eq_none (Or.inl rfl) absent (counted.bits.symm ▸ within) held
          have nodes : (deactivateTail h l t n).node = (h.setNode t { n with active := false }).node := by
            unfold deactivateTail
            dsimp only
            cases n.prev <;> rfl
          have idled : Idled h (deactivateTail h l t n) := by
            intro p
            rw [nodes, Heap.node_setNode]
            by_cases same : p = t
            · exact Or.inr ⟨n, false, same ▸ atNode, if_pos same, Or.inr vacant⟩
            · rw [if_neg same]
              exact Idled.refl h p
          have ok' : (deactivateTail h l t n).OkExcept p₀ := by
            intro p m atP
            rw [nodes, Heap.node_setNode] at atP
            split at atP
            · rename_i same
              rw [← Option.some.inj atP, same]
              obtain ⟨counted, fine, _⟩ := ok t n atNode
              exact ⟨counted, fine, fun _ => vacant⟩
            · exact ok p m atP
          have sizes : SameSizes h (deactivateTail h l t n) l := by
            unfold deactivateTail
            dsimp only
            cases n.prev with
            | none => exact ⟨rfl, by rw [Heap.lists_setNode, Heap.lists_modifyList_self]⟩
            | some q =>
              exact ⟨rfl, by rw [Heap.lists_modifyList_self, Heap.lists_setNode, Heap.lists_modifyList_self]⟩
          obtain ⟨rest, sizes', last⟩ := ih ok' run
          refine ⟨idled.trans rest, ⟨sizes'.1.trans sizes.1, sizes'.2.trans sizes.2⟩, fun e same => ?_⟩
          obtain ⟨m, atE, found⟩ := last e same
          rcases idled e.node with ⟨_, missing⟩ | ⟨k, a, atK, atK', _⟩
          · rw [missing] at atE
            cases atE
          · rw [← Option.some.inj (atK'.symm.trans atE)] at found
            exact ⟨k, atK, found⟩
        · rename_i i found
          cases run
          refine ⟨Idled.refl _, ⟨rfl, rfl⟩, fun e same => ?_⟩
          cases same
          exact ⟨n, atNode, found⟩
      · cases run
        exact ⟨Idled.refl _, ⟨rfl, rfl⟩, fun e same => by cases same⟩

/-- Cleaning up a compact node with the highest number moves nothing. -/
theorem cleanupNode_compact {h h' : Heap α} {l : ListPtr} {p : NodePtr} {n : PumaNode α} (ok : h.OkExcept (some p))
    (atNode : h.node p = some n) (compact : n.toSlots.liveSlots = Finset.range n.numElements)
    (room : n.numElements < n.capacity) (top : ∀ q m, h.node q = some m → q ≠ p → m.index < n.index)
    (run : cleanupNode h p l = some h') :
    ∃ h₁ m, Idled h h₁ ∧ SameSizes h h₁ l ∧ h₁.node p = some m ∧
      h' = h₁.setNode p { m with dirty := false, firstKnownFree := m.numElements } := by
  obtain ⟨counted, _, _⟩ := ok p n atNode
  simp only [cleanupNode, atNode, Option.bind_eq_bind, Option.bind_some] at run
  obtain ⟨h₁, loop, run⟩ := Option.bind_eq_some_iff.mp run
  obtain ⟨m, atNode₁, rfl⟩ := Option.map_eq_some_iff.mp run
  suffices both : Idled h h₁ ∧ SameSizes h h₁ l by exact ⟨h₁, m, both.1, both.2, atNode₁, rfl⟩
  simp only [cleanupNodeLoop, Option.bind_eq_bind] at loop
  obtain ⟨⟨h₂, moved⟩, turn, loop⟩ := Option.bind_eq_some_iff.mp loop
  simp only [cleanupTurn, atNode, room, if_true, Option.bind_eq_bind, Option.bind_some] at turn
  obtain ⟨⟨h₃, last⟩, found, turn⟩ := Option.bind_eq_some_iff.mp turn
  obtain ⟨idled, sizes, source⟩ := getLastElementLoop_idled ok found
  have stop : moved = none ∧ h₂ = h₃ := by
    cases last with
    | none =>
      cases turn
      exact ⟨rfl, rfl⟩
    | some e =>
      cases hole : pumaFirstIndexOfValue n.freeMask maskFree with
      | none =>
        rw [hole] at turn
        cases turn
        exact ⟨rfl, rfl⟩
      | some i =>
        obtain ⟨k, atE, lastLive⟩ := source e rfl
        obtain ⟨a, atE₃, _⟩ := idled.node atE
        obtain ⟨b, atP₃, _⟩ := idled.node atNode
        have behind : k.index < n.index ∨ k.index = n.index ∧ (getElement p i).ge e = true := by
          by_cases same : e.node = p
          · rw [same] at atE
            cases Option.some.inj (atE.symm.trans atNode)
            refine Or.inr ⟨rfl, ?_⟩
            obtain ⟨within, held, _⟩ := pumaLastIndexOfValue_eq_some (Or.inl rfl) lastLive
            obtain ⟨withinI, free, _⟩ := pumaFirstIndexOfValue_eq_some (Or.inr rfl) hole
            rw [counted.bits] at within withinI
            have low : e.slot ∈ n.toSlots.liveSlots := Slots.mem_liveSlots.mpr ⟨within, held⟩
            have high : i ∉ n.toSlots.liveSlots := (Slots.notMem_liveSlots withinI).mpr free
            rw [compact, Finset.mem_range] at low high
            have order : e.slot ≤ i := by omega
            simp [ElemPtr.ge, getElement, same, order]
          · exact Or.inl (top e.node k atE same)
        simp only [hole, getNodeForElement, atE₃, atP₃, Option.bind_some, if_pos behind, Option.pure_def,
          Option.some.injEq, Prod.mk.injEq] at turn
        exact ⟨turn.2.symm, turn.1.symm⟩
  obtain ⟨rfl, rfl⟩ := stop
  cases loop
  exact ⟨idled, sizes⟩

section Alloc

variable {h h' : Heap α} {l : ListPtr} {held : Finset ElemPtr} {r : NodePtr} {n : PumaNode α} {i : Nat}

/-- The slot of the tail that has been chosen becomes an element; empty nodes have become inactive. -/
theorem HandleInv.alloc (inv : HandleInv h l held) (atTail : (h.lists l).tail = some r) (atNode : h.node r = some n)
    {s : Slots α} (fine : s.Ok) (dead : i ∉ n.toSlots.liveSlots) (live : s.liveSlots = insert i n.toSlots.liveSlots)
    (bytes : s.elements = n.elements) (atNode' : h'.node r = some { n with active := true, toSlots := s })
    (others : ∀ q, q ≠ r → (h.node q = none ∧ h'.node q = none) ∨ ∃ k a, h.node q = some k ∧
      h'.node q = some { k with active := a } ∧ (a = k.active ∨ k.toSlots.liveSlots = ∅))
    (atTail' : (h'.lists l).tail = some r) (sizes : SameSizes h h' l) :
    HandleInv h' l (insert ⟨r, i⟩ held) ∧ ⟨r, i⟩ ∉ held ∧ ∀ e ∈ held, h'.bytes e = h.bytes e := by
  have back {q : NodePtr} {k' : PumaNode α} (other : q ≠ r) (atQ : h'.node q = some k') :
      ∃ k a, h.node q = some k ∧ k' = { k with active := a } ∧ (a = k.active ∨ k.toSlots.liveSlots = ∅) := by
    rcases others q other with ⟨_, missing⟩ | ⟨k, a, atQ₀, atQ', idle⟩
    · rw [missing] at atQ
      cases atQ
    · exact ⟨k, a, atQ₀, Option.some.inj (atQ.symm.trans atQ'), idle⟩
  have links {q : NodePtr} {k' : PumaNode α} (atQ : h'.node q = some k') : ∃ k, h.node q = some k ∧
      k'.next = k.next ∧ k'.prev = k.prev ∧ k'.index = k.index := by
    by_cases same : q = r
    · rw [same, atNode'] at atQ
      rw [← Option.some.inj atQ, same]
      exact ⟨n, atNode, rfl, rfl, rfl⟩
    · obtain ⟨k, a, atQ₀, rfl, _⟩ := back same atQ
      exact ⟨k, atQ₀, rfl, rfl, rfl⟩
  have forth {q : NodePtr} {k : PumaNode α} (atQ : h.node q = some k) : ∃ k', h'.node q = some k' ∧ k'.prev = k.prev := by
    by_cases same : q = r
    · rw [same, atNode] at atQ
      rw [← Option.some.inj atQ, same]
      exact ⟨_, atNode', rfl⟩
    · rcases others q same with ⟨missing, _⟩ | ⟨k₀, a, atQ₀, atQ', _⟩
      · rw [missing] at atQ
        cases atQ
      · rw [Option.some.inj (atQ.symm.trans atQ₀)]
        exact ⟨_, atQ', rfl⟩
  have last := (inv.tail r n atTail atNode).2
  refine ⟨⟨fun q k' atQ => ?_, ?_, fun e member => ?_, fun missing => ?_, fun t k' tailT atT => ?_,
    fun t k' q m' tailT atT atQ apart => ?_, fun q k' y atQ after => ?_⟩, fun member => ?_, fun e member => ?_⟩
  · by_cases same : q = r
    · rw [same, atNode'] at atQ
      rw [← Option.some.inj atQ]
      exact ⟨fine, fun off => by cases off⟩
    · obtain ⟨k, a, atQ₀, rfl, idle⟩ := back same atQ
      obtain ⟨slots, vacant⟩ := inv.ok q k atQ₀
      refine ⟨slots, fun off => ?_⟩
      rcases idle with rfl | empty
      · exact vacant off
      · exact empty
  · rw [Heap.capacityFor, sizes.1, sizes.2]
    exact inv.capacity
  · rcases Finset.mem_insert.mp member with rfl | old
    · exact (Heap.live_iff (e := ⟨r, i⟩) atNode').mpr (by rw [live]; exact Finset.mem_insert_self i _)
    · obtain ⟨k, atE, liveE⟩ := Heap.node_of_live (inv.held e old)
      by_cases same : e.node = r
      · rw [same, atNode] at atE
        cases Option.some.inj atE
        exact (Heap.live_iff (by rw [same, atNode'])).mpr (by rw [live]; exact Finset.mem_insert_of_mem liveE)
      · rcases others e.node same with ⟨missing, _⟩ | ⟨k₀, a, atE₀, atE', _⟩
        · rw [missing] at atE
          cases atE
        · cases Option.some.inj (atE.symm.trans atE₀)
          exact (Heap.live_iff atE').mpr liveE
  · rw [atTail'] at missing
    cases missing
  · cases Option.some.inj (tailT.symm.trans atTail')
    rw [← Option.some.inj (atNode'.symm.trans atT)]
    exact ⟨rfl, last⟩
  · cases Option.some.inj (tailT.symm.trans atTail')
    obtain ⟨k, atT₀, _, _, indexT⟩ := links atT
    obtain ⟨m, atQ₀, _, _, indexQ⟩ := links atQ
    rw [indexT, indexQ]
    exact inv.top r k q m atTail atT₀ atQ₀ apart
  · obtain ⟨k, atQ₀, next, _⟩ := links atQ
    rw [next] at after
    obtain ⟨m, atY, backY⟩ := inv.linked q k y atQ₀ after
    obtain ⟨m', atY', prev⟩ := forth atY
    exact ⟨m', atY', prev.trans backY⟩
  · exact dead ((Heap.live_iff (e := ⟨r, i⟩) atNode).mp (inv.held _ member))
  · by_cases same : e.node = r
    · rw [Heap.bytes, Heap.bytes, same, atNode, atNode']
      exact congrArg (fun f => some (f e.slot)) bytes
    · rcases others e.node same with ⟨missing, missing'⟩ | ⟨k, a, atE, atE', _⟩
      · rw [Heap.bytes, Heap.bytes, missing, missing']
      · rw [Heap.bytes, Heap.bytes, atE, atE']
        rfl

variable [Inhabited α]

/-- A new block behind the tail. -/
theorem HandleInv.append (inv : HandleInv h l held) {nextIndex : Nat} {block : NodePtr}
    (top : ∀ p m, h.node p = some m → m.index < nextIndex)
    (run : appendNewBlock h l (h.lists l).elementSize (h.lists l).tail nextIndex block = some h')
    (present : ∀ t, (h.lists l).tail = some t → ∃ m, h.node t = some m) :
    HandleInv h' l held ∧ (h'.lists l).tail = some block ∧ (∀ e ∈ held, h'.bytes e = h.bytes e) ∧
      h'.node block = some (newPumaNode h l (h.lists l).elementSize (h.lists l).tail nextIndex) := by
  have appended := appendNewBlock_run present run
  have away {e : ElemPtr} (member : e ∈ held) : e.node ≠ block := fun same => by
    obtain ⟨m, atE, _⟩ := Heap.node_of_live (inv.held e member)
    rw [same, appended.fresh] at atE
    cases atE
  have tail : (h'.lists l).tail = some block := by rw [appended.list]
  have new : h'.node block = some (newPumaNode h l (h.lists l).elementSize (h.lists l).tail nextIndex) := by
    rw [appended.nodes, if_pos rfl]
  refine ⟨⟨appended.ok inv.ok inv.capacity, ?_, fun e member => ?_, fun missing => ?_, fun t m tailT atT => ?_,
    fun t m q k tailT atT atQ apart => ?_, fun q k y atQ after => ?_⟩, tail, fun e member => ?_, new⟩
  · rw [Heap.capacityFor, appended.nodeSize, appended.list]
    exact inv.capacity
  · rw [appended.read]
    exact inv.held e member
  · rw [tail] at missing
    cases missing
  · cases Option.some.inj (tailT.symm.trans tail)
    cases Option.some.inj (atT.symm.trans new)
    exact ⟨rfl, rfl⟩
  · cases Option.some.inj (tailT.symm.trans tail)
    cases Option.some.inj (atT.symm.trans new)
    obtain ⟨k₀, atQ₀, _, _, _, index, _⟩ := appended.node_old apart atQ
    rw [index]
    exact top q k₀ atQ₀
  · by_cases same : q = block
    · rw [same, new] at atQ
      rw [← Option.some.inj atQ] at after
      cases after
    · rw [appended.nodes, if_neg same] at atQ
      split at atQ
      · rename_i last
        obtain ⟨k₀, atQ₀, rfl⟩ := Option.map_eq_some_iff.mp atQ
        cases after
        exact ⟨_, new, last⟩
      · obtain ⟨u, atY, back⟩ := inv.linked q k y atQ after
        have old : y ≠ block := fun equal => by
          rw [equal, appended.fresh] at atY
          cases atY
        rw [appended.nodes, if_neg old, atY]
        split
        · exact ⟨_, rfl, back⟩
        · exact ⟨u, rfl, back⟩
  · have slots := appended.slots (away member)
    rw [Heap.slots, Heap.slots] at slots
    rw [Heap.bytes, Heap.bytes]
    have := congrArg (Option.map fun s : Slots α => s.elements e.slot) slots
    rwa [Option.map_map, Option.map_map] at this

theorem HandleInv.appendPumaNode (inv : HandleInv h l held) {block : NodePtr}
    (run : Puma.appendPumaNode h l (h.lists l).elementSize block = some (h', r)) :
    HandleInv h' l held ∧ (h'.lists l).tail = some r ∧ (∀ e ∈ held, h'.bytes e = h.bytes e) ∧
      ∃ n, h'.node r = some n ∧ n.numElements < n.capacity ∧ n.firstKnownFree = 0 := by
  have grown {h₁ : Heap α} {nextIndex : Nat} (top : ∀ p m, h.node p = some m → m.index < nextIndex)
      (made : Puma.appendNewBlock h l (h.lists l).elementSize (h.lists l).tail nextIndex block = some h₁)
      (present : ∀ t, (h.lists l).tail = some t → ∃ m, h.node t = some m)
      (rest : ((h₁.node block).bind fun n =>
        some (h₁.modifyList l fun tl => { tl with numNodes := n.index + 1 }, block)) = some (h', r)) :
      HandleInv h' l held ∧ (h'.lists l).tail = some r ∧ (∀ e ∈ held, h'.bytes e = h.bytes e) ∧
        ∃ n, h'.node r = some n ∧ n.numElements < n.capacity ∧ n.firstKnownFree = 0 := by
    obtain ⟨inv₁, tail, bytes, new⟩ := inv.append top made present
    rw [new, Option.bind_some] at rest
    cases rest
    obtain ⟨fine, idle⟩ := inv₁.ok r _ new
    have counted := inv₁.setSlots (m := l) (f := fun tl => { tl with
      numNodes := (newPumaNode h l (h.lists l).elementSize (h.lists l).tail nextIndex).index + 1 }) new fine idle
      (inv₁.still new) rfl rfl
    rw [Heap.setNode_eq_self new] at counted
    refine ⟨counted, by rw [Heap.lists_modifyList_self]; exact tail, bytes, _, new, ?_, rfl⟩
    exact fine.capacity_pos
  simp only [Puma.appendPumaNode, Option.bind_eq_bind, Option.pure_def] at run
  split at run
  · rename_i missing
    obtain ⟨h₁, made, run⟩ := Option.bind_eq_some_iff.mp run
    exact grown (fun p m atP => by
      rw [inv.empty missing p] at atP
      cases atP) (by rw [missing]; exact made) (fun t same => by
        rw [missing] at same
        cases same) run
  · rename_i t atTail
    obtain ⟨m, atT, run⟩ := Option.bind_eq_some_iff.mp run
    obtain ⟨on, last⟩ := inv.tail t m atTail atT
    simp only [on, last, Bool.true_eq_false, if_false] at run
    obtain ⟨h₁, made, run⟩ := Option.bind_eq_some_iff.mp run
    exact grown (fun p k atP => by
      by_cases same : p = t
      · rw [same, atT] at atP
        rw [← Option.some.inj atP]
        exact Nat.lt_succ_self _
      · exact Nat.lt_succ_of_lt (inv.top t m p k atTail atT atP same)) (by rw [atTail]; exact made)
      (fun t' same => by
        rw [atTail] at same
        cases same
        exact ⟨m, atT⟩) run

/-- The tail node that is to hold the new element, and is compact if its cursor is at the end. -/
theorem HandleInv.tailWithRoom (inv : HandleInv h l held) (small : AllocCompact h l) {block : NodePtr}
    (run : Puma.tailWithRoom h l block = some (h', r)) :
    HandleInv h' l held ∧ (h'.lists l).tail = some r ∧ (∀ e ∈ held, h'.bytes e = h.bytes e) ∧
      ∃ n, h'.node r = some n ∧ n.numElements < n.capacity ∧
        (n.capacity ≤ n.firstKnownFree → n.toSlots.liveSlots = Finset.range n.numElements) := by
  have fresh (appended : HandleInv h' l held ∧ (h'.lists l).tail = some r ∧ (∀ e ∈ held, h'.bytes e = h.bytes e) ∧
      ∃ n, h'.node r = some n ∧ n.numElements < n.capacity ∧ n.firstKnownFree = 0) :
      HandleInv h' l held ∧ (h'.lists l).tail = some r ∧ (∀ e ∈ held, h'.bytes e = h.bytes e) ∧
        ∃ n, h'.node r = some n ∧ n.numElements < n.capacity ∧
          (n.capacity ≤ n.firstKnownFree → n.toSlots.liveSlots = Finset.range n.numElements) := by
    obtain ⟨inv', tail, bytes, n, atNode, room, zero⟩ := appended
    exact ⟨inv', tail, bytes, n, atNode, room, fun late => absurd room (by omega)⟩
  unfold Puma.tailWithRoom at run
  split at run
  · exact fresh (inv.appendPumaNode run)
  · rename_i t atTail
    obtain ⟨m, atT, run⟩ := Option.bind_eq_some_iff.mp run
    split at run
    · exact fresh (inv.appendPumaNode run)
    · rename_i notFull
      cases run
      refine ⟨inv, atTail, fun _ _ => rfl, m, atT, ?_, fun late => small _ m atTail atT notFull late⟩
      exact lt_of_le_of_ne (inv.ok _ m atT).1.numElements_le notFull

omit [Inhabited α] in
/-- The slot that is chosen in the tail node, and what the choice does to the nodes. -/
theorem HandleInv.nextFreeIndex (inv : HandleInv h l held) (atTail : (h.lists l).tail = some r)
    (atNode : h.node r = some n) (room : n.numElements < n.capacity)
    (compact : n.capacity ≤ n.firstKnownFree → n.toSlots.liveSlots = Finset.range n.numElements)
    (run : Puma.nextFreeIndex h l r = some (h', i)) :
    ∃ a dirty, h'.node r = some { n with active := a, dirty := dirty, firstKnownFree := i + 1 } ∧
      SlotReserved { n.toSlots with dirty := dirty, firstKnownFree := i + 1 } i ∧
      (∀ q, q ≠ r → (h.node q = none ∧ h'.node q = none) ∨ ∃ k a, h.node q = some k ∧
        h'.node q = some { k with active := a } ∧ (a = k.active ∨ k.toSlots.liveSlots = ∅)) ∧ SameSizes h h' l := by
  obtain ⟨fine, idle⟩ := inv.ok r n atNode
  simp only [Puma.nextFreeIndex, atNode, Option.bind_eq_bind, Option.bind_some] at run
  split at run
  · rename_i late
    obtain ⟨h₂, cleaned, run⟩ := Option.bind_eq_some_iff.mp run
    obtain ⟨k, atNode₂, run⟩ := Option.bind_eq_some_iff.mp run
    cases run
    have ok₁ : (h.setNode r { n with firstKnownFree := n.firstKnownFree + 1 }).OkExcept (some r) := by
      intro q m atQ
      rw [Heap.node_setNode] at atQ
      split at atQ
      · rename_i same
        rw [← Option.some.inj atQ]
        exact ⟨⟨fine.capacity_pos, fine.sized, fine.bits, fine.count⟩, fun other => (other (by rw [same])).elim, idle⟩
      · exact inv.ok.except (some r) q m atQ
    obtain ⟨h₁, m, idled, sizes, atNode₁, rfl⟩ := cleanupNode_compact (n := { n with firstKnownFree := n.firstKnownFree + 1 })
      ok₁ (Heap.node_setNode_self ..) (compact late) room (fun q m atQ other => by
        rw [Heap.node_setNode_ne _ _ other] at atQ
        exact inv.top r n q m atTail atNode atQ other) cleaned
    obtain ⟨a, atNode₁', _⟩ := idled.node (Heap.node_setNode_self h r { n with firstKnownFree := n.firstKnownFree + 1 })
    cases Option.some.inj (atNode₁.symm.trans atNode₁')
    rw [Heap.node_setNode_self] at atNode₂
    cases Option.some.inj atNode₂
    refine ⟨a, false, Heap.node_setNode_self .., SlotReserved.compact (compact late) rfl rfl room, fun q other => ?_, ?_⟩
    · rw [Heap.node_setNode_ne _ _ other, Heap.node_setNode_ne _ _ other]
      have idledQ := idled q
      rw [Heap.node_setNode_ne _ _ other] at idledQ
      exact idledQ
    · exact sizes
  · rename_i early
    cases run
    refine ⟨n.active, n.dirty, Heap.node_setNode_self .., ⟨by simpa using early, fun live => ?_, fun j live => ?_, rfl,
      fun clean => ?_⟩, fun q other => ?_, rfl, rfl⟩
    · exact lt_irrefl _ (fine.cursor _ live)
    · exact fine.cursor j live
    · obtain ⟨range, cursor⟩ := fine.clean clean
      rw [cursor]
      exact ⟨range, rfl⟩
    · rw [Heap.node_setNode_ne _ _ other]
      exact Idled.refl h q

/-- `_pumallocOnThreadList` returns an element that is not held, and changes no byte of one that is. -/
theorem HandleInv.pumallocOnThreadList (inv : HandleInv h l held) (small : AllocCompact h l) {block : NodePtr}
    {e : ElemPtr} (run : Puma.pumallocOnThreadList h l block = some (h', e)) :
    HandleInv h' l (insert e held) ∧ e ∉ held ∧ ∀ o ∈ held, h'.bytes o = h.bytes o := by
  simp only [Puma.pumallocOnThreadList, reserveSlot, Option.bind_eq_bind] at run
  obtain ⟨⟨h₁, r, i⟩, reserved, run⟩ := Option.bind_eq_some_iff.mp run
  obtain ⟨⟨h₂, r₂⟩, found, reserved⟩ := Option.bind_eq_some_iff.mp reserved
  obtain ⟨⟨h₃, i₃⟩, chosen, reserved⟩ := Option.bind_eq_some_iff.mp reserved
  obtain ⟨t, atNode₃, reserved⟩ := Option.bind_eq_some_iff.mp reserved
  cases reserved
  obtain ⟨inv₂, atTail, bytes, n, atNode, room, compact⟩ := inv.tailWithRoom small found
  obtain ⟨a, dirty, atChosen, slot, others, sizes⟩ := inv₂.nextFreeIndex atTail atNode room compact chosen
  cases Option.some.inj (atNode₃.symm.trans atChosen)
  obtain ⟨h₄, marked, run⟩ := Option.bind_eq_some_iff.mp run
  cases run
  simp only [allocElementOnNode, getElement, getIndexOfElement, Heap.node_setNode_self, Option.bind_eq_bind,
    Option.bind_some, Option.pure_def, Option.some.injEq] at marked
  have counted := (inv₂.ok _ n atNode).1.toCounted
  have counted' : ({ n.toSlots with dirty := dirty, firstKnownFree := i₃ + 1 } : Slots α).Counted :=
    ⟨counted.capacity_pos, counted.sized, counted.bits, counted.count⟩
  have atAlloc : h'.node r₂ = some { n with
      active := true
      toSlots := ({ n.toSlots with dirty := dirty, firstKnownFree := i₃ + 1 } : Slots α).alloc i₃ } := by
    rw [← marked, Heap.node_modifyList, Heap.node_setNode_self]
    rfl
  have lists : (h'.lists l).tail = some r₂ ∧ (h'.lists l).elementSize = (h₃.lists l).elementSize := by
    rw [← marked]
    by_cases here : l = n.threadList
    · rw [← here, Heap.lists_modifyList_self, Heap.lists_setNode, Heap.lists_setNode, Heap.lists_modifyList_self]
      exact ⟨rfl, rfl⟩
    · rw [Heap.lists_modifyList_ne _ _ here, Heap.lists_setNode, Heap.lists_setNode, Heap.lists_modifyList_self]
      exact ⟨rfl, rfl⟩
  have sizes' : SameSizes h₂ h' l := by
    refine ⟨?_, lists.2.trans sizes.2⟩
    rw [← marked]
    exact sizes.1
  obtain ⟨inv', fresh, kept⟩ := inv₂.alloc atTail atNode (slot.alloc_ok counted') slot.hole
    (counted'.liveSlots_alloc slot.within) rfl atAlloc (fun q other => by
      rw [← marked, Heap.node_modifyList, Heap.node_setNode_ne _ _ other, Heap.node_setNode_ne _ _ other,
        Heap.node_modifyList]
      exact others q other) lists.1 sizes'
  exact ⟨inv', fresh, fun o member => (kept o member).trans (bytes o member)⟩

/-- The memories that a caller reaches by allocations, frees of elements it holds and writes to them,
with the elements it holds. -/
inductive HandleRun (allowed : Heap α → Prop) (l : ListPtr) : Heap α → Finset ElemPtr → Prop
  | start (elementSize nodeSize : Nat) (capacity : 0 < (newThreadList l elementSize nodeSize : Heap α).capacityFor
      elementSize) : HandleRun allowed l (newThreadList l elementSize nodeSize) ∅
  | pumalloc {h h' : Heap α} {held : Finset ElemPtr} {e : ElemPtr} (block : NodePtr) (before : HandleRun allowed l h held)
      (here : allowed h) (run : Puma.pumallocOnThreadList h l block = some (h', e)) : HandleRun allowed l h' (insert e held)
  | pufree {h h' : Heap α} {held : Finset ElemPtr} {e : ElemPtr} (before : HandleRun allowed l h held) (member : e ∈ held)
      (run : Puma.pufree h e = some h') : HandleRun allowed l h' (held.erase e)
  | write {h : Heap α} {held : Finset ElemPtr} {e : ElemPtr} {n : PumaNode α} (x : α) (before : HandleRun allowed l h held)
      (member : e ∈ held) (atNode : h.node e.node = some n) :
      HandleRun allowed l (h.setNode e.node { n with elements := Function.update n.elements e.slot x }) held

theorem HandleRun.inv (run : HandleRun (fun h => AllocCompact h l) l h held) : HandleInv h l held := by
  induction run with
  | start elementSize nodeSize capacity => exact HandleInv.start capacity
  | pumalloc block _ small run ih => exact (ih.pumallocOnThreadList small run).1
  | pufree _ member run ih => exact (ih.pufree member run).1
  | @write h held e n x _ member atNode ih =>
    obtain ⟨fine, idle⟩ := ih.ok e.node n atNode
    have stored := ih.setSlots (s := n.toSlots.store e.slot x) (m := l) (f := id) atNode (fine.store e.slot x) idle
      (ih.still atNode) rfl rfl
    rwa [Heap.modifyList_eq_self rfl] at stored

/-- The next call, if an allocation here is `allowed`, returns no held element and changes the bytes of
no other held element. -/
def HandlesKept (allowed : Heap α → Prop) (h : Heap α) (l : ListPtr) (held : Finset ElemPtr) : Prop :=
  (∀ block h' e, allowed h → Puma.pumallocOnThreadList h l block = some (h', e) →
    e ∉ held ∧ ∀ o ∈ held, h'.bytes o = h.bytes o) ∧
  ∀ e ∈ held, ∀ h', Puma.pufree h e = some h' → ∀ o ∈ held, o ≠ e → h'.bytes o = h.bytes o

theorem HandleRun.handlesKept (run : HandleRun (fun h => AllocCompact h l) l h held) :
    HandlesKept (fun h => AllocCompact h l) h l held :=
  ⟨fun _ _ _ small made => (run.inv.pumallocOnThreadList small made).2,
    fun _ member _ freed => (run.inv.pufree member freed).2⟩

end Alloc

set_option maxRecDepth 8000 in
/-- Elements in two nodes, one of them allocated where the tail had no fresh slots, but was compact; then the first
node gets a hole. -/
theorem handlesKept_compact : ∃ h : Heap Nat, h.read ⟨1, 0⟩ = some 5 ∧
    HandlesKept (fun h => AllocCompact h 0) h 0 {⟨0, 1⟩, ⟨1, 0⟩, ⟨1, 1⟩} := by
  have held : ((insert ⟨1, 1⟩ ((insert ⟨1, 1⟩ (insert ⟨1, 0⟩ (insert ⟨0, 1⟩ (insert ⟨0, 0⟩ ∅))) : Finset ElemPtr).erase
      ⟨1, 1⟩)).erase ⟨0, 0⟩) = {⟨0, 1⟩, ⟨1, 0⟩, ⟨1, 1⟩} := by decide
  obtain ⟨h, run, written⟩ : ∃ h : Heap Nat, HandleRun (fun h => AllocCompact h 0) 0 h {⟨0, 1⟩, ⟨1, 0⟩, ⟨1, 1⟩} ∧
      h.read ⟨1, 0⟩ = some 5 := by
    rw [← held]
    exact ⟨_, .pufree (.pumalloc 9 (.pufree (.write (e := ⟨1, 0⟩) 5 (.pumalloc 9 (.pumalloc 1 (.pumalloc 9 (.pumalloc 0
      (.start 4000 8192 (by decide)) (by decide) rfl) (by decide) rfl) (by decide) rfl) (by decide) rfl) (by decide) rfl)
      (by decide) rfl) (by decide) rfl) (by decide) rfl, by decide⟩
  exact ⟨h, written, HandleRun.handlesKept run⟩

/-- Two slots in a node: once the first one is free, the slow path moves the second element onto it
and returns its address, which is held. -/
theorem held_returned : ∃ h : Heap Nat, HandleRun (fun _ => True) 0 h {⟨0, 1⟩} ∧
    (pumallocOnThreadList h 0 9).map Prod.snd = some ⟨0, 1⟩ := by
  have held : ((insert ⟨0, 1⟩ (insert ⟨0, 0⟩ ∅) : Finset ElemPtr).erase ⟨0, 0⟩) = {⟨0, 1⟩} := by decide
  rw [← held]
  exact ⟨_, .pufree (.pumalloc 9 (.pumalloc 0 (.start 4000 8192 (by decide)) trivial rfl)
    trivial rfl) (by decide) rfl, by decide⟩

theorem held_not_kept : ∃ h : Heap Nat, HandleRun (fun _ => True) 0 h {⟨0, 1⟩} ∧
    ¬ HandlesKept (fun _ => True) h 0 {⟨0, 1⟩} := by
  obtain ⟨h, run, returned⟩ := held_returned
  refine ⟨h, run, fun kept => ?_⟩
  obtain ⟨⟨h', e⟩, made, same⟩ := Option.map_eq_some_iff.mp returned
  exact (kept.1 9 h' e trivial made).1 (by rw [Finset.mem_singleton]; exact same)

end Puma
