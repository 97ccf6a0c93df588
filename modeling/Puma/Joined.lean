import Puma.Shape
import Puma.Balance
import Puma.Lib.Simulation

namespace Puma

open Simulation

variable {α : Type}

/-- A relation of a memory and one with more in it, which stores to the nodes of the first one, and to the lists `on`, keep
when they are made in both. -/
structure PairRule (on : Set ListPtr) (R : Heap α → Heap α → Prop) : Prop where
  node : ∀ {h g p n}, R h g → h.node p = some n → g.node p = some n
  owner : ∀ {h g p n}, R h g → h.node p = some n → n.threadList ∈ on
  setNode : ∀ {h g p} {n m : PumaNode α}, R h g → h.node p = some n → m.threadList ∈ on → R (h.setNode p m) (g.setNode p m)
  nufreeAligned : ∀ {h g p n}, R h g → h.node p = some n → R (h.nufreeAligned p) (g.nufreeAligned p)
  list : ∀ {h g l}, R h g → l ∈ on → g.lists l = h.lists l
  modifyList : ∀ {h g l} (f : PumaThreadList → PumaThreadList), R h g → l ∈ on → R (h.modifyList l f) (g.modifyList l f)

section Stores

variable {on : Set ListPtr} {R : Heap α → Heap α → Prop} {h g : Heap α}

theorem PairRule.card_le (rule : PairRule on R) (related : R h g) : h.blocks.card ≤ g.blocks.card := by
  refine Finset.card_le_card fun p member => ?_
  obtain ⟨n, atNode⟩ := Heap.mem_blocks.mp member
  exact Heap.mem_blocks.mpr ⟨n, rule.node related atNode⟩

/-- A store keeps every block. -/
theorem Heap.modifyNodeIf_present {h' : Heap α} {p : Option NodePtr} {f : PumaNode α → PumaNode α}
    (run : h.modifyNodeIf p f = some h') {q : NodePtr} (present : ∃ n, h.node q = some n) :
    ∃ n, h'.node q = some n := by
  cases p with
  | none =>
    cases run
    exact present
  | some p =>
    obtain ⟨m, _, rfl⟩ := Option.map_eq_some_iff.mp run
    rw [Heap.node_setNode]
    split
    · exact ⟨_, rfl⟩
    · exact present

/-- A store to a node that leaves it in its list. -/
theorem PairRule.store (rule : PairRule on R) (related : R h g) {p : NodePtr} {n m : PumaNode α} (atNode : h.node p = some n)
    (owner : m.threadList = n.threadList) : R (h.setNode p m) (g.setNode p m) :=
  rule.setNode related atNode (by rw [owner]; exact rule.owner related atNode)

/-- A program dereferences a pointer that the smaller memory has. -/
theorem PairRule.read {B B' : Type} {s : B → B' → Prop} (rule : PairRule on R) (related : R h g) (p : NodePtr)
    {k : PumaNode α → Option B} {k' : PumaNode α → Option B'}
    (rest : ∀ n, h.node p = some n → n.threadList ∈ on → Carries s (k n) (k' n)) :
    Carries s ((h.node p).bind k) ((g.node p).bind k') := by
  cases atNode : h.node p with
  | none => exact Carries.none _
  | some n =>
    rw [rule.node related atNode]
    exact rest n atNode (rule.owner related atNode)

theorem PairRule.modifyNode (rule : PairRule on R) (related : R h g) (p : NodePtr) {f : PumaNode α → PumaNode α}
    (owner : ∀ n, (f n).threadList = n.threadList) : Carries R (h.modifyNode p f) (g.modifyNode p f) := by
  cases atNode : h.node p with
  | none =>
    rw [Heap.modifyNode, atNode]
    exact Carries.none _
  | some n =>
    rw [Heap.modifyNode_eq atNode, Heap.modifyNode_eq (rule.node related atNode)]
    exact Carries.some (rule.store related atNode (owner n))

theorem PairRule.modifyNodeIf (rule : PairRule on R) (related : R h g) (p : Option NodePtr) {f : PumaNode α → PumaNode α}
    (owner : ∀ n, (f n).threadList = n.threadList) : Carries R (h.modifyNodeIf p f) (g.modifyNodeIf p f) := by
  cases p with
  | none => exact Carries.some related
  | some p => exact rule.modifyNode related p owner

end Stores

section Operations

variable {on : Set ListPtr} {R : Heap α → Heap α → Prop} {h g : Heap α}

theorem PairRule.allocElementOnNode (rule : PairRule on R) (related : R h g) (node : NodePtr) (element : ElemPtr) :
    Carries R (allocElementOnNode h node element) (allocElementOnNode g node element) := by
  simp only [Puma.allocElementOnNode, Option.bind_eq_bind]
  refine rule.read related node fun n atNode inside => Carries.some ?_
  exact rule.modifyList _ (rule.store related atNode (by rfl)) inside

theorem PairRule.freePumaNode (rule : PairRule on R) (related : R h g) (node : NodePtr) :
    Carries R (freePumaNode h node) (freePumaNode g node) := by
  simp only [Puma.freePumaNode, Option.bind_eq_bind]
  refine rule.read related node fun n atNode inside => ?_
  refine (rule.modifyNodeIf (rule.modifyList _ related inside) n.prev (by intro; rfl)).bind fun h₁ g₁ first related₁ => ?_
  refine (rule.modifyNodeIf related₁ n.next (by intro; rfl)).bind fun h₂ g₂ second related₂ => Carries.some ?_
  obtain ⟨n₁, atNode₁⟩ := Heap.modifyNodeIf_present first ⟨n, atNode⟩
  obtain ⟨n₂, atNode₂⟩ := Heap.modifyNodeIf_present second ⟨n₁, atNode₁⟩
  exact rule.nufreeAligned related₂ atNode₂

theorem PairRule.releaseSpareNode (rule : PairRule on R) (related : R h g) (node : NodePtr) :
    Carries R (releaseSpareNode h node) (releaseSpareNode g node) := by
  simp only [Puma.releaseSpareNode, Option.bind_eq_bind]
  refine rule.read related node fun n atNode _ => ?_
  split
  · cases n.next with
    | none => exact Carries.some related
    | some spare =>
      refine rule.read related spare fun s atSpare _ => ?_
      split
      · exact Carries.some related
      · exact (rule.freePumaNode related spare).bind fun h₁ g₁ _ related₁ => rule.modifyNode related₁ node (by intro; rfl)
  · exact Carries.some related

theorem PairRule.freeElementOnNode (rule : PairRule on R) (related : R h g) (element : ElemPtr) (node : NodePtr) :
    Carries R (freeElementOnNode h element node) (freeElementOnNode g element node) := by
  simp only [Puma.freeElementOnNode, Option.bind_eq_bind]
  refine rule.read related node fun n atNode inside => rule.releaseSpareNode ?_ node
  exact rule.modifyList _ (rule.store related atNode (by rfl)) inside

section OnList

variable {l : ListPtr}

theorem PairRule.deactivateTail (rule : PairRule on R) (related : R h g) (inside : l ∈ on) {tail : NodePtr}
    {t : PumaNode α} (atNode : h.node tail = some t) : R (deactivateTail h l tail t) (deactivateTail g l tail t) := by
  have off := rule.store (p := tail) (m := { t with active := false })
    (rule.modifyList (fun tl => { tl with numNodes := if 0 < tl.numNodes then tl.numNodes - 1 else tl.numNodes })
      related inside) atNode rfl
  unfold Puma.deactivateTail
  dsimp only
  split
  · exact off
  · exact rule.modifyList _ off inside

theorem PairRule.getLastElementLoop (rule : PairRule on R) (related : R h g) (inside : l ∈ on) (tail : Option NodePtr)
    {turns more : Nat} (enough : turns ≤ more) :
    Carries (With R) (getLastElementLoop turns h l tail) (getLastElementLoop more g l tail) := by
  induction turns generalizing h g tail more with
  | zero =>
    cases tail with
    | none =>
      have stop : Puma.getLastElementLoop more g l none = some (g, none) := by cases more <;> rfl
      rw [stop]
      exact Carries.some ⟨related, rfl⟩
    | some tail => exact Carries.none _
  | succ turns ih =>
    obtain ⟨more, rfl⟩ : ∃ m, more = m + 1 := ⟨more - 1, by omega⟩
    cases tail with
    | none => exact Carries.some ⟨related, rfl⟩
    | some tail =>
      simp only [Puma.getLastElementLoop, Option.bind_eq_bind]
      refine rule.read related tail fun t atNode _ => ?_
      split
      · cases pumaLastIndexOfValue t.freeMask maskNotFree with
        | none => exact ih (rule.deactivateTail related inside atNode) t.prev (by omega)
        | some i => exact Carries.some ⟨related, rfl⟩
      · exact Carries.some ⟨related, rfl⟩

theorem PairRule.getLastElement (rule : PairRule on R) (related : R h g) (inside : l ∈ on) :
    Carries (With R) (getLastElement h l) (getLastElement g l) := by
  have enough := rule.card_le related
  rw [Puma.getLastElement, Puma.getLastElement, rule.list related inside]
  exact rule.getLastElementLoop related inside _ (by omega)

theorem PairRule.copyElement (rule : PairRule on R) (related : R h g) (target source : ElemPtr) :
    Carries R (copyElement h target source) (copyElement g target source) := by
  simp only [Puma.copyElement, Option.bind_eq_bind]
  exact rule.read related source.node fun s _ _ => rule.modifyNode related _ (by intro; rfl)

theorem PairRule.cleanupTurn (rule : PairRule on R) (related : R h g) (inside : l ∈ on) (currentNode : NodePtr) :
    Carries (With R) (cleanupTurn h currentNode l) (cleanupTurn g currentNode l) := by
  simp only [Puma.cleanupTurn, Option.bind_eq_bind]
  refine rule.read related currentNode fun n atNode _ => ?_
  split
  · refine (rule.getLastElement related inside).bind fun x y _ both => ?_
    obtain ⟨h₁, lastElement⟩ := x
    obtain ⟨g₁, lastElement'⟩ := y
    obtain ⟨related₁, same⟩ := both
    dsimp only at related₁ same
    subst same
    dsimp only
    split
    · refine rule.read related₁ _ fun last _ _ => rule.read related₁ _ fun current _ _ => ?_
      split
      · exact Carries.some ⟨related₁, rfl⟩
      · refine (rule.allocElementOnNode related₁ _ _).bind fun h₂ g₂ _ related₂ => ?_
        exact (rule.copyElement related₂ _ _).bind fun h₃ g₃ _ related₃ => Carries.some ⟨related₃, rfl⟩
    · exact Carries.some ⟨related₁, rfl⟩
  · exact Carries.some ⟨related, rfl⟩

theorem PairRule.cleanupNodeLoop (rule : PairRule on R) (related : R h g) (inside : l ∈ on) (currentNode : NodePtr)
    (turns : Nat) : Carries R (cleanupNodeLoop turns h currentNode l) (cleanupNodeLoop turns g currentNode l) := by
  induction turns generalizing h g with
  | zero => exact Carries.none _
  | succ turns ih =>
    simp only [Puma.cleanupNodeLoop, Option.bind_eq_bind]
    refine (rule.cleanupTurn related inside currentNode).bind fun x y _ both => ?_
    obtain ⟨h₁, moved⟩ := x
    obtain ⟨g₁, moved'⟩ := y
    obtain ⟨related₁, same⟩ := both
    dsimp only at related₁ same
    subst same
    cases moved with
    | none => exact Carries.some related₁
    | some last => exact (rule.freeElementOnNode related₁ _ _).bind fun h₂ g₂ _ related₂ => ih related₂

theorem PairRule.cleanupNode (rule : PairRule on R) (related : R h g) (inside : l ∈ on) (currentNode : NodePtr) :
    Carries R (cleanupNode h currentNode l) (cleanupNode g currentNode l) := by
  simp only [Puma.cleanupNode, Option.bind_eq_bind]
  refine rule.read related currentNode fun n _ _ => ?_
  exact (rule.cleanupNodeLoop related inside currentNode _).bind fun h₁ g₁ _ related₁ =>
    rule.modifyNode related₁ _ (by intro; rfl)

end OnList

end Operations

section Transfers

variable {on : Set ListPtr} {R : Heap α → Heap α → Prop} {h g : Heap α}

theorem PairRule.links (rule : PairRule on R) (related : R h g) (p : NodePtr) : Carries Eq (h.links p) (g.links p) := by
  intro k atLinks
  obtain ⟨n, atNode, same⟩ := Heap.node_of_links atLinks
  exact ⟨k, by rw [Heap.links_eq (rule.node related atNode), same], rfl⟩

theorem PairRule.next (rule : PairRule on R) (related : R h g) (p : NodePtr) : Carries Eq (h.next p) (g.next p) :=
  (rule.links related p).bind fun _ k _ same => by
    rw [same]
    exact fun q after => ⟨q, after, rfl⟩

theorem PairRule.prev (rule : PairRule on R) (related : R h g) (p : NodePtr) : Carries Eq (h.prev p) (g.prev p) :=
  (rule.links related p).bind fun _ k _ same => by
    rw [same]
    exact fun q before => ⟨q, before, rfl⟩

theorem PairRule.walkBack (rule : PairRule on R) (related : R h g) (n : Nat) (start : NodePtr) :
    Carries Eq (walkBack h n start) (walkBack g n start) := by
  induction n generalizing start with
  | zero => exact Carries.some rfl
  | succ n ih =>
    simp only [Puma.walkBack, Option.bind_eq_bind]
    refine (rule.prev related start).bind fun before before' _ same => ?_
    rw [← same]
    exact ih before

theorem PairRule.forNodes (rule : PairRule on R) {body : Nat → Heap α → NodePtr → PumaNode α → Heap α}
    (step : ∀ k h g p n, R h g → h.node p = some n → R (body k h p n) (body k g p n))
    (related : R h g) {stop : NodePtr} {turns more : Nat} (enough : turns ≤ more) (k : Nat) (start : NodePtr) :
    Carries R (forNodes body stop turns k h start) (forNodes body stop more k g start) := by
  induction turns generalizing h g k start more with
  | zero => exact Carries.none _
  | succ turns ih =>
    obtain ⟨more, rfl⟩ : ∃ m, more = m + 1 := ⟨more - 1, by omega⟩
    simp only [Puma.forNodes, Option.bind_eq_bind]
    refine rule.read related start fun s atNode _ => ?_
    have related₁ := step k h g start s related atNode
    split
    · exact Carries.some related₁
    · refine (rule.next related₁ start).bind fun after after' _ same => ?_
      rw [← same]
      exact ih related₁ (by omega) (k + 1) after

theorem PairRule.indexNodes (rule : PairRule on R) (related : R h g) (start stop : NodePtr) :
    Carries R (indexNodes h start stop) (indexNodes g start stop) := by
  have number (i : Nat) : Carries R
      (Puma.forNodes (fun k h p n => h.setNode p { n with index := i + k }) stop (h.blocks.card + 1) 0 h start)
      (Puma.forNodes (fun k h p n => h.setNode p { n with index := i + k }) stop (g.blocks.card + 1) 0 g start) := by
    refine rule.forNodes (fun k _ _ _ n related atNode => ?_) related (Nat.add_le_add_right (rule.card_le related) 1) 0 start
    exact rule.store (m := { n with index := i + k }) related atNode rfl
  rw [Puma.indexNodes, Puma.indexNodes]
  refine rule.read related start fun s _ _ => ?_
  dsimp only
  split
  · exact number 0
  · rename_i before _
    cases atNode : h.node before with
    | none => exact Carries.none _
    | some n =>
      rw [rule.node related atNode]
      exact number (n.index + 1)

variable {source target : ListPtr}

theorem PairRule.moveNodeThreadLists (rule : PairRule on R) (related : R h g) (start stop : NodePtr)
    (inTarget : target ∈ on) : Carries R (moveNodeThreadLists h start stop target) (moveNodeThreadLists g start stop target) := by
  refine rule.forNodes (fun _ _ _ _ _ related atNode => ?_) related (Nat.add_le_add_right (rule.card_le related) 1) 0 start
  exact rule.setNode related atNode inTarget

theorem PairRule.updateNumElements (rule : PairRule on R) (related : R h g) (start stop : NodePtr)
    (inSource : source ∈ on) (inTarget : target ∈ on) : Carries R (updateNumElements h start stop source target)
      (updateNumElements g start stop source target) := by
  refine rule.forNodes (fun _ _ _ _ _ related _ => ?_) related (Nat.add_le_add_right (rule.card_le related) 1) 0 start
  exact rule.modifyList _ (rule.modifyList _ related inSource) inTarget

theorem PairRule.spliceTarget (rule : PairRule on R) (related : R h g) (inTarget : target ∈ on) (start stop : NodePtr) :
    Carries R (spliceTarget h target start stop) (spliceTarget g target start stop) := by
  simp only [Puma.spliceTarget, Option.bind_eq_bind, rule.list related inTarget]
  -- The last steps of each branch.
  have finish {h₁ g₁ : Heap α} (related₁ : R h₁ g₁) : Carries R
      (some (h₁.modifyList target fun tl => { tl with tail := some stop }))
      (some (g₁.modifyList target fun tl => { tl with tail := some stop })) :=
    Carries.some (rule.modifyList _ related₁ inTarget)
  cases (h.lists target).tail with
  | none =>
    refine (rule.modifyNode (rule.modifyList _ related inTarget) stop (by intro; rfl)).bind fun h₁ g₁ _ related₁ => ?_
    exact (rule.modifyNode related₁ start (by intro; rfl)).bind fun h₂ g₂ _ related₂ => finish related₂
  | some tail =>
    refine rule.read related tail fun t _ _ => ?_
    split
    · refine (rule.modifyNode related stop (by intro; rfl)).bind fun h₁ g₁ _ related₁ => ?_
      refine (rule.modifyNodeIf related₁ t.next (by intro; rfl)).bind fun h₂ g₂ _ related₂ => ?_
      refine (rule.modifyNode related₂ tail (by intro; rfl)).bind fun h₃ g₃ _ related₃ => ?_
      exact (rule.modifyNode related₃ start (by intro; rfl)).bind fun h₄ g₄ _ related₄ => finish related₄
    · refine (rule.modifyNode (rule.modifyList _ related inTarget) stop (by intro; rfl)).bind fun h₁ g₁ _ related₁ => ?_
      refine rule.read related₁ stop fun e _ _ => ?_
      refine (rule.modifyNode related₁ tail (by intro; rfl)).bind fun h₂ g₂ _ related₂ => ?_
      exact (rule.modifyNode related₂ start (by intro; rfl)).bind fun h₃ g₃ _ related₃ => finish related₃

theorem PairRule.spliceSource (rule : PairRule on R) (related : R h g) (inSource : source ∈ on)
    (sourceTailNext : Option NodePtr) :
    Carries R (spliceSource h source sourceTailNext) (spliceSource g source sourceTailNext) := by
  simp only [Puma.spliceSource, Option.bind_eq_bind, rule.list related inSource]
  cases (h.lists source).tail with
  | none => exact rule.modifyNodeIf (rule.modifyList _ related inSource) _ (by intro; rfl)
  | some tail =>
    exact (rule.modifyNode related tail (by intro; rfl)).bind fun h₁ g₁ _ related₁ => rule.modifyNodeIf related₁ _ (by intro; rfl)

theorem PairRule.transferNNodes (rule : PairRule on R) (related : R h g) (n : Nat) (inSource : source ∈ on)
    (inTarget : target ∈ on) : Carries R (transferNNodes h n source target) (transferNNodes g n source target) := by
  simp only [Puma.transferNNodes, Option.bind_eq_bind, rule.list related inSource]
  cases (h.lists source).tail with
  | none => exact Carries.none _
  | some stop =>
    simp only [Option.bind_some]
    refine rule.read related stop fun e _ _ => ?_
    refine (rule.walkBack related _ _).bind fun start start' _ same => ?_
    rw [← same]
    refine rule.read related start fun s _ _ => ?_
    refine (rule.spliceTarget (rule.modifyList _ related inSource) inTarget _ _).bind fun h₁ g₁ _ related₁ => ?_
    refine (rule.spliceSource related₁ inSource _).bind fun h₂ g₂ _ related₂ => ?_
    refine (rule.indexNodes related₂ _ _).bind fun h₃ g₃ _ related₃ => ?_
    refine (rule.moveNodeThreadLists related₃ _ _ inTarget).bind fun h₄ g₄ _ related₄ => ?_
    refine (rule.updateNumElements related₄ _ _ inSource inTarget).bind fun h₅ g₅ _ related₅ => Carries.some ?_
    exact rule.modifyList _ (rule.modifyList _ related₅ inSource) inTarget

end Transfers

/-- Memory `g` is memory `h` and the nodes of `o` beside it. -/
structure Joined (o h g : Heap α) : Prop where
  nodes : ∀ p, g.node p = (h.node p).or (o.node p)
  apart : ∀ p n, h.node p = some n → o.node p = none
  lists : g.lists = h.lists
  nodeSize : g.nodeSize = h.nodeSize

section Joined

variable {o h g : Heap α}

theorem Joined.node (joined : Joined o h g) {p : NodePtr} {n : PumaNode α} (atNode : h.node p = some n) :
    g.node p = some n := by
  rw [joined.nodes, atNode]
  rfl

theorem Joined.beside (joined : Joined o h g) {p : NodePtr} {n : PumaNode α} (atNode : o.node p = some n) :
    g.node p = some n := by
  cases inside : h.node p with
  | none => rw [joined.nodes, inside, atNode]; rfl
  | some m => rw [joined.apart p m inside] at atNode; cases atNode

theorem Joined.setNode (joined : Joined o h g) {p : NodePtr} {n : PumaNode α} (atNode : h.node p = some n)
    (m : PumaNode α) : Joined o (h.setNode p m) (g.setNode p m) where
  nodes q := by
    rw [Heap.node_setNode, Heap.node_setNode, joined.nodes]
    split <;> rfl
  apart q k atNode' := by
    rw [Heap.node_setNode] at atNode'
    split at atNode'
    · rename_i same
      rw [same]
      exact joined.apart p n atNode
    · exact joined.apart q k atNode'
  lists := joined.lists
  nodeSize := joined.nodeSize

theorem Joined.modifyList (joined : Joined o h g) (l : ListPtr) (f : PumaThreadList → PumaThreadList) :
    Joined o (h.modifyList l f) (g.modifyList l f) where
  nodes := joined.nodes
  apart := joined.apart
  lists := by rw [Heap.modifyList, Heap.modifyList, joined.lists]
  nodeSize := joined.nodeSize

theorem Joined.nufreeAligned (joined : Joined o h g) {p : NodePtr} {n : PumaNode α} (atNode : h.node p = some n) :
    Joined o (h.nufreeAligned p) (g.nufreeAligned p) where
  nodes q := by
    rw [Heap.node_nufreeAligned, Heap.node_nufreeAligned, joined.nodes]
    split
    · rename_i same
      rw [same, joined.apart p n atNode]
      rfl
    · rfl
  apart q k atNode' := by
    rw [Heap.node_nufreeAligned] at atNode'
    split at atNode'
    · cases atNode'
    · exact joined.apart q k atNode'
  lists := joined.lists
  nodeSize := joined.nodeSize

theorem Joined.rule (o : Heap α) : PairRule Set.univ (Joined o) where
  node joined atNode := joined.node atNode
  owner _ _ := Set.mem_univ _
  setNode joined atNode _ := joined.setNode atNode _
  nufreeAligned joined atNode := joined.nufreeAligned atNode
  list joined _ := congrFun joined.lists _
  modifyList f joined _ := joined.modifyList _ f

end Joined

section Cut

/-- A memory without the nodes `c`. -/
def Heap.without (h : Heap α) (c : List NodePtr) : Heap α := c.foldr (fun p h => h.nufreeAligned p) h

theorem Heap.node_without (h : Heap α) (c : List NodePtr) (q : NodePtr) :
    (h.without c).node q = if q ∈ c then none else h.node q := by
  induction c with
  | nil => rw [if_neg List.not_mem_nil]; rfl
  | cons p c ih =>
    rw [Heap.without, List.foldr_cons, Heap.node_nufreeAligned]
    by_cases same : q = p
    · simp [same]
    · rw [if_neg same]
      refine ih.trans ?_
      simp [same]

theorem Heap.lists_without (h : Heap α) (c : List NodePtr) :
    (h.without c).lists = h.lists ∧ (h.without c).nodeSize = h.nodeSize := by
  induction c with
  | nil => exact ⟨rfl, rfl⟩
  | cons p c ih => exact ih

/-- A memory with no other nodes than `c`. -/
noncomputable def Heap.only (h : Heap α) (c : List NodePtr) : Heap α :=
  h.without (h.blocks.toList.filter fun p => p ∉ c)

theorem Heap.node_only (h : Heap α) (c : List NodePtr) (q : NodePtr) :
    (h.only c).node q = if q ∈ c then h.node q else none := by
  rw [Heap.only, Heap.node_without]
  by_cases inside : q ∈ c
  · simp [inside]
  · cases atNode : h.node q with
    | none => simp
    | some n => simp [inside, Heap.mem_blocks.mpr ⟨n, atNode⟩]

theorem Heap.joined_only (h : Heap α) (c : List NodePtr) : Joined (h.without c) (h.only c) h where
  nodes p := by
    rw [Heap.node_only, Heap.node_without]
    split <;> simp
  apart p n atNode := by
    rw [Heap.node_only] at atNode
    split at atNode
    · rename_i inside
      rw [Heap.node_without, if_pos inside]
    · cases atNode
  lists := (Heap.lists_without h _).1.symm
  nodeSize := (Heap.lists_without h _).2.symm

end Cut

end Puma
