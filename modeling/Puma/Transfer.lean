import Puma.Balance
import Puma.ThreadList

namespace Puma

open DoublyLinked

variable {α : Type}

/-- Every node of `h'` is the image of the node of `h` in the same block. -/
def Maps (h h' : Heap α) (f : NodePtr → PumaNode α → PumaNode α) : Prop :=
  ∀ q, h'.node q = (h.node q).map (f q)

theorem Maps.trans {h h' h'' : Heap α} {f g : NodePtr → PumaNode α → PumaNode α} (first : Maps h h' f)
    (second : Maps h' h'' g) : Maps h h'' fun q n => g q (f q n) := by
  intro q
  rw [second, first, Option.map_map]
  rfl

theorem Maps.congr {h h' : Heap α} {f g : NodePtr → PumaNode α → PumaNode α} (maps : Maps h h' f)
    (same : ∀ q n, h.node q = some n → f q n = g q n) : Maps h h' g := by
  intro q
  rw [maps]
  cases atNode : h.node q with
  | none => rfl
  | some n => rw [Option.map_some, Option.map_some, same q n atNode]

theorem Maps.node {h h' : Heap α} {f : NodePtr → PumaNode α → PumaNode α} (maps : Maps h h' f) {p : NodePtr}
    {n : PumaNode α} (atNode : h.node p = some n) : h'.node p = some (f p n) := by
  rw [maps, atNode]
  rfl

theorem Maps.blocks {h h' : Heap α} {f : NodePtr → PumaNode α → PumaNode α} (maps : Maps h h' f) :
    h'.blocks = h.blocks := by
  ext q
  rw [Heap.mem_blocks, Heap.mem_blocks, maps q]
  cases h.node q <;> simp

theorem Maps.next {h h' : Heap α} {f : NodePtr → PumaNode α → PumaNode α} (maps : Maps h h' f)
    (same : ∀ q n, (f q n).next = n.next) : h'.next = h.next := by
  funext q
  rw [Heap.next, Heap.next, Heap.links, Heap.links, maps q]
  cases h.node q with
  | none => rfl
  | some n => exact same q n

theorem Maps.prev {h h' : Heap α} {f : NodePtr → PumaNode α → PumaNode α} (maps : Maps h h' f)
    (same : ∀ q n, (f q n).prev = n.prev) : h'.prev = h.prev := by
  funext q
  rw [Heap.prev, Heap.prev, Heap.links, Heap.links, maps q]
  cases h.node q with
  | none => rfl
  | some n => exact same q n

/-- A store through a pointer. -/
theorem modifyNode_maps {h : Heap α} {p : NodePtr} {n : PumaNode α} (atNode : h.node p = some n)
    (g : PumaNode α → PumaNode α) :
    h.modifyNode p g = some (h.setNode p (g n)) ∧ Maps h (h.setNode p (g n)) fun q => if q = p then g else id := by
  refine ⟨Heap.modifyNode_eq atNode g, fun q => ?_⟩
  rw [Heap.node_setNode]
  by_cases same : q = p
  · simp [same, atNode]
  · simp [same]

/-- `walkBack` follows `prev` through a chain. -/
theorem walkBack_chain {h : Heap α} {before after : Option NodePtr} {C M : List NodePtr} {start : NodePtr}
    (chain : Segment h.next h.prev before (C ++ start :: M) after) {stop : NodePtr}
    (last : (start :: M).getLast? = some stop) : walkBack h M.length stop = some start := by
  induction M using List.reverseRecOn generalizing stop after with
  | nil =>
    cases last
    rfl
  | append_singleton M p ih =>
    have same : stop = p := by
      rw [← List.cons_append, List.getLast?_concat] at last
      exact (Option.some.inj last).symm
    subst same
    have rejoin : C ++ start :: (M ++ [stop]) = (C ++ start :: M) ++ [stop] := by simp
    rw [rejoin] at chain
    have atStop := chain.at.1
    obtain ⟨q, behind⟩ : ∃ q, (start :: M).getLast? = some q := ⟨_, List.getLast?_eq_some_getLast (by simp)⟩
    rw [List.getLast?_append, behind, Option.some_or] at atStop
    have inner := ih (segment_append.mp chain).1 behind
    rw [List.length_append, List.length_singleton, walkBack, atStop]
    exact inner

/-- The loop over `start .. end` whose body rewrites each node but its links to the neighbours. -/
theorem forNodes_set {g : Nat → PumaNode α → PumaNode α} (next : ∀ k n, (g k n).next = n.next)
    (prev : ∀ k n, (g k n).prev = n.prev) {h : Heap α} {before after : Option NodePtr} {M : List NodePtr}
    {start stop : NodePtr} (chain : Segment h.next h.prev before (start :: M) after)
    (last : (start :: M).getLast? = some stop) (nodup : (start :: M).Nodup)
    (present : ∀ q ∈ start :: M, ∃ n, h.node q = some n) {turns k : Nat} (enough : M.length < turns) :
    ∃ h', forNodes (fun k h p n => h.setNode p (g k n)) stop turns k h start = some h' ∧
      Maps h h' (fun q n => if q ∈ start :: M then g (k + (start :: M).idxOf q) n else n) ∧
      h'.lists = h.lists ∧ h'.nodeSize = h.nodeSize := by
  induction M generalizing h start before turns k with
  | nil =>
    obtain ⟨turns, rfl⟩ : ∃ t, turns = t + 1 := ⟨turns - 1, by omega⟩
    obtain ⟨n, atNode⟩ := present start (by simp)
    have same : start = stop := by simpa using last
    refine ⟨h.setNode start (g k n), by simp [forNodes, atNode, ← same], fun q => ?_, rfl, rfl⟩
    rw [Heap.node_setNode]
    by_cases here : q = start
    · simp [here, atNode]
    · simp [here]
  | cons r M ih =>
    obtain ⟨turns, rfl⟩ : ∃ t, turns = t + 1 := ⟨turns - 1, by omega⟩
    obtain ⟨n, atNode⟩ := present start (by simp)
    rw [List.nodup_cons] at nodup
    have inner : start ≠ stop := fun same => by
      rw [List.getLast?_cons_cons] at last
      exact nodup.1 (same ▸ List.mem_of_getLast? last)
    have nextSame : (h.setNode start (g k n)).next = h.next := by
      funext q
      rw [Heap.next, Heap.next, Heap.links_setNode]
      split
      · rename_i same
        rw [same, Heap.links_eq atNode]
        exact next k n
      · rfl
    have prevSame : (h.setNode start (g k n)).prev = h.prev := by
      funext q
      rw [Heap.prev, Heap.prev, Heap.links_setNode]
      split
      · rename_i same
        rw [same, Heap.links_eq atNode]
        exact prev k n
      · rfl
    have behind : (h.setNode start (g k n)).next start = some r := by
      rw [nextSame, chain.2.1]
      rfl
    obtain ⟨h', run, maps, lists, size⟩ := ih (h := h.setNode start (g k n)) (k := k + 1)
      (by rw [nextSame, prevSame]; exact chain.2.2) (by rwa [List.getLast?_cons_cons] at last) nodup.2
      (fun q member => by
        have other : q ≠ start := fun same => nodup.1 (same ▸ member)
        rw [Heap.node_setNode_ne _ _ other]
        exact present q (List.mem_cons_of_mem _ member)) (by simpa using enough)
    refine ⟨h', by simp [forNodes, atNode, inner, behind, run], fun q => ?_, lists, size⟩
    rw [maps q, Heap.node_setNode]
    by_cases here : q = start
    · have out : start ∉ r :: M := nodup.1
      subst here
      simp [atNode, out]
    · have index : k + (start :: r :: M).idxOf q = k + 1 + (r :: M).idxOf q := by
        rw [List.idxOf_cons_ne _ (Ne.symm here)]
        omega
      simp only [index, List.mem_cons (a := q) (b := start), here, false_or,
        if_false]

/-- The counters after `n` elements have moved from one list to the other. -/
def moveCount (h : Heap α) (source target : ListPtr) (n : Nat) : Heap α :=
  (h.modifyList source fun tl => { tl with numElements := sizeSub tl.numElements n }).modifyList target
    fun tl => { tl with numElements := tl.numElements + n }

theorem moveCount_source {h : Heap α} {source target : ListPtr} (apart : source ≠ target) {n : Nat}
    (held : n ≤ (h.lists source).numElements) :
    (moveCount h source target n).lists source =
      { h.lists source with numElements := (h.lists source).numElements - n } := by
  rw [moveCount, Heap.lists_modifyList_ne _ _ apart, Heap.lists_modifyList_self, sizeSub_of_le held]

theorem moveCount_target {h : Heap α} {source target : ListPtr} (apart : source ≠ target) (n : Nat) :
    (moveCount h source target n).lists target =
      { h.lists target with numElements := (h.lists target).numElements + n } := by
  rw [moveCount, Heap.lists_modifyList_self, Heap.lists_modifyList_ne _ _ apart.symm]

theorem moveCount_other (h : Heap α) {source target m : ListPtr} (notSource : m ≠ source) (notTarget : m ≠ target)
    (n : Nat) : (moveCount h source target n).lists m = h.lists m := by
  rw [moveCount, Heap.lists_modifyList_ne _ _ notTarget, Heap.lists_modifyList_ne _ _ notSource]

theorem moveCount_add {h : Heap α} {source target : ListPtr} (apart : source ≠ target) {a b : Nat}
    (held : a + b ≤ (h.lists source).numElements) :
    moveCount (moveCount h source target a) source target b = moveCount h source target (a + b) := by
  have lists : (moveCount (moveCount h source target a) source target b).lists =
      (moveCount h source target (a + b)).lists := by
    have first := moveCount_source apart (h := h) (n := a) (by omega)
    funext m
    by_cases atSource : m = source
    · rw [atSource, moveCount_source apart held, moveCount_source apart (by rw [first]; simp only; omega), first]
      simp only [Nat.sub_sub]
    by_cases atTarget : m = target
    · rw [atTarget, moveCount_target apart, moveCount_target apart, moveCount_target apart]
      simp only [Nat.add_assoc]
    · rw [moveCount_other _ atSource atTarget, moveCount_other _ atSource atTarget,
        moveCount_other _ atSource atTarget]
  simp only [moveCount, Heap.modifyList] at lists ⊢
  rw [lists]

/-- `_updatenumElements` moves the number of the elements on `M` between two counters. -/
theorem updateNumElements_loop {source target : ListPtr} (apart : source ≠ target) {h : Heap α}
    {before after : Option NodePtr} {M : List NodePtr} {start stop : NodePtr}
    (chain : Segment h.next h.prev before (start :: M) after) (last : (start :: M).getLast? = some stop)
    (nodup : (start :: M).Nodup) (present : ∀ q ∈ start :: M, ∃ n, h.node q = some n) {turns k : Nat}
    (enough : M.length < turns) (held : h.count (start :: M) ≤ (h.lists source).numElements) :
    forNodes (fun _ h _ n => moveCount h source target n.numElements) stop turns k h start =
      some (moveCount h source target (h.count (start :: M))) := by
  induction M generalizing h start before turns k with
  | nil =>
    obtain ⟨turns, rfl⟩ : ∃ t, turns = t + 1 := ⟨turns - 1, by omega⟩
    obtain ⟨n, atNode⟩ := present start (by simp)
    have same : start = stop := by simpa using last
    rw [Heap.count_cons atNode, Heap.count_nil, Nat.add_zero]
    simp [forNodes, atNode, ← same]
  | cons r M ih =>
    obtain ⟨turns, rfl⟩ : ∃ t, turns = t + 1 := ⟨turns - 1, by omega⟩
    obtain ⟨n, atNode⟩ := present start (by simp)
    have inner : start ≠ stop := fun same => by
      rw [List.getLast?_cons_cons] at last
      exact (List.nodup_cons.mp nodup).1 (same ▸ List.mem_of_getLast? last)
    have behind : (moveCount h source target n.numElements).next start = some r := by
      have there : h.next start = some r := by
        rw [chain.2.1]
        rfl
      exact there
    rw [Heap.count_cons atNode] at held ⊢
    have sourceCount := moveCount_source apart (h := h) (n := n.numElements) (by omega)
    have same : (moveCount h source target n.numElements).count (r :: M) = h.count (r :: M) := rfl
    have rest := ih (h := moveCount h source target n.numElements)
      (k := k + 1) chain.2.2 (by rwa [List.getLast?_cons_cons] at last) (List.nodup_cons.mp nodup).2
      (fun q member => present q (List.mem_cons_of_mem _ member)) (by simpa using enough)
      (by rw [sourceCount, same]; simp only; omega)
    rw [same, moveCount_add apart held] at rest
    simp only [forNodes, atNode, inner, if_false, Option.bind_eq_bind, Option.bind_some, behind]
    exact rest

/-- The nodes after the splice on the side of the target: `start` .. `stop` stand between
its active nodes `A` and its spare nodes `S`. -/
def targetSplice (A S : List NodePtr) (start stop : NodePtr) (stopIndex : Nat) (q : NodePtr) (n : PumaNode α) :
    PumaNode α :=
  { n with
    next := if q = stop then S.head? else if A.getLast? = some q then some start else n.next
    prev := if q = start then A.getLast? else if S.head? = some q then some stop else n.prev
    index := if A = [] ∧ S.head? = some q then stopIndex + 1 else n.index
    dirty := if A.getLast? = some q then true else n.dirty }

/-- A straight-line sequence of stores: what it does to every node, and to the lists. -/
def Stored (h : Heap α) (run : Option (Heap α)) (f : NodePtr → PumaNode α → PumaNode α)
    (lists : ListPtr → PumaThreadList) : Prop :=
  ∃ h', run = some h' ∧ Maps h h' f ∧ h'.lists = lists ∧ h'.nodeSize = h.nodeSize

theorem Stored.bind {h : Heap α} {run : Option (Heap α)} {k : Heap α → Option (Heap α)}
    {f g : NodePtr → PumaNode α → PumaNode α} {lists lists' : ListPtr → PumaThreadList} (first : Stored h run f lists)
    (second : ∀ h₁, Maps h h₁ f → h₁.lists = lists → Stored h₁ (k h₁) g lists') :
    Stored h (run.bind k) (fun q n => g q (f q n)) lists' := by
  obtain ⟨h₁, rfl, maps₁, lists₁, size₁⟩ := first
  obtain ⟨h₂, run₂, maps₂, lists₂, size₂⟩ := second h₁ maps₁ lists₁
  exact ⟨h₂, run₂, maps₁.trans maps₂, lists₂, size₂.trans size₁⟩

theorem Stored.congr {h : Heap α} {run : Option (Heap α)} {f g : NodePtr → PumaNode α → PumaNode α}
    {lists lists' : ListPtr → PumaThreadList} (stored : Stored h run f lists)
    (same : ∀ q n, h.node q = some n → f q n = g q n) (sameLists : lists = lists') : Stored h run g lists' := by
  obtain ⟨h', run', maps, lists₁, size⟩ := stored
  exact ⟨h', run', maps.congr same, lists₁.trans sameLists, size⟩

theorem Stored.modifyNode {h : Heap α} {p : NodePtr} {n : PumaNode α} {lists : ListPtr → PumaThreadList}
    (atNode : h.node p = some n) (g : PumaNode α → PumaNode α) (known : h.lists = lists) :
    Stored h (h.modifyNode p g) (fun q => if q = p then g else id) lists := by
  obtain ⟨run, maps⟩ := modifyNode_maps atNode g
  exact ⟨_, run, maps, known, rfl⟩

theorem Stored.modifyNodeIf {h : Heap α} {p : Option NodePtr} {lists : ListPtr → PumaThreadList}
    (present : ∀ q, p = some q → ∃ n, h.node q = some n) (g : PumaNode α → PumaNode α) (known : h.lists = lists) :
    Stored h (h.modifyNodeIf p g) (fun q => if p = some q then g else id) lists := by
  cases p with
  | none => exact ⟨h, rfl, fun q => by simp, known, rfl⟩
  | some p =>
    obtain ⟨n, atNode⟩ := present p rfl
    refine (Stored.modifyNode atNode g known).congr (fun q n _ => ?_) rfl
    by_cases here : q = p
    · simp [here]
    · simp [here, Ne.symm here]

theorem Stored.modifyList {h : Heap α} {lists : ListPtr → PumaThreadList} (l : ListPtr)
    (g : PumaThreadList → PumaThreadList) (known : h.lists = lists) :
    Stored h (some (h.modifyList l g)) (fun _ => id) (Function.update lists l (g (lists l))) := by
  subst known
  exact ⟨_, rfl, fun q => by simp, rfl, rfl⟩

theorem Stored.read {h : Heap α} {p : NodePtr} {n : PumaNode α} {rest : PumaNode α → Option (Heap α)}
    {f : NodePtr → PumaNode α → PumaNode α} {lists : ListPtr → PumaThreadList} (atNode : h.node p = some n)
    (next : Stored h (rest n) f lists) : Stored h ((h.node p).bind rest) f lists := by
  rw [atNode]
  exact next

/-- Stores that start from other lists. -/
theorem Stored.rebase {h h₀ : Heap α} {run : Option (Heap α)} {f : NodePtr → PumaNode α → PumaNode α}
    {lists : ListPtr → PumaThreadList} (stored : Stored h₀ run f lists) (same : h₀.node = h.node)
    (size : h₀.nodeSize = h.nodeSize) : Stored h run f lists := by
  obtain ⟨h', run', maps, lists', size'⟩ := stored
  exact ⟨h', run', fun q => by rw [maps q, same], lists', size'.trans size⟩

theorem spliceTarget_run {h : Heap α} {target : ListPtr} {A S : List NodePtr} (shape : Shape h target A S)
    {start stop : NodePtr} {ns ne : PumaNode α} (atStart : h.node start = some ns) (atStop : h.node stop = some ne)
    (startOut : start ∉ A ++ S) (stopOut : stop ∉ A ++ S) :
    Stored h (spliceTarget h target start stop) (targetSplice A S start stop ne.index)
      (Function.update h.lists target { h.lists target with
        head := if A = [] then some start else (h.lists target).head, tail := some stop }) := by
  have ends := shape.tail
  rcases List.eq_nil_or_concat A with rfl | ⟨B, t, rfl⟩
  · cases S with
    | nil =>
      have atTail : (h.lists target).tail = none := ends
      simp only [spliceTarget, atTail, Option.bind_eq_bind, Option.pure_def]
      generalize started : (h.modifyList target fun tl => { tl with head := some start }) = h₀
      have same₀ : h₀.node = h.node := by rw [← started]; rfl
      refine Stored.rebase ?_ same₀ (by rw [← started]; rfl)
      refine Stored.congr (Stored.bind (Stored.modifyNode (n := ne) (by rw [same₀, atStop]) _ rfl)
        fun h₁ maps₁ lists₁ => Stored.bind (Stored.modifyNode (maps₁.node (by rw [same₀, atStart])) _ lists₁)
        fun h₂ _ lists₂ => Stored.modifyList _ _ lists₂) (fun q n _ => ?_) ?_
      · simp only [targetSplice, List.getLast?_nil, List.head?_nil, reduceCtorEq, and_false, if_false]
        split_ifs <;> rfl
      · simp [← started, Heap.modifyList]
    | cons s S =>
      have atTail : (h.lists target).tail = some s := ends
      obtain ⟨m, atFirst, _⟩ := shape.node (p := s) (by simp)
      have off : m.active = false := by
        rw [← Bool.not_eq_true, shape.active_iff atFirst (by simp)]
        exact List.not_mem_nil
      simp only [spliceTarget, atTail, atFirst, off, Option.bind_eq_bind, Option.bind_some, Option.pure_def,
        Bool.false_eq_true, if_false]
      generalize started : (h.modifyList target fun tl => { tl with head := some start }) = h₀
      have same₀ : h₀.node = h.node := by rw [← started]; rfl
      refine Stored.rebase ?_ same₀ (by rw [← started]; rfl)
      refine Stored.congr (Stored.bind (Stored.modifyNode (n := ne) (by rw [same₀, atStop]) _ rfl)
        fun h₁ maps₁ lists₁ => Stored.read (maps₁.node (by rw [same₀, atStop])) <|
        Stored.bind (Stored.modifyNode (maps₁.node (by rw [same₀, atFirst])) _ lists₁) fun h₂ maps₂ lists₂ =>
        Stored.bind (Stored.modifyNode (maps₂.node (maps₁.node (by rw [same₀, atStart]))) _ lists₂)
          fun h₃ _ lists₃ => Stored.modifyList _ _ lists₃) (fun q n _ => ?_) ?_
      · simp only [targetSplice, List.getLast?_nil, List.head?_cons, Option.some.injEq, reduceCtorEq, if_false, true_and,
          if_true]
        split_ifs <;> first | rfl | simp_all
      · simp [← started, Heap.modifyList]
  · rw [List.concat_eq_append] at shape ends startOut stopOut ⊢
    have atTail : (h.lists target).tail = some t := by rw [ends]; simp
    obtain ⟨m, atLast, _⟩ := shape.node (p := t) (by simp)
    have on : m.active = true := (shape.active_iff atLast (by simp)).mpr (by simp)
    have after : m.next = S.head? := shape.next_eq (B := B) (D := S) (by simp) atLast
    have spareT : ∀ s, S.head? = some s → s ≠ t ∧ s ≠ start ∧ s ≠ stop ∧ ∃ k, h.node s = some k := by
      intro s first
      have inS := List.mem_of_mem_head? first
      obtain ⟨k, atSpare, _⟩ := shape.node (List.mem_append_right (B ++ [t]) inS)
      exact ⟨fun same => shape.notMem_active inS (by simp [same]), fun same => startOut (by simp [← same, inS]),
        fun same => stopOut (by simp [← same, inS]), k, atSpare⟩
    simp only [spliceTarget, atTail, atLast, on, Option.bind_eq_bind, Option.bind_some, Option.pure_def, if_true, after]
    refine Stored.congr (Stored.bind (Stored.modifyNode atStop _ rfl) fun h₁ maps₁ lists₁ =>
      Stored.bind (Stored.modifyNodeIf (fun s first => ⟨_, maps₁.node (spareT s first).2.2.2.choose_spec⟩) _ lists₁)
        fun h₂ maps₂ lists₂ =>
      Stored.bind (Stored.modifyNode (maps₂.node (maps₁.node atLast)) _ lists₂) fun h₃ maps₃ lists₃ =>
      Stored.bind (Stored.modifyNode (maps₃.node (maps₂.node (maps₁.node atStart))) _ lists₃)
        fun h₄ _ lists₄ => Stored.modifyList _ _ lists₄) (fun q n _ => ?_) ?_
    · have last : ∀ q, (B ++ [t]).getLast? = some q ↔ q = t := fun q => by simp [eq_comm]
      have filled : B ++ [t] ≠ [] := by simp
      simp only [targetSplice, last, filled, false_and, if_false]
      by_cases first : S.head? = some q
      · obtain ⟨notT, notStart, notStop, _⟩ := spareT q first
        simp [first, notT, notStart, notStop]
      · simp only [if_neg first]
        split_ifs <;> first | rfl | simp_all
    · simp

/-- The nodes after the splice on the side of the source: its active nodes `K` are followed by its spare nodes `S`. -/
def sourceSplice (K S : List NodePtr) (q : NodePtr) (n : PumaNode α) : PumaNode α :=
  { n with
    next := if K.getLast? = some q then S.head? else n.next
    prev := if S.head? = some q then K.getLast? else n.prev
    index := if K = [] ∧ S.head? = some q then 0 else n.index }

theorem spliceSource_run {h : Heap α} {source : ListPtr} {K S : List NodePtr}
    (present : ∀ q ∈ K ++ S, ∃ n, h.node q = some n) (apart : ∀ q ∈ K, q ∉ S)
    (atTail : (h.lists source).tail = K.getLast?) :
    Stored h (spliceSource h source S.head?) (sourceSplice K S) (Function.update h.lists source
      (if K = [] then { h.lists source with head := S.head?, tail := S.head? } else h.lists source)) := by
  have first : ∀ q, S.head? = some q → ∃ n, h.node q = some n := fun q atHead =>
    present q (List.mem_append_right K (List.mem_of_mem_head? atHead))
  rcases List.eq_nil_or_concat K with rfl | ⟨B, t, rfl⟩
  · have missing : (h.lists source).tail = none := atTail
    simp only [spliceSource, missing]
    generalize started : (h.modifyList source fun tl => { tl with head := S.head?, tail := S.head? }) = h₀
    have same₀ : h₀.node = h.node := by rw [← started]; rfl
    refine Stored.rebase ?_ same₀ (by rw [← started]; rfl)
    rw [← same₀] at first
    refine Stored.congr (Stored.modifyNodeIf first _ rfl) (fun q n _ => ?_) ?_
    · simp only [sourceSplice, List.getLast?_nil, reduceCtorEq, if_false, true_and]
      split_ifs <;> rfl
    · simp [← started, Heap.modifyList]
  · rw [List.concat_eq_append] at present apart atTail ⊢
    obtain ⟨n, atLast⟩ := present t (by simp)
    have last : (h.lists source).tail = some t := by rw [atTail]; simp
    simp only [spliceSource, last, Option.bind_eq_bind]
    refine Stored.congr (Stored.bind (Stored.modifyNode atLast _ rfl) fun h₁ maps₁ lists₁ =>
      Stored.modifyNodeIf (fun q atHead => ⟨_, maps₁.node (first q atHead).choose_spec⟩) _ lists₁) (fun q n _ => ?_) ?_
    · have same : ∀ q, (B ++ [t]).getLast? = some q ↔ q = t := fun q => by simp [eq_comm]
      have filled : B ++ [t] ≠ [] := by simp
      simp only [sourceSplice, same, filled, false_and, if_false]
      by_cases atHead : S.head? = some q
      · have other : q ≠ t := fun equal => apart t (by simp) (equal ▸ List.mem_of_mem_head? atHead)
        simp [atHead, other]
      · simp only [if_neg atHead]
        split_ifs <;> rfl
    · simp

/-- Two lists of the right shape, the first of them with the active nodes `K ++ M` and the elements on `M`. -/
structure TransferPre (h : Heap α) (source target : ListPtr) (K M Ss At St : List NodePtr) : Prop where
  apart : source ≠ target
  sourceShape : Shape h source (K ++ M) Ss
  targetShape : Shape h target At St
  moved : M ≠ []
  held : h.count M ≤ (h.lists source).numElements

section Transfer

variable {h : Heap α} {source target : ListPtr} {K M Ss At St : List NodePtr}

theorem TransferPre.disjoint (pre : TransferPre h source target K M Ss At St) {q : NodePtr}
    (inSource : q ∈ K ++ M ++ Ss) : q ∉ At ++ St := fun inTarget => by
  obtain ⟨k, atLinks, owner⟩ := pre.sourceShape.owned q inSource
  obtain ⟨k', atLinks', owner'⟩ := pre.targetShape.owned q inTarget
  rw [Option.some.inj (atLinks.symm.trans atLinks')] at owner
  exact pre.apart (owner.symm.trans owner')

/-- The splices of `_transferNNodes`, one after the other. -/
def transferSplice (K Ss At St : List NodePtr) (start stop : NodePtr) (stopIndex : Nat) (q : NodePtr)
    (n : PumaNode α) : PumaNode α :=
  sourceSplice K Ss q (targetSplice At St start stop stopIndex q n)

/-- A node after `_transferNNodes` has moved the nodes `M`. -/
def transferNode (K M Ss At St : List NodePtr) (start stop : NodePtr) (stopIndex : Nat) (target : ListPtr)
    (q : NodePtr) (n : PumaNode α) : PumaNode α :=
  let n := transferSplice K Ss At St start stop stopIndex q n
  if q ∈ M then { n with index := At.length + M.idxOf q, threadList := target } else n

theorem TransferPre.present (pre : TransferPre h source target K M Ss At St) {q : NodePtr}
    (member : q ∈ K ++ M ++ Ss ∨ q ∈ At ++ St) : ∃ n, h.node q = some n := by
  rcases member with inSource | inTarget
  · obtain ⟨n, atNode, _⟩ := pre.sourceShape.node inSource
    exact ⟨n, atNode⟩
  · obtain ⟨n, atNode, _⟩ := pre.targetShape.node inTarget
    exact ⟨n, atNode⟩

section Chains

variable {start stop : NodePtr} {stopIndex : Nat} {h₂ : Heap α}

/-- The links that the splices leave. -/
structure Spliced (h h₂ : Heap α) (K Ss At St : List NodePtr) (start stop : NodePtr) : Prop where
  next : ∀ q n, h.node q = some n → h₂.next q = if K.getLast? = some q then Ss.head? else if q = stop then St.head?
    else if At.getLast? = some q then some start else h.next q
  prev : ∀ q n, h.node q = some n → h₂.prev q = if Ss.head? = some q then K.getLast? else if q = start then At.getLast?
    else if St.head? = some q then some stop else h.prev q

theorem Maps.spliced {f : NodePtr → PumaNode α → PumaNode α} (maps : Maps h h₂ f)
    (next : ∀ q n, (f q n).next = (transferSplice K Ss At St start stop stopIndex q n).next)
    (prev : ∀ q n, (f q n).prev = (transferSplice K Ss At St start stop stopIndex q n).prev) :
    Spliced h h₂ K Ss At St start stop where
  next q n atNode := by
    rw [Heap.next_eq (maps.node atNode), Heap.next_eq atNode, next]
    rfl
  prev q n atNode := by
    rw [Heap.prev_eq (maps.node atNode), Heap.prev_eq atNode, prev]
    rfl

/-- The five pieces of the two chains meet nowhere. -/
structure Pieces (K M Ss At St : List NodePtr) : Prop where
  nodupM : M.Nodup
  keptMoved : ∀ q ∈ K, q ∉ M
  keptSpare : ∀ q ∈ K, q ∉ Ss
  movedSpare : ∀ q ∈ M, q ∉ Ss
  targetSpare : ∀ q ∈ At, q ∉ St
  sides : ∀ q, q ∈ K ∨ q ∈ M ∨ q ∈ Ss → q ∉ At ∧ q ∉ St

theorem TransferPre.pieces (pre : TransferPre h source target K M Ss At St) : Pieces K M Ss At St := by
  have nodup := pre.sourceShape.nodup
  rw [List.append_assoc, List.nodup_append, List.nodup_append] at nodup
  obtain ⟨_, ⟨nodupM, _, movedSpare⟩, kept⟩ := nodup
  refine ⟨nodupM, fun q inK inM => kept q inK q (List.mem_append_left _ inM) rfl,
    fun q inK inS => kept q inK q (List.mem_append_right _ inS) rfl, fun q inM inS => movedSpare q inM q inS rfl,
    fun q inA => pre.targetShape.notMem_spare inA, fun q member => ?_⟩
  have out := pre.disjoint (q := q) (by simpa [or_assoc] using member)
  rwa [List.mem_append, not_or] at out

/-- The splices write to no kept node but the last. -/
theorem Pieces.kept (pieces : Pieces K M Ss At St) (first : M.head? = some start) (last : M.getLast? = some stop)
    {q : NodePtr} (member : q ∈ K) :
    q ≠ start ∧ q ≠ stop ∧ Ss.head? ≠ some q ∧ At.getLast? ≠ some q ∧ St.head? ≠ some q :=
  ⟨fun same => pieces.keptMoved q member (same ▸ List.mem_of_mem_head? first),
    fun same => pieces.keptMoved q member (same ▸ List.mem_of_getLast? last),
    fun same => pieces.keptSpare q member (List.mem_of_mem_head? same),
    fun same => (pieces.sides q (Or.inl member)).1 (List.mem_of_getLast? same),
    fun same => (pieces.sides q (Or.inl member)).2 (List.mem_of_mem_head? same)⟩

theorem Pieces.moved (pieces : Pieces K M Ss At St) {q : NodePtr} (member : q ∈ M) :
    K.getLast? ≠ some q ∧ Ss.head? ≠ some q ∧ At.getLast? ≠ some q ∧ St.head? ≠ some q :=
  ⟨fun same => pieces.keptMoved q (List.mem_of_getLast? same) member,
    fun same => pieces.movedSpare q member (List.mem_of_mem_head? same),
    fun same => (pieces.sides q (Or.inr (Or.inl member))).1 (List.mem_of_getLast? same),
    fun same => (pieces.sides q (Or.inr (Or.inl member))).2 (List.mem_of_mem_head? same)⟩

theorem Pieces.spare (pieces : Pieces K M Ss At St) (first : M.head? = some start) (last : M.getLast? = some stop)
    {q : NodePtr} (member : q ∈ Ss) :
    K.getLast? ≠ some q ∧ q ≠ start ∧ q ≠ stop ∧ At.getLast? ≠ some q ∧ St.head? ≠ some q :=
  ⟨fun same => pieces.keptSpare q (List.mem_of_getLast? same) member,
    fun same => pieces.movedSpare start (List.mem_of_mem_head? first) (same ▸ member),
    fun same => pieces.movedSpare stop (List.mem_of_getLast? last) (same ▸ member),
    fun same => (pieces.sides q (Or.inr (Or.inr member))).1 (List.mem_of_getLast? same),
    fun same => (pieces.sides q (Or.inr (Or.inr member))).2 (List.mem_of_mem_head? same)⟩

theorem Pieces.onTarget (pieces : Pieces K M Ss At St) (first : M.head? = some start) (last : M.getLast? = some stop)
    {q : NodePtr} (member : q ∈ At ++ St) :
    K.getLast? ≠ some q ∧ Ss.head? ≠ some q ∧ q ≠ start ∧ q ≠ stop := by
  have out (inside : q ∈ K ∨ q ∈ M ∨ q ∈ Ss) : False := by
    obtain ⟨notA, notS⟩ := pieces.sides q inside
    rcases List.mem_append.mp member with inA | inSt
    · exact notA inA
    · exact notS inSt
  exact ⟨fun same => out (Or.inl (List.mem_of_getLast? same)),
    fun same => out (Or.inr (Or.inr (List.mem_of_mem_head? same))),
    fun same => out (Or.inr (Or.inl (same ▸ List.mem_of_mem_head? first))),
    fun same => out (Or.inr (Or.inl (same ▸ List.mem_of_getLast? last)))⟩

section Spliced

variable (pre : TransferPre h source target K M Ss At St) (spliced : Spliced h h₂ K Ss At St start stop)
  (first : M.head? = some start) (last : M.getLast? = some stop)

include pre spliced

theorem Spliced.next_eq {q : NodePtr} (member : q ∈ K ++ M ++ Ss ∨ q ∈ At ++ St) :
    h₂.next q = if K.getLast? = some q then Ss.head? else if q = stop then St.head?
      else if At.getLast? = some q then some start else h.next q :=
  spliced.next q _ (pre.present member).choose_spec

theorem Spliced.prev_eq {q : NodePtr} (member : q ∈ K ++ M ++ Ss ∨ q ∈ At ++ St) :
    h₂.prev q = if Ss.head? = some q then K.getLast? else if q = start then At.getLast?
      else if St.head? = some q then some stop else h.prev q :=
  spliced.prev q _ (pre.present member).choose_spec

include first last

/-- The kept nodes stay a chain, and go on with the spare nodes. -/
theorem Spliced.chain_kept : Segment h₂.next h₂.prev none K Ss.head? := by
  have pieces := pre.pieces
  have chain := pre.sourceShape.chain
  rw [List.append_assoc] at chain
  have chainK := (segment_append.mp chain).1
  have nodup := (List.nodup_append.mp pre.sourceShape.nodup_active).1
  refine chainK.relink (fun q member inner => ?_) (fun q member _ => ?_) (fun q atHead => ?_) (fun q atLast => ?_) nodup
  · obtain ⟨_, notStop, _, notLast, _⟩ := pieces.kept first last member
    rw [spliced.next_eq pre (by simp [member]), if_neg inner, if_neg notStop, if_neg notLast]
  · obtain ⟨notStart, _, notFirst, _, notFirst'⟩ := pieces.kept first last member
    rw [spliced.prev_eq pre (by simp [member]), if_neg notFirst, if_neg notStart, if_neg notFirst']
  · have member := List.mem_of_mem_head? atHead
    obtain ⟨notStart, _, notFirst, _, notFirst'⟩ := pieces.kept first last member
    rw [spliced.prev_eq pre (by simp [member]), if_neg notFirst, if_neg notStart, if_neg notFirst']
    exact chainK.prev_head atHead
  · have member := List.mem_of_getLast? atLast
    rw [spliced.next_eq pre (by simp [member]), if_pos atLast]

theorem Spliced.chain_spare : Segment h₂.next h₂.prev K.getLast? Ss none := by
  have pieces := pre.pieces
  have chain := pre.sourceShape.chain
  rw [List.append_assoc] at chain
  have chainS := (segment_append.mp (segment_append.mp chain).2).2
  have nodup := (List.nodup_append.mp pre.sourceShape.nodup).2.1
  refine chainS.relink (fun q member _ => ?_) (fun q member inner => ?_) (fun q atHead => ?_) (fun q atLast => ?_) nodup
  · obtain ⟨notKept, _, notStop, notLast, _⟩ := pieces.spare first last member
    rw [spliced.next_eq pre (by simp [member]), if_neg notKept, if_neg notStop, if_neg notLast]
  · obtain ⟨_, notStart, _, _, notFirst⟩ := pieces.spare first last member
    rw [spliced.prev_eq pre (by simp [member]), if_neg inner, if_neg notStart, if_neg notFirst]
  · have member := List.mem_of_mem_head? atHead
    rw [spliced.prev_eq pre (by simp [member]), if_pos atHead]
  · have member := List.mem_of_getLast? atLast
    obtain ⟨notKept, _, notStop, notLast, _⟩ := pieces.spare first last member
    rw [spliced.next_eq pre (by simp [member]), if_neg notKept, if_neg notStop, if_neg notLast]
    exact chainS.next_last atLast

/-- The target's active nodes go on with the moved ones. -/
theorem Spliced.chain_target : Segment h₂.next h₂.prev none At (some start) := by
  have pieces := pre.pieces
  have chainAt := (segment_append.mp pre.targetShape.chain).1
  have notFirst {q : NodePtr} (member : q ∈ At) : St.head? ≠ some q := fun same =>
    pieces.targetSpare q member (List.mem_of_mem_head? same)
  refine chainAt.relink (fun q member inner => ?_) (fun q member _ => ?_) (fun q atHead => ?_) (fun q atLast => ?_)
    pre.targetShape.nodup_active
  · obtain ⟨notKept, _, _, notStop⟩ := pieces.onTarget first last (List.mem_append_left St member)
    rw [spliced.next_eq pre (by simp [member]), if_neg notKept, if_neg notStop, if_neg inner]
  · obtain ⟨_, notSpare, notStart, _⟩ := pieces.onTarget first last (List.mem_append_left St member)
    rw [spliced.prev_eq pre (by simp [member]), if_neg notSpare, if_neg notStart, if_neg (notFirst member)]
  · have member := List.mem_of_mem_head? atHead
    obtain ⟨_, notSpare, notStart, _⟩ := pieces.onTarget first last (List.mem_append_left St member)
    rw [spliced.prev_eq pre (by simp [member]), if_neg notSpare, if_neg notStart, if_neg (notFirst member)]
    exact chainAt.prev_head atHead
  · have member := List.mem_of_getLast? atLast
    obtain ⟨notKept, _, _, notStop⟩ := pieces.onTarget first last (List.mem_append_left St member)
    rw [spliced.next_eq pre (by simp [member]), if_neg notKept, if_neg notStop, if_pos atLast]

/-- The moved nodes stay a chain, between the active and the spare nodes of the target. -/
theorem Spliced.chain_moved : Segment h₂.next h₂.prev At.getLast? M St.head? := by
  have pieces := pre.pieces
  have chain := pre.sourceShape.chain
  rw [List.append_assoc] at chain
  have chainM := (segment_append.mp (segment_append.mp chain).2).1
  refine chainM.relink (fun q member inner => ?_) (fun q member inner => ?_) (fun q atHead => ?_) (fun q atLast => ?_)
    pieces.nodupM
  · obtain ⟨notKept, _, notLast, _⟩ := pieces.moved member
    have notStop : q ≠ stop := fun same => inner (same ▸ last)
    rw [spliced.next_eq pre (by simp [member]), if_neg notKept, if_neg notStop, if_neg notLast]
  · obtain ⟨_, notSpare, _, notFirst⟩ := pieces.moved member
    have notStart : q ≠ start := fun same => inner (same ▸ first)
    rw [spliced.prev_eq pre (by simp [member]), if_neg notSpare, if_neg notStart, if_neg notFirst]
  · have member := List.mem_of_mem_head? atHead
    have same : q = start := Option.some.inj (atHead.symm.trans first)
    rw [spliced.prev_eq pre (by simp [member]), if_neg (pieces.moved member).2.1, if_pos same]
  · have member := List.mem_of_getLast? atLast
    have same : q = stop := Option.some.inj (atLast.symm.trans last)
    rw [spliced.next_eq pre (by simp [member]), if_neg (pieces.moved member).1, if_pos same]

theorem Spliced.chain_targetSpare : Segment h₂.next h₂.prev (some stop) St none := by
  have pieces := pre.pieces
  have chainSt := (segment_append.mp pre.targetShape.chain).2
  have nodup := (List.nodup_append.mp pre.targetShape.nodup).2.1
  have notLast {q : NodePtr} (member : q ∈ St) : At.getLast? ≠ some q := fun same =>
    pieces.targetSpare q (List.mem_of_getLast? same) member
  refine chainSt.relink (fun q member _ => ?_) (fun q member inner => ?_) (fun q atHead => ?_) (fun q atLast => ?_) nodup
  · obtain ⟨notKept, _, _, notStop⟩ := pieces.onTarget first last (List.mem_append_right At member)
    rw [spliced.next_eq pre (by simp [member]), if_neg notKept, if_neg notStop, if_neg (notLast member)]
  · obtain ⟨_, notSpare, notStart, _⟩ := pieces.onTarget first last (List.mem_append_right At member)
    rw [spliced.prev_eq pre (by simp [member]), if_neg notSpare, if_neg notStart, if_neg inner]
  · have member := List.mem_of_mem_head? atHead
    obtain ⟨_, notSpare, notStart, _⟩ := pieces.onTarget first last (List.mem_append_right At member)
    rw [spliced.prev_eq pre (by simp [member]), if_neg notSpare, if_neg notStart, if_pos atHead]
  · have member := List.mem_of_getLast? atLast
    obtain ⟨notKept, _, _, notStop⟩ := pieces.onTarget first last (List.mem_append_right At member)
    rw [spliced.next_eq pre (by simp [member]), if_neg notKept, if_neg notStop, if_neg (notLast member)]
    exact chainSt.next_last atLast

end Spliced

theorem TransferPre.chains (pre : TransferPre h source target K M Ss At St)
    (spliced : Spliced h h₂ K Ss At St start stop) (first : M.head? = some start)
    (last : M.getLast? = some stop) :
    Segment h₂.next h₂.prev none (K ++ Ss) none ∧ Segment h₂.next h₂.prev none At (some start) ∧
      Segment h₂.next h₂.prev At.getLast? M St.head? ∧ Segment h₂.next h₂.prev (some stop) St none := by
  refine ⟨segment_append.mpr ⟨?_, ?_⟩, spliced.chain_target pre first last, spliced.chain_moved pre first last,
    spliced.chain_targetSpare pre first last⟩
  · rw [Option.or_none]
    exact spliced.chain_kept pre first last
  · rw [Option.or_none]
    exact spliced.chain_spare pre first last

end Chains

/-- The memory after `_transferNNodes` has moved the nodes `M` from behind `K` to behind `At`. -/
structure Transferred (h h' : Heap α) (source target : ListPtr) (K M Ss At St : List NodePtr) (start stop : NodePtr)
    (stopIndex : Nat) : Prop where
  maps : Maps h h' (transferNode K M Ss At St start stop stopIndex target)
  sourceList : h'.lists source = { h.lists source with
    head := if K = [] then Ss.head? else (h.lists source).head
    tail := K.getLast?.or Ss.head?
    numElements := (h.lists source).numElements - h.count M
    numNodes := (h.lists source).numNodes - M.length }
  targetList : h'.lists target = { h.lists target with
    head := if At = [] then some start else (h.lists target).head
    tail := some stop
    numElements := (h.lists target).numElements + h.count M
    numNodes := (h.lists target).numNodes + M.length }
  otherLists : ∀ m, m ≠ source → m ≠ target → h'.lists m = h.lists m
  nodeSize : h'.nodeSize = h.nodeSize

theorem transferNode_toSlots (K M Ss At St : List NodePtr) (start stop : NodePtr) (stopIndex : Nat)
    (target : ListPtr) (q : NodePtr) (n : PumaNode α) :
    (transferNode K M Ss At St start stop stopIndex target q n).toSlots =
      { n.toSlots with dirty := if At.getLast? = some q then true else n.dirty } := by
  unfold transferNode
  dsimp only
  split <;> rfl

theorem transferNode_slots {K M Ss At St : List NodePtr} {start stop : NodePtr} {stopIndex : Nat} {target : ListPtr}
    (q : NodePtr) (n : PumaNode α) : ∃ dirty, (transferNode K M Ss At St start stop stopIndex target q n).toSlots =
      { n.toSlots with dirty := dirty } ∧ (dirty = false → n.dirty = false) := by
  refine ⟨_, transferNode_toSlots K M Ss At St start stop stopIndex target q n, fun clean => ?_⟩
  split at clean
  · cases clean
  · exact clean

theorem transferNode_active {K M Ss At St : List NodePtr} {start stop : NodePtr} {stopIndex : Nat} {target : ListPtr}
    (q : NodePtr) (n : PumaNode α) :
    (transferNode K M Ss At St start stop stopIndex target q n).active = n.active := by
  unfold transferNode
  dsimp only
  split <;> rfl

theorem Maps.contents {h h' : Heap α} {f : NodePtr → PumaNode α → PumaNode α} (maps : Maps h h' f)
    (slots : ∀ q n, ∃ dirty, (f q n).toSlots = { n.toSlots with dirty := dirty } ∧ (dirty = false → n.dirty = false)) :
    h'.contents = h.contents := by
  funext q
  rw [Heap.contents, Heap.contents, Heap.slots, Heap.slots, maps q, Option.map_map, Option.map_map, Option.map_map]
  congr 1
  cases h.node q with
  | none => rfl
  | some n =>
    obtain ⟨dirty, same, _⟩ := slots q n
    simp only [Option.map_some, Function.comp_apply, same]
    rfl

theorem Maps.count {h h' : Heap α} {f : NodePtr → PumaNode α → PumaNode α} (maps : Maps h h' f)
    (slots : ∀ q n, ∃ dirty, (f q n).toSlots = { n.toSlots with dirty := dirty } ∧ (dirty = false → n.dirty = false))
    (c : List NodePtr) : h'.count c = h.count c := by
  refine Heap.count_congr fun q _ => ?_
  rw [Heap.slots, Heap.slots, maps q, Option.map_map, Option.map_map, Option.map_map]
  cases h.node q with
  | none => rfl
  | some n =>
    obtain ⟨dirty, same, _⟩ := slots q n
    simp only [Option.map_some, Function.comp_apply, same]

/-- A memory with the same blocks has enough of them for a loop over the moved nodes. -/
theorem TransferPre.enough {g : Heap α} {start : NodePtr} {M' : List NodePtr}
    (pre : TransferPre h source target K (start :: M') Ss At St) (blocks : g.blocks = h.blocks) :
    M'.length < g.blocks.card + 1 := by
  have bound := pre.sourceShape.card_le_blocks
  rw [blocks]
  simp only [List.length_append, List.length_cons] at bound
  omega

/-- What `_transferNNodes` reads before it splices. -/
theorem TransferPre.ends {start stop : NodePtr} {M' : List NodePtr}
    (pre : TransferPre h source target K (start :: M') Ss At St) (last : (start :: M').getLast? = some stop) :
    (h.lists source).tail = some stop ∧ (∃ e, h.node stop = some e ∧ e.next = Ss.head?) ∧
      (∃ s, h.node start = some s ∧ s.prev = K.getLast?) ∧ walkBack h M'.length stop = some start := by
  have stopM : stop ∈ start :: M' := List.mem_of_getLast? last
  obtain ⟨s, atStart⟩ := pre.present (q := start) (by simp)
  obtain ⟨e, atStop⟩ := pre.present (Or.inl (List.mem_append_left Ss (List.mem_append_right K stopM)))
  refine ⟨?_, ⟨e, atStop, ?_⟩, ⟨s, atStart, ?_⟩, ?_⟩
  · rw [pre.sourceShape.tail, List.getLast?_append, last]
    rfl
  · obtain ⟨C, split⟩ := List.getLast?_eq_some_iff.mp last
    exact pre.sourceShape.next_eq (B := K ++ C) (D := Ss) (by simp [split]) atStop
  · exact pre.sourceShape.prev_eq (B := K) (D := M' ++ Ss) (by simp) atStart
  · have chain := pre.sourceShape.chain
    rw [List.append_assoc, List.cons_append] at chain
    have short := (segment_append (c := K ++ start :: M') (d := Ss)).mp (by simpa using chain)
    exact walkBack_chain short.1 last

/-- The lists' ends after the splices. -/
def splicedLists (lists : ListPtr → PumaThreadList) (source target : ListPtr) (K Ss At : List NodePtr)
    (start stop : NodePtr) : ListPtr → PumaThreadList :=
  Function.update (Function.update lists source { lists source with
    head := if K = [] then Ss.head? else (lists source).head, tail := K.getLast?.or Ss.head? }) target
    { lists target with head := if At = [] then some start else (lists target).head, tail := some stop }

/-- The splices, from the tail that the source gives up on. -/
theorem TransferPre.splices {start stop : NodePtr} {s e : PumaNode α}
    (pre : TransferPre h source target K M Ss At St) (first : M.head? = some start) (last : M.getLast? = some stop)
    (atStart : h.node start = some s) (atStop : h.node stop = some e) (front : s.prev = K.getLast?) :
    ∃ h₂ h₃, spliceTarget (h.modifyList source fun tl => { tl with tail := s.prev }) target start stop = some h₂ ∧
      spliceSource h₂ source Ss.head? = some h₃ ∧ Maps h h₃ (transferSplice K Ss At St start stop e.index) ∧
      h₃.lists = splicedLists h.lists source target K Ss At start stop ∧ h₃.nodeSize = h.nodeSize := by
  have startM := List.mem_of_mem_head? first
  have stopM := List.mem_of_getLast? last
  generalize cut : (h.modifyList source fun tl => { tl with tail := s.prev }) = h₁
  have same₁ : h₁.node = h.node := by rw [← cut]; rfl
  have size₁ : h₁.nodeSize = h.nodeSize := by rw [← cut]; rfl
  have lists₁ : h₁.lists = Function.update h.lists source { h.lists source with tail := s.prev } := by rw [← cut]; rfl
  have shape₁ : Shape h₁ target At St := pre.targetShape.of_untouched
    ⟨fun q n _ => by rw [same₁], by rw [lists₁, Function.update_of_ne pre.apart.symm]⟩
  have startOut := pre.disjoint (List.mem_append_left Ss (List.mem_append_right K startM))
  have stopOut := pre.disjoint (List.mem_append_left Ss (List.mem_append_right K stopM))
  obtain ⟨h₂, run₂, maps₂, lists₂, size₂⟩ := spliceTarget_run shape₁ (by rw [same₁, atStart])
    (by rw [same₁, atStop]) startOut stopOut
  have source₂ : h₂.lists source = { h.lists source with tail := s.prev } := by
    rw [lists₂, Function.update_of_ne pre.apart, lists₁, Function.update_self]
  obtain ⟨h₃, run₃, maps₃, lists₃, size₃⟩ := spliceSource_run (h := h₂) (K := K) (S := Ss)
    (fun q member => by
      obtain ⟨n, atNode⟩ := pre.present (q := q) (by
        rcases List.mem_append.mp member with inK | inS
        · simp [inK]
        · simp [inS])
      exact ⟨_, maps₂.node (by rw [same₁, atNode])⟩)
    pre.pieces.keptSpare (by rw [source₂, front])
  refine ⟨h₂, h₃, run₂, run₃, fun q => ?_, ?_, size₃.trans (size₂.trans size₁)⟩
  · rw [(maps₂.trans maps₃) q, same₁]
    rfl
  rw [lists₃, source₂, lists₂, lists₁, Function.update_of_ne pre.apart.symm, front]
  funext m
  unfold splicedLists
  by_cases atSource : m = source
  · rw [atSource, Function.update_self, Function.update_of_ne pre.apart, Function.update_self]
    by_cases empty : K = []
    · simp [empty]
    · obtain ⟨t, atLast⟩ : ∃ t, K.getLast? = some t := ⟨_, List.getLast?_eq_some_getLast empty⟩
      simp [empty, atLast]
  · rw [Function.update_of_ne atSource]
    by_cases atTarget : m = target
    · rw [atTarget, Function.update_self, Function.update_self]
    · rw [Function.update_of_ne atTarget, Function.update_of_ne atTarget, Function.update_of_ne atSource,
        Function.update_of_ne atSource]

section Relabel

variable {start stop : NodePtr} {M' : List NodePtr} {stopIndex : Nat} {h₃ : Heap α}

/-- The moved nodes are numbered from the number of the target's active nodes on. -/
theorem TransferPre.indexNodes_eq (pre : TransferPre h source target K (start :: M') Ss At St)
    (maps : Maps h h₃ (transferSplice K Ss At St start stop stopIndex))
    (chainM : Segment h₃.next h₃.prev At.getLast? (start :: M') St.head?) :
    indexNodes h₃ start stop = forNodes (fun k h p n => h.setNode p { n with index := At.length + k }) stop
      (h₃.blocks.card + 1) 0 h₃ start := by
  obtain ⟨s, atStart⟩ := pre.present (q := start) (by simp)
  have front₃ : (transferSplice K Ss At St start stop stopIndex start s).prev = At.getLast? := by
    rw [← Heap.prev_eq (maps.node atStart)]
    exact chainM.prev_head rfl
  simp only [indexNodes, maps.node atStart, Option.bind_eq_bind, Option.bind_some, front₃]
  rcases List.eq_nil_or_concat At with rfl | ⟨B, t, rfl⟩
  · rfl
  · have inAt : t ∈ B.concat t := by simp
    obtain ⟨n, atLast, _⟩ := pre.targetShape.node (List.mem_append_left St inAt)
    have index : n.index = B.length := pre.targetShape.index_eq (D := []) (by rw [List.concat_eq_append]) atLast
    have out : t ∉ Ss := fun inS => (pre.pieces.sides t (Or.inr (Or.inr inS))).1 inAt
    have notFirst : Ss.head? ≠ some t := fun same => out (List.mem_of_mem_head? same)
    have same : (transferSplice K Ss (B.concat t) St start stop stopIndex t n).index = B.length := by
      simp [transferSplice, sourceSplice, targetSplice, notFirst, index]
    have last' : (B.concat t).getLast? = some t := by simp
    have length : (B.concat t).length = B.length + 1 := by simp
    simp only [last', maps.node atLast, Option.map_some, Option.bind_some, same, length]

/-- The loops that number the moved nodes and hand them over to the target. -/
theorem TransferPre.relabel (pre : TransferPre h source target K (start :: M') Ss At St)
    (last : (start :: M').getLast? = some stop) (maps : Maps h h₃ (transferSplice K Ss At St start stop stopIndex)) :
    ∃ h₄ h₅, indexNodes h₃ start stop = some h₄ ∧ moveNodeThreadLists h₄ start stop target = some h₅ ∧
      Maps h h₅ (transferNode K (start :: M') Ss At St start stop stopIndex target) ∧ h₅.lists = h₃.lists ∧
      h₅.nodeSize = h₃.nodeSize ∧ Segment h₅.next h₅.prev At.getLast? (start :: M') St.head? := by
  have pieces := pre.pieces
  obtain ⟨_, _, chainM, _⟩ := pre.chains (maps.spliced (fun _ _ => rfl) fun _ _ => rfl) rfl last
  have present₃ : ∀ q ∈ start :: M', ∃ n, h₃.node q = some n := fun q member => by
    obtain ⟨n, atNode⟩ := pre.present (Or.inl (List.mem_append_left Ss (List.mem_append_right K member)))
    exact ⟨_, maps.node atNode⟩
  obtain ⟨h₄, run₄, maps₄, lists₄, size₄⟩ := forNodes_set (g := fun k n => { n with index := At.length + k })
    (fun _ _ => rfl) (fun _ _ => rfl) chainM last pieces.nodupM present₃ (k := 0) (pre.enough maps.blocks)
  have next₄ : h₄.next = h₃.next := maps₄.next fun q n => by split <;> rfl
  have prev₄ : h₄.prev = h₃.prev := maps₄.prev fun q n => by split <;> rfl
  have present₄ : ∀ q ∈ start :: M', ∃ n, h₄.node q = some n := fun q member =>
    ⟨_, maps₄.node (present₃ q member).choose_spec⟩
  have chain₄ : Segment h₄.next h₄.prev At.getLast? (start :: M') St.head? := by
    rw [next₄, prev₄]
    exact chainM
  obtain ⟨h₅, run₅, maps₅, lists₅, size₅⟩ := forNodes_set (g := fun _ n => { n with threadList := target })
    (fun _ _ => rfl) (fun _ _ => rfl) chain₄ last pieces.nodupM present₄ (k := 0)
    (pre.enough (maps₄.blocks.trans maps.blocks))
  have next₅ : h₅.next = h₄.next := maps₅.next fun q n => by split <;> rfl
  have prev₅ : h₅.prev = h₄.prev := maps₅.prev fun q n => by split <;> rfl
  refine ⟨h₄, h₅, (pre.indexNodes_eq maps chainM).trans run₄, run₅, ?_, lists₅.trans lists₄, size₅.trans size₄, ?_⟩
  · refine ((maps.trans maps₄).trans maps₅).congr fun q n _ => ?_
    unfold transferNode
    dsimp only
    split <;> simp
  · rw [next₅, prev₅]
    exact chain₄

end Relabel

theorem transferNNodes_run (pre : TransferPre h source target K M Ss At St) :
    ∃ h' start stop stopIndex, transferNNodes h M.length source target = some h' ∧ M.head? = some start ∧
      M.getLast? = some stop ∧ Transferred h h' source target K M Ss At St start stop stopIndex := by
  obtain ⟨start, M', rfl⟩ := List.exists_cons_of_ne_nil pre.moved
  obtain ⟨stop, last⟩ : ∃ stop, (start :: M').getLast? = some stop := ⟨_, List.getLast?_eq_some_getLast (by simp)⟩
  obtain ⟨atTail, ⟨e, atStop, behind⟩, ⟨s, atStart, front⟩, walked⟩ := pre.ends last
  obtain ⟨h₂, h₃, run₂, run₃, maps₃, lists₃, size₃⟩ := pre.splices rfl last atStart atStop front
  obtain ⟨h₄, h₅, run₄, run₅, moved, lists₅, size₅, chain₅⟩ := pre.relabel last maps₃
  -- The nodes are in their places; what is left are the counters.
  have same₅ : ∀ c, h₅.count c = h.count c := moved.count transferNode_slots
  have present₅ : ∀ q ∈ start :: M', ∃ n, h₅.node q = some n := fun q member => by
    obtain ⟨n, atNode⟩ := pre.present (Or.inl (List.mem_append_left Ss (List.mem_append_right K member)))
    exact ⟨_, moved.node atNode⟩
  have source₅ : h₅.lists source = { h.lists source with
      head := if K = [] then Ss.head? else (h.lists source).head, tail := K.getLast?.or Ss.head? } := by
    rw [lists₅, lists₃, splicedLists, Function.update_of_ne pre.apart, Function.update_self]
  have target₅ : h₅.lists target = { h.lists target with
      head := if At = [] then some start else (h.lists target).head, tail := some stop } := by
    rw [lists₅, lists₃, splicedLists, Function.update_self]
  have held₅ : h₅.count (start :: M') ≤ (h₅.lists source).numElements := by
    rw [same₅, source₅]
    exact pre.held
  have run₆ : updateNumElements h₅ start stop source target =
      some (moveCount h₅ source target (h.count (start :: M'))) := by
    have loop := updateNumElements_loop pre.apart chain₅ last pre.pieces.nodupM present₅ (k := 0)
      (pre.enough moved.blocks) held₅
    rw [same₅] at loop
    exact loop
  have nodes : (start :: M').length ≤ (h.lists source).numNodes := by
    rw [pre.sourceShape.numNodes, List.length_append]
    exact Nat.le_add_left _ _
  refine ⟨((moveCount h₅ source target (h.count (start :: M'))).modifyList source
    fun tl => { tl with numNodes := sizeSub tl.numNodes (start :: M').length }).modifyList target
    fun tl => { tl with numNodes := tl.numNodes + (start :: M').length },
    start, stop, e.index, ?_, rfl, last, ⟨moved, ?_, ?_, fun m notSource notTarget => ?_, size₅.trans size₃⟩⟩
  · simp only [transferNNodes, atTail, atStop, List.length_cons, Nat.add_sub_cancel, walked, atStart, run₂,
      behind, run₃, run₄, run₅, run₆, Option.bind_eq_bind, Option.bind_some, Option.pure_def]
  · rw [same₅] at held₅
    rw [Heap.lists_modifyList_ne _ _ pre.apart, Heap.lists_modifyList_self, moveCount_source pre.apart held₅, source₅]
    simp only [sizeSub_of_le nodes]
  · rw [Heap.lists_modifyList_self, Heap.lists_modifyList_ne _ _ pre.apart.symm, moveCount_target pre.apart, target₅]
  · rw [Heap.lists_modifyList_ne _ _ notTarget, Heap.lists_modifyList_ne _ _ notSource,
      moveCount_other _ notSource notTarget, lists₅, lists₃, splicedLists, Function.update_of_ne notTarget,
      Function.update_of_ne notSource]

/-- What a transfer of the nodes `M` does to the memory. -/
structure TransferShapes (h h' : Heap α) (source target : ListPtr) (K M Ss At St : List NodePtr) : Prop where
  sourceShape : Shape h' source K Ss
  targetShape : Shape h' target (At ++ M) St
  sourceCount : (h'.lists source).numElements = (h.lists source).numElements - h.count M
  targetCount : (h'.lists target).numElements = (h.lists target).numElements + h.count M
  others : ∀ m, m ≠ source → m ≠ target → Untouched h h' m
  owner : ∀ q n', h'.node q = some n' →
    n'.threadList = target ∨ ∃ n, h.node q = some n ∧ n'.threadList = n.threadList
  nodes : ∀ q n', h'.node q = some n' → ∃ n dirty, h.node q = some n ∧ n'.active = n.active ∧
    n'.toSlots = { n.toSlots with dirty := dirty } ∧ (dirty = false → n.dirty = false)
  spareIndex : K = [] → ∀ p k, Ss.head? = some p → h'.links p = some k → k.index = 0
  contents : h'.contents = h.contents
  read : h'.read = h.read
  blocks : h'.blocks = h.blocks
  nodeSize : h'.nodeSize = h.nodeSize
  elementSize : ∀ m, (h'.lists m).elementSize = (h.lists m).elementSize
  active : ∀ m, (h'.lists m).active = (h.lists m).active

/-- What a transfer leaves of two lists that were in order. -/
structure TransferPost (h h' : Heap α) (source target : ListPtr) (K M Ss At St : List NodePtr) : Prop
    extends TransferShapes h h' source target K M Ss At St where
  ok : h'.Ok
  sourceOk : ThreadListOk h' source K Ss
  targetOk : ThreadListOk h' target (At ++ M) St

section Post

variable {start stop : NodePtr} {stopIndex : Nat} {h' : Heap α}

theorem transferNode_moved {q : NodePtr} (moved : q ∈ M) (n : PumaNode α) :
    (transferNode K M Ss At St start stop stopIndex target q n).threadList = target ∧
      (transferNode K M Ss At St start stop stopIndex target q n).index = At.length + M.idxOf q := by
  simp [transferNode, moved]

theorem transferNode_kept {q : NodePtr} (kept : q ∉ M) (n : PumaNode α) :
    transferNode K M Ss At St start stop stopIndex target q n =
      transferSplice K Ss At St start stop stopIndex q n := by
  simp [transferNode, kept]

/-- A node that belongs to neither chain stays as it is. -/
theorem transferNode_outside (first : M.head? = some start) (last : M.getLast? = some stop) {q : NodePtr}
    (outSource : q ∉ K ++ M ++ Ss) (outTarget : q ∉ At ++ St) (n : PumaNode α) :
    transferNode K M Ss At St start stop stopIndex target q n = n := by
  simp only [List.mem_append, not_or] at outSource outTarget
  obtain ⟨⟨notKept, notMoved⟩, notSpare⟩ := outSource
  have lastKept : K.getLast? ≠ some q := fun same => notKept (List.mem_of_getLast? same)
  have lastTarget : At.getLast? ≠ some q := fun same => outTarget.1 (List.mem_of_getLast? same)
  have firstSpare : Ss.head? ≠ some q := fun same => notSpare (List.mem_of_mem_head? same)
  have firstTarget : St.head? ≠ some q := fun same => outTarget.2 (List.mem_of_mem_head? same)
  have notStart : q ≠ start := fun same => notMoved (same ▸ List.mem_of_mem_head? first)
  have notStop : q ≠ stop := fun same => notMoved (same ▸ List.mem_of_getLast? last)
  rw [transferNode_kept notMoved]
  simp [transferSplice, sourceSplice, targetSplice, lastKept, lastTarget, firstSpare, firstTarget, notStart, notStop]

theorem Transferred.links (post : Transferred h h' source target K M Ss At St start stop stopIndex) {q : NodePtr}
    {k' : Links} (atLinks' : h'.links q = some k') : ∃ n, h.node q = some n ∧
      (transferNode K M Ss At St start stop stopIndex target q n).toLinks = k' := by
  rw [Heap.links, post.maps q, Option.map_map] at atLinks'
  exact Option.map_eq_some_iff.mp atLinks'

theorem Transferred.spliced (post : Transferred h h' source target K M Ss At St start stop stopIndex) :
    Spliced h h' K Ss At St start stop := by
  have links (q : NodePtr) (n : PumaNode α) :
      (transferNode K M Ss At St start stop stopIndex target q n).next =
        (transferSplice K Ss At St start stop stopIndex q n).next ∧
      (transferNode K M Ss At St start stop stopIndex target q n).prev =
        (transferSplice K Ss At St start stop stopIndex q n).prev := by
    unfold transferNode
    dsimp only
    split <;> exact ⟨rfl, rfl⟩
  exact post.maps.spliced (fun q n => (links q n).1) fun q n => (links q n).2

/-- A node that stays in its list and is not the first of a list without active nodes keeps its index. -/
theorem transferSplice_index {q : NodePtr} (notSource : K = [] → Ss.head? ≠ some q)
    (notTarget : At = [] → St.head? ≠ some q) (n : PumaNode α) :
    (transferSplice K Ss At St start stop stopIndex q n).index = n.index := by
  have first : ¬ (K = [] ∧ Ss.head? = some q) := fun both => notSource both.1 both.2
  have second : ¬ (At = [] ∧ St.head? = some q) := fun both => notTarget both.1 both.2
  simp only [transferSplice, sourceSplice, targetSplice, if_neg first, if_neg second]

/-- A node in neither chain that belongs to one of the lists does not lead into the chains. -/
theorem Transferred.strays (post : Transferred h h' source target K M Ss At St start stop stopIndex)
    (pre : TransferPre h source target K M Ss At St) (first : M.head? = some start) (last : M.getLast? = some stop)
    {m : ListPtr} {p q : NodePtr} {k : Links} (atLinks : h'.links p = some k) (owner : k.threadList = m)
    (side : m = source ∨ m = target) (outSource : p ∉ K ++ M ++ Ss) (outTarget : p ∉ At ++ St)
    (after : k.next = some q) :
    q ∉ K ++ M ++ Ss ∧ q ∉ At ++ St ∧ ∃ k', h'.links q = some k' ∧ k'.threadList = m := by
  obtain ⟨n, atNode, rfl⟩ := post.links atLinks
  rw [transferNode_outside first last outSource outTarget] at owner after
  have keep (outSource : q ∉ K ++ M ++ Ss) (outTarget : q ∉ At ++ St) {k' : Links} (atLinks' : h.links q = some k') :
      h'.links q = some k' := by
    obtain ⟨n', atNode', rfl⟩ := Heap.node_of_links atLinks'
    rw [Heap.links_eq (post.maps.node atNode'), transferNode_outside first last outSource outTarget]
  rcases side with rfl | rfl
  · obtain ⟨away, k', atLinks', owner'⟩ := pre.sourceShape.strays p _ (Heap.links_eq atNode) owner outSource q after
    have outT : q ∉ At ++ St := fun inside => by
      obtain ⟨k₀, atLinks₀, owner₀⟩ := pre.targetShape.owned q inside
      rw [Option.some.inj (atLinks₀.symm.trans atLinks')] at owner₀
      exact pre.apart (owner'.symm.trans owner₀)
    exact ⟨away, outT, k', keep away outT atLinks', owner'⟩
  · obtain ⟨away, k', atLinks', owner'⟩ := pre.targetShape.strays p _ (Heap.links_eq atNode) owner outTarget q after
    have outS : q ∉ K ++ M ++ Ss := fun inside => by
      obtain ⟨k₀, atLinks₀, owner₀⟩ := pre.sourceShape.owned q inside
      rw [Option.some.inj (atLinks₀.symm.trans atLinks')] at owner₀
      exact pre.apart (owner₀.symm.trans owner')
    exact ⟨outS, away, k', keep outS away atLinks', owner'⟩

theorem Transferred.owned (post : Transferred h h' source target K M Ss At St start stop stopIndex)
    (pre : TransferPre h source target K M Ss At St) {q : NodePtr} :
    (q ∈ K ++ Ss → ∃ k, h'.links q = some k ∧ k.threadList = source) ∧
      (q ∈ At ++ M ++ St → ∃ k, h'.links q = some k ∧ k.threadList = target) := by
  have pieces := pre.pieces
  refine ⟨fun member => ?_, fun member => ?_⟩
  · have kept : q ∉ M := by
      rcases List.mem_append.mp member with inK | inS
      · exact pieces.keptMoved q inK
      · exact fun inM => pieces.movedSpare q inM inS
    obtain ⟨n, atNode, owner⟩ := pre.sourceShape.node (p := q) (by
      rcases List.mem_append.mp member with inK | inS
      · simp [inK]
      · simp [inS])
    exact ⟨_, Heap.links_eq (post.maps.node atNode), by rw [transferNode_kept kept]; exact owner⟩
  · by_cases moved : q ∈ M
    · obtain ⟨n, atNode⟩ := pre.present (q := q) (by simp [moved])
      exact ⟨_, Heap.links_eq (post.maps.node atNode), (transferNode_moved moved n).1⟩
    · obtain ⟨n, atNode, owner⟩ := pre.targetShape.node (p := q) (by
        simp only [List.mem_append, moved, or_false] at member
        exact List.mem_append.mpr member)
      exact ⟨_, Heap.links_eq (post.maps.node atNode), by rw [transferNode_kept moved]; exact owner⟩

theorem Transferred.sourceShape (post : Transferred h h' source target K M Ss At St start stop stopIndex)
    (pre : TransferPre h source target K M Ss At St) (first : M.head? = some start) (last : M.getLast? = some stop) :
    Shape h' source K Ss := by
  have pieces := pre.pieces
  have within {q : NodePtr} (member : q ∈ K ++ Ss) : q ∈ K ++ M ++ Ss ∧ q ∉ M ∧ q ∉ At ++ St := by
    have inside : q ∈ K ++ M ++ Ss := by
      simp only [List.mem_append] at member ⊢
      tauto
    refine ⟨inside, fun inM => ?_, pre.disjoint inside⟩
    rcases List.mem_append.mp member with inK | inS
    · exact pieces.keptMoved q inK inM
    · exact pieces.movedSpare q inM inS
  exact {
    chain := (pre.chains post.spliced first last).1
    nodup := by
      have nodup := pre.sourceShape.nodup
      rw [List.append_assoc, List.nodup_append] at nodup
      exact List.nodup_append.mpr ⟨nodup.1, (List.nodup_append.mp nodup.2.1).2.1, fun a inK b inS =>
        nodup.2.2 a inK b (List.mem_append_right M inS)⟩
    owned := fun p member => (post.owned pre).1 member
    active := fun p k' atLinks owner => by
      obtain ⟨n, atNode, rfl⟩ := post.links atLinks
      have kept : p ∉ M := fun inM => pre.apart (owner.symm.trans (transferNode_moved inM n).1)
      have old := pre.sourceShape.active p _ (Heap.links_eq atNode) (by rw [transferNode_kept kept] at owner; exact owner)
      rw [transferNode_active, old, List.mem_append, or_iff_left kept]
    index := fun i p k' atIndex atLinks => by
      obtain ⟨n, atNode, rfl⟩ := post.links atLinks
      have inK := List.mem_of_getElem? atIndex
      rw [transferNode_kept (pieces.keptMoved p inK), transferSplice_index
        (fun empty => by rw [empty] at inK; cases inK)
        fun _ same => (pieces.sides p (Or.inl inK)).2 (List.mem_of_mem_head? same)]
      refine pre.sourceShape.index i p _ ?_ (Heap.links_eq atNode)
      rw [List.getElem?_append_left (List.getElem?_eq_some_iff.mp atIndex).1, atIndex]
    strays := fun p k' atLinks owner outside q after => by
      obtain ⟨n, atNode, same⟩ := post.links atLinks
      have kept : p ∉ M := fun inM => pre.apart (owner.symm.trans (by rw [← same]; exact (transferNode_moved inM n).1))
      have outSource : p ∉ K ++ M ++ Ss := by
        simp only [List.mem_append] at outside ⊢
        tauto
      have outTarget : p ∉ At ++ St := fun inside => by
        obtain ⟨k₀, atLinks₀, owner₀⟩ := (post.owned pre (q := p)).2 (by
          simp only [List.mem_append] at inside ⊢
          tauto)
        rw [Option.some.inj (atLinks₀.symm.trans atLinks)] at owner₀
        exact pre.apart (owner.symm.trans owner₀)
      obtain ⟨away, _, found⟩ := post.strays pre first last atLinks owner (Or.inl rfl) outSource outTarget after
      exact ⟨fun inside => away (within inside).1, found⟩
    head := by
      rw [post.sourceList, pre.sourceShape.head]
      cases K with
      | nil => simp
      | cons p K => simp
    tail := by rw [post.sourceList]
    numNodes := by
      rw [post.sourceList, pre.sourceShape.numNodes, List.length_append]
      exact Nat.add_sub_cancel _ _ }

theorem Transferred.targetShape (post : Transferred h h' source target K M Ss At St start stop stopIndex)
    (pre : TransferPre h source target K M Ss At St) (first : M.head? = some start) (last : M.getLast? = some stop) :
    Shape h' target (At ++ M) St := by
  have pieces := pre.pieces
  obtain ⟨_, chainAt, chainM, chainSt⟩ := pre.chains post.spliced first last
  have nodup := pre.targetShape.nodup
  rw [List.nodup_append] at nodup
  have sideM {q : NodePtr} (inM : q ∈ M) := pieces.sides q (Or.inr (Or.inl inM))
  exact {
    chain := by
      rw [List.append_assoc]
      refine segment_append.mpr ⟨?_, segment_append.mpr ⟨?_, ?_⟩⟩
      · rw [List.head?_append, first, Option.some_or, Option.some_or]
        exact chainAt
      · rw [Option.or_none, Option.or_none]
        exact chainM
      · rw [last, Option.some_or]
        exact chainSt
    nodup := by
      rw [List.append_assoc]
      refine List.nodup_append.mpr ⟨nodup.1, List.nodup_append.mpr ⟨pieces.nodupM, nodup.2.1, fun a inM b inS same =>
        (sideM inM).2 (same ▸ inS)⟩, fun a inA b member same => ?_⟩
      rcases List.mem_append.mp member with inM | inS
      · exact (sideM inM).1 (same ▸ inA)
      · exact nodup.2.2 a inA b inS same
    owned := fun p member => (post.owned pre).2 member
    active := fun p k' atLinks owner => by
      obtain ⟨n, atNode, rfl⟩ := post.links atLinks
      rw [transferNode_active, List.mem_append]
      by_cases moved : p ∈ M
      · simp only [moved, or_true, iff_true]
        refine (pre.sourceShape.active_iff atNode ?_).mpr ?_ <;> simp [moved]
      · rw [or_iff_left moved]
        exact pre.targetShape.active p _ (Heap.links_eq atNode) (by rw [transferNode_kept moved] at owner; exact owner)
    index := fun i p k' atIndex atLinks => by
      obtain ⟨n, atNode, rfl⟩ := post.links atLinks
      by_cases low : i < At.length
      · rw [List.getElem?_append_left low] at atIndex
        have inA := List.mem_of_getElem? atIndex
        have kept : p ∉ M := fun inM => (sideM inM).1 inA
        rw [transferNode_kept kept, transferSplice_index
          (fun _ same => (pieces.sides p (Or.inr (Or.inr (List.mem_of_mem_head? same)))).1 inA)
          (fun empty => by rw [empty] at inA; cases inA)]
        exact pre.targetShape.index i p _ atIndex (Heap.links_eq atNode)
      · rw [List.getElem?_append_right (by omega)] at atIndex
        have inM := List.mem_of_getElem? atIndex
        obtain ⟨bound, same⟩ := List.getElem?_eq_some_iff.mp atIndex
        rw [(transferNode_moved inM n).2, ← same, pieces.nodupM.idxOf_getElem]
        omega
    strays := fun p k' atLinks owner outside q after => by
      obtain ⟨n, atNode, same⟩ := post.links atLinks
      have outTarget : p ∉ At ++ St := by
        simp only [List.mem_append] at outside ⊢
        tauto
      have outSource : p ∉ K ++ M ++ Ss := fun inside => by
        have kept : p ∈ K ++ Ss := by
          simp only [List.mem_append] at inside outside ⊢
          tauto
        obtain ⟨k₀, atLinks₀, owner₀⟩ := (post.owned pre).1 kept
        rw [Option.some.inj (atLinks₀.symm.trans atLinks)] at owner₀
        exact pre.apart (owner₀.symm.trans owner)
      obtain ⟨awayS, awayT, found⟩ := post.strays pre first last atLinks owner (Or.inr rfl) outSource outTarget after
      refine ⟨fun inside => ?_, found⟩
      simp only [List.mem_append] at inside awayS awayT
      tauto
    head := by
      rw [post.targetList, List.append_assoc, List.head?_append, List.head?_append, first]
      cases At with
      | nil => simp
      | cons p B => simp [pre.targetShape.head]
    tail := by
      rw [post.targetList, List.getLast?_append, last]
      rfl
    numNodes := by rw [post.targetList, pre.targetShape.numNodes, List.length_append] }

end Post

/-- `_transferNNodes` moves the last active nodes of one list behind the active nodes
of the other, and nothing else changes. -/
theorem transferNNodes_shapes (pre : TransferPre h source target K M Ss At St) :
    ∃ h', transferNNodes h M.length source target = some h' ∧ TransferShapes h h' source target K M Ss At St := by
  obtain ⟨h', start, stop, stopIndex, run, first, last, post⟩ := transferNNodes_run pre
  have shapeS := post.sourceShape pre first last
  have fields (m : ListPtr) : (h'.lists m).elementSize = (h.lists m).elementSize ∧
      (h'.lists m).active = (h.lists m).active := by
    by_cases atSource : m = source
    · subst atSource
      rw [post.sourceList]
      exact ⟨rfl, rfl⟩
    · by_cases atTarget : m = target
      · subst atTarget
        rw [post.targetList]
        exact ⟨rfl, rfl⟩
      · rw [post.otherLists m atSource atTarget]
        exact ⟨rfl, rfl⟩
  refine ⟨h', run, shapeS, post.targetShape pre first last, by rw [post.sourceList], by rw [post.targetList],
    fun m notSource notTarget => ⟨fun q n owner => ?_, post.otherLists m notSource notTarget⟩, fun q n' atNode' => ?_,
    fun q n' atNode' => ?_, fun empty p k' atHead atLinks => ?_, post.maps.contents transferNode_slots, ?_,
    post.maps.blocks, post.nodeSize, fun m => (fields m).1, fun m => (fields m).2⟩
  · have outside {n₀ : PumaNode α} (atNode : h.node q = some n₀) (owner₀ : n₀.threadList = m) :
        q ∉ K ++ M ++ Ss ∧ q ∉ At ++ St := by
      refine ⟨fun inside => ?_, fun inside => ?_⟩
      · obtain ⟨n₁, atNode₁, owner₁⟩ := pre.sourceShape.node inside
        rw [Option.some.inj (atNode₁.symm.trans atNode)] at owner₁
        exact notSource (owner₀.symm.trans owner₁)
      · obtain ⟨n₁, atNode₁, owner₁⟩ := pre.targetShape.node inside
        rw [Option.some.inj (atNode₁.symm.trans atNode)] at owner₁
        exact notTarget (owner₀.symm.trans owner₁)
    constructor
    · intro atNode'
      rw [post.maps q] at atNode'
      obtain ⟨n₀, atNode, rfl⟩ := Option.map_eq_some_iff.mp atNode'
      have kept : q ∉ M := fun inM => notTarget (owner.symm.trans (transferNode_moved inM n₀).1)
      have owner₀ : n₀.threadList = m := by rw [transferNode_kept kept] at owner; exact owner
      obtain ⟨outSource, outTarget⟩ := outside atNode owner₀
      rw [transferNode_outside first last outSource outTarget, atNode]
    · intro atNode
      obtain ⟨outSource, outTarget⟩ := outside atNode owner
      rw [post.maps.node atNode, transferNode_outside first last outSource outTarget]
  · rw [post.maps q] at atNode'
    obtain ⟨n, atNode, rfl⟩ := Option.map_eq_some_iff.mp atNode'
    by_cases moved : q ∈ M
    · exact Or.inl (transferNode_moved moved n).1
    · exact Or.inr ⟨n, atNode, by rw [transferNode_kept moved]; rfl⟩
  · rw [post.maps q] at atNode'
    obtain ⟨n, atNode, rfl⟩ := Option.map_eq_some_iff.mp atNode'
    obtain ⟨dirty, slots, clean⟩ : ∃ dirty, (transferNode K M Ss At St start stop stopIndex target q n).toSlots =
        { n.toSlots with dirty := dirty } ∧ (dirty = false → n.dirty = false) := transferNode_slots q n
    exact ⟨n, dirty, atNode, transferNode_active q n, slots, clean⟩
  · obtain ⟨n, atNode, rfl⟩ := post.links atLinks
    have inS : p ∈ Ss := List.mem_of_mem_head? atHead
    have kept : p ∉ M := fun inM => pre.pieces.movedSpare p inM inS
    rw [transferNode_kept kept]
    simp [transferSplice, sourceSplice, atHead, empty]
  · funext e
    rw [Heap.read, Heap.read, Heap.slots, Heap.slots, post.maps e.node, Option.map_map]
    cases h.node e.node with
    | none => rfl
    | some n =>
      have same := transferNode_toSlots K M Ss At St start stop stopIndex target e.node n
      simp only [Option.map_some, Function.comp_apply, Option.bind_some, same]
      rfl

/-- The nodes of a list in order count its elements. -/
theorem Shape.count_eq {l : ListPtr} {A S : List NodePtr} (shape : Shape h l A S) (ok : h.Ok) {c : List NodePtr}
    (within : ∀ p ∈ c, p ∈ A ++ S) : h.count c = (h.elems c).card :=
  Heap.count_eq_card fun p member => by
    obtain ⟨n, atNode, _⟩ := shape.node (within p member)
    exact ⟨n.toSlots, Heap.slots_eq atNode, (ok p n atNode).1.count⟩

/-- A transfer between two lists in order leaves both in order. -/
theorem transferNNodes_spec (apart : source ≠ target) (ok : h.Ok) (sourceOk : ThreadListOk h source (K ++ M) Ss)
    (targetOk : ThreadListOk h target At St) (moved : M ≠ []) :
    ∃ h', transferNNodes h M.length source target = some h' ∧ TransferPost h h' source target K M Ss At St := by
  have count : h.count M = (h.elems M).card := sourceOk.count_eq ok fun p inM => by simp [inM]
  have held : h.count M ≤ (h.lists source).numElements := by
    rw [sourceOk.count, Heap.elems_append, Multiset.card_add, count]
    exact Nat.le_add_left _ _
  obtain ⟨h', run, post⟩ := transferNNodes_shapes ⟨apart, sourceOk.toShape, targetOk.toShape, moved, held⟩
  have elems : ∀ c, h'.elems c = h.elems c := fun c => by rw [Heap.elems, Heap.elems, post.contents]
  refine ⟨h', run, post, fun q n' atNode' => ?_, ⟨post.sourceShape, fun p k' atHead atLinks => ?_, ?_⟩,
    ⟨post.targetShape, ?_, ?_⟩⟩
  · obtain ⟨n, dirty, atNode, active, same, clean⟩ := post.nodes q n' atNode'
    obtain ⟨fine, inactive⟩ := ok q n atNode
    rw [same, active]
    exact ⟨⟨⟨fine.capacity_pos, fine.sized, fine.bits, fine.count⟩, fine.cursor, fun off => fine.clean (clean off)⟩,
      inactive⟩
  · cases K with
    | nil =>
      rw [post.sourceShape.head] at atHead
      exact post.spareIndex rfl p k' atHead atLinks
    | cons q K => exact post.sourceShape.headIndex p k' atHead atLinks
  · rw [elems, post.sourceCount, count]
    simp only [sourceOk.count, Heap.elems_append, Multiset.card_add, Nat.add_sub_cancel]
  · obtain ⟨q, C, split⟩ := List.exists_cons_of_ne_nil (show At ++ M ≠ [] by simp [moved])
    have shape := post.targetShape
    rw [split] at shape
    exact shape.headIndex
  · rw [elems, post.targetCount, count]
    simp only [targetOk.count, Heap.elems_append, Multiset.card_add]

end Transfer

end Puma
