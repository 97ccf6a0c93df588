import Mathlib.Data.Multiset.ZeroCons
import Puma.ThreadList

namespace Puma

open Relation

variable {σ α : Type}

/-- The kernel's calls are runs of the thread that owns `l`. -/
def Kernel.Respects [Inhabited α] (kernel : Kernel σ α) (allowed : Allowed α) (l : ListPtr) : Prop :=
  ∀ w e w', w.heap.Live l e → kernel w e = some w' → ListRun allowed l w.heap w'.heap

/-- The kernel comes back from every live element. -/
def Kernel.Returns (kernel : Kernel σ α) : Prop :=
  ∀ w e, (w.heap.read e).isSome → (kernel w e).isSome

/-- The kernel neither allocates nor frees: it writes to elements, and `g` of the contents stays. -/
def Kernel.Writes {γ : Type} (kernel : Kernel σ α) (g : α → γ) : Prop :=
  ∀ w e w', (w.heap.read e).isSome → kernel w e = some w' → w'.heap.view g = w.heap.view g

theorem Kernel.Writes.respects {γ : Type} {g : α → γ} [Inhabited α] {kernel : Kernel σ α} (writes : kernel.Writes g)
    (allowed : Allowed α) (l : ListPtr) : kernel.Respects allowed l := by
  intro w e w' live run
  obtain ⟨n, atNode, _, inside⟩ := live
  have there : (w.heap.read e).isSome := by
    rw [Heap.read_eq (Heap.slots_eq atNode), Slots.read_isSome]
    exact inside
  exact ReflTransGen.single (ListStep.write (Heap.skeleton_of_view_eq (writes w e w' there run)))

section Respects

variable [Inhabited α] {allowed : Allowed α} {l : ListPtr} {kernel : Kernel σ α}

theorem runKernelOnNodeLoop_run (respects : kernel.Respects allowed l) (safe : ∀ g, allowed g l → AllocSafe g l)
    {node : NodePtr} {originalElements elementsDone numElements turns i skipped : Nat} {w w' : World σ α} {i' : Nat}
    {calls : List (ElemPtr × α)} (inv : ListInv w.heap l) (owned : w.heap.Owned l node)
    (run : runKernelOnNodeLoop node kernel originalElements elementsDone numElements turns w i skipped =
      some (w', i', calls)) : ListRun allowed l w.heap w'.heap := by
  induction turns generalizing w i skipped calls with
  | zero => cases run
  | succ turns ih =>
    simp only [runKernelOnNodeLoop, Option.bind_eq_bind] at run
    obtain ⟨n, atNode, run⟩ := Option.bind_eq_some_iff.mp run
    split at run
    · rename_i more
      split at run
      · exact ih inv owned run
      · rename_i held
        obtain ⟨w₁, called, run⟩ := Option.bind_eq_some_iff.mp run
        obtain ⟨⟨w₂, i₂, later⟩, rest, run⟩ := Option.bind_eq_some_iff.mp run
        cases run
        have live : w.heap.Live l ⟨node, i⟩ := by
          refine ⟨n, atNode, owned n atNode, Slots.mem_liveSlots.mpr ⟨more.2.1, ?_⟩⟩
          exact (pumaBitmaskGet_cases n.freeMask i).resolve_left held
        have first := respects w ⟨node, i⟩ w₁ live called
        obtain ⟨inv₁, loc⟩ := first.inv safe inv
        exact first.trans (ih inv₁ (loc.owned owned) rest)
    · cases run
      exact ReflTransGen.refl

theorem runKernelOnNode_run (respects : kernel.Respects allowed l) (safe : ∀ g, allowed g l → AllocSafe g l)
    {node : NodePtr} {elementsDone numElements : Nat} {w w' : World σ α} {done' : Nat}
    {calls : List (ElemPtr × α)} (inv : ListInv w.heap l) (owned : w.heap.Owned l node)
    (run : runKernelOnNode w node kernel elementsDone numElements = some (w', done', calls)) :
    ListRun allowed l w.heap w'.heap := by
  simp only [runKernelOnNode, Option.bind_eq_bind] at run
  obtain ⟨n, _, run⟩ := Option.bind_eq_some_iff.mp run
  obtain ⟨⟨w₁, i, calls₁⟩, loop, run⟩ := Option.bind_eq_some_iff.mp run
  cases run
  exact runKernelOnNodeLoop_run respects safe inv owned loop

theorem cleanupIfDirty_run {h h' : Heap α} {node : NodePtr} {n : PumaNode α} (atNode : h.node node = some n)
    (owner : n.threadList = l) (active : n.active = true) (run : cleanupIfDirty h node l = some h') : ListRun allowed l h h' := by
  simp only [cleanupIfDirty, atNode, Option.bind_eq_bind, Option.bind_some] at run
  split at run
  · exact ReflTransGen.single (ListStep.cleanup atNode owner active run)
  · cases run
    exact ReflTransGen.refl

theorem runKernelThreadLoop_run (respects : kernel.Respects allowed l) (safe : ∀ g, allowed g l → AllocSafe g l)
    {init turns elementsDone : Nat} {w w' : World σ α} {current : Option NodePtr} {calls : List (ElemPtr × α)}
    (inv : ListInv w.heap l) (owned : ∀ p, current = some p → w.heap.Owned l p)
    (run : runKernelThreadLoop l kernel init turns w current elementsDone = some (w', calls)) :
    ListRun allowed l w.heap w'.heap := by
  induction turns generalizing w current elementsDone calls with
  | zero =>
    cases current with
    | none => cases run; exact ReflTransGen.refl
    | some p => cases run
  | succ turns ih =>
    cases current with
    | none => cases run; exact ReflTransGen.refl
    | some p =>
      simp only [runKernelThreadLoop, Option.bind_eq_bind] at run
      obtain ⟨n, atNode, run⟩ := Option.bind_eq_some_iff.mp run
      split at run
      · rename_i more
        obtain ⟨⟨w₂, next, done₂, calls₂⟩, turn, run⟩ := Option.bind_eq_some_iff.mp run
        obtain ⟨⟨w₃, later⟩, rest, run⟩ := Option.bind_eq_some_iff.mp run
        cases run
        simp only [runKernelThreadTurn, Option.bind_eq_bind] at turn
        obtain ⟨h₁, cleaned, turn⟩ := Option.bind_eq_some_iff.mp turn
        obtain ⟨⟨w₁, done₁, calls₁⟩, visited, turn⟩ := Option.bind_eq_some_iff.mp turn
        obtain ⟨m, atNode₁, turn⟩ := Option.bind_eq_some_iff.mp turn
        cases turn
        have first : ListRun allowed l w.heap h₁ := cleanupIfDirty_run atNode (owned p rfl n atNode) more.1 cleaned
        obtain ⟨inv₁, loc₁⟩ := first.inv safe inv
        have second := runKernelOnNode_run respects safe inv₁ (loc₁.owned (owned p rfl)) visited
        obtain ⟨inv₂, loc₂⟩ := second.inv safe inv₁
        have owner := (loc₁.trans loc₂).owned (owned p rfl) m atNode₁
        exact (first.trans second).trans (ih inv₂ (fun q after => inv₂.next atNode₁ owner after) rest)
      · cases run
        exact ReflTransGen.refl

/-- A pass is a run of the list's owner. -/
theorem runKernelThread_run (respects : kernel.Respects allowed l) (safe : ∀ g, allowed g l → AllocSafe g l)
    {turns : Nat} {w w' : World σ α} {elapsed : ℚ} {calls : List (ElemPtr × α)} (inv : ListInv w.heap l)
    (run : runKernelThread turns w l kernel elapsed = some (w', calls)) : ListRun allowed l w.heap w'.heap := by
  simp only [runKernelThread, Option.bind_eq_bind] at run
  obtain ⟨⟨w₁, calls₁⟩, loop, run⟩ := Option.bind_eq_some_iff.mp run
  cases run
  exact (runKernelThreadLoop_run respects safe inv (fun p atHead => inv.owned_head atHead) loop).tail
    (ListStep.recordRunTime elapsed)

end Respects

section Writes

variable {γ : Type} {g : α → γ} {l : ListPtr} {kernel : Kernel σ α}

/-- The calls of a kernel on elements one after the other, each with the content that it finds. -/
def Kernel.callEach (kernel : Kernel σ α) : List ElemPtr → World σ α → Option (World σ α × List (ElemPtr × α))
  | [], w => some (w, [])
  | e :: later, w => do
    let content ← w.heap.read e
    let w ← kernel w e
    let (w, calls) ← kernel.callEach later w
    pure (w, (e, content) :: calls)

theorem Kernel.callEach_append (kernel : Kernel σ α) (first later : List ElemPtr) (w : World σ α) :
    kernel.callEach (first ++ later) w = (kernel.callEach first w).bind fun r =>
      (kernel.callEach later r.1).map fun r' => (r'.1, r.2 ++ r'.2) := by
  induction first generalizing w with
  | nil => simp [callEach]
  | cons e first ih =>
    simp only [List.cons_append, callEach, Option.bind_eq_bind, ih, Option.bind_assoc, Option.pure_def, Option.bind_some]
    refine Option.bind_congr fun content _ => Option.bind_congr fun w₁ _ => Option.bind_congr fun r _ => ?_
    cases kernel.callEach later r.1 <;> rfl

/-- The calls visit the given elements, in their order. -/
theorem Kernel.callEach_visits {es : List ElemPtr} {w w' : World σ α} {calls : List (ElemPtr × α)}
    (run : kernel.callEach es w = some (w', calls)) : calls.map Prod.fst = es := by
  induction es generalizing w calls with
  | nil =>
    cases run
    rfl
  | cons e es ih =>
    simp only [callEach, Option.bind_eq_bind] at run
    obtain ⟨content, _, run⟩ := Option.bind_eq_some_iff.mp run
    obtain ⟨w₁, _, run⟩ := Option.bind_eq_some_iff.mp run
    obtain ⟨⟨w₂, later⟩, rest, run⟩ := Option.bind_eq_some_iff.mp run
    cases run
    rw [List.map_cons, ih rest]

theorem Kernel.Writes.callEach (writes : kernel.Writes g) {es : List ElemPtr} {w w' : World σ α}
    {calls : List (ElemPtr × α)} (run : kernel.callEach es w = some (w', calls)) : w'.heap.view g = w.heap.view g := by
  induction es generalizing w calls with
  | nil =>
    cases run
    rfl
  | cons e es ih =>
    simp only [Kernel.callEach, Option.bind_eq_bind] at run
    obtain ⟨content, there, run⟩ := Option.bind_eq_some_iff.mp run
    obtain ⟨w₁, called, run⟩ := Option.bind_eq_some_iff.mp run
    obtain ⟨⟨w₂, later⟩, rest, run⟩ := Option.bind_eq_some_iff.mp run
    cases run
    exact (ih rest).trans (writes w e w₁ (by rw [there]; rfl) called)

/-- The loop over a compact node calls the kernel on its slots from `i` on, one after the other. -/
theorem runKernelOnNodeLoop_eq (writes : kernel.Writes g) {node : NodePtr} {n : PumaNode α} {k i : Nat}
    (compact : n.toSlots.liveSlots = Finset.range k) {elementsDone numElements turns : Nat}
    (more : elementsDone < numElements) (within : i ≤ k) (enough : k < turns + i) {w : World σ α}
    (atNode : w.heap.node node = some n) :
    runKernelOnNodeLoop node kernel k elementsDone numElements turns w i 0 =
      (kernel.callEach ((List.range' i (k - i)).map fun j => ⟨node, j⟩) w).map fun r => (r.1, k, r.2) := by
  induction turns generalizing w n i with
  | zero => omega
  | succ turns ih =>
    by_cases last : i = k
    · subst last
      have stop : ¬ (sizeSub i 0 < i ∧ i < n.capacity ∧ elementsDone < numElements) := by simp [sizeSub]
      simp [runKernelOnNodeLoop, atNode, stop, Kernel.callEach]
    · have before : i < k := lt_of_le_of_ne within last
      have live : i ∈ n.toSlots.liveSlots := by rw [compact]; exact Finset.mem_range.mpr before
      have there : w.heap.read ⟨node, i⟩ = some (n.elements i) := by
        rw [Heap.read_eq (e := ⟨node, i⟩) (Heap.slots_eq atNode), Slots.read, if_pos live]
      obtain ⟨bound, held⟩ := Slots.mem_liveSlots.mp live
      have go : sizeSub i 0 < k ∧ i < n.capacity ∧ elementsDone < numElements :=
        ⟨by simpa [sizeSub] using before, bound, more⟩
      have notFree : pumaBitmaskGet n.freeMask i ≠ maskFree := by
        rw [held]
        exact maskFree_ne_maskNotFree.symm
      have split : k - i = (k - (i + 1)) + 1 := by omega
      simp only [runKernelOnNodeLoop, atNode, Option.bind_eq_bind, Option.bind_some, if_pos go, if_neg notFree, getElement,
        split, List.range'_succ, List.map_cons, Kernel.callEach, there, Option.pure_def]
      cases called : kernel w ⟨node, i⟩ with
      | none => rfl
      | some w₁ =>
        have same := writes w ⟨node, i⟩ w₁ (by rw [there]; rfl) called
        obtain ⟨n₁, atNode₁, equal⟩ := Heap.node_of_view_eq same atNode
        obtain ⟨_, capacity, _, freeMask, _⟩ := PumaNode.mapContents_inj equal
        have compact₁ : n₁.toSlots.liveSlots = Finset.range k := by
          rw [← compact, Slots.liveSlots, Slots.liveSlots, capacity, freeMask]
        rw [Option.bind_some, Option.bind_some, ih compact₁ before (by omega) atNode₁]
        cases kernel.callEach ((List.range' (i + 1) (k - (i + 1))).map fun j => ⟨node, j⟩) w₁ <;> rfl

/-- A kernel that comes back from every element comes back from the elements one after the other. -/
theorem Kernel.callEach_spec (writes : kernel.Writes g) (returns : kernel.Returns) {es : List ElemPtr} {w : World σ α}
    (there : ∀ e ∈ es, (w.heap.read e).isSome) :
    ∃ w' calls, kernel.callEach es w = some (w', calls) ∧ w'.heap.view g = w.heap.view g ∧
      calls.map (fun call => some (g call.2)) = es.map fun e => (w.heap.read e).map g := by
  induction es generalizing w with
  | nil => exact ⟨w, [], rfl, rfl, rfl⟩
  | cons e es ih =>
    obtain ⟨content, here⟩ := Option.isSome_iff_exists.mp (there e (List.mem_cons_self ..))
    obtain ⟨w₁, called⟩ := Option.isSome_iff_exists.mp (returns w e (by rw [here]; rfl))
    have same := writes w e w₁ (by rw [here]; rfl) called
    have reads (e' : ElemPtr) : (w₁.heap.read e').map g = (w.heap.read e').map g := by
      rw [← Heap.read_view, ← Heap.read_view, same]
    obtain ⟨w', calls, run, same', seen⟩ := ih (w := w₁) fun e' member => by
      rw [← Option.isSome_map (f := g), reads, Option.isSome_map]
      exact there e' (List.mem_cons_of_mem e member)
    refine ⟨w', (e, content) :: calls, ?_, same'.trans same, ?_⟩
    · simp only [Kernel.callEach, here, called, run, Option.bind_eq_bind, Option.bind_some, Option.pure_def]
    · rw [List.map_cons, List.map_cons, seen, here, Option.map_some]
      exact congrArg _ (List.map_congr_left fun e' _ => reads e')

/-- The loop over a compact node visits its slots from `i` on, one after the other. -/
theorem runKernelOnNodeLoop_spec (writes : kernel.Writes g) (returns : kernel.Returns) {node : NodePtr} {n : PumaNode α}
    {k i : Nat} (compact : n.toSlots.liveSlots = Finset.range k) {elementsDone numElements turns : Nat}
    (more : elementsDone < numElements) (within : i ≤ k) (enough : k < turns + i) {w : World σ α}
    (atNode : w.heap.node node = some n) :
    ∃ w' calls, runKernelOnNodeLoop node kernel k elementsDone numElements turns w i 0 = some (w', k, calls) ∧
      w'.heap.view g = w.heap.view g ∧
      calls.map (fun call => g call.2) = (List.range' i (k - i)).map fun j => g (n.elements j) := by
  have reads (j : Nat) (member : j ∈ List.range' i (k - i)) : w.heap.read ⟨node, j⟩ = some (n.elements j) := by
    have live : j ∈ n.toSlots.liveSlots := by
      rw [compact, Finset.mem_range]
      have := List.mem_range'_1.mp member
      omega
    rw [Heap.read_eq (e := ⟨node, j⟩) (Heap.slots_eq atNode), Slots.read, if_pos live]
  have there : ∀ e ∈ (List.range' i (k - i)).map fun j => (⟨node, j⟩ : ElemPtr), (w.heap.read e).isSome := by
    intro e member
    obtain ⟨j, inRange, rfl⟩ := List.mem_map.mp member
    rw [reads j inRange]
    rfl
  obtain ⟨w', calls, run, same, seen⟩ := Kernel.callEach_spec writes returns there
  refine ⟨w', calls, by rw [runKernelOnNodeLoop_eq writes compact more within enough atNode, run]; rfl, same, ?_⟩
  rw [List.map_map] at seen
  refine List.map_injective_iff.mpr (Option.some_injective _) ?_
  rw [List.map_map, List.map_map]
  refine seen.trans (List.map_congr_left fun j member => ?_)
  rw [Function.comp_apply, reads j member]
  rfl

/-- What one turn of the loop of `_runKernelThread` does at the node `c` behind the visited nodes `V`. -/
structure TurnPost (w w' : World σ α) (l : ListPtr) (g : α → γ) (V : List NodePtr) (c : NodePtr)
    (D D' S' : List NodePtr) (calls : List (ElemPtr × α)) : Prop where
  ok : w'.heap.Ok
  list : ThreadListOk w'.heap l (V ++ c :: D') S'
  loc : Local (w.heap.view g) (w'.heap.view g) l
  blocks : w'.heap.blocks ⊆ w.heap.blocks
  shorter : D'.length ≤ D.length
  before : (w'.heap.elems V).map g = (w.heap.elems V).map g
  visited : (calls.map fun call => g call.2 : Multiset γ) = (w'.heap.contents c).map g
  rest : (w'.heap.elems (c :: D')).map g = (w.heap.elems (c :: D)).map g

/-- A dirty node is cleaned up when a pass reaches it, and stays in the list as long
as there are elements that the pass has not seen. -/
theorem cleanupIfDirty_spec {h : Heap α} {V D S : List NodePtr} {c : NodePtr} (ok : h.Ok)
    (list : ThreadListOk h l (V ++ c :: D) S) (more : (h.elems V).card < (h.elems (V ++ c :: D)).card) :
    ∃ h' D' S', cleanupIfDirty h c l = some h' ∧ h'.Ok ∧ ThreadListOk h' l (V ++ c :: D') S' ∧ Local h h' l ∧
      h'.blocks ⊆ h.blocks ∧ D'.length ≤ D.length ∧ h'.elems V = h.elems V ∧ h'.elems (c :: D') = h.elems (c :: D) ∧
      ∃ n, h'.node c = some n ∧ n.toSlots.liveSlots = Finset.range n.numElements := by
  obtain ⟨n, atNode, _⟩ := list.node (p := c) (by simp)
  by_cases dirty : n.dirty = true
  · obtain ⟨h', A', S', run, post⟩ := cleanupNode_spec list.toShape (ok.except (some c))
    have keeps := post.keeps list.toShape
    have sameV : h'.elems V = h.elems V := Heap.elems_congr post.before
    rcases post.place with ⟨D', rfl⟩ | ⟨early, _⟩
    · obtain ⟨m, atNode', _⟩ := post.shape.node (p := c) (by simp)
      have total := keeps.elems
      rw [Heap.elems_append, Heap.elems_append, sameV, add_right_inj] at total
      refine ⟨h', D', S', by simp [cleanupIfDirty, atNode, dirty, run], post.ok, keeps.listOk list, keeps.loc,
        post.evolves.blocks, ?_, sameV,
        total, m, atNode', post.compact _ (Heap.slots_eq atNode')⟩
      simpa using post.activePrefix.length_le
    · -- Giving up `c` would leave the remaining elements nowhere.
      exfalso
      obtain ⟨C, split⟩ := early
      have bound : (h'.elems A').card ≤ (h'.elems V).card := by
        rw [← split, Heap.elems_append, Multiset.card_add]
        exact Nat.le_add_right _ _
      rw [keeps.elems, sameV] at bound
      omega
  · have clean : n.dirty = false := by simpa using dirty
    exact ⟨h, D, S, by simp [cleanupIfDirty, atNode, clean], ok, list, Local.refl h l,
      Finset.Subset.refl _, le_rfl, rfl, rfl, n, atNode,
      ((ok c n atNode).1.clean clean).1⟩

theorem runKernelThreadTurn_spec (writes : kernel.Writes g) (returns : kernel.Returns) {w : World σ α}
    {V D S : List NodePtr} {c : NodePtr} (ok : w.heap.Ok) (list : ThreadListOk w.heap l (V ++ c :: D) S)
    {done init : Nat} (sofar : done = (w.heap.elems V).card) (whole : init = (w.heap.elems (V ++ c :: D)).card)
    (more : done < init) :
    ∃ w' D' S' done' calls, runKernelThreadTurn l kernel init w c done =
        some (w', (D' ++ S').head?, done', calls) ∧
      TurnPost w w' l g V c D D' S' calls ∧ done' = (w'.heap.elems (V ++ [c])).card := by
  obtain ⟨h₁, D', S', cleaned, ok₁, list₁, loc₁, blocks₁, shorter, sameV, sameD, n, atNode, compact⟩ :=
    cleanupIfDirty_spec ok list (by omega)
  have room : n.numElements ≤ n.capacity := (ok₁ c n atNode).1.toCounted.numElements_le
  have enough : n.numElements < 2 * n.capacity + 2 + 0 := by omega
  obtain ⟨w', calls, loop, same, seen⟩ := runKernelOnNodeLoop_spec writes returns compact more (Nat.zero_le _) enough
    (w := ⟨w.extra, h₁⟩) atNode
  have post := write_step ok₁ list₁ (Heap.skeleton_of_view_eq same)
  obtain ⟨n', atNode', equal⟩ := Heap.node_of_view_eq same atNode
  have after : n'.next = (D' ++ S').head? := post.list.next_eq (B := V) (by simp) atNode'
  rw [Nat.sub_zero, ← List.range_eq_range'] at seen
  have here : (w'.heap.contents c).map g = ((List.range n.numElements).map fun j => g (n.elements j) : Multiset γ) := by
    have contents := Heap.elems_of_view_eq same [c]
    rw [Heap.elems_singleton, Heap.elems_singleton, Heap.contents_eq (h := h₁) (Heap.slots_eq atNode),
      Slots.contents_of_range compact, Multiset.map_coe, List.map_map] at contents
    exact contents
  have total := Heap.elems_of_view_eq same
  refine ⟨w', D', S', done + n.numElements, calls, ?_, ⟨post.ok, post.list, (loc₁.view g).trans ?_,
    (Heap.blocks_of_view_eq same).subset.trans blocks₁, shorter, ?_, ?_, ?_⟩, ?_⟩
  · simp only [runKernelThreadTurn, cleaned, runKernelOnNode, atNode, loop, Option.bind_eq_bind, Option.bind_some,
      Option.pure_def, atNode', after]
  · rw [same]
    exact Local.refl _ l
  · rw [total V]
    exact congrArg (Multiset.map g) sameV
  · rw [seen, here]
  · rw [total (c :: D')]
    exact congrArg (Multiset.map g) sameD
  · have cardV : (w'.heap.elems V).card = (w.heap.elems V).card := by
      rw [← Multiset.card_map g, total V, Multiset.card_map]
      exact congrArg Multiset.card sameV
    have cardC : (w'.heap.contents c).card = n.numElements := by
      rw [← Multiset.card_map g, here, Multiset.coe_card, List.length_map, List.length_range]
    rw [Heap.elems_append, Heap.elems_singleton, Multiset.card_add, cardV, cardC, sofar]

/-- What a pass with a kernel that only writes does to a list whose nodes `V` it has passed. -/
structure PassPost (w w' : World σ α) (l : ListPtr) (g : α → γ) (V D A' S' : List NodePtr)
    (calls : List (ElemPtr × α)) : Prop where
  ok : w'.heap.Ok
  list : ThreadListOk w'.heap l A' S'
  loc : Local (w.heap.view g) (w'.heap.view g) l
  blocks : w'.heap.blocks ⊆ w.heap.blocks
  visited : (calls.map fun call => g call.2 : Multiset γ) = (w.heap.elems D).map g
  elems : (w'.heap.elems A').map g = (w.heap.elems (V ++ D)).map g

theorem runKernelThreadLoop_spec (writes : kernel.Writes g) (returns : kernel.Returns) {turns : Nat} {w : World σ α}
    {V D S : List NodePtr} (ok : w.heap.Ok) (list : ThreadListOk w.heap l (V ++ D) S) {done init : Nat}
    (sofar : done = (w.heap.elems V).card) (whole : init = (w.heap.elems (V ++ D)).card) (enough : D.length < turns) :
    ∃ w' A' S' calls, runKernelThreadLoop l kernel init turns w (D ++ S).head? done = some (w', calls) ∧
      PassPost w w' l g V D A' S' calls := by
  induction turns generalizing w V D S done with
  | zero => omega
  | succ turns ih =>
    have stay (empty : w.heap.elems D = 0)
        (run : runKernelThreadLoop l kernel init (turns + 1) w (D ++ S).head? done = some (w, [])) :
        ∃ w' A' S' calls, runKernelThreadLoop l kernel init (turns + 1) w (D ++ S).head? done = some (w', calls) ∧
          PassPost w w' l g V D A' S' calls :=
      ⟨w, V ++ D, S, [], run, ok, list, Local.refl _ l, Finset.Subset.refl _, by rw [empty]; rfl, rfl⟩
    cases D with
    | nil =>
      cases S with
      | nil => exact stay rfl rfl
      | cons s S =>
        refine stay rfl ?_
        obtain ⟨n, atNode, _⟩ := list.node (p := s) (by simp)
        have inactive : n.active = false := by
          rw [← Bool.not_eq_true, list.active_iff atNode (by simp)]
          exact list.notMem_active (List.mem_cons_self ..)
        simp [runKernelThreadLoop, atNode, inactive]
    | cons c D =>
      obtain ⟨n, atNode, _⟩ := list.node (p := c) (by simp)
      have active : n.active = true := (list.active_iff atNode (by simp)).mpr (by simp)
      by_cases more : done < init
      · obtain ⟨w₁, D', S', done', calls, turn, post, sofar'⟩ :=
          runKernelThreadTurn_spec writes returns ok list sofar whole more
        have listV : ThreadListOk w₁.heap l ((V ++ [c]) ++ D') S' := by
          rw [List.append_assoc, List.singleton_append]; exact post.list
        have joined : (w₁.heap.elems ((V ++ [c]) ++ D')).map g = (w.heap.elems (V ++ c :: D)).map g := by
          rw [List.append_assoc, List.singleton_append, Heap.elems_append, Heap.elems_append, Multiset.map_add,
            Multiset.map_add, post.before, post.rest]
        have whole' : init = (w₁.heap.elems ((V ++ [c]) ++ D')).card := by
          rw [whole, ← Multiset.card_map g, ← joined, Multiset.card_map]
        have bound := post.shorter
        rw [List.length_cons] at enough
        obtain ⟨w', A', S'', later, run, rest⟩ := ih post.ok listV sofar' whole' (by omega)
        refine ⟨w', A', S'', calls ++ later, ?_, rest.ok, rest.list, post.loc.trans rest.loc,
          rest.blocks.trans post.blocks, ?_, rest.elems.trans joined⟩
        · simp only [List.cons_append, List.head?_cons, runKernelThreadLoop, atNode, Option.bind_eq_bind,
            Option.bind_some, active, more, and_self, if_true, turn, run, Option.pure_def]
        · rw [List.map_append, ← Multiset.coe_add, rest.visited, post.visited, ← post.rest, Heap.elems_cons,
            Multiset.map_add]
      · refine stay ?_ (by simp [runKernelThreadLoop, atNode, more])
        rw [Heap.elems_append, Multiset.card_add] at whole
        exact Multiset.card_eq_zero.mp (by omega)

/-- A pass applies its kernel once to each element of the list. -/
theorem runKernelThread_spec (writes : kernel.Writes g) (returns : kernel.Returns) {turns : Nat} {w : World σ α}
    {A S : List NodePtr} (ok : w.heap.Ok) (list : ThreadListOk w.heap l A S) (enough : w.heap.blocks.card < turns)
    (elapsed : ℚ) :
    ∃ w' A' S' calls, runKernelThread turns w l kernel elapsed = some (w', calls) ∧
      PassPost w w' l g [] A A' S' calls := by
  have bound : A.length < turns := by
    have nodes := list.card_le_blocks
    rw [List.length_append] at nodes
    omega
  have start : 0 = (w.heap.elems []).card := rfl
  obtain ⟨w₁, A', S', calls, run, post⟩ := runKernelThreadLoop_spec writes returns (V := []) ok list start
    list.count bound
  have timed := recordRunTime_step post.ok post.list elapsed
  refine ⟨{ w₁ with heap := w₁.heap.modifyList l fun tl => tl.recordRunTime elapsed }, A', S', calls, ?_, timed.ok,
    timed.list, post.loc.trans ((Local.modifyList w₁.heap l rfl rfl).view g), post.blocks, post.visited, post.elems⟩
  simp only [runKernelThread, list.head, Option.bind_eq_bind]
  rw [run]
  rfl

end Writes

end Puma
