import Mathlib.Data.List.Nodup
import Mathlib.Logic.Function.Basic
import Puma.Heap

namespace Puma

/-- `_getSmallestContainingPages`; the complement is that of a `size_t`. -/
def getSmallestContainingPages (pumaPageSize size : Nat) : Nat :=
  let pageAligned := size &&& ((2 ^ 64 - 1) ^^^ (pumaPageSize - 1))
  pageAligned + if pageAligned ≠ size then pumaPageSize else 0

/-- `struct pumaStaticNode`. -/
structure PumaStaticNode where
  nextFree : Nat
  used : Nat
  blockSize : Nat
  next : Option Nat
  prev : Option Nat
  deriving DecidableEq

/-- `sizeof(struct pumaStaticNode)`: three pointers and two `size_t`. -/
def sizeofPumaStaticNode : Nat := 40

/-- The thread-specific values behind a key that has been created. -/
abbrev StaticKey (τ : Type) := Option (τ → Option Nat)

/-- The global variables of the static data, and the blocks obtained and not yet
released, each with the thread that obtained it. -/
structure StaticState (τ : Type) where
  initialiseOnce : Bool
  staticHeadKey : StaticKey τ
  staticTailKey : StaticKey τ
  node : Nat → Option PumaStaticNode
  blocks : List (Nat × τ)

variable {τ : Type}

def StaticKey.set [DecidableEq τ] (key : StaticKey τ) (thread : τ) (value : Nat) : StaticKey τ :=
  key.map fun values => Function.update values thread (some value)

namespace StaticState

/-- Before the first call. -/
def start : StaticState τ where
  initialiseOnce := false
  staticHeadKey := none
  staticTailKey := none
  node := fun _ => none
  blocks := []

def setNode (s : StaticState τ) (a : Nat) (n : PumaStaticNode) : StaticState τ :=
  { s with node := Function.update s.node a (some n) }

/-- Does the block at `block` of the given size share memory with a block in use? -/
def overlaps (s : StaticState τ) (block size : Nat) : Bool :=
  s.blocks.any fun b => match s.node b.1 with
    | some n => decide (block < b.1 + n.blockSize ∧ b.1 < block + size)
    | none => false

def nufree (s : StaticState τ) (a : Nat) : StaticState τ :=
  { s with node := Function.update s.node a none, blocks := s.blocks.filter fun b => b.1 ≠ a }

end StaticState

/-- The block that `_appendStaticNode` builds. -/
def newStaticNode (block nodeSize : Nat) (prev : Option Nat) : PumaStaticNode where
  nextFree := block + sizeofPumaStaticNode
  used := 0
  blockSize := nodeSize + sizeofPumaStaticNode
  next := none
  prev := prev

/-- `_appendStaticNode`. The allocator returns `block`, which shares no memory with a block in use. -/
def appendStaticNode (s : StaticState τ) (thread : τ) (prev : Option Nat) (nodeSize block : Nat) :
    Option (StaticState τ) :=
  if s.overlaps block (nodeSize + sizeofPumaStaticNode) then none
  else
    let s := { s with
      node := Function.update s.node block (some (newStaticNode block nodeSize prev))
      blocks := (block, thread) :: s.blocks }
    match prev with
    | none => some s
    | some p => (s.node p).map fun n => s.setNode p { n with next := some block }

/-- A key that has not been created, and a `NULL` tail, end the call without a result. -/
def tailHasSpace (s : StaticState τ) (thread : τ) (size : Nat) : Option Bool := do
  let tail ← (← s.staticTailKey) thread
  let n ← s.node tail
  pure (decide (size ≤ sizeSub n.blockSize n.used))

def initialiseStaticNodes (s : StaticState τ) : StaticState τ :=
  { s with staticHeadKey := some fun _ => none, staticTailKey := some fun _ => none }

/-- `pthread_once(&_initialiseOnce, &_initialiseStaticNodes)`. -/
def StaticState.once (s : StaticState τ) : StaticState τ :=
  if s.initialiseOnce then s else { initialiseStaticNodes s with initialiseOnce := true }

/-- The first part of `pumallocStaticLocal`: a thread without a head gets one. -/
def ensureStaticHead [DecidableEq τ] (pumaPageSize : Nat) (s : StaticState τ) (thread : τ) (size block : Nat) :
    Option (StaticState τ) := do
  match (← s.staticHeadKey) thread with
  | some _ => pure s
  | none => do
    let s ← appendStaticNode s thread none (getSmallestContainingPages pumaPageSize size) block
    pure { s with
      staticHeadKey := StaticKey.set s.staticHeadKey thread block
      staticTailKey := StaticKey.set s.staticTailKey thread block }

/-- The choice of the block that holds the region. -/
def staticTail (pumaPageSize : Nat) (s : StaticState τ) (thread : τ) (size block : Nat) :
    Option (StaticState τ × Nat) := do
  let tail ← (← s.staticTailKey) thread
  if ← tailHasSpace s thread size then pure (s, tail)
  else do
    let s ← appendStaticNode s thread (some tail) (getSmallestContainingPages pumaPageSize size) block
    pure (s, block)

def pumallocStaticLocal [DecidableEq τ] (pumaPageSize : Nat) (s : StaticState τ) (thread : τ) (size block : Nat) :
    Option (StaticState τ × Nat) := do
  let s ← ensureStaticHead pumaPageSize s.once thread size block
  let (s, tail) ← staticTail pumaPageSize s thread size block
  let n ← s.node tail
  pure (s.setNode tail { n with nextFree := n.nextFree + size, used := n.used + size }, n.nextFree)

/-- The loop of `pumaDeleteStaticData`, with the blocks passed to `nufree`. Each turn
releases a block, so the number of blocks bounds the turns. -/
def freeStaticNodes : Nat → StaticState τ → Option Nat → Option (StaticState τ × List Nat)
  | _, s, none => some (s, [])
  | 0, _, some _ => none
  | turns + 1, s, some head => do
    let n ← s.node head
    let (s, later) ← freeStaticNodes turns (s.nufree head) n.next
    pure (s, head :: later)

def pumaDeleteStaticData (s : StaticState τ) (thread : τ) : Option (StaticState τ × List Nat) := do
  let s := s.once
  let head := (← s.staticHeadKey) thread
  let (s, freed) ← freeStaticNodes s.blocks.length s head
  pure ({ s with initialiseOnce := false, staticHeadKey := none, staticTailKey := none }, freed)

namespace StaticState

/-- What a thread finds behind the head key. -/
def head (s : StaticState τ) (thread : τ) : Option Nat :=
  if s.initialiseOnce then s.staticHeadKey.bind fun values => values thread else none

/-- The invariant of all calls. Both keys hold the same value, since an overflow does not store
the new block behind the tail key; so a chain has at most one block behind its head. -/
structure Ok (s : StaticState τ) : Prop where
  keys : s.initialiseOnce = true → s.staticHeadKey.isSome ∧ s.staticTailKey = s.staticHeadKey
  nodes : ∀ a, (s.node a).isSome ↔ a ∈ s.blocks.map Prod.fst
  nodup : (s.blocks.map Prod.fst).Nodup
  sized : ∀ a n, s.node a = some n → 0 < n.blockSize
  chain : ∀ t a, s.head t = some a → (a, t) ∈ s.blocks ∧ ∀ n x, s.node a = some n → n.next = some x →
    x ≠ a ∧ (x, t) ∈ s.blocks ∧ ∀ m, s.node x = some m → m.next = none

theorem start_ok : (start : StaticState τ).Ok where
  keys := by intro on; cases on
  nodes := by simp [start]
  nodup := List.nodup_nil
  sized := by intro a n atNode; cases atNode
  chain := by intro t a atHead; cases atHead

theorem head_once (s : StaticState τ) (t : τ) : s.once.head t = s.head t := by
  unfold once head
  split
  · rfl
  · simp [initialiseStaticNodes]

theorem blocks_once (s : StaticState τ) : s.once.blocks = s.blocks := by
  unfold once
  split <;> rfl

theorem node_once (s : StaticState τ) : s.once.node = s.node := by
  unfold once
  split <;> rfl

theorem initialised_once (s : StaticState τ) : s.once.initialiseOnce = true := by
  unfold once
  split
  · assumption
  · rfl

theorem Ok.once {s : StaticState τ} (ok : s.Ok) : s.once.Ok where
  keys := by
    intro _
    unfold StaticState.once
    split
    · exact ok.keys ‹_›
    · exact ⟨rfl, rfl⟩
  nodes := by rw [node_once, blocks_once]; exact ok.nodes
  nodup := by rw [blocks_once]; exact ok.nodup
  sized := by rw [node_once]; exact ok.sized
  chain := by
    intro t a
    rw [head_once, blocks_once, node_once]
    exact ok.chain t a

theorem Ok.node {s : StaticState τ} (ok : s.Ok) {a : Nat} {t : τ} (member : (a, t) ∈ s.blocks) :
    ∃ n, s.node a = some n :=
  Option.isSome_iff_exists.mp ((ok.nodes a).mpr (List.mem_map_of_mem member))

theorem Ok.owner_unique {s : StaticState τ} (ok : s.Ok) {a : Nat} {t u : τ} (first : (a, t) ∈ s.blocks)
    (second : (a, u) ∈ s.blocks) : t = u :=
  congrArg Prod.snd (List.inj_on_of_nodup_map ok.nodup first second rfl)

/-- A block that the allocator returns is new. -/
theorem Ok.fresh {s : StaticState τ} (ok : s.Ok) {block size : Nat} (sizePositive : 0 < size)
    (free : s.overlaps block size = false) : s.node block = none := by
  by_contra there
  obtain ⟨n, atNode⟩ := Option.ne_none_iff_exists'.mp there
  obtain ⟨b, member, same⟩ := List.mem_map.mp ((ok.nodes block).mp (by rw [atNode]; rfl))
  have apart := List.any_eq_false.mp free b member
  have positive := ok.sized block n atNode
  simp only [same, atNode, decide_eq_true_eq, not_and, not_lt] at apart
  have := apart (by omega)
  omega

theorem Ok.notMem {s : StaticState τ} (ok : s.Ok) {block : Nat} (missing : s.node block = none) :
    block ∉ s.blocks.map Prod.fst := by
  rw [← ok.nodes block, missing]
  simp

theorem Ok.ne_of_mem {s : StaticState τ} (ok : s.Ok) {block q : Nat} {u : τ} (missing : s.node block = none)
    (member : (q, u) ∈ s.blocks) : q ≠ block :=
  fun same => ok.notMem missing (same ▸ List.mem_map_of_mem member)

/-- The block `block` becomes the thread's own. -/
def obtain (s : StaticState τ) (thread : τ) (block : Nat) (n : PumaStaticNode) : StaticState τ :=
  { s with node := Function.update s.node block (some n), blocks := (block, thread) :: s.blocks }

end StaticState

/-- The node `n` after a region of the given size has been cut off. -/
def PumaStaticNode.cut (n : PumaStaticNode) (size : Nat) : PumaStaticNode :=
  { n with nextFree := n.nextFree + size, used := n.used + size }

/-- Is there room in the block, as `_tailHasSpace` counts it? -/
def PumaStaticNode.Room (n : PumaStaticNode) (size : Nat) : Prop := size ≤ sizeSub n.blockSize n.used

instance (n : PumaStaticNode) (size : Nat) : Decidable (n.Room size) := inferInstanceAs (Decidable (_ ≤ _))

/-- The three ways in which `pumallocStaticLocal` comes to its region: in the first block of the
thread, in the block behind the tail key, or in a new block linked behind that one. -/
inductive Pumalloced [DecidableEq τ] (pumaPageSize : Nat) (s : StaticState τ) (thread : τ) (size block : Nat) :
    StaticState τ → Nat → Prop
  | first {n : PumaStaticNode} (missing : s.head thread = none)
      (new : n = newStaticNode block (getSmallestContainingPages pumaPageSize size) none)
      (free : s.overlaps block n.blockSize = false) (room : n.Room size) :
      Pumalloced pumaPageSize s thread size block
        ({ s.once.obtain thread block n with
          staticHeadKey := StaticKey.set s.once.staticHeadKey thread block
          staticTailKey := StaticKey.set s.once.staticTailKey thread block }.setNode block (n.cut size))
        n.nextFree
  | room {a : Nat} {n : PumaStaticNode} (atHead : s.head thread = some a) (atNode : s.node a = some n)
      (room : n.Room size) :
      Pumalloced pumaPageSize s thread size block (s.once.setNode a (n.cut size)) n.nextFree
  | overflow {a : Nat} {n m : PumaStaticNode} (atHead : s.head thread = some a) (atNode : s.node a = some n)
      (full : ¬ n.Room size)
      (new : m = newStaticNode block (getSmallestContainingPages pumaPageSize size) (some a))
      (free : s.overlaps block m.blockSize = false) :
      Pumalloced pumaPageSize s thread size block
        (((s.once.obtain thread block m).setNode a { n with next := some block }).setNode block (m.cut size))
        m.nextFree

theorem StaticState.overlaps_once (s : StaticState τ) (block size : Nat) :
    s.once.overlaps block size = s.overlaps block size := by
  unfold StaticState.overlaps
  rw [StaticState.blocks_once, StaticState.node_once]

/-- A block in use shares memory with itself. -/
theorem StaticState.overlaps_self {s : StaticState τ} {b : Nat × τ} {n : PumaStaticNode} {size : Nat}
    (member : b ∈ s.blocks) (atNode : s.node b.1 = some n) (positive : 0 < n.blockSize) (sizePositive : 0 < size) :
    s.overlaps b.1 size = true := by
  refine List.any_eq_true.mpr ⟨b, member, ?_⟩
  simp only [atNode, decide_eq_true_eq]
  omega

section Steps

variable [DecidableEq τ] {pumaPageSize size block : Nat} {s s' : StaticState τ} {thread : τ} {ret : Nat}

theorem pumallocStaticLocal_cases (ok : s.Ok)
    (run : pumallocStaticLocal pumaPageSize s thread size block = some (s', ret)) :
    Pumalloced pumaPageSize s thread size block s' ret := by
  have on := s.initialised_once
  obtain ⟨created, same⟩ := ok.once.keys on
  obtain ⟨values, atKey⟩ := Option.isSome_iff_exists.mp created
  rw [atKey] at same
  have head : s.head thread = values thread := by
    rw [← s.head_once, StaticState.head, if_pos on, atKey]
    rfl
  simp only [pumallocStaticLocal, ensureStaticHead, atKey, Option.bind_eq_bind, Option.bind_some,
    Option.pure_def] at run
  cases behind : values thread with
  | none =>
    simp only [behind, appendStaticNode, StaticState.overlaps_once] at run
    split at run
    · cases run
    rename_i free
    rw [Bool.not_eq_true] at free
    simp only [Option.bind_some, staticTail, tailHasSpace, same, StaticKey.set, Option.map_some, Option.bind_eq_bind,
      Function.update_self, Option.pure_def, decide_eq_true_eq] at run
    split at run
    · rename_i room
      simp only [Option.bind_some, Function.update_self] at run
      cases run
      have first := Pumalloced.first (s := s) (head.trans behind) rfl free room
      rw [same] at first
      exact first
    · rename_i full
      simp only [appendStaticNode] at run
      split at run
      · cases run
      · rename_i free'
        exact absurd (StaticState.overlaps_self (b := (block, thread)) (List.mem_cons_self ..)
          (Function.update_self ..) (Nat.succ_pos _) (Nat.succ_pos _)) free'
  | some a =>
    have atHead := head.trans behind
    obtain ⟨n, atNode⟩ := ok.node (ok.chain thread a atHead).1
    have atNode' := atNode
    rw [← s.node_once] at atNode'
    simp only [behind, Option.bind_some, staticTail, tailHasSpace, same, atNode', Option.bind_eq_bind,
      Option.pure_def, decide_eq_true_eq] at run
    split at run
    · rename_i room
      simp only [Option.bind_some, atNode'] at run
      cases run
      exact Pumalloced.room atHead atNode room
    · rename_i full
      simp only [appendStaticNode, StaticState.overlaps_once] at run
      split at run
      · cases run
      rename_i free
      rw [Bool.not_eq_true] at free
      have apart : a ≠ block := fun same => by
        have missing := ok.fresh (Nat.succ_pos _) free
        rw [← same, atNode] at missing
        cases missing
      simp only [Function.update_of_ne apart, atNode', Option.map_some, Option.bind_some, StaticState.setNode,
        Function.update_of_ne apart.symm, Function.update_self] at run
      cases run
      exact Pumalloced.overflow atHead atNode full rfl free

omit [DecidableEq τ] in
/-- The keys after `pthread_once`, as one function. -/
theorem StaticState.Ok.keys_once (ok : s.Ok) :
    s.once.staticHeadKey = some s.head ∧ s.once.staticTailKey = some s.head := by
  obtain ⟨created, same⟩ := ok.once.keys s.initialised_once
  obtain ⟨values, atKey⟩ := Option.isSome_iff_exists.mp created
  have heads : s.head = values := by
    funext t
    rw [← s.head_once, StaticState.head, if_pos s.initialised_once, atKey]
    rfl
  rw [same, atKey, heads]
  exact ⟨rfl, rfl⟩

/-- The effect of a call on the variables that the later ones depend on. -/
structure StaticEffect (s' : StaticState τ) (heads : τ → Option Nat) (nodes : Nat → Option PumaStaticNode)
    (blocks : List (Nat × τ)) : Prop where
  on : s'.initialiseOnce = true
  headKey : s'.staticHeadKey = some heads
  tailKey : s'.staticTailKey = some heads
  node : s'.node = nodes
  blocks : s'.blocks = blocks

omit [DecidableEq τ] in
theorem StaticEffect.head {heads : τ → Option Nat} {nodes : Nat → Option PumaStaticNode} {blocks : List (Nat × τ)}
    (effect : StaticEffect s' heads nodes blocks) : s'.head = heads := by
  funext t
  rw [StaticState.head, if_pos effect.on, effect.headKey]
  rfl

/-- What `pumallocStaticLocal` changes, in each of its cases. -/
theorem Pumalloced.effect (ok : s.Ok) (case : Pumalloced pumaPageSize s thread size block s' ret) :
    (∃ n, s.head thread = none ∧ n = newStaticNode block (getSmallestContainingPages pumaPageSize size) none ∧
      s.overlaps block n.blockSize = false ∧ n.Room size ∧ ret = n.nextFree ∧
      StaticEffect s' (Function.update s.head thread (some block)) (Function.update s.node block (some (n.cut size)))
        ((block, thread) :: s.blocks)) ∨
    (∃ a n, s.head thread = some a ∧ s.node a = some n ∧ n.Room size ∧ ret = n.nextFree ∧
      StaticEffect s' s.head (Function.update s.node a (some (n.cut size))) s.blocks) ∨
    (∃ a n m, s.head thread = some a ∧ s.node a = some n ∧ ¬ n.Room size ∧
      m = newStaticNode block (getSmallestContainingPages pumaPageSize size) (some a) ∧
      s.overlaps block m.blockSize = false ∧ ret = m.nextFree ∧
      StaticEffect s' s.head (Function.update (Function.update s.node a (some { n with next := some block })) block
        (some (m.cut size))) ((block, thread) :: s.blocks)) := by
  have on := s.initialised_once
  obtain ⟨headKey, tailKey⟩ := ok.keys_once
  cases case with
  | @first n missing new free room =>
    refine Or.inl ⟨n, missing, new, free, room, rfl, on, ?_, ?_, ?_, ?_⟩
    · simp only [StaticState.setNode, headKey, StaticKey.set, Option.map_some]
    · simp only [StaticState.setNode, tailKey, StaticKey.set, Option.map_some]
    · simp only [StaticState.setNode, StaticState.obtain, Function.update_idem, s.node_once]
    · simp only [StaticState.setNode, StaticState.obtain, s.blocks_once]
  | @room a n atHead atNode room =>
    refine Or.inr (Or.inl ⟨a, n, atHead, atNode, room, rfl, on, headKey, tailKey, ?_, s.blocks_once⟩)
    simp only [StaticState.setNode, s.node_once]
  | @overflow a n m atHead atNode full new free =>
    refine Or.inr (Or.inr ⟨a, n, m, atHead, atNode, full, new, free, rfl, on, headKey, tailKey, ?_, ?_⟩)
    · have apart : a ≠ block := fun same => by
        have missing := ok.fresh (new ▸ Nat.succ_pos _) free
        rw [← same, atNode] at missing
        cases missing
      simp only [StaticState.setNode, StaticState.obtain, s.node_once]
      rw [Function.update_comm apart.symm, Function.update_idem, Function.update_comm apart]
    · simp only [StaticState.setNode, StaticState.obtain, s.blocks_once]

/-- The blocks that a thread finds from its head key. -/
def StaticState.chain (s : StaticState τ) (thread : τ) : List Nat :=
  match s.head thread with
  | none => []
  | some a => a :: ((s.node a).bind fun n => n.next).toList

/-- The call links a new block over one that is already behind the tail key's block. -/
def StaticState.Overwrites (s : StaticState τ) (thread : τ) (size : Nat) : Prop :=
  ∃ a n, s.head thread = some a ∧ s.node a = some n ∧ ¬ n.Room size ∧ n.next ≠ none

omit [DecidableEq τ] in
theorem StaticEffect.keys {heads : τ → Option Nat} {nodes : Nat → Option PumaStaticNode} {blocks : List (Nat × τ)}
    (effect : StaticEffect s' heads nodes blocks) :
    s'.initialiseOnce = true → s'.staticHeadKey.isSome ∧ s'.staticTailKey = s'.staticHeadKey :=
  fun _ => ⟨by rw [effect.headKey]; rfl, by rw [effect.headKey, effect.tailKey]⟩

/-- The first block of a thread has nothing behind it. -/
theorem StaticEffect.ok_first {n : PumaStaticNode}
    (effect : StaticEffect s' (Function.update s.head thread (some block)) (Function.update s.node block (some n))
      ((block, thread) :: s.blocks))
    (ok : s.Ok) (fresh : s.node block = none) (sized : 0 < n.blockSize) (alone : n.next = none) : s'.Ok where
  keys := effect.keys
  nodes q := by
    rw [effect.node, effect.blocks, List.map_cons, List.mem_cons]
    by_cases same : q = block
    · simp [same]
    · rw [Function.update_of_ne same, ok.nodes q]
      simp [same]
  nodup := by
    rw [effect.blocks, List.map_cons, List.nodup_cons]
    exact ⟨ok.notMem fresh, ok.nodup⟩
  sized q k atQ := by
    rw [effect.node] at atQ
    by_cases same : q = block
    · rw [same, Function.update_self] at atQ
      rwa [← Option.some.inj atQ]
    · rw [Function.update_of_ne same] at atQ
      exact ok.sized q k atQ
  chain t q atHead := by
    rw [effect.head] at atHead
    rw [effect.blocks, effect.node]
    by_cases same : t = thread
    · rw [same, Function.update_self] at atHead
      cases atHead
      refine ⟨same ▸ List.mem_cons_self .., fun k x atQ after => ?_⟩
      rw [Function.update_self] at atQ
      rw [← Option.some.inj atQ, alone] at after
      cases after
    · rw [Function.update_of_ne same] at atHead
      obtain ⟨member, rest⟩ := ok.chain t q atHead
      refine ⟨List.mem_cons_of_mem _ member, fun k x atQ after => ?_⟩
      rw [Function.update_of_ne (ok.ne_of_mem fresh member)] at atQ
      obtain ⟨apart, inside, last⟩ := rest k x atQ after
      rw [Function.update_of_ne (ok.ne_of_mem fresh inside)]
      exact ⟨apart, List.mem_cons_of_mem _ inside, last⟩

omit [DecidableEq τ] in
/-- A node that keeps its size and its successor leaves the chains as they are. -/
theorem StaticEffect.ok_room {a : Nat} {n n' : PumaStaticNode}
    (effect : StaticEffect s' s.head (Function.update s.node a (some n')) s.blocks) (ok : s.Ok)
    (atNode : s.node a = some n) (blockSize : n'.blockSize = n.blockSize) (next : n'.next = n.next) : s'.Ok := by
  have old {p : Nat} {k : PumaStaticNode} (atP : s'.node p = some k) :
      ∃ k₀, s.node p = some k₀ ∧ k.blockSize = k₀.blockSize ∧ k.next = k₀.next := by
    rw [effect.node] at atP
    by_cases same : p = a
    · rw [same, Function.update_self] at atP
      rw [← Option.some.inj atP]
      exact ⟨n, same ▸ atNode, blockSize, next⟩
    · rw [Function.update_of_ne same] at atP
      exact ⟨k, atP, rfl, rfl⟩
  refine ⟨effect.keys, fun q => ?_, by rw [effect.blocks]; exact ok.nodup, fun q k atQ => ?_, fun t q atHead => ?_⟩
  · rw [effect.node, effect.blocks, ← ok.nodes q]
    by_cases same : q = a
    · simp [same, atNode]
    · rw [Function.update_of_ne same]
  · obtain ⟨k₀, atQ₀, size₀, _⟩ := old atQ
    rw [size₀]
    exact ok.sized q k₀ atQ₀
  · rw [effect.head] at atHead
    obtain ⟨member, rest⟩ := ok.chain t q atHead
    refine ⟨by rw [effect.blocks]; exact member, fun k x atQ after => ?_⟩
    obtain ⟨k₀, atQ₀, _, next₀⟩ := old atQ
    obtain ⟨apart, inside, last⟩ := rest k₀ x atQ₀ (next₀.symm.trans after)
    refine ⟨apart, by rw [effect.blocks]; exact inside, fun m atX => ?_⟩
    obtain ⟨m₀, atX₀, _, nextX⟩ := old atX
    rw [nextX]
    exact last m₀ atX₀

omit [DecidableEq τ] in
/-- The block behind the first one of a thread makes way for a new block that has nothing behind it. -/
theorem StaticEffect.ok_overflow {a : Nat} {n m : PumaStaticNode}
    (effect : StaticEffect s' s.head (Function.update (Function.update s.node a (some { n with next := some block }))
      block (some m)) ((block, thread) :: s.blocks))
    (ok : s.Ok) (atHead : s.head thread = some a) (atNode : s.node a = some n) (fresh : s.node block = none)
    (sized : 0 < m.blockSize) (alone : m.next = none) : s'.Ok := by
  obtain ⟨inUse, _⟩ := ok.chain thread a atHead
  have old {p : Nat} {k : PumaStaticNode} (other : p ≠ block) (atP : s'.node p = some k) :
      ∃ k₀, s.node p = some k₀ ∧ k.blockSize = k₀.blockSize ∧ k.next = if p = a then some block else k₀.next := by
    rw [effect.node, Function.update_of_ne other] at atP
    by_cases same : p = a
    · rw [same, Function.update_self] at atP
      rw [← Option.some.inj atP]
      exact ⟨n, same ▸ atNode, rfl, by rw [if_pos same]⟩
    · rw [Function.update_of_ne same] at atP
      exact ⟨k, atP, rfl, by rw [if_neg same]⟩
  refine ⟨effect.keys, fun q => ?_, ?_, fun q k atQ => ?_, fun t q atHead' => ?_⟩
  · rw [effect.node, effect.blocks, List.map_cons, List.mem_cons, ← ok.nodes q]
    by_cases same : q = block
    · simp [same]
    · rw [Function.update_of_ne same]
      by_cases here : q = a
      · simp [here, atNode]
      · simp [Function.update_of_ne here, same]
  · rw [effect.blocks, List.map_cons, List.nodup_cons]
    exact ⟨ok.notMem fresh, ok.nodup⟩
  · by_cases same : q = block
    · rw [effect.node, same, Function.update_self] at atQ
      rwa [← Option.some.inj atQ]
    · obtain ⟨k₀, atQ₀, size₀, _⟩ := old same atQ
      rw [size₀]
      exact ok.sized q k₀ atQ₀
  · rw [effect.head] at atHead'
    obtain ⟨member, rest⟩ := ok.chain t q atHead'
    refine ⟨by rw [effect.blocks]; exact List.mem_cons_of_mem _ member, fun k x atQ after => ?_⟩
    obtain ⟨k₀, atQ₀, _, nextQ⟩ := old (ok.ne_of_mem fresh member) atQ
    rw [after] at nextQ
    by_cases here : q = a
    · rw [if_pos here] at nextQ
      cases nextQ
      subst here
      refine ⟨(ok.ne_of_mem fresh member).symm, ?_, fun m' atX => ?_⟩
      · rw [effect.blocks, ok.owner_unique member inUse]
        exact List.mem_cons_self ..
      · rw [effect.node, Function.update_self] at atX
        rwa [← Option.some.inj atX]
    · rw [if_neg here] at nextQ
      obtain ⟨apart, inside, last⟩ := rest k₀ x atQ₀ nextQ.symm
      refine ⟨apart, by rw [effect.blocks]; exact List.mem_cons_of_mem _ inside, fun m' atX => ?_⟩
      obtain ⟨m₀, atX₀, _, nextX⟩ := old (ok.ne_of_mem fresh inside) atX
      rw [nextX, if_neg fun same => ?_]
      · exact last m₀ atX₀
      · -- The head of one thread does not stand in the chain of another one.
        subst same
        have sameThread := ok.owner_unique inside inUse
        subst sameThread
        exact here (Option.some.inj (atHead'.symm.trans atHead))

theorem Pumalloced.ok (ok : s.Ok) (case : Pumalloced pumaPageSize s thread size block s' ret) : s'.Ok := by
  rcases case.effect ok with ⟨n, missing, new, free, _, _, effect⟩ | ⟨a, n, atHead, atNode, _, _, effect⟩ |
    ⟨a, n, m, atHead, atNode, _, new, free, _, effect⟩
  · have sized : 0 < n.blockSize := new ▸ Nat.succ_pos _
    exact effect.ok_first ok (ok.fresh sized free) sized (by rw [new]; rfl)
  · exact effect.ok_room ok atNode rfl rfl
  · have sized : 0 < m.blockSize := new ▸ Nat.succ_pos _
    exact effect.ok_overflow ok atHead atNode (ok.fresh sized free) sized (by rw [new]; rfl)

omit [DecidableEq τ] in
theorem StaticState.mem_chain {b : Nat} : b ∈ s.chain thread ↔
    ∃ a, s.head thread = some a ∧ (b = a ∨ ∃ n, s.node a = some n ∧ n.next = some b) := by
  unfold StaticState.chain
  cases atHead : s.head thread with
  | none => simp
  | some a =>
    cases atNode : s.node a with
    | none => simp [atNode]
    | some n => simp [atNode]

/-- Every block in use is in the chain of the thread that obtained it. -/
def StaticState.Complete (s : StaticState τ) : Prop := ∀ b u, (b, u) ∈ s.blocks → b ∈ s.chain u

omit [DecidableEq τ] in
/-- The blocks in the chain of a thread are the thread's own. -/
theorem StaticState.Ok.chain_own (ok : s.Ok) {b : Nat} (member : b ∈ s.chain thread) : (b, thread) ∈ s.blocks := by
  obtain ⟨a, atHead, rfl | ⟨n, atNode, after⟩⟩ := StaticState.mem_chain.mp member
  · exact (ok.chain thread b atHead).1
  · exact ((ok.chain thread a atHead).2 n b atNode after).2.1

omit [DecidableEq τ] in
theorem StaticState.chain_of_node {a : Nat} {n : PumaStaticNode} (atHead : s.head thread = some a)
    (atNode : s.node a = some n) : s.chain thread = a :: n.next.toList := by
  unfold StaticState.chain
  rw [atHead]
  simp only [atNode, Option.bind_some]

omit [DecidableEq τ] in
theorem StaticState.chain_none (missing : s.head thread = none) : s.chain thread = [] := by
  unfold StaticState.chain
  rw [missing]

omit [DecidableEq τ] in
theorem StaticState.Ok.chain_nodup (ok : s.Ok) (thread : τ) : (s.chain thread).Nodup := by
  cases atHead : s.head thread with
  | none => rw [StaticState.chain_none atHead]; exact List.nodup_nil
  | some a =>
    obtain ⟨member, rest⟩ := ok.chain thread a atHead
    obtain ⟨n, atNode⟩ := ok.node member
    rw [StaticState.chain_of_node atHead atNode]
    cases after : n.next with
    | none => exact List.nodup_singleton a
    | some x => simp [(rest n x atNode after).1.symm]

/-- A call leaves the chains of the other threads alone; its own thread gets its first block, cuts
off a region, or has the new block in the place of all that stood behind its first one. -/
theorem Pumalloced.chains (ok : s.Ok) (case : Pumalloced pumaPageSize s thread size block s' ret) :
    (s.chain thread = [] ∧ block ∉ s.blocks.map Prod.fst ∧ s'.blocks = (block, thread) :: s.blocks ∧
      s'.chain = Function.update s.chain thread [block] ∧ ¬ s.Overwrites thread size) ∨
    (s'.blocks = s.blocks ∧ s'.chain = s.chain ∧ ¬ s.Overwrites thread size) ∨
    (∃ a lost, s.chain thread = a :: lost ∧ block ∉ s.blocks.map Prod.fst ∧
      s'.blocks = (block, thread) :: s.blocks ∧ s'.chain = Function.update s.chain thread [a, block] ∧
      (s.Overwrites thread size ↔ lost ≠ [])) := by
  have kept {u : τ} {b : Nat} (head : s'.head u = s.head u) (missing : s.node b = none)
      (same : ∀ q, q ≠ b → ∀ k, s.node q = some k → s.head u = some q → ∃ k', s'.node q = some k' ∧ k'.next = k.next) :
      s'.chain u = s.chain u := by
    cases atHead : s.head u with
    | none => rw [StaticState.chain_none atHead, StaticState.chain_none (head.trans atHead)]
    | some q =>
      obtain ⟨k, atQ⟩ := ok.node (ok.chain u q atHead).1
      have other : q ≠ b := fun equal => by
        rw [equal, missing] at atQ
        cases atQ
      obtain ⟨k', atQ', next⟩ := same q other k atQ atHead
      rw [StaticState.chain_of_node atHead atQ, StaticState.chain_of_node (head.trans atHead) atQ', next]
  rcases case.effect ok with ⟨n, missing, new, free, _, _, effect⟩ | ⟨a, n, atHead, atNode, room, _, effect⟩ |
    ⟨a, n, m, atHead, atNode, full, new, free, _, effect⟩
  · have fresh := ok.fresh (new ▸ Nat.succ_pos _) free
    refine Or.inl ⟨StaticState.chain_none missing, ok.notMem fresh, effect.blocks, ?_, fun bad => ?_⟩
    · funext u
      by_cases same : u = thread
      · subst same
        have atHead : s'.head u = some block := by rw [effect.head, Function.update_self]
        have atBlock : s'.node block = some (n.cut size) := by rw [effect.node, Function.update_self]
        rw [Function.update_self, StaticState.chain_of_node atHead atBlock, new]
        rfl
      · rw [Function.update_of_ne same]
        refine kept (by rw [effect.head, Function.update_of_ne same]) fresh fun q other k atQ _ => ⟨k, ?_, rfl⟩
        rw [effect.node, Function.update_of_ne other, atQ]
    · obtain ⟨a, _, atHead, _⟩ := bad
      rw [missing] at atHead
      cases atHead
  · refine Or.inr (Or.inl ⟨effect.blocks, ?_, fun bad => ?_⟩)
    · funext u
      cases atU : s.head u with
      | none => rw [StaticState.chain_none atU, StaticState.chain_none (by rw [effect.head, atU])]
      | some q =>
        obtain ⟨k, atQ⟩ := ok.node (ok.chain u q atU).1
        rw [StaticState.chain_of_node atU atQ]
        by_cases same : q = a
        · subst same
          rw [Option.some.inj (atQ.symm.trans atNode)]
          exact StaticState.chain_of_node (n := n.cut size) (by rw [effect.head, atU])
            (by rw [effect.node, Function.update_self])
        · exact StaticState.chain_of_node (by rw [effect.head, atU])
            (by rw [effect.node, Function.update_of_ne same, atQ])
    · obtain ⟨b, k, atHead', atNode', full, _⟩ := bad
      cases Option.some.inj (atHead.symm.trans atHead')
      cases Option.some.inj (atNode.symm.trans atNode')
      exact full room
  · have fresh := ok.fresh (new ▸ Nat.succ_pos _) free
    have inUse := (ok.chain thread a atHead).1
    have apart : a ≠ block := fun same => by
      rw [← same, atNode] at fresh
      cases fresh
    refine Or.inr (Or.inr ⟨a, n.next.toList, StaticState.chain_of_node atHead atNode, ok.notMem fresh, effect.blocks,
      ?_, ?_⟩)
    · funext u
      by_cases same : u = thread
      · subst same
        have atA : s'.node a = some { n with next := some block } := by
          rw [effect.node, Function.update_of_ne apart, Function.update_self]
        rw [Function.update_self, StaticState.chain_of_node (by rw [effect.head, atHead]) atA]
        rfl
      · rw [Function.update_of_ne same]
        refine kept (by rw [effect.head]) fresh fun q other k atQ atU => ⟨k, ?_, rfl⟩
        have notA : q ≠ a := fun equal => by
          subst equal
          exact same (ok.owner_unique (ok.chain u q atU).1 inUse)
        rw [effect.node, Function.update_of_ne other, Function.update_of_ne notA, atQ]
    · have empty : n.next.toList ≠ [] ↔ n.next ≠ none := by cases n.next <;> simp
      rw [empty]
      constructor
      · rintro ⟨b, k, atHead', atNode', _, behind⟩
        cases Option.some.inj (atHead.symm.trans atHead')
        cases Option.some.inj (atNode.symm.trans atNode')
        exact behind
      · exact fun behind => ⟨a, n, atHead, atNode, full, behind⟩

/-- A careful call keeps every block in the chain of its thread. -/
theorem Pumalloced.complete (ok : s.Ok) (case : Pumalloced pumaPageSize s thread size block s' ret)
    (careful : ¬ s.Overwrites thread size) (complete : s.Complete) : s'.Complete := by
  intro b u member
  rcases case.chains ok with ⟨missing, _, blocks, chain, _⟩ | ⟨blocks, chain, _⟩ | ⟨a, lost, atChain, _, blocks, chain, bad⟩
  · rw [blocks, List.mem_cons] at member
    rw [chain]
    rcases member with same | old
    · cases same
      rw [Function.update_self]
      exact List.mem_singleton_self block
    · have inside := complete b u old
      by_cases same : u = thread
      · rw [same, missing] at inside
        cases inside
      · rwa [Function.update_of_ne same]
  · rw [blocks] at member
    rw [chain]
    exact complete b u member
  · have nothing : lost = [] := by
      by_contra more
      exact careful (bad.mpr more)
    rw [blocks, List.mem_cons] at member
    rw [chain]
    rcases member with same | old
    · cases same
      simp
    · have inside := complete b u old
      by_cases same : u = thread
      · rw [same, atChain, nothing, List.mem_singleton] at inside
        rw [same, Function.update_self, inside]
        exact List.mem_cons_self ..
      · rwa [Function.update_of_ne same]

omit [DecidableEq τ] in
/-- The loop of `pumaDeleteStaticData` releases the chain of its thread. -/
theorem freeStaticNodes_chain (ok : s.Ok) (thread : τ) :
    ∃ s', freeStaticNodes s.blocks.length s (s.head thread) = some (s', s.chain thread) ∧
      s'.blocks = s.blocks.filter (fun b => b.1 ∉ s.chain thread) ∧
      s'.node = fun a => if a ∈ s.chain thread then none else s.node a := by
  cases atHead : s.head thread with
  | none =>
    rw [StaticState.chain_none atHead]
    refine ⟨s, ?_, by simp, by simp⟩
    cases s.blocks.length <;> rfl
  | some a =>
    obtain ⟨member, rest⟩ := ok.chain thread a atHead
    obtain ⟨n, atNode⟩ := ok.node member
    obtain ⟨turns, length⟩ : ∃ turns, s.blocks.length = turns + 1 :=
      Nat.exists_eq_succ_of_ne_zero (List.length_pos_of_mem member).ne'
    rw [StaticState.chain_of_node atHead atNode, length]
    cases after : n.next with
    | none =>
      refine ⟨s.nufree a, ?_, ?_, ?_⟩
      · rw [freeStaticNodes]
        simp only [atNode, after, Option.bind_eq_bind, Option.bind_some]
        cases turns <;> rfl
      · simp [StaticState.nufree]
      · funext q
        simp [StaticState.nufree, Function.update_apply]
    | some x =>
      obtain ⟨apart, inside, last⟩ := rest n x atNode after
      obtain ⟨m, atX⟩ := ok.node inside
      have two : 2 ≤ s.blocks.length := by
        have pair : [a, x] ⊆ s.blocks.map Prod.fst := by
          intro q
          simp only [List.mem_cons, List.not_mem_nil, or_false]
          rintro (rfl | rfl)
          · exact List.mem_map_of_mem (f := Prod.fst) member
          · exact List.mem_map_of_mem (f := Prod.fst) inside
        have bound := (List.nodup_cons.mpr ⟨by simp [apart.symm], List.nodup_singleton x⟩ : [a, x].Nodup).length_le_of_subset pair
        simpa using bound
      obtain ⟨turns', rfl⟩ : ∃ turns', turns = turns' + 1 := Nat.exists_eq_succ_of_ne_zero (by omega)
      have atX' : (s.nufree a).node x = some m := by
        exact (Function.update_of_ne apart _ _).trans atX
      refine ⟨(s.nufree a).nufree x, ?_, ?_, ?_⟩
      · simp only [freeStaticNodes, atNode, after, atX', last m atX, Option.bind_eq_bind, Option.bind_some]
        cases turns' <;> rfl
      · simp only [StaticState.nufree, List.filter_filter, Option.toList_some]
        refine List.filter_congr fun b _ => ?_
        simp only [List.mem_cons, List.not_mem_nil, or_false, not_or, ← Bool.decide_and, ne_eq, decide_eq_decide]
        exact and_comm
      · funext q
        simp only [StaticState.nufree, Function.update_apply, Option.toList_some, List.mem_cons, List.not_mem_nil,
          or_false]
        grind

omit [DecidableEq τ] in
/-- `pumaDeleteStaticData` passes the chain of its thread to `nufree`. -/
theorem pumaDeleteStaticData_spec (ok : s.Ok) (thread : τ) :
    ∃ s', pumaDeleteStaticData s thread = some (s', s.chain thread) ∧ s'.Ok ∧ s'.initialiseOnce = false ∧
      s'.blocks = s.blocks.filter fun b => b.1 ∉ s.chain thread := by
  obtain ⟨headKey, _⟩ := ok.keys_once
  have chainOnce : s.once.chain thread = s.chain thread := by
    unfold StaticState.chain
    rw [s.head_once, s.node_once]
  obtain ⟨s₁, run, blocks, nodes⟩ := freeStaticNodes_chain ok.once thread
  rw [s.head_once, chainOnce] at run
  rw [s.blocks_once, chainOnce] at blocks
  rw [s.node_once, chainOnce] at nodes
  refine ⟨{ s₁ with initialiseOnce := false, staticHeadKey := none, staticTailKey := none }, ?_, ?_, rfl, blocks⟩
  · simp only [pumaDeleteStaticData, headKey, run, Option.bind_eq_bind, Option.bind_some, Option.pure_def]
  · refine ⟨(fun on => by cases on), fun a => ?_, ?_, fun a n atNode => ?_, fun t a atHead => by cases atHead⟩
    · dsimp only
      rw [nodes, blocks]
      beta_reduce
      split
      · rename_i gone
        simp [gone]
      · rename_i stays
        rw [ok.nodes a]
        simp [stays]
    · dsimp only
      rw [blocks]
      exact ok.nodup.sublist (List.filter_sublist.map Prod.fst)
    · dsimp only at atNode
      rw [nodes] at atNode
      beta_reduce at atNode
      split at atNode
      · cases atNode
      · exact ok.sized a n atNode

end Steps

end Puma
