import Puma.Slots
import Puma.StaticData

namespace Puma

/-- Rounding down to a power of two by a mask. -/
theorem and_mask_eq (k size : Nat) (word : k < 64) (small : size < 2 ^ 64) :
    size &&& ((2 ^ 64 - 1) ^^^ (2 ^ k - 1)) = 2 ^ k * (size / 2 ^ k) := by
  refine Nat.eq_of_testBit_eq fun i => ?_
  rw [Nat.testBit_and, Nat.testBit_xor, Nat.testBit_two_pow_sub_one, Nat.testBit_two_pow_sub_one,
    Nat.testBit_two_pow_mul, Nat.testBit_div_two_pow]
  by_cases low : i < k
  · have inWord : i < 64 := by omega
    simp [low, inWord]
  · by_cases inWord : i < 64
    · have shift : i - k + k = i := by omega
      simp [low, inWord, Nat.le_of_not_lt low, shift]
    · have high : size.testBit i = false :=
        Nat.testBit_lt_two_pow (lt_of_lt_of_le small (Nat.pow_le_pow_right (by decide) (by omega)))
      have shift : i - k + k = i := by omega
      simp [low, inWord, Nat.le_of_not_lt low, shift, high]

/-- The pages hold at least the bytes asked for. -/
theorem le_getSmallestContainingPages {k size : Nat} (word : k < 64) (small : size < 2 ^ 64) :
    size ≤ getSmallestContainingPages (2 ^ k) size := by
  unfold getSmallestContainingPages
  rw [and_mask_eq k size word small]
  have division := Nat.div_add_mod size (2 ^ k)
  dsimp only
  split <;> omega

variable {τ : Type} [DecidableEq τ]

/-- The region of a call lies in the data part of a block in use. -/
def StaticAlloc.Inside (alloc : StaticAlloc τ) (s : StaticState τ) : Prop :=
  ∃ b n, s.node b = some n ∧ b + sizeofPumaStaticNode ≤ alloc.ret ∧ alloc.ret + alloc.size ≤ b + n.blockSize

/-- The regions of two calls share no byte. -/
def StaticAlloc.Apart (alloc other : StaticAlloc τ) : Prop :=
  alloc.ret + alloc.size ≤ other.ret ∨ other.ret + other.size ≤ alloc.ret

/-- If the block behind the tail key has room for the size by `_tailHasSpace`, then it has room for it behind its header too. -/
def StaticAlloc.Fits (thread : τ) (alloc : StaticAlloc τ) : Prop :=
  ∀ a n, alloc.before.head thread = some a → alloc.before.node a = some n → n.Room alloc.size →
    sizeofPumaStaticNode + n.used + alloc.size ≤ n.blockSize

/-- The blocks in use share no memory, and the fields of each agree. -/
structure StaticState.Layout (s : StaticState τ) : Prop where
  fields : ∀ a n, s.node a = some n → n.used ≤ n.blockSize ∧ n.nextFree = a + sizeofPumaStaticNode + n.used
  apart : ∀ a b n m, a ≠ b → s.node a = some n → s.node b = some m → a + n.blockSize ≤ b ∨ b + m.blockSize ≤ a

/-- No header byte has been given away yet: the regions lie in front of the free part of their blocks. -/
structure StaticState.Tight (s : StaticState τ) (allocs : List (StaticAlloc τ)) : Prop where
  room : ∀ a n, s.node a = some n → sizeofPumaStaticNode + n.used ≤ n.blockSize
  inside : ∀ alloc ∈ allocs, ∃ b n, s.node b = some n ∧ b + sizeofPumaStaticNode ≤ alloc.ret ∧
    alloc.ret + alloc.size ≤ n.nextFree
  apart : allocs.Pairwise StaticAlloc.Apart

section Regions

variable {k size block : Nat} {thread : τ} {s s' : StaticState τ} {ret : Nat} {allocs : List (StaticAlloc τ)}

omit [DecidableEq τ] in
theorem StaticState.Ok.apart (ok : s.Ok) (free : s.overlaps block size = false) {a : Nat} {n : PumaStaticNode}
    (atNode : s.node a = some n) : a + n.blockSize ≤ block ∨ block + size ≤ a := by
  obtain ⟨b, member, rfl⟩ := List.mem_map.mp ((ok.nodes a).mp (by rw [atNode]; rfl))
  have outside := List.any_eq_false.mp free b member
  simp only [atNode, decide_eq_true_eq, not_and, not_lt] at outside
  by_cases early : block < b.1 + n.blockSize
  · exact Or.inr (outside early)
  · exact Or.inl (by omega)

/-- What a call does to the nodes: it cuts a region off the free part of one of them, which is the
node behind the tail key or a new one that has room for the region. -/
theorem Pumalloced.cuts (ok : s.Ok) (word : k < 64) (small : size < 2 ^ 64)
    (case : Pumalloced (2 ^ k) s thread size block s' ret) :
    ∃ a n, s'.node a = some (n.cut size) ∧ ret = n.nextFree ∧
      (∀ q m', q ≠ a → s'.node q = some m' → ∃ m, s.node q = some m ∧ m'.blockSize = m.blockSize ∧
        m'.used = m.used ∧ m'.nextFree = m.nextFree) ∧
      (∀ q m, q ≠ a → s.node q = some m → ∃ m', s'.node q = some m' ∧ m'.blockSize = m.blockSize ∧
        m'.used = m.used ∧ m'.nextFree = m.nextFree) ∧
      ((s.node a = some n ∧ s.head thread = some a ∧ n.Room size) ∨
        (s.node a = none ∧ s.overlaps a n.blockSize = false ∧ n.used = 0 ∧
          n.nextFree = a + sizeofPumaStaticNode ∧ sizeofPumaStaticNode + size ≤ n.blockSize ∧
          ∀ b m, s.head thread = some b → s.node b = some m → ¬ m.Room size)) := by
  have pages := le_getSmallestContainingPages word small
  rcases case.effect ok with ⟨n, missing, new, free, _, result, effect⟩ | ⟨a, n, atHead, atNode, room, result, effect⟩ |
    ⟨a, n, m, atHead, atNode, full, new, free, result, effect⟩
  · refine ⟨block, n, by rw [effect.node, Function.update_self], result, fun q m' other atQ => ?_,
      fun q m other atQ => ?_, Or.inr ⟨ok.fresh (new ▸ Nat.succ_pos _) free, free, by rw [new]; rfl, by rw [new]; rfl,
        ?_, fun b m atHead => ?_⟩⟩
    · rw [effect.node, Function.update_of_ne other] at atQ
      exact ⟨m', atQ, rfl, rfl, rfl⟩
    · exact ⟨m, by rw [effect.node, Function.update_of_ne other, atQ], rfl, rfl, rfl⟩
    · rw [new, newStaticNode]
      dsimp only
      omega
    · rw [missing] at atHead
      cases atHead
  · refine ⟨a, n, by rw [effect.node, Function.update_self], result, fun q m' other atQ => ?_,
      fun q m other atQ => ?_, Or.inl ⟨atNode, atHead, room⟩⟩
    · rw [effect.node, Function.update_of_ne other] at atQ
      exact ⟨m', atQ, rfl, rfl, rfl⟩
    · exact ⟨m, by rw [effect.node, Function.update_of_ne other, atQ], rfl, rfl, rfl⟩
  · have fresh := ok.fresh (new ▸ Nat.succ_pos _) free
    refine ⟨block, m, by rw [effect.node, Function.update_self], result, fun q m' other atQ => ?_,
      fun q m' other atQ => ?_, Or.inr ⟨fresh, free, by rw [new]; rfl, by rw [new]; rfl, ?_, fun b m' atHead' atB => ?_⟩⟩
    · rw [effect.node, Function.update_of_ne other] at atQ
      by_cases same : q = a
      · rw [same, Function.update_self] at atQ
        rw [← Option.some.inj atQ]
        exact ⟨n, same ▸ atNode, rfl, rfl, rfl⟩
      · rw [Function.update_of_ne same] at atQ
        exact ⟨m', atQ, rfl, rfl, rfl⟩
    · by_cases same : q = a
      · subst same
        cases Option.some.inj (atNode.symm.trans atQ)
        exact ⟨{ n with next := some block }, by rw [effect.node, Function.update_of_ne other, Function.update_self],
          rfl, rfl, rfl⟩
      · exact ⟨m', by rw [effect.node, Function.update_of_ne other, Function.update_of_ne same, atQ], rfl, rfl, rfl⟩
    · rw [new, newStaticNode]
      dsimp only
      omega
    · cases Option.some.inj (atHead.symm.trans atHead')
      cases Option.some.inj (atNode.symm.trans atB)
      exact full

/-- Whatever is given away, the blocks stay apart, and keep their sizes. -/
theorem Pumalloced.layout (ok : s.Ok) (word : k < 64) (small : size < 2 ^ 64)
    (case : Pumalloced (2 ^ k) s thread size block s' ret) (layout : s.Layout) :
    s'.Layout ∧ ∀ a n, s.node a = some n → ∃ n', s'.node a = some n' ∧ n'.blockSize = n.blockSize := by
  obtain ⟨a, n, atCut, _, back, forth, choice⟩ := case.cuts ok word small
  have sized (q : Nat) (m' : PumaStaticNode) (atQ : s'.node q = some m') :
      (q = a ∧ m' = n.cut size) ∨ ∃ m, q ≠ a ∧ s.node q = some m ∧ m'.blockSize = m.blockSize := by
    by_cases same : q = a
    · subst same
      exact Or.inl ⟨rfl, Option.some.inj (atQ.symm.trans atCut)⟩
    · obtain ⟨m, atQ', blockSize, _⟩ := back q m' same atQ
      exact Or.inr ⟨m, same, atQ', blockSize⟩
  have away (q : Nat) (m : PumaStaticNode) (other : q ≠ a) (atQ : s.node q = some m) :
      q + m.blockSize ≤ a ∨ a + n.blockSize ≤ q := by
    rcases choice with ⟨atA, _⟩ | ⟨_, free, _⟩
    · exact layout.apart q a m n other atQ atA
    · exact ok.apart free atQ
  refine ⟨⟨fun q m' atQ => ?_, fun p q m m' other atP atQ => ?_⟩, fun q m atQ => ?_⟩
  · by_cases same : q = a
    · subst same
      rw [Option.some.inj (atQ.symm.trans atCut)]
      rcases choice with ⟨atA, _, room⟩ | ⟨_, _, used, nextFree, room, _⟩
      · obtain ⟨low, nextFree⟩ := layout.fields q n atA
        rw [PumaStaticNode.Room, sizeSub_of_le low] at room
        rw [PumaStaticNode.cut]
        dsimp only
        omega
      · rw [PumaStaticNode.cut]
        dsimp only
        omega
    · obtain ⟨m, atQ', blockSize, used, nextFree⟩ := back q m' same atQ
      rw [blockSize, used, nextFree]
      exact layout.fields q m atQ'
  · rcases sized p m atP with ⟨rfl, rfl⟩ | ⟨m₀, notP, atP₀, sameP⟩ <;>
      rcases sized q m' atQ with ⟨rfl, rfl⟩ | ⟨m₁, notQ, atQ₁, sameQ⟩
    · exact (other rfl).elim
    · rw [sameQ]
      exact (away q m₁ notQ atQ₁).symm
    · rw [sameP]
      exact away p m₀ notP atP₀
    · rw [sameP, sameQ]
      exact layout.apart p q m₀ m₁ other atP₀ atQ₁
  · by_cases same : q = a
    · subst same
      rcases choice with ⟨atA, _⟩ | ⟨missing, _⟩
      · rw [Option.some.inj (atQ.symm.trans atA)]
        exact ⟨_, atCut, rfl⟩
      · rw [missing] at atQ
        cases atQ
    · obtain ⟨m', atQ', blockSize, _⟩ := forth q m same atQ
      exact ⟨m', atQ', blockSize⟩

/-- A call that fits takes its region off the data part. -/
theorem Pumalloced.tight (ok : s.Ok) (word : k < 64) (small : size < 2 ^ 64)
    (case : Pumalloced (2 ^ k) s thread size block s' ret) (layout : s.Layout) (tight : s.Tight allocs)
    (fits : StaticAlloc.Fits thread ⟨s, size, ret⟩) : s'.Tight (allocs ++ [⟨s, size, ret⟩]) := by
  obtain ⟨a, n, atCut, result, back, forth, choice⟩ := case.cuts ok word small
  have start : ret = a + sizeofPumaStaticNode + n.used ∧ sizeofPumaStaticNode + n.used + size ≤ n.blockSize := by
    rcases choice with ⟨atA, atHead, room⟩ | ⟨_, _, used, nextFree, room, _⟩
    · exact ⟨result.trans (layout.fields a n atA).2, fits a n atHead atA room⟩
    · exact ⟨by rw [result, nextFree, used, Nat.add_zero], by rw [used]; exact room⟩
  refine ⟨fun q m' atQ => ?_, fun alloc member => ?_, ?_⟩
  · by_cases same : q = a
    · subst same
      rw [Option.some.inj (atQ.symm.trans atCut), PumaStaticNode.cut]
      dsimp only
      omega
    · obtain ⟨m, atQ', blockSize, used, _⟩ := back q m' same atQ
      rw [blockSize, used]
      exact tight.room q m atQ'
  · rcases List.mem_append.mp member with old | new
    · obtain ⟨b, m, atB, first, last⟩ := tight.inside alloc old
      by_cases same : b = a
      · subst same
        rcases choice with ⟨atA, _⟩ | ⟨missing, _⟩
        · refine ⟨b, _, atCut, first, ?_⟩
          rw [Option.some.inj (atB.symm.trans atA)] at last
          rw [PumaStaticNode.cut]
          dsimp only
          omega
        · rw [missing] at atB
          cases atB
      · obtain ⟨m', atB', _, _, nextFree⟩ := forth b m same atB
        exact ⟨b, m', atB', first, nextFree ▸ last⟩
    · rw [List.mem_singleton.mp new]
      refine ⟨a, _, atCut, ?_, ?_⟩ <;> simp only [PumaStaticNode.cut, result] <;> omega
  · refine List.pairwise_append.mpr ⟨tight.apart, List.pairwise_singleton _ _, fun alloc old new same => ?_⟩
    rw [List.mem_singleton.mp same]
    obtain ⟨b, m, atB, first, last⟩ := tight.inside alloc old
    have low := tight.room b m atB
    have fields := (layout.fields b m atB).2
    rcases choice with ⟨atA, _⟩ | ⟨_, free, used, _⟩
    · by_cases equal : b = a
      · subst equal
        rw [Option.some.inj (atB.symm.trans atA)] at last
        exact Or.inl (by rw [result]; exact last)
      · rcases layout.apart b a m n equal atB atA with before | behind
        · exact Or.inl (by dsimp only; omega)
        · exact Or.inr (by dsimp only; omega)
    · rcases ok.apart free atB with before | behind
      · exact Or.inl (by dsimp only; omega)
      · exact Or.inr (by dsimp only; omega)

/-- The regions of some calls lie in the data parts of blocks in use, and share no byte. -/
def RegionsOk (s : StaticState τ) (allocs : List (StaticAlloc τ)) : Prop :=
  (∀ alloc ∈ allocs, alloc.Inside s) ∧ allocs.Pairwise StaticAlloc.Apart

omit [DecidableEq τ] in
theorem StaticState.Tight.regionsOk (tight : s.Tight allocs) (layout : s.Layout) : RegionsOk s allocs := by
  refine ⟨fun alloc member => ?_, tight.apart⟩
  obtain ⟨b, n, atB, first, last⟩ := tight.inside alloc member
  have low := tight.room b n atB
  have fields := (layout.fields b n atB).2
  exact ⟨b, n, atB, first, by omega⟩

theorem pumallocCalls_layout {calls : List (Nat × Nat)} {trace : List (StaticAlloc τ)} (ok : s.Ok) (word : k < 64)
    (small : ∀ call ∈ calls, call.1 < 2 ^ 64) (layout : s.Layout)
    (run : pumallocCalls (2 ^ k) thread s calls = some (s', trace)) :
    s'.Layout ∧ ∀ a n, s.node a = some n → ∃ n', s'.node a = some n' ∧ n'.blockSize = n.blockSize := by
  induction calls generalizing s trace with
  | nil =>
    cases run
    exact ⟨layout, fun a n atA => ⟨n, atA, rfl⟩⟩
  | cons call calls ih =>
    obtain ⟨s₁, ret, later, first, rest, _⟩ := pumallocCalls_cons run
    have case := pumallocStaticLocal_cases ok first
    obtain ⟨layout₁, kept⟩ := case.layout ok word (small call (List.mem_cons_self ..)) layout
    obtain ⟨layout', kept'⟩ := ih (case.ok ok) (fun c member => small c (List.mem_cons_of_mem _ member)) layout₁ rest
    refine ⟨layout', fun a n atA => ?_⟩
    obtain ⟨n₁, atA₁, same₁⟩ := kept a n atA
    obtain ⟨n', atA', same'⟩ := kept' a n₁ atA₁
    exact ⟨n', atA', same'.trans same₁⟩

/-- The regions lie in the data parts and share no byte, if and only if every call fits. -/
theorem pumallocCalls_regions {calls : List (Nat × Nat)} {trace : List (StaticAlloc τ)} (ok : s.Ok) (word : k < 64)
    (small : ∀ call ∈ calls, call.1 < 2 ^ 64) (layout : s.Layout) (tight : s.Tight allocs)
    (run : pumallocCalls (2 ^ k) thread s calls = some (s', trace)) :
    RegionsOk s' (allocs ++ trace) ↔ ∀ alloc ∈ trace, alloc.Fits thread := by
  induction calls generalizing s allocs trace with
  | nil =>
    cases run
    simpa using tight.regionsOk layout
  | cons call calls ih =>
    obtain ⟨size, block⟩ := call
    obtain ⟨s₁, ret, later, first, rest, rfl⟩ := pumallocCalls_cons run
    have here : size < 2 ^ 64 := small _ (List.mem_cons_self ..)
    have restSmall : ∀ call ∈ calls, call.1 < 2 ^ 64 := fun c member => small c (List.mem_cons_of_mem _ member)
    have case := pumallocStaticLocal_cases ok first
    obtain ⟨layout₁, kept⟩ := case.layout ok word here layout
    rw [List.forall_mem_cons]
    by_cases fits : StaticAlloc.Fits thread ⟨s, size, ret⟩
    · have next := ih (case.ok ok) restSmall layout₁ (case.tight ok word here layout tight fits) rest
      rw [List.append_assoc, List.singleton_append] at next
      rw [next, and_iff_right fits]
    · refine iff_of_false (fun good => ?_) fun all => fits all.1
      -- The region starts at the end of the block at the latest and ends behind it.
      simp only [StaticAlloc.Fits, not_forall] at fits
      obtain ⟨a, n, atHead, atA, room, beyond⟩ := fits
      obtain ⟨low, nextFree⟩ := layout.fields a n atA
      have free := tight.room a n atA
      obtain ⟨a', n', atCut, result, _, _, choice⟩ := case.cuts ok word here
      have start : ret = a + sizeofPumaStaticNode + n.used := by
        rcases choice with ⟨atA', atHead', _⟩ | ⟨_, _, _, _, _, full⟩
        · cases Option.some.inj (atHead.symm.trans atHead')
          cases Option.some.inj (atA.symm.trans atA')
          exact result.trans nextFree
        · exact (full a n atHead atA room).elim
      obtain ⟨n₁, atA₁, same₁⟩ := kept a n atA
      obtain ⟨layout', kept'⟩ := pumallocCalls_layout (case.ok ok) word restSmall layout₁ rest
      obtain ⟨n₂, atA₂, same₂⟩ := kept' a n₁ atA₁
      obtain ⟨b, m, atB, inside, bound⟩ := good.1 ⟨s, size, ret⟩ (by simp)
      dsimp only at inside bound
      by_cases equal : b = a
      · subst equal
        rw [Option.some.inj (atB.symm.trans atA₂)] at bound
        omega
      · rcases layout'.apart b a m n₂ equal atB atA₂ with before | behind
        · omega
        · simp only [sizeofPumaStaticNode] at *
          omega

end Regions

/-- From the first call on, for every page size and all sizes. -/
theorem pumallocCalls_start_regions {k : Nat} {thread : τ} {s : StaticState τ} {calls : List (Nat × Nat)}
    {trace : List (StaticAlloc τ)} (word : k < 64) (small : ∀ call ∈ calls, call.1 < 2 ^ 64)
    (run : pumallocCalls (2 ^ k) thread .start calls = some (s, trace)) :
    RegionsOk s trace ↔ ∀ alloc ∈ trace, alloc.Fits thread := by
  have layout : (StaticState.start : StaticState τ).Layout :=
    ⟨fun a n atA => (by cases atA), fun a b n m _ atA => (by cases atA)⟩
  have tight : (StaticState.start : StaticState τ).Tight ([] : List (StaticAlloc τ)) :=
    ⟨fun a n atA => (by cases atA), fun alloc member => (by cases member), List.Pairwise.nil⟩
  exact pumallocCalls_regions StaticState.start_ok word small layout tight run

/-- Two regions in one block. -/
theorem pumallocCalls_start_regions_two : ∃ (s : StaticState Unit) (trace : List (StaticAlloc Unit)),
    pumallocCalls 4096 () .start [(100, 8192), (200, 8192)] = some (s, trace) ∧
      (RegionsOk s trace ↔ ∀ alloc ∈ trace, alloc.Fits ()) := by
  have small : ∀ call ∈ [(100, 8192), (200, 8192)], call.1 < 2 ^ 64 := by decide
  exact ⟨_, _, rfl, pumallocCalls_start_regions (k := 12) (by decide) small rfl⟩

/-- The second region takes the 40 bytes behind the end of its block. -/
theorem pumallocCalls_overrun : ∃ (s : StaticState Unit) (trace : List (StaticAlloc Unit)),
    pumallocCalls 4096 () .start [(4096, 8192), (40, 16384)] = some (s, trace) ∧ ¬ RegionsOk s trace := by
  refine ⟨_, _, rfl, fun good => ?_⟩
  obtain ⟨b, n, atB, _, bound⟩ := good.1 _ (List.mem_cons_of_mem _ (List.mem_cons_self ..))
  by_cases here : b = 8192
  · subst here
    cases atB
    revert bound
    decide
  · have nowhere : (none : Option PumaStaticNode) = some n := by
      rw [← atB]
      simp [StaticState.setNode, here, StaticState.once, StaticState.start, initialiseStaticNodes]
    cases nowhere

end Puma
