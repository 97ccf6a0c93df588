import Mathlib.Data.BitVec
import Mathlib.Data.List.TakeWhile
import Mathlib.Order.Interval.Finset.Nat
import Puma.Lib.Tokens
import Puma.ThreadPool

namespace Puma

namespace Machine

/-- The byte behind a string. The end of a buffer stands for one, too. -/
def nul : Char := Char.ofNat 0

theorem nul_ne_comma : nul ≠ ',' := by decide

/-- The characters of a token. -/
def inToken (c : Char) : Bool := c ≠ ',' && c ≠ nul

/-- A token that `strtok_r` found. `passed` is the buffer up to the pointer that the call saves, as it leaves
it, and `rest` is the buffer from there on. -/
structure Token where
  text : List Char
  passed : List Char
  rest : List Char
  deriving DecidableEq, Repr

/-- `strtok_r` with the delimiter `,`. It overwrites the delimiter behind the token. -/
def strtokR (str : List Char) : Option Token :=
  let commas := str.takeWhile (· = ',')
  let str := str.dropWhile (· = ',')
  let text := str.takeWhile inToken
  if text = [] then none
  else
    match str.dropWhile inToken with
    | ',' :: rest => some ⟨text, commas ++ text ++ [nul], rest⟩
    | rest => some ⟨text, commas ++ text, rest⟩

/-- What `sscanf(token, "%u-%u", &start, &end)` assigns: nothing, the start, or both. -/
abbrev Scan := List Char → Option (BitVec 32 × Option (BitVec 32))

/-- The `sscanf` of the C standard. -/
def sscanf : Scan := fun token =>
  match scanRange token with
  | [start] => some (BitVec.ofNat 32 start, none)
  | [start, stop] => some (BitVec.ofNat 32 start, some (BitVec.ofNat 32 stop))
  | _ => none

/-- How a call of `_parseAffinityStr` ends: with the set that it filled and the buffer as it left it, or
with `exit`. -/
inductive Outcome where
  | returned (set : Finset Nat) (buffer : List Char)
  | exited

/-- The loop over a range from `i` on, for at most so many turns. -/
def setRange : Nat → BitVec 32 → BitVec 32 → Finset Nat → Option (Finset Nat)
  | 0, _, _, _ => none
  | turns + 1, i, stop, set => if i ≤ stop then setRange turns (i + 1) stop (cpuSet set i.toNat) else some set

/-- The loop over the tokens of `str`; `before` is the buffer in front of it. Each loop takes at most `turns`
turns. -/
def parseLoop (scan : Scan) : Nat → Finset Nat → List Char → List Char → Option Outcome
  | 0, _, _, _ => none
  | turns + 1, set, before, str =>
    match strtokR str with
    | none => some (.returned set (before ++ str))
    | some token =>
      match scan token.text with
      | some (start, none) => parseLoop scan turns (cpuSet set start.toNat) (before ++ token.passed) token.rest
      | some (start, some stop) =>
        match setRange turns start stop set with
        | some set => parseLoop scan turns set (before ++ token.passed) token.rest
        | none => none
      | none => some .exited

/-- `_parseAffinityStr`. -/
def parseAffinityStr (scan : Scan) (turns : Nat) (affinityStr : List Char) : Option Outcome :=
  parseLoop scan turns ∅ [] affinityStr

/-- The call ends, with this outcome. -/
def Ends (scan : Scan) (affinityStr : List Char) (outcome : Outcome) : Prop :=
  ∃ turns, parseAffinityStr scan turns affinityStr = some outcome

/-- The tokens of the string in a buffer. -/
def tokensOf (str : List Char) : List (List Char) := Tokens.of ',' (str.takeWhile (· ≠ nul))

theorem inToken_iff {c : Char} : inToken c ↔ c ≠ ',' ∧ c ≠ nul := by
  simp [inToken]

theorem takeWhile_append_nul {l : List Char} (noNul : nul ∉ l) (rest : List Char) :
    (l ++ rest).takeWhile (· ≠ nul) = l ++ rest.takeWhile (· ≠ nul) :=
  List.takeWhile_append_of_pos fun _ member => decide_eq_true (ne_of_mem_of_not_mem member noNul)

/-- The string ends at the first NUL. -/
theorem tokensOf_append_nul {l : List Char} (noNul : nul ∉ l) (rest : List Char) :
    tokensOf (l ++ nul :: rest) = Tokens.of ',' l := by
  rw [tokensOf, takeWhile_append_nul noNul, List.takeWhile_cons_of_neg (by simp), List.append_nil]

theorem tokensOf_eq {str : List Char} (noNul : nul ∉ str) : tokensOf str = Tokens.of ',' str := by
  have whole := takeWhile_append_nul noNul []
  simp only [List.append_nil, List.takeWhile_nil] at whole
  rw [tokensOf, whole]

theorem tokensOf_append_comma {l : List Char} (noNul : nul ∉ l) (rest : List Char) :
    tokensOf (l ++ ',' :: rest) = Tokens.of ',' l ++ tokensOf rest := by
  rw [tokensOf, takeWhile_append_nul noNul, List.takeWhile_cons_of_pos (by decide), Tokens.of_append_sep, tokensOf]

/-- A token in front of nothing but delimiters is the only token. -/
theorem tokensOf_last {text left : List Char} (noComma : ',' ∉ text) (noNul : nul ∉ text) (nonempty : text ≠ [])
    (isEmpty : tokensOf left = []) : tokensOf (text ++ left) = [text] := by
  rw [tokensOf, takeWhile_append_nul noNul]
  rcases Tokens.head_of_eq_nil isEmpty with empty | ⟨rest, comma⟩
  · rw [empty, List.append_nil, Tokens.of_notMem noComma nonempty]
  · rw [tokensOf, comma, Tokens.of_sep_cons] at isEmpty
    rw [comma, Tokens.of_token_append noComma nonempty, isEmpty]

/-- Delimiters in front make no tokens. -/
theorem tokensOf_commas {commas : List Char} (all : ∀ c ∈ commas, c = ',') (rest : List Char) :
    tokensOf (commas ++ rest) = tokensOf rest := by
  have noNul : nul ∉ commas := fun member => absurd (all nul member) (by decide)
  rw [tokensOf, takeWhile_append_nul noNul, Tokens.of_separators_append all, tokensOf]

/-- Behind the longest stretch of token characters the string ends, or a delimiter follows. -/
theorem dropWhile_inToken (str : List Char) :
    tokensOf (str.dropWhile inToken) = [] ∨ ∃ next, str.dropWhile inToken = ',' :: next := by
  have first := List.head?_dropWhile_not inToken str
  match rest : str.dropWhile inToken with
  | [] => exact .inl (by simp [tokensOf])
  | c :: next =>
    rw [rest] at first
    by_cases comma : c = ','
    · exact .inr ⟨next, by rw [comma]⟩
    · have ends : c = nul := by
        by_contra other
        exact Bool.eq_false_iff.mp first (inToken_iff.mpr ⟨comma, other⟩)
      rw [ends]
      exact .inl ((tokensOf_append_nul List.not_mem_nil next).trans Tokens.of_nil)

theorem strtokR_none {str : List Char} (missing : strtokR str = none) : tokensOf str = [] := by
  have commas : ∀ c ∈ str.takeWhile (· = ','), c = ',' := fun c member => by
    simpa using List.mem_takeWhile_imp member
  unfold strtokR at missing
  simp only at missing
  split at missing
  · rename_i empty
    have same : (str.dropWhile (· = ',')).dropWhile inToken = str.dropWhile (· = ',') := by
      have both := List.takeWhile_append_dropWhile (p := inToken) (l := str.dropWhile (· = ','))
      rwa [empty, List.nil_append] at both
    have whole := tokensOf_commas commas (str.dropWhile (· = ','))
    rw [List.takeWhile_append_dropWhile] at whole
    rw [whole]
    rcases dropWhile_inToken (str.dropWhile (· = ',')) with ends | ⟨next, comma⟩
    · rwa [same] at ends
    · have first := List.head?_dropWhile_not (· = ',') str
      rw [← same, comma] at first
      simp at first
  · split at missing <;> cases missing

/-- A token lies between delimiters in front, which stay, and the end of the string or a delimiter behind, which
becomes a NUL. -/
theorem strtokR_some {str : List Char} {token : Token} (found : strtokR str = some token) :
    ∃ front, (∀ c ∈ front, c = ',') ∧ ',' ∉ token.text ∧ nul ∉ token.text ∧ token.text ≠ [] ∧
      (str = front ++ (token.text ++ ',' :: token.rest) ∧ token.passed = front ++ (token.text ++ [nul]) ∨
        str = front ++ (token.text ++ token.rest) ∧ token.passed = front ++ token.text ∧ tokensOf token.rest = []) := by
  have inText {c : Char} (member : c ∈ (str.dropWhile (· = ',')).takeWhile inToken) : c ≠ ',' ∧ c ≠ nul :=
    inToken_iff.mp (List.mem_takeWhile_imp member)
  have whole : str = str.takeWhile (· = ',') ++ ((str.dropWhile (· = ',')).takeWhile inToken ++
      (str.dropWhile (· = ',')).dropWhile inToken) := by
    rw [List.takeWhile_append_dropWhile, List.takeWhile_append_dropWhile]
  unfold strtokR at found
  simp only at found
  split at found
  · cases found
  · rename_i nonempty
    refine ⟨str.takeWhile (· = ','), fun c member => by simpa using List.mem_takeWhile_imp member, ?_⟩
    split at found
    · rename_i next comma
      cases found
      rw [comma] at whole
      exact ⟨fun member => (inText member).1 rfl, fun member => (inText member).2 rfl, nonempty,
        .inl ⟨whole, List.append_assoc ..⟩⟩
    · rename_i other
      cases found
      rcases dropWhile_inToken (str.dropWhile (· = ',')) with ends | ⟨next, comma⟩
      · exact ⟨fun member => (inText member).1 rfl, fun member => (inText member).2 rfl, nonempty,
          .inr ⟨whole, rfl, ends⟩⟩
      · exact absurd comma (other next)

/-- A call that finds a token takes the first one. -/
theorem strtokR_tokensOf {str : List Char} {token : Token} (found : strtokR str = some token) :
    tokensOf str = token.text :: tokensOf token.rest := by
  obtain ⟨front, commas, noComma, noNul, nonempty, ⟨whole, _⟩ | ⟨whole, _, missing⟩⟩ := strtokR_some found
  · rw [whole, tokensOf_commas commas, tokensOf_append_comma noNul, Tokens.of_notMem noComma nonempty,
      List.singleton_append]
  · rw [whole, tokensOf_commas commas, tokensOf_last noComma noNul nonempty missing, missing]

/-- Whoever reads the buffer again sees this token alone, if no more is left behind than the first of the other
tokens. -/
theorem strtokR_passed {str left : List Char} {token : Token} (found : strtokR str = some token)
    (after : tokensOf left = (tokensOf token.rest).take 1) : tokensOf (token.passed ++ left) = [token.text] := by
  obtain ⟨front, commas, noComma, noNul, nonempty, ⟨_, passed⟩ | ⟨_, passed, missing⟩⟩ := strtokR_some found
  · rw [passed, List.append_assoc, List.append_assoc, tokensOf_commas commas, List.singleton_append,
      tokensOf_append_nul noNul, Tokens.of_notMem noComma nonempty]
  · rw [missing, List.take_nil] at after
    rw [passed, List.append_assoc, tokensOf_commas commas, tokensOf_last noComma noNul nonempty after]

/-- The CPUs that a token names: those of the set from its start to its end. -/
def Scan.cpus (scan : Scan) (token : List Char) : Finset Nat :=
  match scan token with
  | some (start, stop) => (Finset.Icc start.toNat (stop.getD start).toNat).filter (· < cpuSetSize)
  | none => ∅

/-- The token is no range up to the highest `unsigned int`. -/
def Scan.Bounded (scan : Scan) (token : List Char) : Prop :=
  ∀ start, scan token ≠ some (start, some (BitVec.allOnes 32))

/-- No `unsigned int` lies above the highest. -/
theorem setRange_allOnes (turns : Nat) (i : BitVec 32) (set : Finset Nat) :
    setRange turns i (BitVec.allOnes 32) set = none := by
  induction turns generalizing i set with
  | zero => rfl
  | succ turns ih =>
    rw [setRange, if_pos (BitVec.not_lt.mp BitVec.not_allOnes_lt), ih]

theorem cpuSet_eq (set : Finset Nat) (cpu : Nat) :
    cpuSet set cpu = set ∪ (Finset.Icc cpu cpu).filter (· < cpuSetSize) := by
  unfold cpuSet
  split
  · rename_i inside
    rw [Finset.Icc_self, Finset.filter_singleton, if_pos inside, Finset.insert_eq, Finset.union_comm]
  · rename_i outside
    rw [Finset.Icc_self, Finset.filter_singleton, if_neg outside, Finset.union_empty]

/-- Below the highest `unsigned int` the loop sets the CPUs of the range and ends. -/
theorem setRange_eq {stop : BitVec 32} (bounded : stop ≠ BitVec.allOnes 32) {turns : Nat} {i : BitVec 32}
    (set : Finset Nat) (enough : stop.toNat + 1 - i.toNat < turns) :
    setRange turns i stop set = some (set ∪ (Finset.Icc i.toNat stop.toNat).filter (· < cpuSetSize)) := by
  have below : stop.toNat < 2 ^ 32 - 1 := BitVec.lt_def.mp (BitVec.lt_allOnes_iff.mpr bounded)
  induction turns generalizing i set with
  | zero => omega
  | succ turns ih =>
    rw [setRange]
    split
    · rename_i inside
      have inside : i.toNat ≤ stop.toNat := inside
      have next : (i + 1).toNat = i.toNat + 1 := by
        rw [BitVec.toNat_add]
        exact Nat.mod_eq_of_lt (by simp; omega)
      have split : Finset.Icc i.toNat i.toNat ∪ Finset.Icc (i.toNat + 1) stop.toNat =
          Finset.Icc i.toNat stop.toNat := by
        ext c
        simp only [Finset.mem_union, Finset.mem_Icc]
        omega
      rw [ih _ (by omega), next, cpuSet_eq, Finset.union_assoc, ← Finset.filter_union, split]
    · rename_i outside
      have outside : ¬ i.toNat ≤ stop.toNat := outside
      rw [Finset.Icc_eq_empty outside, Finset.filter_empty, Finset.union_empty]

theorem setRange_mono {turns more : Nat} {i stop : BitVec 32} {set set' : Finset Nat} (le : turns ≤ more)
    (done : setRange turns i stop set = some set') : setRange more i stop set = some set' := by
  induction turns generalizing more i set with
  | zero => cases done
  | succ turns ih =>
    obtain ⟨more, rfl⟩ := Nat.exists_eq_succ_of_ne_zero (Nat.ne_of_gt (Nat.lt_of_lt_of_le (Nat.succ_pos _) le))
    rw [setRange] at done ⊢
    split at done
    · rename_i inside
      rw [if_pos inside]
      exact ih (Nat.le_of_succ_le_succ le) done
    · rename_i outside
      rwa [if_neg outside]

/-- A range that the loop gets through is not up to the highest `unsigned int`, and its CPUs are set. -/
theorem setRange_some {turns : Nat} {i stop : BitVec 32} {set set' : Finset Nat}
    (done : setRange turns i stop set = some set') :
    stop ≠ BitVec.allOnes 32 ∧ set' = set ∪ (Finset.Icc i.toNat stop.toNat).filter (· < cpuSetSize) := by
  have bounded : stop ≠ BitVec.allOnes 32 := by
    rintro rfl
    rw [setRange_allOnes] at done
    cases done
  have whole := setRange_mono (le_max_left turns (stop.toNat + 2)) done
  rw [setRange_eq bounded set (by omega)] at whole
  exact ⟨bounded, (Option.some.inj whole).symm⟩

/-- `sscanf` reads a number or a range from the token, and the loop over the range ends. -/
def Scan.Accepts (scan : Scan) (token : List Char) : Prop := (scan token).isSome ∧ scan.Bounded token

section Loop

variable {scan : Scan} {turns : Nat} {set : Finset Nat} {before str : List Char} {token : Token}

theorem parseLoop_none (missing : strtokR str = none) :
    parseLoop scan (turns + 1) set before str = some (.returned set (before ++ str)) := by
  rw [parseLoop, missing]

theorem parseLoop_rejected (found : strtokR str = some token) (rejected : scan token.text = none) :
    parseLoop scan (turns + 1) set before str = some .exited := by
  simp only [parseLoop, found, rejected]

/-- The turn for an accepted token adds its CPUs. -/
theorem parseLoop_accepted (found : strtokR str = some token) (accepted : scan.Accepts token.text)
    (enough : 2 ^ 32 < turns) :
    parseLoop scan (turns + 1) set before str =
      parseLoop scan turns (set ∪ scan.cpus token.text) (before ++ token.passed) token.rest := by
  obtain ⟨scanned, bounded⟩ := accepted
  match assigned : scan token.text with
  | none => rw [assigned] at scanned; cases scanned
  | some (start, none) => simp only [parseLoop, found, assigned, Scan.cpus, Option.getD_none, cpuSet_eq]
  | some (start, some stop) =>
    have other : stop ≠ BitVec.allOnes 32 := fun same => bounded start (by rw [assigned, same])
    have short : stop.toNat + 1 - start.toNat < turns := by omega
    simp only [parseLoop, found, assigned, Scan.cpus, Option.getD_some, setRange_eq other set short]

/-- A turn that comes to an end exits for a token that `sscanf` rejects, or adds the CPUs of an accepted one. -/
theorem parseLoop_step {outcome : Outcome} (found : strtokR str = some token)
    (ended : parseLoop scan (turns + 1) set before str = some outcome) :
    scan token.text = none ∧ outcome = .exited ∨ scan.Accepts token.text ∧
      parseLoop scan turns (set ∪ scan.cpus token.text) (before ++ token.passed) token.rest = some outcome := by
  unfold Scan.Accepts Scan.Bounded Scan.cpus
  simp only [parseLoop, found] at ended
  match assigned : scan token.text with
  | none =>
    rw [assigned] at ended
    exact .inl ⟨rfl, (Option.some.inj ended).symm⟩
  | some (start, none) =>
    simp only [assigned, cpuSet_eq] at ended
    exact .inr ⟨⟨rfl, by simp⟩, ended⟩
  | some (start, some stop) =>
    simp only [assigned] at ended
    split at ended
    · rename_i set' done
      obtain ⟨bounded, rfl⟩ := setRange_some done
      refine .inr ⟨⟨rfl, ?_⟩, ended⟩
      rintro _ ⟨⟩
      exact bounded rfl
    · cases ended

/-- What an outcome says about the tokens of the string from which the loop set out. -/
def Outcome.Describes (scan : Scan) (set : Finset Nat) (before str : List Char) : Outcome → Prop
  | .returned set' buffer => (∀ token ∈ tokensOf str, scan.Accepts token) ∧
      set' = set ∪ (tokensOf str).toFinset.biUnion scan.cpus ∧
      ∃ left, buffer = before ++ left ∧ tokensOf left = (tokensOf str).take 1
  | .exited => ∃ good bad more, tokensOf str = good ++ bad :: more ∧ (∀ token ∈ good, scan.Accepts token) ∧
      scan bad = none

/-- What holds behind an accepted token holds from the token on. -/
theorem Outcome.Describes.cons {outcome : Outcome} (found : strtokR str = some token)
    (accepted : scan.Accepts token.text)
    (rest : outcome.Describes scan (set ∪ scan.cpus token.text) (before ++ token.passed) token.rest) :
    outcome.Describes scan set before str := by
  have tokens := strtokR_tokensOf found
  match outcome with
  | .returned set' buffer =>
    obtain ⟨all, named, left, behind, one⟩ := rest
    refine ⟨?_, ?_, token.passed ++ left, by rw [behind, List.append_assoc], ?_⟩
    · rw [tokens]
      exact List.forall_mem_cons.mpr ⟨accepted, all⟩
    · rw [named, tokens, List.toFinset_cons, Finset.biUnion_insert, Finset.union_assoc]
    · rw [strtokR_passed found one, tokens, List.take_succ_cons, List.take_zero]
  | .exited =>
    obtain ⟨good, bad, more, split, all, rejected⟩ := rest
    exact ⟨token.text :: good, bad, more, by rw [tokens, split, List.cons_append],
      List.forall_mem_cons.mpr ⟨accepted, all⟩, rejected⟩

/-- Partial correctness of the loop. -/
theorem parseLoop_describes {outcome : Outcome} (ended : parseLoop scan turns set before str = some outcome) :
    outcome.Describes scan set before str := by
  induction turns generalizing set before str with
  | zero => cases ended
  | succ turns ih =>
    cases found : strtokR str with
    | none =>
      rw [parseLoop_none found] at ended
      cases ended
      have missing := strtokR_none found
      exact ⟨by simp [missing], by simp [missing], str, rfl, by simp [missing]⟩
    | some token =>
      rcases parseLoop_step found ended with ⟨rejected, rfl⟩ | ⟨accepted, rest⟩
      · exact ⟨[], token.text, _, strtokR_tokensOf found, by simp, rejected⟩
      · exact (ih rest).cons found accepted

theorem parseLoop_mono {more : Nat} {outcome : Outcome} (le : turns ≤ more)
    (ended : parseLoop scan turns set before str = some outcome) :
    parseLoop scan more set before str = some outcome := by
  induction turns generalizing more set before str with
  | zero => cases ended
  | succ turns ih =>
    obtain ⟨more, rfl⟩ := Nat.exists_eq_succ_of_ne_zero (Nat.ne_of_gt (Nat.lt_of_lt_of_le (Nat.succ_pos _) le))
    have le := Nat.le_of_succ_le_succ le
    cases found : strtokR str with
    | none =>
      rw [parseLoop_none found] at ended ⊢
      exact ended
    | some token =>
      simp only [parseLoop, found] at ended ⊢
      match assigned : scan token.text with
      | none => simpa only [assigned] using ended
      | some (start, none) =>
        simp only [assigned] at ended ⊢
        exact ih le ended
      | some (start, some stop) =>
        simp only [assigned] at ended ⊢
        split at ended
        · rename_i set' done
          rw [setRange_mono le done]
          exact ih le ended
        · cases ended

/-- The tokens up to the first that `sscanf` rejects. -/
def Scan.readable (scan : Scan) (str : List Char) : List (List Char) :=
  (tokensOf str).takeWhile fun token => (scan token).isSome

theorem Scan.readable_append {good more : List (List Char)} {bad : List Char}
    (tokens : tokensOf str = good ++ bad :: more)
    (all : ∀ token ∈ good, scan.Accepts token) (rejected : scan bad = none) : scan.readable str = good := by
  rw [readable, tokens, List.takeWhile_append_of_pos fun token member => (all token member).1,
    List.takeWhile_cons_of_neg (by simp [rejected]), List.append_nil]

theorem Scan.readable_cons (found : strtokR str = some token) (scanned : (scan token.text).isSome) :
    scan.readable str = token.text :: scan.readable token.rest := by
  simp only [Scan.readable, strtokR_tokensOf found, List.takeWhile_cons, scanned, if_true]

/-- Termination of the loop. -/
theorem parseLoop_ends (bounded : ∀ token ∈ scan.readable str, scan.Bounded token)
    (enough : 2 ^ 32 + (tokensOf str).length < turns) :
    ∃ outcome, parseLoop scan turns set before str = some outcome := by
  induction turns generalizing set before str with
  | zero => omega
  | succ turns ih =>
    cases found : strtokR str with
    | none => exact ⟨_, parseLoop_none found⟩
    | some token =>
      rw [strtokR_tokensOf found, List.length_cons] at enough
      cases scanned : scan token.text with
      | none => exact ⟨_, parseLoop_rejected found scanned⟩
      | some range =>
        have isSome : (scan token.text).isSome := by rw [scanned]; rfl
        rw [Scan.readable_cons found isSome, List.forall_mem_cons] at bounded
        rw [parseLoop_accepted found ⟨isSome, bounded.1⟩ (by omega)]
        exact ih bounded.2 (by omega)

end Loop

section Ends

variable {scan : Scan} {affinityStr : List Char}

theorem Ends.describes {outcome : Outcome} (ends : Ends scan affinityStr outcome) :
    outcome.Describes scan ∅ [] affinityStr := by
  obtain ⟨turns, ended⟩ := ends
  exact parseLoop_describes ended

/-- A call ends in one way. -/
theorem Ends.unique {outcome outcome' : Outcome} (ends : Ends scan affinityStr outcome)
    (ends' : Ends scan affinityStr outcome') : outcome = outcome' := by
  obtain ⟨turns, ended⟩ := ends
  obtain ⟨turns', ended'⟩ := ends'
  have first := parseLoop_mono (le_max_left turns turns') ended
  have second := parseLoop_mono (le_max_right turns turns') ended'
  exact Option.some.inj (first.symm.trans second)

theorem exists_ends (bounded : ∀ token ∈ scan.readable affinityStr, scan.Bounded token) :
    ∃ outcome, Ends scan affinityStr outcome := by
  obtain ⟨outcome, ended⟩ := parseLoop_ends bounded (Nat.lt_succ_self _)
  exact ⟨outcome, _, ended⟩

theorem Ends.bounded {outcome : Outcome} (ends : Ends scan affinityStr outcome) :
    ∀ token ∈ scan.readable affinityStr, scan.Bounded token := by
  have described := ends.describes
  intro token member
  match outcome with
  | .returned _ _ => exact (described.1 token ((List.takeWhile_sublist _).subset member)).2
  | .exited =>
    obtain ⟨good, bad, more, tokens, all, rejected⟩ := described
    rw [Scan.readable_append tokens all rejected] at member
    exact (all token member).2

end Ends

/-- The call ends if and only if no range of the string, up to the first token that `sscanf` rejects, goes up to
the highest `unsigned int`. -/
theorem parseAffinityStr_ends_iff (scan : Scan) (affinityStr : List Char) :
    (∃ outcome, Ends scan affinityStr outcome) ↔ ∀ token ∈ scan.readable affinityStr, scan.Bounded token :=
  ⟨fun ⟨_, ends⟩ => ends.bounded, exists_ends⟩

/-- The highest `unsigned int` as the end of a range. -/
theorem highestEnd_not_ends : ¬ ∃ outcome, Ends sscanf "0-4294967295".toList outcome := by
  rintro ⟨outcome, ends⟩
  have token : "0-4294967295".toList ∈ sscanf.readable "0-4294967295".toList := by decide
  exact ends.bounded _ token 0 (by decide)

section Returns

variable {scan : Scan} {affinityStr buffer : List Char} {set : Finset Nat}

/-- The set that a call returns holds the CPUs that the tokens name. -/
theorem Ends.returned_eq (ends : Ends scan affinityStr (.returned set buffer)) :
    set = (tokensOf affinityStr).toFinset.biUnion scan.cpus := by
  obtain ⟨_, named, _⟩ := ends.describes
  rw [named, Finset.empty_union]

/-- A call returns if all the tokens are accepted. -/
theorem exists_returned (all : ∀ token ∈ tokensOf affinityStr, scan.Accepts token) :
    ∃ buffer, Ends scan affinityStr (.returned ((tokensOf affinityStr).toFinset.biUnion scan.cpus) buffer) := by
  have bounded : ∀ token ∈ scan.readable affinityStr, scan.Bounded token := fun token member =>
    (all token ((List.takeWhile_sublist _).subset member)).2
  obtain ⟨outcome, ends⟩ := exists_ends bounded
  match outcome with
  | .returned set buffer =>
    rw [ends.returned_eq] at ends
    exact ⟨buffer, ends⟩
  | .exited =>
    obtain ⟨good, bad, more, tokens, _, rejected⟩ := ends.describes
    have accepted := all bad (by simp [tokens])
    rw [Scan.Accepts, rejected] at accepted
    cases accepted.1

/-- A call exits at the first token that `sscanf` rejects, if it gets there. -/
theorem ends_exited {good more : List (List Char)} {bad : List Char}
    (tokens : tokensOf affinityStr = good ++ bad :: more)
    (all : ∀ token ∈ good, scan.Accepts token) (rejected : scan bad = none) : Ends scan affinityStr .exited := by
  have bounded : ∀ token ∈ scan.readable affinityStr, scan.Bounded token := by
    rw [Scan.readable_append tokens all rejected]
    exact fun token member => (all token member).2
  obtain ⟨outcome, ends⟩ := exists_ends bounded
  match outcome with
  | .returned set buffer =>
    have accepted := ends.describes.1 bad (by simp [tokens])
    rw [Scan.Accepts, rejected] at accepted
    cases accepted.1
  | .exited => exact ends

end Returns

section Again

variable {scan : Scan} {affinityStr buffer : List Char} {set : Finset Nat}

/-- A second call returns the CPUs of the first token alone. -/
theorem Ends.again (ends : Ends scan affinityStr (.returned set buffer)) :
    ∃ left, Ends scan buffer (.returned (((tokensOf affinityStr).take 1).toFinset.biUnion scan.cpus) left) := by
  obtain ⟨all, _, left, behind, one⟩ := ends.describes
  rw [List.nil_append] at behind
  subst behind
  have accepted : ∀ token ∈ tokensOf buffer, scan.Accepts token := fun token member =>
    all token (List.mem_of_mem_take (one ▸ member))
  rw [← one]
  exact exists_returned accepted

/-- A second call on the buffer returns the same set if and only if the first token names every CPU that the other
tokens name. -/
theorem parseAffinityStr_again_iff (first : Ends scan affinityStr (.returned set buffer)) :
    (∃ left, Ends scan buffer (.returned set left)) ↔
      ∀ token ∈ tokensOf affinityStr, ∀ c ∈ scan.cpus token,
        ∃ head ∈ (tokensOf affinityStr).take 1, c ∈ scan.cpus head := by
  obtain ⟨left, again⟩ := first.again
  constructor
  · rintro ⟨left', same⟩ token member c named
    have inside : c ∈ ((tokensOf affinityStr).take 1).toFinset.biUnion scan.cpus := by
      rw [← (Outcome.returned.inj (same.unique again)).1, first.returned_eq]
      exact Finset.mem_biUnion.mpr ⟨token, List.mem_toFinset.mpr member, named⟩
    obtain ⟨head, front, covers⟩ := Finset.mem_biUnion.mp inside
    exact ⟨head, List.mem_toFinset.mp front, covers⟩
  · intro covered
    have same : ((tokensOf affinityStr).take 1).toFinset.biUnion scan.cpus = set := by
      rw [first.returned_eq]
      refine Finset.Subset.antisymm (Finset.biUnion_subset_biUnion_of_subset_left _ fun token member => ?_)
        (Finset.biUnion_subset.mpr fun token member c named => ?_)
      · exact List.mem_toFinset.mpr (List.mem_of_mem_take (List.mem_toFinset.mp member))
      · obtain ⟨head, front, covers⟩ := covered token (List.mem_toFinset.mp member) c named
        exact Finset.mem_biUnion.mpr ⟨head, List.mem_toFinset.mpr front, covers⟩
    rw [same] at again
    exact ⟨left, again⟩

end Again

/-- A number that the range in front of it covers. -/
theorem coveredNumber_again :
    (∃ left, Ends sscanf ['0', '-', '3', nul, '2'] (.returned {3, 2, 1, 0} left)) ↔
      ∀ token ∈ tokensOf "0-3,2".toList, ∀ c ∈ sscanf.cpus token,
        ∃ head ∈ (tokensOf "0-3,2".toList).take 1, c ∈ sscanf.cpus head :=
  parseAffinityStr_again_iff ⟨6, rfl⟩

/-- The second of two numbers is lost. -/
theorem twoNumbers_not_again : ¬ ∀ affinityStr set buffer, Ends sscanf affinityStr (.returned set buffer) →
    ∃ left, Ends sscanf buffer (.returned set left) := by
  intro same
  obtain ⟨left, again⟩ := same "0,1".toList {1, 0} ['0', nul, '1'] ⟨3, rfl⟩
  exact absurd again.returned_eq (by decide)

theorem scanUnsigned_lt {str rest : List Char} {value : Nat} (scanned : scanUnsigned str = some (value, rest)) :
    value < 2 ^ 32 := by
  unfold scanUnsigned at scanned
  simp only [Option.ite_none_left_eq_some, Option.some.injEq, Prod.mk.injEq] at scanned
  obtain ⟨_, rfl, _⟩ := scanned
  exact Nat.mod_lt _ (by decide)

theorem scanRange_lt (token : List Char) : ∀ value ∈ scanRange token, value < 2 ^ 32 := by
  unfold scanRange
  split
  · simp
  · rename_i start rest first
    have small := scanUnsigned_lt first
    split
    · split
      · simpa using small
      · rename_i stop _ second
        simpa using ⟨small, scanUnsigned_lt second⟩
    · simpa using small

theorem foldl_cpuSet (start count : Nat) (set : Finset Nat) :
    (List.range' start count).foldl cpuSet set =
      set ∪ (Finset.Ico start (start + count)).filter (· < cpuSetSize) := by
  induction count generalizing start set with
  | zero => simp
  | succ count ih =>
    have split : Finset.Icc start start ∪ Finset.Ico (start + 1) (start + 1 + count) =
        Finset.Ico start (start + (count + 1)) := by
      ext c
      simp only [Finset.mem_union, Finset.mem_Icc, Finset.mem_Ico]
      omega
    rw [List.range'_succ, List.foldl_cons, ih, cpuSet_eq, Finset.union_assoc, ← Finset.filter_union, split]

/-- The turn for a token, as the thread pool sees it. -/
theorem parseToken_eq_some_iff {set set' : Finset Nat} {token : List Char} :
    parseToken set token = some set' ↔ sscanf.Accepts token ∧ set' = set ∪ sscanf.cpus token := by
  have equal {value : Nat} (small : value < 2 ^ 32) : (BitVec.ofNat 32 value).toNat = value :=
    Nat.mod_eq_of_lt small
  have small := scanRange_lt token
  unfold parseToken Scan.Accepts Scan.Bounded Scan.cpus sscanf
  generalize scanRange token = values at small
  match values with
  | [] => simp
  | [start] =>
    have first := equal (small start (by simp))
    simp only [cpuSet_eq, first, Option.getD_none]
    simp [eq_comm]
  | [start, stop] =>
    have first := equal (small start (by simp))
    have second := equal (small stop (by simp))
    have highest : stop = 2 ^ 32 - 1 ↔ BitVec.ofNat 32 stop = BitVec.allOnes 32 := by
      rw [← BitVec.toNat_inj, second, BitVec.toNat_allOnes]
    have range : Finset.Ico start (start + (stop + 1 - start)) = Finset.Icc start stop := by
      ext c
      simp only [Finset.mem_Ico, Finset.mem_Icc]
      omega
    simp only [highest, foldl_cpuSet, range, first, second, Option.getD_some]
    simp [eq_comm]
  | _ :: _ :: _ :: _ => simp

theorem parseTokens_eq_some_iff {tokens : List (List Char)} {set set' : Finset Nat} :
    tokens.foldlM parseToken set = some set' ↔
      (∀ token ∈ tokens, sscanf.Accepts token) ∧ set' = set ∪ tokens.toFinset.biUnion sscanf.cpus := by
  induction tokens generalizing set with
  | nil => simp [eq_comm]
  | cons token tokens ih =>
    rw [List.foldlM_cons, Option.bind_eq_bind, Option.bind_eq_some_iff, List.forall_mem_cons, List.toFinset_cons,
      Finset.biUnion_insert, ← Finset.union_assoc]
    simp only [parseToken_eq_some_iff, ih]
    constructor
    · rintro ⟨_, ⟨accepted, rfl⟩, all, rfl⟩
      exact ⟨⟨accepted, all⟩, rfl⟩
    · rintro ⟨⟨accepted, all⟩, rfl⟩
      exact ⟨_, ⟨accepted, rfl⟩, all, rfl⟩

/-- The thread pool gets the set that the call on the buffer returns. -/
theorem parseAffinityStr_eq_some_iff {affinityStr : List Char} {set : Finset Nat} (noNul : nul ∉ affinityStr) :
    Puma.parseAffinityStr affinityStr = some set ↔ ∃ buffer, Ends sscanf affinityStr (.returned set buffer) := by
  have tokens : (affinityStr.splitOn ',').filter (· ≠ []) = tokensOf affinityStr := (tokensOf_eq noNul).symm
  rw [Puma.parseAffinityStr, tokens, parseTokens_eq_some_iff, Finset.empty_union]
  constructor
  · rintro ⟨all, rfl⟩
    exact exists_returned all
  · rintro ⟨buffer, ends⟩
    exact ⟨ends.describes.1, ends.returned_eq⟩

end Machine

end Puma
