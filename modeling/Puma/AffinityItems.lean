import Puma.Affinity

namespace Puma

namespace Machine

/-- A number in decimal, with zeros in front. -/
structure Numeral where
  zeros : Nat
  value : Nat

def Numeral.text (n : Numeral) : List Char := List.replicate n.zeros '0' ++ Nat.toDigits 10 n.value

theorem Numeral.isDigit (n : Numeral) : ∀ c ∈ n.text, c.isDigit := by
  intro c member
  rcases List.mem_append.mp member with zero | digit
  · rw [List.eq_of_mem_replicate zero]
    rfl
  · exact Nat.isDigit_of_mem_toDigits (by decide) (by decide) digit

theorem Numeral.text_cons (n : Numeral) : ∃ c digits, n.text = c :: digits ∧ c.isDigit := by
  have nonempty : n.text ≠ [] := by simp [Numeral.text]
  obtain ⟨c, digits, text⟩ := List.exists_cons_of_ne_nil nonempty
  exact ⟨c, digits, text, n.isDigit c (by simp [text])⟩

/-- The digits denote the number. -/
theorem Numeral.decimal_text (n : Numeral) : decimal n.text = n.value := by
  change Nat.ofDigitChars 10 n.text 0 = n.value
  rw [Numeral.text, Nat.ofDigitChars_append, Nat.ofDigitChars_replicate_zero, Nat.mul_zero,
    Nat.ofDigitChars_ten_toDigits]

theorem toNat_of_isDigit {c : Char} (digit : c.isDigit) : 48 ≤ c.toNat ∧ c.toNat ≤ 57 :=
  Char.isDigit_iff_toNat.mp digit

theorem toNat_of_isSpace {c : Char} (space : isSpace c) : 9 ≤ c.toNat ∧ c.toNat ≤ 32 := by
  simp only [isSpace, Bool.or_eq_true, Bool.and_eq_true, decide_eq_true_eq] at space
  rcases space with rfl | ⟨lower, upper⟩
  · decide
  · omega

theorem ne_of_isDigit {c d : Char} (digit : c.isDigit) (other : d.toNat < 48) : c ≠ d := by
  rintro rfl
  have := toNat_of_isDigit digit
  omega

/-- `%u` skips the blanks and reads the digits up to the first other character. -/
theorem scanUnsigned_text {blanks : List Char} (spaces : ∀ c ∈ blanks, isSpace c) {n : Numeral}
    (small : n.value < 2 ^ 32) (rest : List Char) (behind : ∀ c ∈ rest.head?, ¬ c.isDigit) :
    scanUnsigned (blanks ++ (n.text ++ rest)) = some (n.value, rest) := by
  obtain ⟨c, digits, text, digit⟩ := n.text_cons
  have skipped : (blanks ++ (n.text ++ rest)).dropWhile isSpace = n.text ++ rest := by
    have notSpace : ¬ isSpace c := fun space => by
      have := toNat_of_isDigit digit
      have := toNat_of_isSpace space
      omega
    rw [List.dropWhile_append_of_pos spaces, text, List.cons_append, List.dropWhile_cons_of_neg notSpace]
  have noSign : ∀ sign : Char, sign.toNat < 48 → (n.text ++ rest).head? ≠ some sign := by
    intro sign other
    rw [text, List.cons_append, List.head?_cons]
    exact fun same => ne_of_isDigit digit other (Option.some.inj same)
  have stops : rest.takeWhile Char.isDigit = [] ∧ rest.dropWhile Char.isDigit = rest := by
    cases rest with
    | nil => exact ⟨rfl, rfl⟩
    | cons d rest =>
      have other := behind d rfl
      exact ⟨List.takeWhile_cons_of_neg other, List.dropWhile_cons_of_neg other⟩
  have front : (n.text ++ rest).takeWhile Char.isDigit = n.text := by
    rw [List.takeWhile_append_of_pos n.isDigit, stops.1, List.append_nil]
  have back : (n.text ++ rest).dropWhile Char.isDigit = rest := by
    rw [List.dropWhile_append_of_pos n.isDigit, stops.2]
  have nonempty : n.text ≠ [] := by simp [text]
  have fits : ¬ 2 ^ 64 ≤ n.value := by omega
  simp only [scanUnsigned, skipped, noSign '-' (by decide), noSign '+' (by decide), false_or, if_false, front, back,
    n.decimal_text, if_neg nonempty, if_neg fits, Nat.mod_eq_of_lt small]

/-- The string begins with a digit, after blanks and an optional sign. -/
def StartsNumber (str : List Char) : Prop :=
  ∃ blanks sign digit rest, str = blanks ++ (sign ++ digit :: rest) ∧ (∀ c ∈ blanks, isSpace c) ∧
    (sign = [] ∨ sign = ['-'] ∨ sign = ['+']) ∧ digit.isDigit

/-- `%u` reads nothing from any other string. -/
theorem scanUnsigned_none {str : List Char} (other : ¬ StartsNumber str) : scanUnsigned str = none := by
  have spaces : ∀ c ∈ str.takeWhile isSpace, isSpace c := fun c member => List.mem_takeWhile_imp member
  have whole : str.takeWhile isSpace ++ str.dropWhile isSpace = str := List.takeWhile_append_dropWhile
  have noDigits (sign rest : List Char) (behind : str.dropWhile isSpace = sign ++ rest)
      (isSign : sign = [] ∨ sign = ['-'] ∨ sign = ['+']) : rest.takeWhile Char.isDigit = [] := by
    cases rest with
    | nil => rfl
    | cons c rest =>
      refine List.takeWhile_cons_of_neg fun digit => other ?_
      exact ⟨_, sign, c, rest, by rw [← behind, whole], spaces, isSign, digit⟩
  unfold scanUnsigned
  match behind : str.dropWhile isSpace with
  | [] => simp
  | c :: rest =>
    by_cases minus : c = '-'
    · have missing := noDigits ['-'] rest (by rw [behind, minus]; rfl) (by simp)
      simp [minus, missing]
    · by_cases plus : c = '+'
      · have missing := noDigits ['+'] rest (by rw [behind, plus]; rfl) (by simp)
        simp [plus, missing]
      · have missing := noDigits [] (c :: rest) (by rw [behind]; rfl) (by simp)
        simp [minus, plus, missing]

/-- A CPU number, or a range of CPUs from the first to the last, after blanks. -/
structure AffinityItem where
  blanks : List Char
  first : Numeral
  last : Option Numeral
  spaces : ∀ c ∈ blanks, isSpace c
  first_lt : first.value < cpuSetSize
  last_le : ∀ stop ∈ last, first.value ≤ stop.value ∧ stop.value < cpuSetSize

namespace AffinityItem

def text (item : AffinityItem) : List Char :=
  match item.last with
  | none => item.blanks ++ item.first.text
  | some last => item.blanks ++ (item.first.text ++ '-' :: last.text)

/-- The CPUs of the item, the ends of a range included. -/
def cpus (item : AffinityItem) : Finset Nat :=
  match item.last with
  | none => {item.first.value}
  | some last => Finset.Icc item.first.value last.value

variable (item : AffinityItem)

theorem scanRange_text : scanRange item.text = item.first.value :: (item.last.map Numeral.value).toList := by
  obtain ⟨blanks, first, last, spaces, first_lt, last_le⟩ := item
  have small {value : Nat} (inside : value < cpuSetSize) : value < 2 ^ 32 := Nat.lt_trans inside (by decide)
  cases last with
  | none =>
    have number := scanUnsigned_text spaces (small first_lt) [] (by simp)
    rw [List.append_nil] at number
    simp [text, scanRange, number]
  | some last =>
    have number := scanUnsigned_text spaces (small first_lt) ('-' :: last.text) (by simp)
    have stop := scanUnsigned_text (List.forall_mem_nil _) (small (last_le last rfl).2) [] (by simp)
    rw [List.nil_append, List.append_nil] at stop
    simp [text, scanRange, number, stop]

theorem sscanf_text : sscanf item.text =
    some (BitVec.ofNat 32 item.first.value, item.last.map fun last => BitVec.ofNat 32 last.value) := by
  rw [sscanf, item.scanRange_text]
  cases item.last <;> rfl

theorem toNat_ofNat {value : Nat} (inside : value < cpuSetSize) : (BitVec.ofNat 32 value).toNat = value :=
  Nat.mod_eq_of_lt (Nat.lt_trans inside (by decide))

/-- The loop over the range of an item ends. -/
theorem accepts : sscanf.Accepts item.text := by
  refine ⟨by rw [item.sscanf_text]; rfl, fun start => ?_⟩
  rw [item.sscanf_text]
  cases last : item.last with
  | none => simp
  | some stop =>
    have inside := (item.last_le stop last).2
    intro same
    simp only [Option.map_some, Option.some.injEq, Prod.mk.injEq] at same
    have top := congrArg BitVec.toNat same.2
    rw [toNat_ofNat inside, BitVec.toNat_allOnes] at top
    rw [top] at inside
    exact absurd inside (by decide)

/-- `sscanf` reads the CPUs of the item. -/
theorem cpus_text : sscanf.cpus item.text = item.cpus := by
  have first := toNat_ofNat item.first_lt
  rw [Scan.cpus, item.sscanf_text, cpus]
  cases last : item.last with
  | none =>
    simp only [Option.map_none, Option.getD_none, first, Finset.Icc_self, Finset.filter_singleton, if_pos item.first_lt]
  | some stop =>
    have inside := (item.last_le stop last).2
    simp only [Option.map_some, Option.getD_some, first, toNat_ofNat inside]
    refine Finset.filter_true_of_mem fun c member => ?_
    exact Nat.lt_of_le_of_lt (Finset.mem_Icc.mp member).2 inside

theorem inToken_text : ∀ c ∈ item.text, c ≠ ',' ∧ c ≠ nul := by
  have ofDigit {c : Char} (digit : c.isDigit) : c ≠ ',' ∧ c ≠ nul :=
    ⟨ne_of_isDigit digit (by decide), ne_of_isDigit digit (by decide)⟩
  have ofSpace {c : Char} (space : isSpace c) : c ≠ ',' ∧ c ≠ nul := by
    have bounds := toNat_of_isSpace space
    constructor
    · rintro rfl
      exact absurd bounds.2 (by decide)
    · rintro rfl
      exact absurd bounds.1 (by decide)
  intro c member
  unfold text at member
  split at member
  · rcases List.mem_append.mp member with space | digit
    · exact ofSpace (item.spaces c space)
    · exact ofDigit (item.first.isDigit c digit)
  · rename_i last _
    rcases List.mem_append.mp member with space | more
    · exact ofSpace (item.spaces c space)
    · rcases List.mem_append.mp more with digit | more
      · exact ofDigit (item.first.isDigit c digit)
      · rcases List.mem_cons.mp more with rfl | digit
        · exact ⟨by decide, by decide⟩
        · exact ofDigit (last.isDigit c digit)

theorem text_ne_nil : item.text ≠ [] := by
  obtain ⟨c, digits, spelled, _⟩ := item.first.text_cons
  unfold text
  split <;> simp [spelled]

end AffinityItem

/-- The items, joined by commas. -/
def affinityText (items : List AffinityItem) : List Char := [','].intercalate (items.map AffinityItem.text)

theorem nul_notMem_affinityText (items : List AffinityItem) : nul ∉ affinityText items := by
  induction items with
  | nil => simp [affinityText]
  | cons item items ih =>
    have noNul : nul ∉ item.text := fun member => (item.inToken_text nul member).2 rfl
    cases items with
    | nil => simpa [affinityText] using noNul
    | cons next items =>
      have split : affinityText (item :: next :: items) = item.text ++ ',' :: affinityText (next :: items) := by
        simp [affinityText]
      rw [split, List.mem_append, List.mem_cons]
      rintro (member | comma | member)
      · exact noNul member
      · exact nul_ne_comma comma
      · exact ih member

theorem tokens_affinityText (items : List AffinityItem) :
    Tokens.of ',' (affinityText items) = items.map AffinityItem.text := by
  refine Tokens.of_intercalate (fun token member => ?_) (fun token member => ?_)
  · obtain ⟨item, _, rfl⟩ := List.mem_map.mp member
    exact fun comma => (item.inToken_text ',' comma).1 rfl
  · obtain ⟨item, _, rfl⟩ := List.mem_map.mp member
    exact item.text_ne_nil

theorem tokensOf_affinityText (items : List AffinityItem) :
    tokensOf (affinityText items) = items.map AffinityItem.text := by
  rw [tokensOf_eq (nul_notMem_affinityText items), tokens_affinityText]

/-- A list of items yields the union of the items, and a token behind it that is no number stops the
program. -/
theorem parseAffinityStr_items (items : List AffinityItem) :
    (∃ set buffer, Ends sscanf (affinityText items) (.returned set buffer) ∧
        ∀ c, c ∈ set ↔ ∃ item ∈ items, c ∈ item.cpus) ∧
      ∀ bad, bad ≠ [] → ',' ∉ bad → nul ∉ bad → ¬ StartsNumber bad →
        Ends sscanf (affinityText items ++ ',' :: bad) .exited := by
  have all : ∀ token ∈ items.map AffinityItem.text, sscanf.Accepts token := by
    intro token member
    obtain ⟨item, _, rfl⟩ := List.mem_map.mp member
    exact item.accepts
  constructor
  · have accepted := all
    rw [← tokensOf_affinityText] at accepted
    obtain ⟨buffer, ends⟩ := exists_returned accepted
    refine ⟨_, buffer, ends, fun c => ?_⟩
    rw [tokensOf_affinityText]
    simp [AffinityItem.cpus_text]
  · intro bad nonempty noComma noNul other
    have tokens : tokensOf (affinityText items ++ ',' :: bad) = items.map AffinityItem.text ++ [bad] := by
      rw [tokensOf_append_comma (nul_notMem_affinityText items), tokens_affinityText, tokensOf_eq noNul,
        Tokens.of_notMem noComma nonempty]
    have rejected : sscanf bad = none := by
      rw [sscanf, scanRange, scanUnsigned_none other]
    exact ends_exited tokens all rejected

/-- A range and a number, and the same with a letter behind them. -/
theorem rangeAndNumber_items :
    (∃ set buffer, Ends sscanf "0-3, 6".toList (.returned set buffer) ∧
        ∀ c, c ∈ set ↔ c ∈ Finset.Icc 0 3 ∨ c ∈ ({6} : Finset Nat)) ∧
      Ends sscanf "0-3, 6,x".toList .exited := by
  have items := parseAffinityStr_items
    [⟨[], ⟨0, 0⟩, some ⟨0, 3⟩, List.forall_mem_nil _, by decide, by rintro _ ⟨⟩; decide⟩,
      ⟨[' '], ⟨0, 6⟩, none, List.forall_mem_singleton.mpr rfl, by decide, by simp⟩]
  constructor
  · obtain ⟨set, buffer, ends, union⟩ := items.1
    exact ⟨set, buffer, ends, fun c => by simpa [AffinityItem.cpus] using union c⟩
  · refine items.2 ['x'] (by decide) (by decide) (by decide) ?_
    rintro ⟨blanks, sign, digit, rest, whole, spaces, isSign, isDigit⟩
    cases blanks with
    | nil =>
      rcases isSign with rfl | rfl | rfl
      · cases whole
        exact absurd isDigit (by decide)
      · cases whole
      · cases whole
    | cons c blanks =>
      obtain ⟨rfl, _⟩ := List.cons_eq_cons.mp whole
      exact absurd (spaces 'x' List.mem_cons_self) (by decide)

end Machine

end Puma
