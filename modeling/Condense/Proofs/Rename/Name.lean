import Mathlib.Data.Finset.Card
import Mathlib.Data.Finset.Dedup
import Mathlib.Data.List.GetD
import Mathlib.Data.Nat.Find
import Condense.Rename.Name

/-!
Generated names are all names over their characters, shorter ones first, and differ from each other.
-/

namespace Condense

open List

theorem firstNameChars_length : firstNameChars.length = 54 := by decide

theorem nextNameChars_length : nextNameChars.length = 64 := by decide

theorem getD_inj {chars : List Char} (distinct : chars.Nodup) {i j : Nat} (left : i < chars.length)
    (right : j < chars.length) (same : chars.getD i 'n' = chars.getD j 'n') : i = j := by
  simp only [getD_eq_getElem?_getD, getElem?_eq_getElem left, getElem?_eq_getElem right, Option.getD_some] at same
  exact distinct.getElem_inj_iff.mp same

theorem mem_iff_getD {chars : List Char} {c : Char} : c ∈ chars ↔ ∃ i < chars.length, chars.getD i 'n' = c := by
  rw [mem_iff_getElem]
  refine exists_congr fun i => ⟨fun ⟨low, same⟩ => ⟨low, ?_⟩, fun ⟨low, same⟩ => ⟨low, ?_⟩⟩
  · rw [getD_eq_getElem _ _ low, same]
  · rw [← same, getD_eq_getElem _ _ low]

theorem nameTail_zero : nameTail 0 = [] := by
  rw [nameTail]
  rfl

theorem nameTail_succ (n : Nat) : nameTail (n + 1) = nextNameChars.getD (n % 64) 'n' :: nameTail (n / 64) := by
  rw [nameTail, nextNameChars_length]
  rfl

/-- The places behind the first are a numeral without a zero, so they tell their number. -/
theorem nameTail_injective {m n : Nat} (same : nameTail m = nameTail n) : m = n := by
  induction m using Nat.strongRecOn generalizing n with
  | ind m ih =>
    cases m with
    | zero =>
      cases n with
      | zero => rfl
      | succ n => simp [nameTail_zero, nameTail_succ] at same
    | succ m =>
      cases n with
      | zero => simp [nameTail_zero, nameTail_succ] at same
      | succ n =>
        rw [nameTail_succ, nameTail_succ, List.cons.injEq] at same
        have digits := getD_inj (by decide) (by rw [nextNameChars_length]; omega)
          (by rw [nextNameChars_length]; omega) same.1
        have rests := ih (m / 64) (by omega) same.2
        omega

/-- Every text over the characters is the numeral of some number. -/
theorem exists_nameTail (rest : List Char) : (∃ n, nameTail n = rest) ↔ ∀ c ∈ rest, c ∈ nextNameChars := by
  constructor
  · rintro ⟨n, rfl⟩
    induction n using Nat.strongRecOn with
    | ind n ih =>
      cases n with
      | zero => simp [nameTail_zero]
      | succ n =>
        rw [nameTail_succ, forall_mem_cons]
        exact ⟨mem_iff_getD.mpr ⟨_, by rw [nextNameChars_length]; omega, rfl⟩, ih _ (by omega)⟩
  · intro chars
    induction rest with
    | nil => exact ⟨0, nameTail_zero⟩
    | cons c rest ih =>
      rw [forall_mem_cons] at chars
      obtain ⟨n, rfl⟩ := ih chars.2
      obtain ⟨digit, low, rfl⟩ := mem_iff_getD.mp chars.1
      rw [nextNameChars_length] at low
      refine ⟨64 * n + digit + 1, ?_⟩
      rw [nameTail_succ, show (64 * n + digit) % 64 = digit by omega, show (64 * n + digit) / 64 = n by omega]

theorem length_nameTail_mono {m n : Nat} (le : m ≤ n) : (nameTail m).length ≤ (nameTail n).length := by
  induction m using Nat.strongRecOn generalizing n with
  | ind m ih =>
    cases m with
    | zero => simp [nameTail_zero]
    | succ m =>
      obtain ⟨n, rfl⟩ : ∃ k, n = k + 1 := ⟨n - 1, by omega⟩
      rw [nameTail_succ, nameTail_succ, length_cons, length_cons]
      exact Nat.succ_le_succ (ih (m / 64) (by omega) (by omega))

theorem generatedName_toList (index : Nat) :
    (generatedName index).toList = firstNameChars.getD (index % 54) 'n' :: nameTail (index / 54) := by
  rw [generatedName, String.toList_ofList, firstNameChars_length]

theorem generatedName_injective : Function.Injective generatedName := by
  intro m n same
  have chars := congrArg String.toList same
  rw [generatedName_toList, generatedName_toList, List.cons.injEq] at chars
  have digits := getD_inj (by decide) (by rw [firstNameChars_length]; omega)
    (by rw [firstNameChars_length]; omega) chars.1
  have rests := nameTail_injective chars.2
  omega

/-- Whether a text is a name over the characters for its first and its other places. -/
def IsShortName (name : String) : Prop :=
  ∃ first rest, name.toList = first :: rest ∧ first ∈ firstNameChars ∧ ∀ c ∈ rest, c ∈ nextNameChars

theorem exists_generatedName_eq (name : String) : (∃ index, generatedName index = name) ↔ IsShortName name := by
  constructor
  · rintro ⟨index, rfl⟩
    refine ⟨_, _, generatedName_toList index, mem_iff_getD.mpr ⟨_, ?_, rfl⟩, (exists_nameTail _).mp ⟨_, rfl⟩⟩
    rw [firstNameChars_length]
    omega
  · rintro ⟨first, rest, chars, start, others⟩
    obtain ⟨digit, low, rfl⟩ := mem_iff_getD.mp start
    obtain ⟨n, rfl⟩ := (exists_nameTail rest).mpr others
    rw [firstNameChars_length] at low
    refine ⟨54 * n + digit, String.toList_injective ?_⟩
    rw [chars, generatedName_toList, show (54 * n + digit) % 54 = digit by omega,
      show (54 * n + digit) / 54 = n by omega]

theorem generatedName_length_mono : Monotone fun index => (generatedName index).length := by
  intro i j le
  simp only [← String.length_toList, generatedName_toList, length_cons]
  exact Nat.succ_le_succ (length_nameTail_mono (Nat.div_le_div_right le))

/-- Whether the search passes a name by. -/
def Refused (taken : List String) (name : String) : Prop :=
  name ∈ taken ∨ isReservedWord name = true

/-- The search ends at the first name that is not refused. -/
theorem freeNameFrom_eq (taken : List String) {tries start index : Nat} (begun : start ≤ index)
    (low : index ≤ start + tries) (free : ¬Refused taken (generatedName index))
    (refused : ∀ k, start ≤ k → k < index → Refused taken (generatedName k)) :
    freeNameFrom taken.contains tries start = generatedName index := by
  induction tries generalizing start with
  | zero =>
    obtain rfl : start = index := by omega
    rfl
  | succ tries ih =>
    have passed : (taken.contains (generatedName start) || isReservedWord (generatedName start)) ↔
        Refused taken (generatedName start) := by simp [Refused]
    dsimp only [freeNameFrom]
    rcases begun.eq_or_lt with rfl | less
    · exact if_neg (passed.not.mpr free)
    · rw [if_pos (passed.mpr (refused start le_rfl less))]
      exact ih less (by omega) fun k above => refused k (by omega)

/-- The words that the search passes by. -/
theorem isReservedWord_listed {name : String} (reserved : isReservedWord name) :
    name ∈ Keyword.all.map Keyword.spelling ++ futureReservedWords := by
  unfold isReservedWord at reserved
  split at reserved
  · rename_i keyword found
    have spelled := find?_some found
    simp only [beq_iff_eq] at spelled
    exact mem_append_left _ (mem_map.mpr ⟨keyword, mem_of_find?_eq_some found, spelled⟩)
  · exact mem_append_right _ (by simpa using reserved)

/-- Among more generated names than there are names to avoid, one is none of them. -/
theorem exists_generatedName (avoid : List String) : ∃ k ≤ avoid.length, generatedName k ∉ avoid := by
  by_contra none
  push Not at none
  have subset : (Finset.range (avoid.length + 1)).image generatedName ⊆ avoid.toFinset := by
    intro name member
    obtain ⟨k, range, rfl⟩ := Finset.mem_image.mp member
    exact mem_toFinset.mpr (none k (by simpa [Nat.lt_succ_iff] using range))
  have many := Finset.card_le_card subset
  rw [Finset.card_image_of_injective _ generatedName_injective, Finset.card_range] at many
  have few := avoid.toFinset_card_le
  omega

/-- The first name that is not refused, and how far the search may have to go for it. -/
theorem exists_first_free (taken : List String) :
    ∃ index ≤ taken.length + Keyword.all.length + futureReservedWords.length,
      ¬Refused taken (generatedName index) ∧ ∀ k < index, Refused taken (generatedName k) := by
  classical
  obtain ⟨k, low, avoided⟩ := exists_generatedName (taken ++ (Keyword.all.map Keyword.spelling ++ futureReservedWords))
  have free : ¬Refused taken (generatedName k) := fun refused =>
    avoided (mem_append.mpr (refused.imp_right isReservedWord_listed))
  have found : ∃ index, ¬Refused taken (generatedName index) := ⟨k, free⟩
  refine ⟨Nat.find found, (Nat.find_min' found free).trans ?_, Nat.find_spec found, fun earlier less =>
    not_not.mp (Nat.find_min found less)⟩
  simpa [Nat.add_assoc] using low

/-- The first names that are generated are no reserved words. The next one is `in`. -/
theorem generatedName_writable : ∀ depth < 56, isReservedWord (generatedName depth) = false := by
  decide +kernel

/-- A free name is none of the names to avoid and can be written as a name. -/
theorem freeName_free (taken : List String) : freeName taken ∉ taken ∧ isReservedWord (freeName taken) = false := by
  obtain ⟨index, low, free, refused⟩ := exists_first_free taken
  rw [freeName, freeNameFrom_eq taken (Nat.zero_le _) (by omega) free fun k _ => refused k]
  simpa [Refused] using free

/-- Generated names are a numbering of the short names, in the order of their lengths. Whatever names are taken, the
search stops, and from then on more tries change nothing: its answer is the first name that is neither taken nor
reserved. -/
theorem generatedName_numbers_names :
    Function.Injective generatedName ∧ Set.range generatedName = { name | IsShortName name } ∧
      (Monotone fun index => (generatedName index).length) ∧
      ∀ taken : List String, ∃ index, ¬Refused taken (generatedName index) ∧
        (∀ k < index, Refused taken (generatedName k)) ∧ freeName taken = generatedName index ∧
        ∀ tries ≥ index, freeNameFrom taken.contains tries 0 = generatedName index := by
  refine ⟨generatedName_injective, Set.ext exists_generatedName_eq, generatedName_length_mono, fun taken => ?_⟩
  obtain ⟨index, low, free, refused⟩ := exists_first_free taken
  have ends (tries : Nat) (enough : index ≤ tries) : freeNameFrom taken.contains tries 0 = generatedName index :=
    freeNameFrom_eq taken (Nat.zero_le _) (by omega) free fun k _ => refused k
  exact ⟨index, free, refused, ends _ low, ends⟩

end Condense
