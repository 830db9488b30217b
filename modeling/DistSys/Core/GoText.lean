import DistSys.Core.GoValues
import Mathlib.Data.List.Basic

namespace DistSys

/-- The bytes of a text of ASCII characters. -/
def ascii (text : List Char) : GoString :=
  text.map fun c => c.toNat.toUInt8

/-- The decimal digits of a number, as `strconv.Itoa` writes them. -/
def itoa (n : Nat) : GoString :=
  ascii (Nat.toDigits 10 n)

/-- The lines of a file. -/
def lines : GoString → List GoString
  | [] => []
  | b :: rest =>
    if b = 10 then [] :: lines rest
    else match lines rest with
      | [] => [[b]]
      | first :: more => (b :: first) :: more

def dropCR (line : GoString) : GoString :=
  if line.getLast? = some 13 then line.dropLast else line

/-- The lines that a `bufio.Scanner` finds in a file. It gives up at a line that does not
fit into its buffer together with the line break. -/
def scanLines (buffer : Nat) (content : GoString) : List GoString :=
  ((lines content).takeWhile fun line => line.length < buffer).map dropCR

theorem toNat_digit {n : Nat} {c : Char} (digit : c ∈ Nat.toDigits 10 n) :
    c.toNat.toUInt8.toNat = c.toNat ∧ 48 ≤ c.toNat ∧ c.toNat ≤ 57 := by
  have is := Nat.isDigit_of_mem_toDigits (by decide) (by decide) digit
  rw [Char.isDigit, Bool.and_eq_true, decide_eq_true_eq, decide_eq_true_eq] at is
  have low : 48 ≤ c.toNat := is.1
  have high : c.toNat ≤ 57 := is.2
  refine ⟨?_, low, high⟩
  rw [Nat.toUInt8, UInt8.toNat_ofNat', Nat.mod_eq_of_lt (by omega)]

theorem mem_itoa {n : Nat} {b : UInt8} (member : b ∈ itoa n) : 48 ≤ b.toNat ∧ b.toNat ≤ 57 := by
  obtain ⟨c, digit, rfl⟩ := List.mem_map.mp member
  obtain ⟨same, low, high⟩ := toNat_digit digit
  rw [same]
  exact ⟨low, high⟩

theorem itoa_ne_nil (n : Nat) : itoa n ≠ [] := by
  intro empty
  exact Nat.toDigits_ne_nil (List.map_eq_nil_iff.mp empty)

theorem dash_notMem_itoa (n : Nat) : (45 : UInt8) ∉ itoa n := fun member =>
  absurd (mem_itoa member).1 (by decide)

theorem itoa_injective : Function.Injective itoa := by
  intro m n same
  have digits : ∀ k, (itoa k).map (fun b => Char.ofNat b.toNat) = Nat.toDigits 10 k := by
    intro k
    rw [itoa, ascii, List.map_map]
    refine (List.map_congr_left fun c digit => ?_).trans (List.map_id _)
    rw [Function.comp_apply, (toNat_digit digit).1, Char.ofNat_toNat, id]
  have equal : Nat.toDigits 10 m = Nat.toDigits 10 n := by
    rw [← digits m, ← digits n, same]
  rw [← Nat.ofDigitChars_ten_toDigits (n := m), equal, Nat.ofDigitChars_ten_toDigits]

/-- A text that ends its last line leaves the lines after it as they are. -/
theorem lines_append (text rest : GoString) :
    lines (text ++ 10 :: rest) = lines (text ++ [10]) ++ lines rest := by
  induction text with
  | nil => rfl
  | cons b text ih =>
    simp only [List.cons_append, lines, ih]
    by_cases newline : b = 10
    · rw [if_pos newline, if_pos newline, List.cons_append]
    · rw [if_neg newline, if_neg newline]
      cases first : lines (text ++ [10]) with
      | nil =>
        -- a text with a line break has a line
        cases text with
        | nil => cases first
        | cons c text =>
          simp only [List.cons_append, lines] at first
          split at first
          · cases first
          · split at first <;> cases first
      | cons line more => rfl

theorem lines_singleton {line : GoString} (whole : 10 ∉ line) : lines (line ++ [10]) = [line] := by
  induction line with
  | nil => rfl
  | cons b line ih =>
    have other : b ≠ 10 := fun newline => whole (newline ▸ List.mem_cons_self)
    rw [List.cons_append, lines, if_neg other, ih fun later => whole (List.mem_cons_of_mem _ later)]

/-- Lines that are written one after another are the lines of the file. -/
theorem lines_flatMap {written : List GoString} (whole : ∀ line ∈ written, 10 ∉ line) :
    lines (written.flatMap fun line => line ++ [10]) = written := by
  induction written with
  | nil => rfl
  | cons line written ih =>
    rw [List.flatMap_cons, List.append_assoc, List.singleton_append, lines_append,
      lines_singleton (whole line List.mem_cons_self),
      ih fun line member => whole line (List.mem_cons_of_mem _ member)]
    rfl

theorem scanLines_flatMap {buffer : Nat} {written : List GoString} (whole : ∀ line ∈ written, 10 ∉ line)
    (ends : ∀ line ∈ written, line.getLast? ≠ some 13) :
    scanLines buffer (written.flatMap fun line => line ++ [10]) =
      written.takeWhile fun line => line.length < buffer := by
  rw [scanLines, lines_flatMap whole]
  refine (List.map_congr_left fun line member => ?_).trans (List.map_id _)
  rw [dropCR, if_neg (ends line ((List.takeWhile_sublist _).subset member)), id]

end DistSys
