import DistSys.Core.GoValues
import Mathlib.Data.List.Basic

namespace DistSys.Utf8

/-- A byte that continues an encoding. -/
def isContinuation (b : UInt8) : Bool :=
  0x80 ≤ b && b ≤ 0xBF

/-- How long the encoding is that starts with this byte; 0 if none does. -/
def width (first : UInt8) : Nat :=
  if first < 0x80 then 1
  else if first < 0xC2 then 0
  else if first < 0xE0 then 2
  else if first < 0xF0 then 3
  else if first < 0xF5 then 4
  else 0

/-- The second byte leaves out the encodings that are too long, the surrogates, and what
is beyond the last code point. -/
def accepts (first second : UInt8) : Bool :=
  isContinuation second && (first != 0xE0 || 0xA0 ≤ second) && (first != 0xED || second ≤ 0x9F) &&
    (first != 0xF0 || 0x90 ≤ second) && (first != 0xF4 || second ≤ 0x8F)

/-- The bytes are the encoding of one code point. -/
def isRune : GoString → Bool
  | [] => false
  | first :: rest =>
    width first == rest.length + 1 &&
      match rest with
      | [] => true
      | second :: more => accepts first second && more.all isContinuation

/-- What a decoder finds when it goes through a string: a code point, or a byte that
belongs to none. -/
inductive Piece
  | rune (bytes : GoString)
  | bad (b : UInt8)

namespace Piece

def bytes : Piece → GoString
  | rune bytes => bytes
  | bad b => [b]

def isRune : Piece → Bool
  | rune _ => true
  | bad _ => false

/-- A bad byte is replaced by U+FFFD. -/
def replaced : Piece → GoString
  | rune bytes => bytes
  | bad _ => [0xEF, 0xBF, 0xBD]

end Piece

/-- The pieces of a string behind its first bytes. -/
def piecesFrom : Nat → GoString → List Piece
  | _, [] => []
  | skip + 1, _ :: rest => piecesFrom skip rest
  | 0, b :: rest =>
    let front := (b :: rest).take (width b)
    if isRune front then .rune front :: piecesFrom (width b - 1) rest
    else .bad b :: piecesFrom 0 rest

/-- A string as a decoder goes through it; after a bad byte it goes on with the next. -/
def pieces (s : GoString) : List Piece :=
  piecesFrom 0 s

def Valid (s : GoString) : Prop :=
  ∀ p ∈ pieces s, p.isRune = true

instance (s : GoString) : Decidable (Valid s) :=
  inferInstanceAs (Decidable (∀ p ∈ pieces s, p.isRune = true))

/-- The string with U+FFFD in the place of every bad byte. -/
def toValid (s : GoString) : GoString :=
  (pieces s).flatMap Piece.replaced

variable {s rest r : GoString} {b : UInt8}

theorem piecesFrom_eq (skip : Nat) (s : GoString) : piecesFrom skip s = pieces (s.drop skip) := by
  induction s generalizing skip with
  | nil => cases skip <;> rfl
  | cons b rest ih =>
    cases skip with
    | zero => rfl
    | succ skip => exact ih skip

theorem pieces_rune (rune : isRune r = true) (rest : GoString) : pieces (r ++ rest) = .rune r :: pieces rest := by
  cases r with
  | nil => cases rune
  | cons b tail =>
    have size : width b = tail.length + 1 := by
      simp only [isRune, Bool.and_eq_true, beq_iff_eq] at rune
      exact rune.1
    have front : (b :: (tail ++ rest)).take (width b) = b :: tail := by simp [size]
    show piecesFrom 0 (b :: (tail ++ rest)) = _
    rw [piecesFrom, front, if_pos rune, piecesFrom_eq, size]
    simp

theorem pieces_bad (bad : isRune ((b :: rest).take (width b)) = false) :
    pieces (b :: rest) = .bad b :: pieces rest := by
  show piecesFrom 0 (b :: rest) = _
  rw [piecesFrom, bad, if_neg Bool.false_ne_true]
  rfl

/-- Induction along a decoder. -/
theorem pieces_induction {motive : GoString → Prop} (nil : motive [])
    (rune : ∀ r rest, isRune r = true → motive rest → motive (r ++ rest))
    (bad : ∀ b rest, isRune ((b :: rest).take (width b)) = false → motive rest → motive (b :: rest))
    (s : GoString) : motive s := by
  induction size : s.length using Nat.strongRecOn generalizing s with
  | ind n ih =>
    cases s with
    | nil => exact nil
    | cons b rest =>
      subst size
      cases found : isRune ((b :: rest).take (width b)) with
      | false => exact bad b rest found (ih _ (Nat.lt_succ_self _) rest rfl)
      | true =>
        have positive : 0 < width b := by
          cases size : width b with
          | zero => rw [size] at found; cases found
          | succ => exact Nat.succ_pos _
        have shorter : ((b :: rest).drop (width b)).length < (b :: rest).length := by
          rw [List.length_drop, List.length_cons]
          omega
        have step := rune _ _ found (ih _ shorter _ rfl)
        rwa [List.take_append_drop] at step

theorem isRune_of_mem (s : GoString) : ∀ r, Piece.rune r ∈ pieces s → isRune r = true := by
  induction s using pieces_induction with
  | nil => intro r found; cases found
  | rune front rest rune ih =>
    intro r found
    rw [pieces_rune rune] at found
    cases found with
    | head => exact rune
    | tail _ later => exact ih r later
  | bad b rest bad ih =>
    intro r found
    rw [pieces_bad bad] at found
    cases found with
    | tail _ later => exact ih r later

/-- The pieces make up the string. -/
theorem flatMap_bytes (s : GoString) : (pieces s).flatMap Piece.bytes = s := by
  induction s using pieces_induction with
  | nil => rfl
  | rune front rest rune ih => rw [pieces_rune rune, List.flatMap_cons, ih]; rfl
  | bad b rest bad ih => rw [pieces_bad bad, List.flatMap_cons, ih]; rfl

/-- What was replaced is valid. -/
theorem valid_toValid (s : GoString) : Valid (toValid s) := by
  induction s using pieces_induction with
  | nil => intro p found; cases found
  | rune front rest rune ih =>
    intro p found
    rw [toValid, pieces_rune rune, List.flatMap_cons, Piece.replaced, pieces_rune rune] at found
    cases found with
    | head => rfl
    | tail _ later => exact ih p later
  | bad b rest bad ih =>
    intro p found
    have replacement : isRune [0xEF, 0xBF, 0xBD] = true := by decide
    rw [toValid, pieces_bad bad, List.flatMap_cons, Piece.replaced, pieces_rune replacement] at found
    cases found with
    | head => rfl
    | tail _ later => exact ih p later

/-- A valid string is left as it is, and no other. -/
theorem toValid_eq_iff : toValid s = s ↔ Valid s := by
  constructor
  · intro same
    exact same ▸ valid_toValid s
  · intro valid
    have same : ∀ p ∈ pieces s, p.replaced = p.bytes := fun p found => by
      cases p with
      | rune r => rfl
      | bad b => cases valid _ found
    rw [toValid, List.flatMap_congr same, flatMap_bytes]

theorem lt_of_isRune_singleton (rune : isRune [b] = true) : b < 0x80 := by
  by_contra high
  simp only [isRune, Bool.and_true, beq_iff_eq, List.length_nil, width, if_neg high] at rune
  split_ifs at rune <;> omega

/-- All bytes of a longer encoding are beyond ASCII. -/
theorem le_of_mem_rune (rune : isRune r = true) (long : r.length ≠ 1) (b : UInt8) (found : b ∈ r) : 0x80 ≤ b := by
  cases r with
  | nil => cases found
  | cons first tail =>
    cases tail with
    | nil => exact absurd rfl long
    | cons second more =>
      simp only [isRune, accepts, isContinuation, Bool.and_eq_true, beq_iff_eq, decide_eq_true_eq,
        List.all_eq_true, List.length_cons] at rune
      obtain ⟨size, ⟨⟨⟨⟨⟨second, -⟩, -⟩, -⟩, -⟩, -⟩, more⟩ := rune
      rcases List.mem_cons.mp found with rfl | found
      · refine UInt8.not_lt.mp fun low => ?_
        rw [width, if_pos low] at size
        omega
      · rcases List.mem_cons.mp found with rfl | found
        · exact second
        · exact (more b found).1

end DistSys.Utf8
