import DistSys.Core.GoText
import DistSys.Core.Utf8

namespace DistSys.JsonString

open Utf8

/-- A hexadecimal digit, in lower case. -/
def hexDigit (n : Nat) : UInt8 :=
  if n < 10 then (48 + n).toUInt8 else (87 + n).toUInt8

def hexValue (b : UInt8) : Option Nat :=
  if 48 ≤ b ∧ b ≤ 57 then some (b.toNat - 48)
  else if 97 ≤ b ∧ b ≤ 102 then some (b.toNat - 87)
  else if 65 ≤ b ∧ b ≤ 70 then some (b.toNat - 55)
  else none

/-- The letter of the escapes that have one: quote, backslash, backspace, form feed,
line feed, carriage return and tab. -/
def letter (b : UInt8) : Option UInt8 :=
  if b = 34 then some 34
  else if b = 92 then some 92
  else if b = 8 then some 98
  else if b = 12 then some 102
  else if b = 10 then some 110
  else if b = 13 then some 114
  else if b = 9 then some 116
  else none

def ofLetter (b : UInt8) : Option UInt8 :=
  if b = 34 then some 34
  else if b = 92 then some 92
  else if b = 47 then some 47
  else if b = 98 then some 8
  else if b = 102 then some 12
  else if b = 110 then some 10
  else if b = 114 then some 13
  else if b = 116 then some 9
  else none

/-- The other control characters, and `<`, `>` and `&`, are written by their number. -/
def writtenByNumber (b : UInt8) : Bool :=
  b < 32 || b == 60 || b == 62 || b == 38

def encodeByte (b : UInt8) : GoString :=
  match letter b with
  | some c => [92, c]
  | none => if writtenByNumber b then [92, 117, 48, 48, hexDigit (b.toNat / 16), hexDigit (b.toNat % 16)] else [b]

/-- A bad byte is written as U+FFFD, and the line separators U+2028 and U+2029 by their
number. -/
def encodePiece : Piece → GoString
  | .bad _ => ascii ['\\', 'u', 'f', 'f', 'f', 'd']
  | .rune r =>
    if r = [0xE2, 0x80, 0xA8] then ascii ['\\', 'u', '2', '0', '2', '8']
    else if r = [0xE2, 0x80, 0xA9] then ascii ['\\', 'u', '2', '0', '2', '9']
    else if r.length = 1 then r.flatMap encodeByte
    else r

/-- A string as JSON text, without the opening quote. -/
def encode (s : GoString) : GoString :=
  (pieces s).flatMap encodePiece ++ [34]

/-- The UTF-8 encoding of a code point below 65536 that is not a surrogate. -/
def encodeRune (code : Nat) : GoString :=
  if code < 0x80 then [code.toUInt8]
  else if code < 0x800 then [(0xC0 + code / 64).toUInt8, (0x80 + code % 64).toUInt8]
  else [(0xE0 + code / 4096).toUInt8, (0x80 + code / 64 % 64).toUInt8, (0x80 + code % 64).toUInt8]

def hexCode (h₁ h₂ h₃ h₄ : UInt8) : Option Nat := do
  let a ← hexValue h₁
  let b ← hexValue h₂
  let c ← hexValue h₃
  let d ← hexValue h₄
  return ((a * 16 + b) * 16 + c) * 16 + d

/-- The decoder has found these bytes before the rest. -/
def found (bytes : GoString) (rest : Option (GoString × GoString)) : Option (GoString × GoString) :=
  rest.map fun out => (bytes ++ out.1, out.2)

/-- Reads a string behind its opening quote; the second part is what follows the
closing quote. -/
def decode : GoString → Option (GoString × GoString)
  | [] => none
  | b :: rest =>
    if b = 34 then some ([], rest)
    else if b = 92 then
      match rest with
      | [] => none
      | c :: rest =>
        if c = 117 then
          match rest with
          | h₁ :: h₂ :: h₃ :: h₄ :: rest =>
            (hexCode h₁ h₂ h₃ h₄).bind fun code => found (encodeRune code) (decode rest)
          | _ => none
        else (ofLetter c).bind fun b => found [b] (decode rest)
    else if b < 32 then none
    else found [b] (decode rest)
termination_by structural text => text

variable {b c h₁ h₂ h₃ h₄ : UInt8} {code : Nat}

theorem decode_quote (rest : GoString) : decode (34 :: rest) = some ([], rest) := by
  rw [decode.eq_def]
  simp

theorem decode_letter (escape : ofLetter c = some b) (rest : GoString) :
    decode (92 :: c :: rest) = found [b] (decode rest) := by
  have other : c ≠ 117 := by
    rintro rfl
    cases escape
  rw [decode.eq_def]
  simp [other, escape]

theorem decode_number (escape : hexCode h₁ h₂ h₃ h₄ = some code) (rest : GoString) :
    decode (92 :: 117 :: h₁ :: h₂ :: h₃ :: h₄ :: rest) = found (encodeRune code) (decode rest) := by
  rw [decode.eq_def]
  simp [escape]

/-- Bytes that need no escape stand for themselves. -/
theorem decode_raw {r : GoString} (plain : ∀ b ∈ r, b ≠ 34 ∧ b ≠ 92 ∧ ¬ b < 32) (rest : GoString) :
    decode (r ++ rest) = found r (decode rest) := by
  induction r with
  | nil => cases decoded : decode rest <;> simp [found, decoded]
  | cons b r ih =>
    obtain ⟨quote, backslash, control⟩ := plain b List.mem_cons_self
    have step : decode (b :: (r ++ rest)) = found [b] (decode (r ++ rest)) := by
      rw [decode.eq_def]
      simp [quote, backslash, control]
    rw [List.cons_append, step, ih fun b member => plain b (List.mem_cons_of_mem _ member)]
    cases decode rest <;> rfl

/-- What the encoder writes for a piece: a number, a letter behind a backslash, or the
piece itself. -/
inductive Written : Piece → GoString → Prop
  | number {p : Piece} {h₁ h₂ h₃ h₄ : UInt8} {code : Nat} : hexCode h₁ h₂ h₃ h₄ = some code →
      p.replaced = encodeRune code → p.bytes.length ≤ 6 → Written p [92, 117, h₁, h₂, h₃, h₄]
  | letter {b c : UInt8} : ofLetter c = some b → Written (.rune [b]) [92, c]
  | raw {r : GoString} : (∀ b ∈ r, b ≠ 34 ∧ b ≠ 92 ∧ ¬ b < 32) → Written (.rune r) r

theorem ofLetter_letter (short : letter b = some c) : ofLetter c = some b := by
  simp only [letter] at short
  split_ifs at short <;> cases short <;> subst b <;> decide

theorem letter_none (long : letter b = none) : b ≠ 34 ∧ b ≠ 92 := by
  constructor <;> rintro rfl <;> cases long

theorem hexValue_hexDigit : ∀ n < 16, hexValue (hexDigit n) = some n := by decide

theorem hexCode_low (b : UInt8) :
    hexCode 48 48 (hexDigit (b.toNat / 16)) (hexDigit (b.toNat % 16)) = some b.toNat := by
  have small := b.toNat_lt
  have high := hexValue_hexDigit (b.toNat / 16) (by omega)
  have low := hexValue_hexDigit (b.toNat % 16) (by omega)
  have zero : hexValue 48 = some 0 := by decide
  simp only [hexCode, zero, high, low]
  show some _ = some _
  congr 1
  omega

theorem encodeRune_ascii (low : b < 0x80) : encodeRune b.toNat = [b] := by
  have bound : b.toNat < 0x80 := UInt8.lt_iff_toNat_lt.mp low
  rw [encodeRune, if_pos bound]
  exact congrArg (fun b => [b]) UInt8.ofNat_toNat

theorem written_encodeByte (low : b < 0x80) : Written (.rune [b]) (encodeByte b) := by
  rw [encodeByte]
  cases short : letter b with
  | some c => exact .letter (ofLetter_letter short)
  | none =>
    cases number : writtenByNumber b with
    | true => exact .number (hexCode_low b) (encodeRune_ascii low).symm (by simp [Piece.bytes])
    | false =>
      obtain ⟨quote, backslash⟩ := letter_none short
      refine .raw fun c member => ?_
      rw [List.mem_singleton.mp member]
      refine ⟨quote, backslash, fun control => ?_⟩
      simp [writtenByNumber, control] at number

/-- Bytes beyond ASCII need no escape. -/
theorem plain_of_le (high : 0x80 ≤ b) : b ≠ 34 ∧ b ≠ 92 ∧ ¬ b < 32 := by
  have bound : 128 ≤ b.toNat := UInt8.le_iff_toNat_le.mp high
  refine ⟨?_, ?_, fun control => ?_⟩
  · rintro rfl
    exact absurd bound (by decide)
  · rintro rfl
    exact absurd bound (by decide)
  · have small : b.toNat < 32 := UInt8.lt_iff_toNat_lt.mp control
    omega

theorem written_encodePiece {s : GoString} {p : Piece} (member : p ∈ pieces s) : Written p (encodePiece p) := by
  cases p with
  | bad b =>
    have number : hexCode 102 102 102 100 = some 0xFFFD := by decide
    exact .number number rfl (of_decide_eq_true rfl)
  | rune r =>
    have rune := isRune_of_mem s r member
    rw [encodePiece]
    split
    next separator =>
      have number : hexCode 50 48 50 56 = some 0x2028 := by decide
      rw [separator]
      exact .number number rfl (of_decide_eq_true rfl)
    next =>
      split
      next separator =>
        have number : hexCode 50 48 50 57 = some 0x2029 := by decide
        rw [separator]
        exact .number number rfl (of_decide_eq_true rfl)
      next =>
        split
        next single =>
          obtain ⟨b, rfl⟩ := List.length_eq_one_iff.mp single
          rw [List.flatMap_singleton]
          exact written_encodeByte (lt_of_isRune_singleton rune)
        next long => exact .raw fun b inside => plain_of_le (le_of_mem_rune rune long b inside)

theorem Written.decode {p : Piece} {text : GoString} (written : Written p text) (rest : GoString) :
    decode (text ++ rest) = found p.replaced (decode rest) := by
  cases written with
  | number code is _ =>
    rw [is]
    exact decode_number code rest
  | letter escape => exact decode_letter escape rest
  | raw plain => exact decode_raw plain rest

theorem Written.newline_notMem {p : Piece} {text : GoString} (written : Written p text) : (10 : UInt8) ∉ text := by
  have digit : hexValue 10 = none := by decide
  cases written with
  | number code _ _ =>
    intro inside
    simp only [List.mem_cons, List.not_mem_nil, or_false] at inside
    rcases inside with is | is | rfl | rfl | rfl | rfl
    · cases is
    · cases is
    all_goals simp [hexCode, digit] at code
  | letter escape =>
    intro inside
    simp only [List.mem_cons, List.not_mem_nil, or_false] at inside
    rcases inside with is | rfl
    · cases is
    · cases escape
  | raw plain => exact fun inside => absurd (plain 10 inside).2.2 (by decide)

theorem Written.length_le {p : Piece} {text : GoString} (written : Written p text) :
    p.bytes.length ≤ text.length := by
  cases written with
  | number _ _ short => exact short
  | letter => exact Nat.le_succ 1
  | raw => exact Nat.le_refl _

/-- A decoder reads back what the encoder wrote, with U+FFFD in the place of bad bytes. -/
theorem decode_encode (s rest : GoString) : decode (encode s ++ rest) = some (toValid s, rest) := by
  have pieces : ∀ ps : List Piece, (∀ p ∈ ps, p ∈ pieces s) →
      decode (ps.flatMap encodePiece ++ 34 :: rest) = some (ps.flatMap Piece.replaced, rest) := by
    intro ps members
    induction ps with
    | nil => exact decode_quote rest
    | cons p ps ih =>
      have here := written_encodePiece (members p List.mem_cons_self)
      rw [List.flatMap_cons, List.append_assoc, here.decode,
        ih fun p member => members p (List.mem_cons_of_mem _ member)]
      rfl
  rw [encode, List.append_assoc]
  exact pieces _ fun _ => id

/-- What the encoder writes stays on one line. -/
theorem newline_notMem_encode (s : GoString) : (10 : UInt8) ∉ encode s := by
  intro written
  rcases List.mem_append.mp written with inside | quote
  · obtain ⟨p, member, inside⟩ := List.mem_flatMap.mp inside
    exact (written_encodePiece member).newline_notMem inside
  · exact absurd quote (by decide)

/-- The encoder never makes a string shorter. -/
theorem length_encode (s : GoString) : s.length < (encode s).length := by
  have pieces : ∀ ps : List Piece, (∀ p ∈ ps, p ∈ pieces s) →
      (ps.flatMap Piece.bytes).length ≤ (ps.flatMap encodePiece).length := by
    intro ps members
    induction ps with
    | nil => exact Nat.le_refl _
    | cons p ps ih =>
      have here := (written_encodePiece (members p List.mem_cons_self)).length_le
      rw [List.flatMap_cons, List.flatMap_cons, List.length_append, List.length_append]
      exact Nat.add_le_add here (ih fun p member => members p (List.mem_cons_of_mem _ member))
  have total := pieces (Utf8.pieces s) fun _ => id
  rw [flatMap_bytes] at total
  rw [encode, List.length_append]
  exact Nat.lt_succ_of_le total

end DistSys.JsonString
