import DistSys.Core.Utf8

namespace DistSys

namespace Utf8

/-- The code point of a piece; a bad byte counts as U+FFFD. -/
def Piece.code : Piece → Nat
  | rune [b] => b.toNat
  | rune [b, c] => b.toNat % 0x20 * 0x40 + c.toNat % 0x40
  | rune [b, c, d] => (b.toNat % 0x10 * 0x40 + c.toNat % 0x40) * 0x40 + d.toNat % 0x40
  | rune [b, c, d, e] =>
    ((b.toNat % 0x08 * 0x40 + c.toNat % 0x40) * 0x40 + d.toNat % 0x40) * 0x40 + e.toNat % 0x40
  | rune _ => 0xFFFD
  | bad _ => 0xFFFD

/-- A decoder that comes to the end of a valid string begins anew. -/
theorem pieces_append {s : GoString} (valid : Valid s) (rest : GoString) :
    pieces (s ++ rest) = pieces s ++ pieces rest := by
  induction s using pieces_induction with
  | nil => rfl
  | rune r tail rune ih =>
    have below : Valid tail := by
      intro p member
      refine valid p ?_
      rw [pieces_rune rune]
      exact List.mem_cons_of_mem _ member
    rw [List.append_assoc, pieces_rune rune, pieces_rune rune, ih below, List.cons_append]
  | bad b tail bad ih =>
    have broken := valid (.bad b) (by rw [pieces_bad bad]; exact List.mem_cons_self)
    cases broken

theorem valid_append_rune {s r : GoString} (valid : Valid s) (rune : isRune r = true) : Valid (s ++ r) := by
  intro p member
  have last : pieces r = [.rune r] := by simpa [pieces, piecesFrom] using pieces_rune rune []
  rw [pieces_append valid, last] at member
  rcases List.mem_append.mp member with before | is
  · exact valid p before
  · rw [List.mem_singleton.mp is]
    rfl

end Utf8

open Utf8

/-- The loop of `strings.FieldsFunc`; `start` is the field that has begun. -/
def fieldsLoop (f : Nat → Bool) : Option GoString → List Piece → List GoString
  | none, [] => []
  | some field, [] => [field]
  | none, p :: rest => if f p.code then fieldsLoop f none rest else fieldsLoop f (some p.bytes) rest
  | some field, p :: rest =>
    if f p.code then field :: fieldsLoop f none rest else fieldsLoop f (some (field ++ p.bytes)) rest

/-- `strings.FieldsFunc`: the fields of a string between code points that satisfy `f`. -/
def fieldsFunc (s : GoString) (f : Nat → Bool) : List GoString :=
  fieldsLoop f none (pieces s)

/-- What holds of the empty string and survives every code point of a field holds of the
fields. -/
theorem fieldsLoop_induction {f : Nat → Bool} {P : GoString → Prop} {ps : List Piece} {start : Option GoString}
    (empty : P []) (more : ∀ field, ∀ p ∈ ps, f p.code = false → P field → P (field ++ p.bytes))
    (begun : ∀ field, start = some field → P field) : ∀ field ∈ fieldsLoop f start ps, P field := by
  induction ps generalizing start with
  | nil =>
    cases start with
    | none => simp [fieldsLoop]
    | some field =>
      intro other member
      rw [fieldsLoop, List.mem_singleton] at member
      exact member ▸ begun field rfl
  | cons p rest ih =>
    have later : ∀ field, ∀ q ∈ rest, f q.code = false → P field → P (field ++ q.bytes) :=
      fun field q member => more field q (List.mem_cons_of_mem p member)
    cases start with
    | none =>
      rw [fieldsLoop]
      split
      next => exact ih later fun _ is => by cases is
      next letter =>
        refine ih later fun field is => ?_
        cases is
        exact more [] p List.mem_cons_self (by simpa using letter) empty
    | some field =>
      rw [fieldsLoop]
      split
      next =>
        intro other member
        rcases List.mem_cons.mp member with rfl | inside
        · exact begun other rfl
        · exact ih later (fun _ is => by cases is) other inside
      next letter =>
        refine ih later fun longer is => ?_
        cases is
        exact more field p List.mem_cons_self (by simpa using letter) (begun field rfl)

/-- If U+FFFD separates fields, the fields are valid, whatever the string is. -/
theorem valid_of_mem_fieldsFunc {f : Nat → Bool} {s field : GoString} (separates : f 0xFFFD = true)
    (member : field ∈ fieldsFunc s f) : Valid field := by
  refine fieldsLoop_induction (P := Valid) ?_ ?_ (fun _ is => by cases is) field member
  · intro p inside
    cases inside
  · intro field p inside letter valid
    cases p with
    | rune r => exact valid_append_rune valid (isRune_of_mem s r inside)
    | bad b =>
      rw [Piece.code, separates] at letter
      cases letter

/-- No field has an ASCII character that separates fields. -/
theorem notMem_of_mem_fieldsFunc {f : Nat → Bool} {s field : GoString} {b : UInt8} (replacement : f 0xFFFD = true)
    (low : b < 0x80) (separates : f b.toNat = true) (member : field ∈ fieldsFunc s f) : b ∉ field := by
  refine fieldsLoop_induction (P := fun field => b ∉ field) List.not_mem_nil ?_ (fun _ is => by cases is) field member
  intro field p inside letter absent found
  rcases List.mem_append.mp found with before | now
  · exact absent before
  · cases p with
    | rune r =>
      by_cases single : r.length = 1
      · obtain ⟨c, rfl⟩ := List.length_eq_one_iff.mp single
        cases List.mem_singleton.mp now
        rw [Piece.code, separates] at letter
        cases letter
      · have high := le_of_mem_rune (isRune_of_mem s r inside) single b now
        exact absurd low (UInt8.not_lt.mpr high)
    | bad c =>
      rw [Piece.code, replacement] at letter
      cases letter

end DistSys
