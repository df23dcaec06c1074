import Lox.Json.Reader
import Lox.Json.Writer

/-!
Texts in JSON text. Main statement: an escaped text is read back as it was, whatever its characters.
-/

set_option autoImplicit false

namespace Lox.Json

/-- The escapes of control characters have four digits, of which the first two are zeros. -/
theorem unit?_hex : ∀ n < 32, Text.hex 4 n = ['0', '0', (n / 16).digitChar, (n % 16).digitChar] ∧
    unit? '0' '0' (n / 16).digitChar (n % 16).digitChar = some n := by
  decide

theorem charOf_toNat {c : Char} (h : c.toNat < 32) :
    isHighUnit c.toNat = false ∧ charOf c.toNat = c := by
  have hhigh : isHighUnit c.toNat = false := by
    simp [isHighUnit]
    omega
  have hlow : isLowUnit c.toNat = false := by
    simp [isLowUnit]
    omega
  exact ⟨hhigh, by simp [charOf, hhigh, hlow, Char.ofNat_toNat]⟩

theorem toNat_lt_of_lt_space {c : Char} (h : c < ' ') : c.toNat < 32 := h

theorem readText_plain (turns : Nat) (done rest : List Char) {c : Char} (hquote : c ≠ '"')
    (hslash : c ≠ '\\') (h : ¬ c < ' ') :
    readText (turns + 1) done (c :: rest) = readText turns (c :: done) rest := by
  rw [readText]
  · simp [h, hslash]
  · exact fun hc => absurd hc hquote
  · exact fun _ _ _ _ _ hc => absurd hc hslash
  · exact fun _ _ hc => absurd hc hslash

theorem readText_escapedChar (turns : Nat) (done : List Char) (c : Char) (rest : List Char) :
    readText (turns + 1) done (escapedChar c ++ rest) = readText turns (c :: done) rest := by
  unfold escapedChar
  split
  next h => rcases h with rfl | rfl <;> simp [readText, escape?]
  next hmark =>
    rw [not_or] at hmark
    split
    next h => subst h; simp [readText, escape?]
    split
    next h => subst h; simp [readText, escape?]
    split
    next h => subst h; simp [readText, escape?]
    split
    next h => subst h; simp [readText, escape?]
    split
    next h => subst h; simp [readText, escape?]
    split
    next h =>
      obtain ⟨hhex, hunit⟩ := unit?_hex c.toNat (toNat_lt_of_lt_space h)
      obtain ⟨hhigh, hchar⟩ := charOf_toNat (toNat_lt_of_lt_space h)
      rw [hhex]
      simp [readText, hunit, hhigh, hchar]
    next h => exact readText_plain turns done rest hmark.1 hmark.2 h

theorem readText_flatMap {turns : Nat} (done cs rest : List Char) (h : cs.length < turns) :
    readText turns done (cs.flatMap escapedChar ++ '"' :: rest) =
      .ok (.ofList (done.reverse ++ cs), rest) := by
  induction cs generalizing turns done with
  | nil =>
    obtain ⟨turns, rfl⟩ := Nat.exists_eq_succ_of_ne_zero (Nat.ne_of_gt h)
    simp [readText]
  | cons c cs ih =>
    obtain ⟨turns, rfl⟩ := Nat.exists_eq_succ_of_ne_zero (Nat.ne_zero_of_lt h)
    have hlt : cs.length < turns := by simpa using h
    rw [List.flatMap_cons, List.append_assoc, readText_escapedChar, ih _ hlt]
    simp

/-- An escaped text without its opening quote. -/
def closing (s : String) : List Char := s.toList.flatMap escapedChar ++ ['"']

theorem toList_escaped (s : String) : (escaped s).toList = '"' :: closing s := by
  simp [escaped, closing]

theorem length_escapedChar_pos (c : Char) : 0 < (escapedChar c).length := by
  unfold escapedChar
  repeat' split
  all_goals simp

theorem length_le_flatMap_escapedChar (cs : List Char) :
    cs.length ≤ (cs.flatMap escapedChar).length := by
  induction cs with
  | nil => simp
  | cons c cs ih =>
    have := length_escapedChar_pos c
    simp only [List.length_cons, List.flatMap_cons, List.length_append]
    omega

/-- An escaped text is read back, in as many turns as it has characters. -/
theorem readText_closing {turns : Nat} (s : String) (rest : List Char)
    (h : (closing s).length ≤ turns) : readText turns [] (closing s ++ rest) = .ok (s, rest) := by
  have hlen := length_le_flatMap_escapedChar s.toList
  have hturns : s.toList.length < turns := by
    simp only [closing, List.length_append, List.length_singleton] at h
    omega
  unfold closing
  rw [List.append_assoc]
  simpa using readText_flatMap [] s.toList rest hturns

end Lox.Json
