import Lox.Proofs.Node.Likeness
import Lox.Proofs.Scan.Partition

/-!
The layout of a text: the gaps and comments between its lexemes. Main statement: a scan without diagnostics
finds the same tokens, but for their lines, when the lexemes are written with any other separators.
-/

set_option autoImplicit false

namespace Lox

/-- The characters of a token. -/
def Token.characters (t : Token) : List Char :=
  match t.lexeme with
  | .text s => s.toList
  | _ => []

namespace Lexical

/-- Gaps, and comments to the end of a line, any number of them. -/
inductive Blank : List Char → Prop where
  | nil : Blank []
  | gap {c : Char} {cs : List Char} (hc : c ∈ gaps) (h : Blank cs) : Blank (c :: cs)
  | comment {text cs : List Char} (ht : '\n' ∉ text) (h : Blank cs) :
      Blank ('/' :: '/' :: text ++ '\n' :: cs)

/-- What keeps two lexemes apart: a gap, and then more gaps and comments. -/
inductive Separator : List Char → Prop where
  | gap {c : Char} {cs : List Char} (hc : c ∈ gaps) (h : Blank cs) : Separator (c :: cs)

/-- Words in order with separators between them, and perhaps one after the last. -/
inductive Separated : List (List Char) → List Char → Prop where
  | nil : Separated [] []
  | last (word : List Char) : Separated [word] word
  | cons {word separator cs : List Char} {words : List (List Char)} (hs : Separator separator)
      (h : Separated words cs) : Separated (word :: words) (word ++ (separator ++ cs))

/-- A lexeme ends here: there is a gap or the end. -/
def Ends (after : List Char) : Prop := ∀ c ∈ after.head?, c ∈ gaps

namespace Ends

variable {after : List Char}

theorem head?_ne (h : Ends after) {c : Char} (hc : c ∉ gaps) : after.head? ≠ some c :=
  fun he => hc (h c he)

/-- A class of characters without gaps and marks goes on no further. -/
theorem run (h : Ends after) {p : Char → Bool} {cs : List Char}
    (hp : ∀ {c}, p c = true → c ∉ gaps ++ marks) (hcs : ∀ c ∈ cs, p c = true) : Run p cs after :=
  ⟨hcs, fun c hc => Bool.eq_false_iff.2 fun hno => hp hno (List.mem_append_left _ (h c hc))⟩

end Ends

/-- Whatever follows a lexeme, it is one as well where a gap or the end follows. -/
theorem Lexeme.before {kind : Kind} {literal : Json} {cs after after' : List Char}
    (h : Lexeme kind literal cs after) (he : Ends after') : Lexeme kind literal cs after' := by
  cases h with
  | single h => exact .single h
  | joined h => exact .joined h
  | alone h _ => exact .alone h (he.head?_ne (by decide))
  | slash _ => exact .slash (he.head?_ne (by decide))
  | string h => exact .string h
  | whole hne h _ hbits =>
    refine .whole hne (he.run not_mem_of_isDigit h.all) (fun d rest hafter => ?_) hbits
    exact absurd (hafter ▸ rfl) (he.head?_ne (c := '.') (by decide))
  | pointed hne hds hne' h hbits => exact .pointed hne hds hne' (he.run not_mem_of_isDigit h.all) hbits
  | keyword h hk => exact .keyword (he.run not_mem_of_isLetter h.all) hk
  | name hne h hk => exact .name hne (he.run not_mem_of_isLetter h.all) hk

/-- A token that is written as a lexeme of its kind. -/
def Stands (t : Token) : Prop :=
  t.lexeme = .text (.ofList t.characters) ∧ Lexeme t.kind t.literal t.characters []

theorem Reads.stands {done cs rest : List Char} {ps : List Piece} {ts : List Token}
    {ds : List Diagnostic} (h : Reads done cs ps ts ds rest) : ∀ t ∈ ts, Stands t := by
  induction h with
  | stop => exact nofun
  | gap _ _ ih | comment _ _ ih | stray _ _ _ _ ih => exact ih
  | @token _ cs _ _ kind literal _ _ _ hl _ ih =>
    refine List.forall_mem_cons.2 ⟨?_, ih⟩
    simp only [Stands, Token.characters, String.toList_ofList]
    exact ⟨trivial, hl.before nofun⟩

/-- Blanks before a text bring no tokens and no diagnostics. -/
theorem Blank.reads {blank : List Char} (h : Blank blank) {done after rest : List Char}
    {ps : List Piece} {ts : List Token} {ds : List Diagnostic}
    (hr : Reads (done ++ blank) after ps ts ds rest) :
    ∃ ps', Reads done (blank ++ after) ps' ts ds rest := by
  induction h generalizing done with
  | nil => exact ⟨ps, by simpa using hr⟩
  | @gap c cs hc _ ih =>
    have hr : Reads (done ++ [c] ++ cs) after ps ts ds rest := by simpa using hr
    obtain ⟨ps', h⟩ := ih hr
    exact ⟨_, .gap hc h⟩
  | @comment text cs ht _ ih =>
    have hr : Reads (done ++ '/' :: '/' :: text ++ ['\n'] ++ cs) after ps ts ds rest := by
      simpa using hr
    obtain ⟨ps', h⟩ := ih hr
    have hline : Run (· != '\n') text ('\n' :: (cs ++ after)) :=
      ⟨fun c hc => bne_iff_ne.2 fun he => ht (he ▸ hc), by rintro c ⟨⟩; rfl⟩
    have hcomment := Reads.comment hline (.gap (by decide) h)
    exact ⟨_, by simpa using hcomment⟩

theorem Separator.blank {separator : List Char} (h : Separator separator) : Blank separator := by
  obtain ⟨hc, h⟩ := h
  exact .gap hc h

theorem Separator.ends {separator : List Char} (h : Separator separator) (after : List Char) :
    Ends (separator ++ after) := by
  obtain ⟨hc, h⟩ := h
  rintro c ⟨⟩
  exact hc

/-- Tokens that are written with separators are read one by one. -/
theorem Separated.reads {words : List (List Char)} {cs : List Char} (h : Separated words cs)
    {ts : List Token} (hts : ts.map Token.characters = words) (hl : ∀ t ∈ ts, Stands t)
    (done : List Char) :
    ∃ ps ts', Reads done cs ps ts' [] [] ∧ List.Forall₂ Token.SameText ts ts' := by
  induction h generalizing ts done with
  | nil =>
    obtain rfl := List.map_eq_nil_iff.1 hts
    exact ⟨[], [], .stop, .nil⟩
  | last word =>
    obtain ⟨t, ts, rfl, rfl, hrest⟩ := List.map_eq_cons_iff.1 hts
    obtain rfl := List.map_eq_nil_iff.1 hrest
    obtain ⟨htext, hlexeme⟩ := hl t (List.mem_singleton_self t)
    have hend : Reads (done ++ t.characters) [] [] [] [] [] := .stop
    have hreads := Reads.token hlexeme hend
    rw [List.append_nil] at hreads
    exact ⟨_, _, hreads, .cons ⟨rfl, htext.symm, rfl⟩ .nil⟩
  | @cons word separator cs words hs _ ih =>
    obtain ⟨t, ts, rfl, rfl, hrest⟩ := List.map_eq_cons_iff.1 hts
    obtain ⟨⟨htext, hlexeme⟩, hl⟩ := List.forall_mem_cons.1 hl
    obtain ⟨ps, ts', hreads, hsame⟩ := ih hrest hl (done ++ t.characters ++ separator)
    obtain ⟨ps', hreads⟩ := hs.blank.reads hreads
    exact ⟨_, _, .token (hlexeme.before (hs.ends cs)) hreads, .cons ⟨rfl, htext.symm, rfl⟩ hsame⟩

end Lexical

/-- The tokens of a text written anew: the lexemes in order with other separators, and blanks before. -/
def Scan.IsLaidOut (found : Scan) (text : String) : Prop :=
  ∃ lead cs, text = .ofList (lead ++ cs) ∧ Lexical.Blank lead ∧
    Lexical.Separated (found.tokens.dropLast.map Token.characters) cs

/-- A scan without diagnostics finds the same tokens, but for their lines, whatever keeps the lexemes
apart. -/
theorem Scan.IsLaidOut.scan_eq {text laid : String} (h : (scan text).diagnostics = [])
    (hl : (scan text).IsLaidOut laid) :
    (scan laid).diagnostics = [] ∧ (scan laid).fatal = false ∧
      List.Forall₂ Token.SameText (scan text).tokens (scan laid).tokens := by
  obtain ⟨lead, cs, rfl, hlead, hcs⟩ := hl
  obtain ⟨ps, found, hfound⟩ := Lexical.exists_reading text.toList
  rw [hfound.scan] at h hcs ⊢
  cases hfound with
  | unclosed => simp at h
  | @whole _ ts ds hreads =>
    rw [List.dropLast_concat] at hcs
    obtain ⟨ps', ts', hreads', hsame⟩ := hcs.reads rfl hreads.stands lead
    have hbegin : Lexical.Reads ([] ++ lead) cs ps' ts' [] [] := hreads'
    obtain ⟨ps', hreads'⟩ := hlead.reads hbegin
    rw [← String.toList_ofList (l := lead ++ cs)] at hreads'
    rw [(Lexical.Reading.whole hreads').scan]
    exact ⟨rfl, rfl, List.rel_append hsame (.cons ⟨rfl, rfl, rfl⟩ .nil)⟩

end Lox
