import Lox.Proofs.Parse.Excerpts
import Lox.Proofs.Scan.Stacks
import Lox.Proofs.Scan.Tokens

/-!
Parses of texts that stand one below the other. Main statement: if each text by itself is accepted, then so
are all of them together, and the statements are those of the texts in order, their tokens counted on from
line to line.
-/

set_option autoImplicit false

namespace Lox

open Parse (programOnto programOnto_copy Excerpt)
open Grammar (Stops)

/-- A text that is scanned and parsed without a diagnostic. -/
def Accepted (frames : Nat) (text : String) : Prop :=
  (scan text).diagnostics = [] ∧ (parse frames (scan text).tokens).diagnostics = []

/-- The statements of a text. -/
def statementsOf (frames : Nat) (text : String) : Program :=
  (parse frames (scan text).tokens).statements

namespace Text

/-- The tokens of texts that stand one below the other, but for the end mark. -/
def tokensBelow (above : Nat) (texts : List String) : List Token :=
  (placed above texts).flatMap fun p => (Token.ofText p.2).map (Token.down p.1)

def statementsBelow (frames above : Nat) (texts : List String) : Program :=
  (placed above texts).flatMap fun p => (statementsOf frames p.2).map (Node.map (Token.down p.1))

end Text

/-- A token list is parsed from all tokens before its one end mark. -/
theorem parse_ofBody (frames : Nat) {body : List Token} {last : Token} (hl : last.kind = .eof)
    (hb : ∀ t ∈ body, t.kind ≠ .eof) :
    (parse frames (body ++ [last])).statements =
        (programOnto ⟨last, body.length + 2⟩ frames (body.length + 2) #[] ⟨body, #[], 0⟩).1.toList ∧
      (parse frames (body ++ [last])).diagnostics =
        (programOnto ⟨last, body.length + 2⟩ frames (body.length + 2) #[]
          ⟨body, #[], 0⟩).2.diagnostics.toList := by
  obtain ⟨hfind, htake⟩ := find_isEnd hl hb
  have hsource : Source.ofTokens (body ++ [last]) = ⟨last, body.length + 2⟩ := by
    simp [Source.ofTokens, Source.lastOf, hfind]
  have hparser : Parser.ofTokens (body ++ [last]) = ⟨body, #[], 0⟩ := by
    simp [Parser.ofTokens, htake]
  unfold parse
  rw [hsource, hparser]
  exact ⟨rfl, rfl⟩

namespace Accepted

variable {frames : Nat} {text : String} {texts : List String}

theorem tokens_eq (h : Accepted frames text) :
    (scan text).tokens = Token.ofText text ++ [.endAt (lineCount text.toList)] := by
  rw [scan_of_isProper (isProper_of_scan h.1)]

theorem endsOnce (h : Accepted frames text) : EndsOnce (scan text).tokens :=
  endsOnce_scan (Bool.eq_false_iff.2 fun hf => diagnostics_ne_nil_of_fatal hf h.1)

theorem notEnd (h : Accepted frames text) : ∀ t ∈ Token.ofText text, t.kind ≠ .eof := by
  obtain ⟨body, last, htokens, -, hbody⟩ := h.endsOnce
  rw [h.tokens_eq] at htokens
  obtain ⟨rfl, -⟩ := List.append_inj' htokens rfl
  exact hbody

/-- No text begins with an `else`. -/
theorem stops (h : Accepted frames text) : Stops [.elseWord] (Token.ofText text) := by
  have hprogram := parse_sound h.endsOnce h.2
  rw [h.tokens_eq] at hprogram
  generalize hts : Token.ofText text ++ [.endAt (lineCount text.toList)] = ts at hprogram
  obtain ⟨hdeclarations, -⟩ := hprogram
  obtain ⟨rfl, -⟩ := List.append_inj' hts rfl
  have hstop : Stops [.elseWord] (Token.ofText text ++ []) := hdeclarations.stops (by decide) .nil
  rwa [List.append_nil] at hstop

theorem stops_below (h : ∀ text ∈ texts, Accepted frames text) (above : Nat) :
    Stops [.elseWord] (Text.tokensBelow above texts) := by
  induction texts generalizing above with
  | nil => exact .nil
  | cons text texts ih =>
    obtain ⟨htext, htexts⟩ := List.forall_mem_cons.1 h
    have hfirst := htext.stops
    rw [Text.tokensBelow, Text.placed, List.flatMap_cons]
    cases hbody : Token.ofText text with
    | nil => exact ih htexts _
    | cons t body =>
      rw [hbody] at hfirst
      exact .cons (hfirst t rfl)

theorem programOnto_text (h : Accepted frames text) (above : Nat) (more : List Token) (whole : Source)
    (hturns : (Token.ofText text).length + 2 ≤ whole.turns)
    (hmore : (more.headD whole.last).kind ≠ .elseWord) :
    (statementsOf frames text).length ≤ (Token.ofText text).length ∧ ∀ turns done,
      programOnto whole frames ((statementsOf frames text).length + turns) done
          ⟨(Token.ofText text).map (Token.down above) ++ more, #[], 0⟩ =
        programOnto whole frames turns
          (done ++ ((statementsOf frames text).map (Node.map (Token.down above))).toArray)
          ⟨more, #[], 0⟩ := by
  have hlast : (Token.endAt (lineCount text.toList)).kind = .eof := rfl
  obtain ⟨hstatements, hdiagnostics⟩ := parse_ofBody frames hlast h.notEnd
  have hclean := h.2
  rw [h.tokens_eq, hdiagnostics] at hclean
  obtain ⟨items, hitems, hle, hcopy⟩ := programOnto_copy
    ⟨above, more, ⟨.endAt (lineCount text.toList), (Token.ofText text).length + 2⟩, whole, hlast,
      hturns, hmore⟩ frames ((Token.ofText text).length + 2) #[] ⟨Token.ofText text, #[], 0⟩
    (Nat.lt_add_of_pos_right (by decide)) (Nat.le_refl _) rfl (Array.toList_inj.1 hclean)
  have hof : statementsOf frames text = items := by
    rw [statementsOf, h.tokens_eq, hstatements, hitems]
    rfl
  rw [hof]
  exact ⟨hle, fun turns done => hcopy turns done #[]⟩

/-- The turns go from text to text. -/
theorem programOnto_below (whole : Source) (hlast : whole.last.kind = .eof)
    (h : ∀ text ∈ texts, Accepted frames text) (above extra : Nat) (done : Array Node)
    (hturns : (Text.tokensBelow above texts).length + 2 ≤ whole.turns) :
    programOnto whole frames ((Text.tokensBelow above texts).length + extra) done
        ⟨Text.tokensBelow above texts, #[], 0⟩ =
      (done ++ (Text.statementsBelow frames above texts).toArray, ⟨[], #[], 0⟩) := by
  induction texts generalizing above extra done with
  | nil =>
    have hnone : ∀ turns, programOnto whole frames turns done ⟨[], #[], 0⟩ = (done, ⟨[], #[], 0⟩) := by
      intro turns
      cases turns <;> rfl
    simpa [Text.tokensBelow, Text.statementsBelow, Text.placed] using hnone extra
  | cons text texts ih =>
    obtain ⟨htext, htexts⟩ := List.forall_mem_cons.1 h
    have hstop := stops_below htexts (above + lineCount text.toList)
    have htokens : Text.tokensBelow above (text :: texts) = (Token.ofText text).map (Token.down above) ++
      Text.tokensBelow (above + lineCount text.toList) texts := rfl
    have hstatements : Text.statementsBelow frames above (text :: texts) =
      (statementsOf frames text).map (Node.map (Token.down above)) ++
        Text.statementsBelow frames (above + lineCount text.toList) texts := rfl
    rw [htokens, List.length_append, List.length_map] at hturns ⊢
    rw [hstatements]
    have hmore : ((Text.tokensBelow (above + lineCount text.toList) texts).headD whole.last).kind ≠
        .elseWord := by
      cases hm : Text.tokensBelow (above + lineCount text.toList) texts with
      | nil =>
        rw [List.headD_nil, hlast]
        decide
      | cons t more =>
        rw [hm] at hstop
        exact fun ht => hstop t rfl (List.mem_singleton.2 ht)
    obtain ⟨hle, hcopy⟩ := programOnto_text htext above _ whole (by omega) hmore
    have hsplit : (Token.ofText text).length +
        (Text.tokensBelow (above + lineCount text.toList) texts).length + extra =
        (statementsOf frames text).length +
          ((Text.tokensBelow (above + lineCount text.toList) texts).length +
            (extra + ((Token.ofText text).length - (statementsOf frames text).length))) := by omega
    rw [hsplit, hcopy, ih htexts _ _ _ (by omega), ← List.append_toArray,
      Array.append_assoc]

/-- Accepted texts are accepted one below the other, and have the statements that they have apart. -/
theorem stack (h : ∀ text ∈ texts, Accepted frames text) : Accepted frames (Text.stack texts) ∧
    statementsOf frames (Text.stack texts) = Text.statementsBelow frames 0 texts := by
  have hscan := scan_stack fun text ht => (h text ht).1
  have htokens : (scan (Text.stack texts)).tokens =
      Text.tokensBelow 0 texts ++ [.endAt (lineCount (Text.stack texts).toList)] := by rw [hscan]; rfl
  have hnotEnd : ∀ t ∈ Text.tokensBelow 0 texts, t.kind ≠ .eof := by
    intro t ht
    obtain ⟨p, hp, ht⟩ := List.mem_flatMap.1 ht
    obtain ⟨u, hu, rfl⟩ := List.mem_map.1 ht
    exact (h p.2 (Text.mem_of_mem_placed hp)).notEnd u hu
  have hend : (Token.endAt (lineCount (Text.stack texts).toList)).kind = .eof := rfl
  obtain ⟨hstatements, hdiagnostics⟩ := parse_ofBody frames hend hnotEnd
  have hparse := programOnto_below ⟨.endAt (lineCount (Text.stack texts).toList), _⟩ rfl h 0 2 #[]
    (Nat.le_refl _)
  rw [hparse] at hstatements hdiagnostics
  refine ⟨⟨by rw [hscan], ?_⟩, ?_⟩
  · rw [htokens, hdiagnostics]
  · rw [statementsOf, htokens, hstatements]
    simp

end Accepted

end Lox
