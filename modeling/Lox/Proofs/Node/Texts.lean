import Lox.Node.Text
import Lox.Proofs.Node.Records
import Lox.Proofs.Run.Programs
import Lox.Proofs.Scan.Lines

/-!
Programs as text and back. Main statement: the text of a program that a source text has is read as the
program, tokens and lines included, unless it is too deep for the reader.
-/

set_option autoImplicit false

namespace Lox

namespace Program

variable {p : Program}

theorem fits_toJson (h : p.WellFormed Token.IsStorable) (limit : Nat) :
    p.toJson.fits (limit + 1) = p.fits limit := by
  have hs := Node.fits_list (fun n hn => (h n hn).fits_toJson) limit
  simp [toJson, Json.fieldsFit, hs, fits]

theorem ofJson_toJson {limit : Nat} (h : p.fits limit = true) :
    ofJson (limit + 1) p.toJson = .ok p := by
  have hloads : ∀ n ∈ p, Node.ofJson (limit + 1) n.toJson = .ok n := by
    intro n hn
    cases limit with
    | zero => cases h
    | succ limit =>
      have hfits := List.all_eq_true.1 h n hn
      exact Node.ofJson_toJson (Node.loads_mono (by omega) (Node.loads_of_fits hfits))
  have hs := Node.itemsOf_allToJson hloads
  simp [toJson, ofJson, Json.Fields.require, Json.Fields.allow, hs]

end Program

end Lox
