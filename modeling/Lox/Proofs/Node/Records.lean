import Lox.Node.Record
import Lox.Proofs.Grammar.Trees
import Lox.Proofs.Json.RoundTrip

/-!
Trees as records and back. Main statements: the record of any tree loads as the tree when there are
frames enough for its height, and the record of a well-formed tree can be written and read.
-/

set_option autoImplicit false

namespace Lox

namespace Json.Fields

@[simp] theorem get?_nil (key : String) : get? [] key = none := rfl

@[simp] theorem get?_cons_self (key : String) (j : Json) (fields : Fields) :
    get? ((key, j) :: fields) key = some j := by
  simp [get?, List.lookup]

@[simp] theorem get?_cons_of_ne {k key : String} (h : key ≠ k) (j : Json) (fields : Fields) :
    get? ((k, j) :: fields) key = get? fields key := by
  have hne : (key == k) = false := by simpa using h
  simp [get?, List.lookup, hne]

end Json.Fields

@[simp] theorem ok_bind {ε α β : Type} (a : α) (f : α → Except ε β) :
    ((Except.ok a : Except ε α) >>= f) = f a := rfl

theorem Kind.ofName?_name (k : Kind) : Kind.ofName? k.name = some k := by cases k <;> decide

theorem Token.ofFields_toJson (t : Token) :
    ofFields [("token", .text t.kind.name), ("lexeme", t.lexeme), ("literal", t.literal),
      ("line", .integer t.line)] = .ok t := by
  simp [ofFields, Json.Fields.require, Json.Fields.allow, kindOf, Kind.ofName?_name, lineOf]

namespace Node

/-- Whether so many frames are enough to load the record of a tree. -/
def loads : Nat → Node → Bool
  | 0, _ => false
  | frames + 1, n => n.children.all (loads frames)

theorem loads_mono {frames more : Nat} (h : frames ≤ more) {n : Node} (hn : loads frames n = true) :
    loads more n = true := by
  induction frames generalizing more n with
  | zero => cases hn
  | succ frames ih =>
    obtain ⟨more, rfl⟩ : ∃ m, more = m + 1 := ⟨more - 1, by omega⟩
    simp only [loads, List.all_eq_true] at hn ⊢
    exact fun c hc => ih (by omega) (hn c hc)

theorem allToJson_eq_map (ns : List Node) : allToJson ns = ns.map toJson := by
  induction ns with
  | nil => rfl
  | cons n ns ih => simp [allToJson, ih]

theorem itemsOf_allToJson {load : Json → Except LoadError Node} {ns : List Node}
    (h : ∀ n ∈ ns, load n.toJson = .ok n) : itemsOf load (.list (allToJson ns)) = .ok ns := by
  induction ns with
  | nil => rfl
  | cons n ns ih =>
    have hn := h n (by simp)
    have hns := ih fun c hc => h c (by simp [hc])
    simp only [itemsOf] at hns
    simp [itemsOf, allToJson, hn, hns]

def fields (n : Node) : Json.Fields :=
  match n.toJson with
  | .record fields => fields
  | _ => []

/-- A node with a form is loaded from its fields by a loader that loads its children. -/
theorem ofFields_fields {load : Json → Except LoadError Node} {n : Node} {form : String}
    (hn : n.form? = some form) (h : ∀ c ∈ n.children, load c.toJson = .ok c) :
    n.toJson = .record n.fields ∧ (Json.Fields.get? n.fields "type").isSome = true ∧
      ofFields load n.fields = .ok n := by
  cases n with
  | missing => cases hn
  | token t => cases hn
  | block statements =>
    have hs : itemsOf load (.list (allToJson statements)) = .ok statements := itemsOf_allToJson h
    simp [toJson, fields, ofFields, Json.Fields.require, Json.Fields.allow, hs]
  | function name params body =>
    simp only [children, List.cons_append, List.forall_mem_cons, List.forall_mem_append] at h
    obtain ⟨hname, hparams, hbody, -⟩ := h
    have hs := itemsOf_allToJson hparams
    simp [toJson, fields, ofFields, Json.Fields.require, Json.Fields.allow, hname, hs, hbody]
  | call callee paren arguments =>
    simp only [children, List.forall_mem_cons] at h
    obtain ⟨hcallee, hparen, harguments⟩ := h
    have hs := itemsOf_allToJson harguments
    simp [toJson, fields, ofFields, Json.Fields.require, Json.Fields.allow, hcallee, hparen, hs]
  | _ => simp_all [children, toJson, fields, ofFields, Json.Fields.require, Json.Fields.allow]

theorem ofJson_record {frames : Nat} {fields : Json.Fields}
    (h : (Json.Fields.get? fields "type").isSome = true) :
    ofJson (frames + 1) (.record fields) = ofFields (ofJson frames) fields := by
  have hnone : (Json.Fields.get? fields "type").isNone = false := by
    rw [← Option.not_isSome, h]
    rfl
  simp [ofJson, hnone]

/-- Loading undoes storing, for any tree. -/
theorem ofJson_toJson {frames : Nat} {n : Node} (h : loads frames n = true) :
    ofJson frames n.toJson = .ok n := by
  induction frames generalizing n with
  | zero => cases h
  | succ frames ih =>
    cases hform : n.form? with
    | some form =>
      have hchildren : ∀ c ∈ n.children, ofJson frames c.toJson = .ok c := fun c hc =>
        ih (List.all_eq_true.1 h c hc)
      obtain ⟨hrecord, htype, hfields⟩ := ofFields_fields hform hchildren
      rw [hrecord, ofJson_record htype, hfields]
    | none =>
      cases n with
      | missing => rfl
      | token t =>
        have ht := Token.ofFields_toJson t
        simp [toJson, Token.toJson, ofJson, ht]
      | _ => cases hform

/-- Room for the record of a tree, lists counted, is more than the loading takes. -/
theorem loads_of_fits {limit : Nat} {n : Node} (h : fits limit n = true) : loads limit n = true := by
  induction limit using Nat.strongRecOn generalizing n with
  | ind limit ih =>
    cases limit with
    | zero => cases h
    | succ limit =>
      have hone : ∀ c, fits limit c = true → loads limit c = true := fun c hc => ih _ (by omega) hc
      have hlist : ∀ ns, allFit limit ns = true → ∀ c ∈ ns, loads limit c = true := by
        intro ns hns c hc
        cases limit with
        | zero => cases hns
        | succ limit =>
          have hfit := List.all_eq_true.1 hns c hc
          exact loads_mono (by omega) (ih _ (by omega) hfit)
      simp only [loads, List.all_eq_true]
      cases n with
      | block statements => exact hlist _ h
      | function name params body =>
        simp only [fits, Bool.and_eq_true] at h
        obtain ⟨⟨hname, hparams⟩, hbody⟩ := h
        simp only [children, List.cons_append, List.forall_mem_cons, List.forall_mem_append]
        exact ⟨hone _ hname, hlist _ hparams, hone _ hbody, by simp⟩
      | call callee paren arguments =>
        simp only [fits, Bool.and_eq_true] at h
        obtain ⟨⟨hcallee, hparen⟩, harguments⟩ := h
        simp only [children, List.forall_mem_cons]
        exact ⟨hone _ hcallee, hone _ hparen, hlist _ harguments⟩
      | _ => simp_all [children, fits]

end Node

/-- A token that a record can hold and a text can give back. -/
structure Token.IsStorable (t : Token) : Prop where
  lexeme : t.lexeme.IsReadable
  literal : t.literal.IsReadable
  line : (Decimal.digitsOf t.line.natAbs).length ≤ Text.mostIntegerDigits
  lexeme_fits : ∀ limit, t.lexeme.fits limit = true
  literal_fits : ∀ limit, t.literal.fits limit = true

namespace Node

variable {T : Token → Prop}

/-- The trees whose tokens are of a sort. -/
inductive Over (T : Token → Prop) : Node → Prop where
  | token {t : Token} (h : T t) : Over T (.token t)
  | node {n : Node} (hn : ∀ t, n ≠ .token t) (h : ∀ c ∈ n.children, Over T c) : Over T n

theorem IsExpression.over {n : Node} (h : IsExpression T n) : Over T n := by
  induction h with
  | literal ht hk => exact .node (by simp) (by simpa [children] using .token ht)
  | grouping h ih => exact .node (by simp) (by simpa [children] using ih)
  | «variable» ht hk => exact .node (by simp) (by simpa [children] using .token ht)
  | assign ht hk h ih => exact .node (by simp) (by simpa [children] using ⟨.token ht, ih⟩)
  | unary ht hk h ih => exact .node (by simp) (by simpa [children] using ⟨.token ht, ih⟩)
  | logical ht hk hl hr ihl ihr =>
    exact .node (by simp) (by simpa [children] using ⟨ihl, .token ht, ihr⟩)
  | binary ht hk hl hr ihl ihr =>
    exact .node (by simp) (by simpa [children] using ⟨ihl, .token ht, ihr⟩)
  | call ht hk h hs ih ihs =>
    exact .node (by simp) (by simpa [children] using ⟨ih, .token ht, ihs⟩)

theorem over_missing : Over T .missing := .node (by simp) (by simp [children])

theorem IsName.over {n : Node} (h : IsName T n) : Over T n := by
  obtain ⟨ht, -⟩ := h
  exact .token ht

theorem IsStatement.over {n : Node} (h : IsStatement T n) : Over T n := by
  induction h with
  | expression h => exact .node (by simp) (by simpa [children] using h.over)
  | print h => exact .node (by simp) (by simpa [children] using h.over)
  | bareVar hn => exact .node (by simp) (by simpa [children] using ⟨hn.over, over_missing⟩)
  | var hn h => exact .node (by simp) (by simpa [children] using ⟨hn.over, h.over⟩)
  | block hs ih => exact .node (by simp) ih
  | ifThen hc h ih =>
    exact .node (by simp) (by simpa [children] using ⟨hc.over, ih, over_missing⟩)
  | ifElse hc h he ih ihe => exact .node (by simp) (by simpa [children] using ⟨hc.over, ih, ihe⟩)
  | whileDo hc h ih => exact .node (by simp) (by simpa [children] using ⟨hc.over, ih⟩)
  | function hn hp hb ih =>
    have hbody : Over T (.block _) := .node (by simp) ih
    refine .node (by simp) ?_
    simp only [children, List.cons_append, List.forall_mem_cons, List.forall_mem_append]
    exact ⟨hn.over, fun p h => (hp p h).over, hbody, by simp⟩
  | bareReturn ht hk => exact .node (by simp) (by simpa [children] using ⟨.token ht, over_missing⟩)
  | «return» ht hk h => exact .node (by simp) (by simpa [children] using ⟨.token ht, h.over⟩)

theorem itemsFit_eq (js : List Json) (limit : Nat) :
    Json.itemsFit js limit = js.all fun j => j.fits limit := by
  induction js with
  | nil => rfl
  | cons j js ih => simp [Json.itemsFit, ih]

theorem fits_list {ns : List Node} (h : ∀ n ∈ ns, ∀ limit, n.toJson.fits limit = n.fits limit)
    (limit : Nat) : (Json.list (allToJson ns)).fits limit = allFit limit ns := by
  cases limit with
  | zero => rfl
  | succ limit =>
    simp only [Json.fits, itemsFit_eq, allFit, allToJson_eq_map, List.all_map]
    rw [Bool.eq_iff_iff, List.all_eq_true, List.all_eq_true]
    exact forall₂_congr fun n hn => by rw [Function.comp_apply, h n hn limit]

theorem fits_token {t : Token} (ht : t.IsStorable) (limit : Nat) :
    t.toJson.fits limit = fits limit (.token t) := by
  cases limit with
  | zero => rfl
  | succ limit =>
    simp [Token.toJson, Json.fieldsFit, ht.lexeme_fits, ht.literal_fits, fits]

theorem IsExpression.fits_toJson {n : Node} (h : IsExpression Token.IsStorable n) (limit : Nat) :
    n.toJson.fits limit = n.fits limit := by
  induction h generalizing limit with
  | call ht hk h hs ih ihs =>
    have hlist := fits_list ihs
    cases limit <;> simp [toJson, Json.fieldsFit, fits, fits_token ht, ih, hlist, Bool.and_assoc]
  | literal ht hk | «variable» ht hk =>
    cases limit <;> simp [toJson, Json.fieldsFit, fits, fits_token ht]
  | grouping h ih => cases limit <;> simp [toJson, Json.fieldsFit, fits, ih]
  | assign ht hk h ih | unary ht hk h ih =>
    cases limit <;> simp [toJson, Json.fieldsFit, fits, fits_token ht, ih]
  | logical ht hk hl hr ihl ihr | binary ht hk hl hr ihl ihr =>
    cases limit <;> simp [toJson, Json.fieldsFit, fits, fits_token ht, ihl, ihr, Bool.and_assoc]

theorem fits_missing (limit : Nat) (n : Node) :
    (fits limit n && fits limit .missing) = fits limit n := by
  cases limit <;> simp [fits]

theorem IsName.fits_toJson {n : Node} (h : IsName Token.IsStorable n) (limit : Nat) :
    n.toJson.fits limit = n.fits limit := by
  obtain ⟨ht, -⟩ := h
  exact fits_token ht limit

theorem IsStatement.fits_toJson {n : Node} (h : IsStatement Token.IsStorable n) (limit : Nat) :
    n.toJson.fits limit = n.fits limit := by
  induction h generalizing limit with
  | expression h | print h =>
    cases limit <;> simp [toJson, Json.fieldsFit, fits, h.fits_toJson]
  | bareVar hn =>
    cases limit <;> simp [toJson, Json.fieldsFit, fits, hn.fits_toJson, fits_missing]
  | var hn h =>
    cases limit <;> simp [toJson, Json.fieldsFit, fits, hn.fits_toJson, h.fits_toJson]
  | block hs ih =>
    have hlist := fits_list ih
    cases limit <;> simp [toJson, Json.fieldsFit, fits, hlist]
  | ifThen hc h ih =>
    cases limit <;>
      simp [toJson, Json.fieldsFit, fits, hc.fits_toJson, ih, Bool.and_assoc, fits_missing]
  | ifElse hc h he ih ihe =>
    cases limit <;> simp [toJson, Json.fieldsFit, fits, hc.fits_toJson, ih, ihe, Bool.and_assoc]
  | whileDo hc h ih =>
    cases limit <;> simp [toJson, Json.fieldsFit, fits, hc.fits_toJson, ih]
  | @function name params body hn hp hb ih =>
    have hparams := fits_list fun p h => (hp p h).fits_toJson
    have hbody : ∀ limit, (toJson (.block body)).fits limit = fits limit (.block body) := by
      have hlist := fits_list ih
      intro limit
      cases limit <;> simp [toJson, Json.fieldsFit, fits, hlist]
    generalize Node.block body = b at *
    cases limit <;> simp [toJson, Json.fieldsFit, fits, hn.fits_toJson, hparams, hbody,
      Bool.and_assoc]
  | bareReturn ht hk =>
    cases limit <;> simp [toJson, Json.fieldsFit, fits, fits_token ht, fits_missing]
  | «return» ht hk h =>
    cases limit <;> simp [toJson, Json.fieldsFit, fits, fits_token ht, h.fits_toJson]

end Node

end Lox
