import Lox.Proofs.Node.Likeness
import Lox.Proofs.Run.Steps

/-!
Values that differ in the tokens and the environments of functions alone. They are told apart neither by
operators nor by what is printed of them.
-/

set_option autoImplicit false

namespace Lox

variable {T : Token → Token → Prop} {E : Environment → Environment → Prop}

/-- Functions with the same declaration, up to tokens, in environments that are related. -/
structure Closure.Like (T : Token → Token → Prop) (E : Environment → Environment → Prop)
    (c c' : Closure) : Prop where
  name : T c.name c'.name
  params : List.Forall₂ (Node.Like T) c.params c'.params
  body : c.body.Like T c'.body
  environment : E c.environment c'.environment

/-- The tokens of a function's declaration. -/
inductive Closure.Has (f : Closure) : Token → Prop where
  | name : Has f f.name
  | params {n : Node} {t : Token} (hn : n ∈ f.params) (h : n.Has t) : Has f t
  | body {t : Token} (h : f.body.Has t) : Has f t

namespace Value

/-- The function that a value is, if it is one of a program. -/
def closure? : Value → Option Closure
  | .function c => some c
  | _ => none

inductive Like (T : Token → Token → Prop) (E : Environment → Environment → Prop) :
    Value → Value → Prop where
  | same {v : Value} (h : v.closure? = none) : Like T E v v
  | function {c c' : Closure} (h : c.Like T E c') : Like T E (.function c) (.function c')

/-- A value is like itself if its tokens and its environment are related to themselves. -/
theorem Like.refl {v : Value} (h : ∀ f, v = .function f → (∀ t, f.Has t → T t t) ∧
    E f.environment f.environment) : v.Like T E v := by
  cases v with
  | function f =>
    obtain ⟨hT, hE⟩ := h f rfl
    have hparams := Node.Like.refl_all (T := Eq) (fun _ => rfl) f.params
    have hbody := Node.Like.refl (T := Eq) (fun _ => rfl) f.body
    refine .function ⟨hT _ .name, Node.Like.imp_all ?_ hparams, Node.Like.imp ?_ hbody, hE⟩
    · rintro n hn t _ ht rfl
      exact hT t (.params hn ht)
    · rintro t _ ht rfl
      exact hT t (.body ht)
  | _ => exact .same rfl

theorem Like.isTruthy_eq {v v' : Value} (h : v.Like T E v') : v'.isTruthy = v.isTruthy := by
  cases h <;> rfl

theorem Like.display_eq (hT : ∀ {t t'}, T t t' → t.SameText t') {v v' : Value}
    (h : v.Like T E v') : v'.display = v.display := by
  cases h with
  | same => rfl
  | function h => simp only [display, (hT h.name).lexeme]

theorem equals_function_left (c : Closure) (v : Value) : equals (.function c) v = false := by
  cases v <;> rfl

theorem equals_function_right (v : Value) (c : Closure) : equals v (.function c) = false := by
  cases v <;> rfl

theorem Like.equals_eq {a a' b b' : Value} (ha : a.Like T E a') (hb : b.Like T E b') :
    a'.equals b' = a.equals b := by
  cases ha with
  | function => rw [equals_function_left, equals_function_left]
  | same =>
    cases hb with
    | function => rw [equals_function_right, equals_function_right]
    | same => rfl

theorem Like.unary_eq {t t' : Token} (ht : t.SameText t') {v v' : Value} (h : v.Like T E v') :
    unary t' v' = unary t v := by
  unfold unary
  rw [ht.kind, ht.lexeme]
  cases h with
  | same => rfl
  | function => split <;> simp_all [isTruthy]

theorem Like.binary_eq {t t' : Token} (ht : t.SameText t') {a a' b b' : Value}
    (ha : a.Like T E a') (hb : b.Like T E b') : binary t' a' b' = binary t a b := by
  have harith : arithmetic t' = arithmetic t := by
    funext x y
    unfold arithmetic
    rw [ht.kind, ht.lexeme]
  unfold binary
  rw [ht.kind, ha.equals_eq hb, harith]
  cases ha with
  | function => cases hb <;> rfl
  | same =>
    cases hb with
    | same => rfl
    | function => cases a <;> rfl

theorem literal_eq {t t' : Token} (ht : t.SameText t') : literal t' = literal t := by
  unfold literal
  rw [ht.kind, ht.literal, ht.lexeme]

theorem closure?_ofJson (j : Json) : (ofJson j).closure? = none := by
  cases j <;> rfl

theorem closure?_literal {t : Token} {v : Value} (h : literal t = .ok v) : v.closure? = none := by
  unfold literal at h
  split at h <;> cases h
  · exact closure?_ofJson _
  · exact closure?_ofJson _
  all_goals rfl

theorem closure?_unary {t : Token} {v w : Value} (h : unary t v = .ok w) : w.closure? = none := by
  unfold unary at h
  split at h <;> cases h <;> rfl

theorem closure?_arithmetic {t : Token} {x y : Float} {w : Value}
    (h : arithmetic t x y = .ok w) : w.closure? = none := by
  unfold arithmetic at h
  split at h <;> cases h <;> rfl

theorem closure?_binary {t : Token} {a b w : Value} (h : binary t a b = .ok w) :
    w.closure? = none := by
  unfold binary at h
  split at h
  · cases h
    rfl
  · cases h
    rfl
  · split at h <;> cases h <;> rfl
  · split at h
    · exact closure?_arithmetic h
    · cases h

end Value

end Lox
