import Ebnf.Tree.Basic

/-!
# Equality of trees

Two trees are equal when they have the same shape, the same contents and the
same notes.  The types are nested through lists and options, so the decision
procedure is written out; it compares from the root down.
-/

namespace Ebnf

variable {α : Type} [DecidableEq α]

mutual

def Primary.decEq : (a b : Primary α) → Decidable (a = b)
  | .bracketed n k ds, .bracketed n' k' ds' =>
    haveI : Decidable (ds = ds') := Definition.decEqAll ds ds'
    decidable_of_iff (n = n' ∧ k = k' ∧ ds = ds') (by simp)
  | .identifier n x, .identifier n' x' =>
    decidable_of_iff (n = n' ∧ x = x') (by simp)
  | .terminal n x, .terminal n' x' =>
    decidable_of_iff (n = n' ∧ x = x') (by simp)
  | .special n x, .special n' x' =>
    decidable_of_iff (n = n' ∧ x = x') (by simp)
  | .bracketed .., .identifier .. => isFalse nofun
  | .bracketed .., .terminal .. => isFalse nofun
  | .bracketed .., .special .. => isFalse nofun
  | .identifier .., .bracketed .. => isFalse nofun
  | .identifier .., .terminal .. => isFalse nofun
  | .identifier .., .special .. => isFalse nofun
  | .terminal .., .bracketed .. => isFalse nofun
  | .terminal .., .identifier .. => isFalse nofun
  | .terminal .., .special .. => isFalse nofun
  | .special .., .bracketed .. => isFalse nofun
  | .special .., .identifier .. => isFalse nofun
  | .special .., .terminal .. => isFalse nofun

def Factor.decEq : (a b : Factor α) → Decidable (a = b)
  | .primary p, .primary p' =>
    haveI : Decidable (p = p') := p.decEq p'
    decidable_of_iff (p = p') (by simp)
  | .repetition n c none, .repetition n' c' none =>
    decidable_of_iff (n = n' ∧ c = c') (by simp)
  | .repetition n c (some p), .repetition n' c' (some p') =>
    haveI : Decidable (p = p') := p.decEq p'
    decidable_of_iff (n = n' ∧ c = c' ∧ p = p') (by simp)
  | .repetition _ _ none, .repetition _ _ (some _) => isFalse (by simp)
  | .repetition _ _ (some _), .repetition _ _ none => isFalse (by simp)
  | .primary .., .repetition .. => isFalse nofun
  | .repetition .., .primary .. => isFalse nofun

def Term.decEq : (a b : Term α) → Decidable (a = b)
  | .factor x, .factor x' =>
    haveI : Decidable (x = x') := x.decEq x'
    decidable_of_iff (x = x') (by simp)
  | .exception n x none, .exception n' x' none =>
    haveI : Decidable (x = x') := x.decEq x'
    decidable_of_iff (n = n' ∧ x = x') (by simp)
  | .exception n x (some y), .exception n' x' (some y') =>
    haveI : Decidable (x = x') := x.decEq x'
    haveI : Decidable (y = y') := y.decEq y'
    decidable_of_iff (n = n' ∧ x = x' ∧ y = y') (by simp)
  | .exception _ _ none, .exception _ _ (some _) => isFalse (by simp)
  | .exception _ _ (some _), .exception _ _ none => isFalse (by simp)
  | .factor .., .exception .. => isFalse nofun
  | .exception .., .factor .. => isFalse nofun

def Definition.decEq : (a b : Definition α) → Decidable (a = b)
  | .term t, .term t' =>
    haveI : Decidable (t = t') := t.decEq t'
    decidable_of_iff (t = t') (by simp)
  | .concatenation n x y ts, .concatenation n' x' y' ts' =>
    haveI : Decidable (x = x') := x.decEq x'
    haveI : Decidable (y = y') := y.decEq y'
    haveI : Decidable (ts = ts') := Term.decEqAll ts ts'
    decidable_of_iff (n = n' ∧ x = x' ∧ y = y' ∧ ts = ts') (by simp)
  | .term .., .concatenation .. => isFalse nofun
  | .concatenation .., .term .. => isFalse nofun

def Term.decEqAll : (a b : List (Term α)) → Decidable (a = b)
  | [], [] => isTrue rfl
  | t :: ts, t' :: ts' =>
    haveI : Decidable (t = t') := t.decEq t'
    haveI : Decidable (ts = ts') := Term.decEqAll ts ts'
    decidable_of_iff (t = t' ∧ ts = ts') (by simp)
  | [], _ :: _ => isFalse nofun
  | _ :: _, [] => isFalse nofun

def Definition.decEqAll : (a b : List (Definition α)) → Decidable (a = b)
  | [], [] => isTrue rfl
  | d :: ds, d' :: ds' =>
    haveI : Decidable (d = d') := d.decEq d'
    haveI : Decidable (ds = ds') := Definition.decEqAll ds ds'
    decidable_of_iff (d = d' ∧ ds = ds') (by simp)
  | [], _ :: _ => isFalse nofun
  | _ :: _, [] => isFalse nofun

end

instance : DecidableEq (Primary α) := Primary.decEq
instance : DecidableEq (Factor α) := Factor.decEq
instance : DecidableEq (Term α) := Term.decEq
instance : DecidableEq (Definition α) := Definition.decEq

deriving instance DecidableEq for Rule
deriving instance DecidableEq for Grammar

end Ebnf
