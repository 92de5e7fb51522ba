import Ebnf.SyntaxError
import Mathlib.Data.List.Induction
import Mathlib.Data.Nat.Digits.Defs

/-!
# Digits

The number that `Bytes.decimal` accumulates from the left is the value of the digits in base
ten, and every number is written in some digits.  The two digits with which `Byte.hex` shows
a byte have its value in base sixteen.
-/

namespace Ebnf

open Byte

theorem decimal_concat (digits : Bytes) (digit : UInt8) :
    Bytes.decimal (digits ++ [digit]) = 10 * Bytes.decimal digits + digitValue digit := by
  simp only [Bytes.decimal, List.foldl_append, List.foldl_cons, List.foldl_nil]

/-- A run of digits denotes what it denotes in base ten. -/
theorem decimal_eq_ofDigits (digits : Bytes) :
    digits.decimal = Nat.ofDigits 10 (digits.reverse.map digitValue) := by
  induction digits using List.reverseRecOn with
  | nil => rfl
  | append_singleton digits digit ih =>
    rw [decimal_concat, ih, List.reverse_concat, List.map_cons, Nat.ofDigits_cons]
    exact Nat.add_comm _ _

theorem exists_digit : ∀ number < 10, ∃ digit, isDigit digit ∧ digitValue digit = number := by
  intro number hnumber
  have hdigits : ∀ number < 10, isDigit (UInt8.ofNat (0x30 + number)) ∧
      digitValue (UInt8.ofNat (0x30 + number)) = number := by
    decide
  exact ⟨_, hdigits number hnumber⟩

theorem exists_digits (number : Nat) :
    ∃ digits : Bytes, digits ≠ [] ∧ (∀ b ∈ digits, isDigit b) ∧ digits.decimal = number := by
  induction number using Nat.strongRecOn with
  | _ number ih =>
    obtain ⟨digit, hdigit, hvalue⟩ := exists_digit (number % 10) (Nat.mod_lt _ (by decide))
    by_cases hsmall : number < 10
    · have hnumber : Bytes.decimal [digit] = number := by
        rw [← List.nil_append [digit], decimal_concat, hvalue, Nat.mod_eq_of_lt hsmall]
        exact Nat.zero_add number
      exact ⟨[digit], by simp, by simpa using hdigit, hnumber⟩
    · obtain ⟨digits, -, hdigits, hdecimal⟩ := ih (number / 10) (by omega)
      refine ⟨digits ++ [digit], by simp, ?_, ?_⟩
      · rw [List.forall_mem_append]
        exact ⟨hdigits, by simpa using hdigit⟩
      · rw [decimal_concat, hdecimal, hvalue]
        omega

/-! ### Base sixteen -/

/-- The value of a lower-case hexadecimal digit. -/
def hexValue? (c : Char) : Option Nat :=
  if '0' ≤ c ∧ c ≤ '9' then some (c.toNat - '0'.toNat)
  else if 'a' ≤ c ∧ c ≤ 'f' then some (10 + (c.toNat - 'a'.toNat))
  else none

/-- A text of two hexadecimal digits that have the value of a byte. -/
def ShowsByte (shown : String) (b : UInt8) : Prop :=
  ∃ high low x y, shown = String.ofList [high, low] ∧ hexValue? high = some x ∧
    hexValue? low = some y ∧ 16 * x + y = b.toNat

theorem hexValue?_digitChar : ∀ n < 16, hexValue? (Nat.digitChar n) = some n := by
  decide

theorem hex_shows (b : UInt8) : ShowsByte (hex b) b := by
  have hhigh : b.toNat / 16 < 16 := Nat.div_lt_of_lt_mul b.toNat_lt
  have hlow : b.toNat % 16 < 16 := Nat.mod_lt _ (by decide)
  exact ⟨_, _, _, _, rfl, hexValue?_digitChar _ hhigh, hexValue?_digitChar _ hlow,
    Nat.div_add_mod b.toNat 16⟩

end Ebnf
