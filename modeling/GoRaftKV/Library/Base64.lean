import Mathlib.Data.List.Basic
import Mathlib.Tactic.IntervalCases

/-! Standard base64 with padding: three bytes for every four characters. The decoder passes over
line breaks and does not look at the bits that the padding leaves unused. -/

namespace GoRaftKV.Library.Base64

def digit (value : Nat) : Char :=
  if value < 26 then Char.ofNat (value + 65)
  else if value < 52 then Char.ofNat (value + 71)
  else if value < 62 then Char.ofNat (value - 4)
  else if value = 62 then '+'
  else '/'

def value (c : Char) : Option Nat :=
  if 65 ≤ c.toNat ∧ c.toNat ≤ 90 then some (c.toNat - 65)
  else if 97 ≤ c.toNat ∧ c.toNat ≤ 122 then some (c.toNat - 71)
  else if 48 ≤ c.toNat ∧ c.toNat ≤ 57 then some (c.toNat + 4)
  else if c = '+' then some 62
  else if c = '/' then some 63
  else none

def pad : Char := '='

def encode : List UInt8 → List Char
  | [] => []
  | [a] => [digit (a.toNat / 4), digit (a.toNat % 4 * 16), pad, pad]
  | [a, b] =>
      [digit (a.toNat / 4), digit (a.toNat % 4 * 16 + b.toNat / 16), digit (b.toNat % 16 * 4), pad]
  | a :: b :: c :: rest =>
      digit (a.toNat / 4) :: digit (a.toNat % 4 * 16 + b.toNat / 16) ::
        digit (b.toNat % 16 * 4 + c.toNat / 64) :: digit (c.toNat % 64) :: encode rest

/-- The bytes of four characters' values, of which the first `count` are kept. -/
def quantum (count a b c d : Nat) : List UInt8 :=
  [.ofNat (a * 4 + b / 16), .ofNat (b % 16 * 16 + c / 4), .ofNat (c % 4 * 64 + d)].take count

def decodeQuanta : List Char → Option (List UInt8)
  | [] => some []
  | a :: b :: c :: d :: rest =>
      match value a, value b, value c, value d with
      | some a, some b, some c, some d => (decodeQuanta rest).map (quantum 3 a b c d ++ ·)
      | some a, some b, some c, none =>
          if d = pad ∧ rest = [] then some (quantum 2 a b c 0) else none
      | some a, some b, none, none =>
          if c = pad ∧ d = pad ∧ rest = [] then some (quantum 1 a b 0 0) else none
      | _, _, _, _ => none
  | _ => none

def isBreak (c : Char) : Bool := c = '\r' || c = '\n'

def decode (text : List Char) : Option (List UInt8) :=
  decodeQuanta (text.filter fun c => !isBreak c)

theorem value_digit {n : Nat} (small : n < 64) : value (digit n) = some n := by
  interval_cases n <;> decide

theorem digit_solid {n : Nat} (small : n < 64) : isBreak (digit n) = false := by
  interval_cases n <;> decide

theorem value_pad : value pad = none := by decide

theorem quantum_bytes (a b c : UInt8) :
    quantum 3 (a.toNat / 4) (a.toNat % 4 * 16 + b.toNat / 16) (b.toNat % 16 * 4 + c.toNat / 64)
      (c.toNat % 64) = [a, b, c] := by
  have boundA := a.toNat_lt
  have boundB := b.toNat_lt
  have boundC := c.toNat_lt
  have first : a.toNat / 4 * 4 + (a.toNat % 4 * 16 + b.toNat / 16) / 16 = a.toNat := by omega
  have second : (a.toNat % 4 * 16 + b.toNat / 16) % 16 * 16 +
      (b.toNat % 16 * 4 + c.toNat / 64) / 4 = b.toNat := by omega
  have third : (b.toNat % 16 * 4 + c.toNat / 64) % 4 * 64 + c.toNat % 64 = c.toNat := by omega
  simp only [quantum, first, second, third, UInt8.ofNat_toNat, List.take_succ_cons, List.take_zero]

theorem decodeQuanta_encode (bytes : List UInt8) : decodeQuanta (encode bytes) = some bytes := by
  fun_induction encode bytes with
  | case1 => rfl
  | case2 a =>
      have bound := a.toNat_lt
      have front := quantum_bytes a 0 0
      have values : value (digit (a.toNat / 4)) = some (a.toNat / 4) ∧
          value (digit (a.toNat % 4 * 16)) = some (a.toNat % 4 * 16) :=
        ⟨value_digit (by omega), value_digit (by omega)⟩
      simp only [decodeQuanta, values, value_pad, and_self, if_true]
      simpa [quantum] using congrArg (List.take 1) front
  | case3 a b =>
      have boundA := a.toNat_lt
      have boundB := b.toNat_lt
      have front := quantum_bytes a b 0
      have values : value (digit (a.toNat / 4)) = some (a.toNat / 4) ∧
          value (digit (a.toNat % 4 * 16 + b.toNat / 16)) = some (a.toNat % 4 * 16 + b.toNat / 16) ∧
          value (digit (b.toNat % 16 * 4)) = some (b.toNat % 16 * 4) :=
        ⟨value_digit (by omega), value_digit (by omega), value_digit (by omega)⟩
      simp only [decodeQuanta, values, value_pad, and_self, if_true]
      simpa [quantum] using congrArg (List.take 2) front
  | case4 a b c rest ih =>
      have boundA := a.toNat_lt
      have boundB := b.toNat_lt
      have boundC := c.toNat_lt
      simp only [decodeQuanta, value_digit (show a.toNat / 4 < 64 by omega),
        value_digit (show a.toNat % 4 * 16 + b.toNat / 16 < 64 by omega),
        value_digit (show b.toNat % 16 * 4 + c.toNat / 64 < 64 by omega),
        value_digit (show c.toNat % 64 < 64 by omega), ih, Option.map_some, quantum_bytes]
      rfl

theorem encode_solid (bytes : List UInt8) : ∀ c ∈ encode bytes, isBreak c = false := by
  have padded : isBreak pad = false := by decide
  fun_induction encode bytes with
  | case1 => simp
  | case2 a =>
      have bound := a.toNat_lt
      simp [padded, digit_solid (show a.toNat / 4 < 64 by omega),
        digit_solid (show a.toNat % 4 * 16 < 64 by omega)]
  | case3 a b =>
      have boundA := a.toNat_lt
      have boundB := b.toNat_lt
      simp [padded, digit_solid (show a.toNat / 4 < 64 by omega),
        digit_solid (show a.toNat % 4 * 16 + b.toNat / 16 < 64 by omega),
        digit_solid (show b.toNat % 16 * 4 < 64 by omega)]
  | case4 a b c rest ih =>
      have boundA := a.toNat_lt
      have boundB := b.toNat_lt
      have boundC := c.toNat_lt
      simpa [digit_solid (show a.toNat / 4 < 64 by omega),
        digit_solid (show a.toNat % 4 * 16 + b.toNat / 16 < 64 by omega),
        digit_solid (show b.toNat % 16 * 4 + c.toNat / 64 < 64 by omega),
        digit_solid (show c.toNat % 64 < 64 by omega)] using ih

theorem decode_encode (bytes : List UInt8) : decode (encode bytes) = some bytes := by
  have kept : (encode bytes).filter (fun c => !isBreak c) = encode bytes := by
    rw [List.filter_eq_self]
    intro c member
    rw [encode_solid bytes c member]
    rfl
  rw [decode, kept]
  exact decodeQuanta_encode bytes

example : encode [77, 97, 110, 77] = "TWFuTQ==".toList := by decide

end GoRaftKV.Library.Base64
