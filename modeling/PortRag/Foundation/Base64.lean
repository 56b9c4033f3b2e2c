import Mathlib.Data.List.Basic

set_option autoImplicit false

/-!
# Foundation: Base64

Bytes as Base64 text with padding, and their recovery from it.
-/

namespace PortRag.Foundation

/-- The digit of `n < 64`. -/
def b64Digit (n : Nat) : Char :=
  if n < 26 then Char.ofNat (65 + n)
  else if n < 52 then Char.ofNat (71 + n)
  else if n < 62 then Char.ofNat (n - 4)
  else if n = 62 then '+'
  else '/'

/-- The value of a digit. -/
def b64Value (c : Char) : Nat :=
  if c = '+' then 62
  else if c = '/' then 63
  else if c.toNat < 58 then c.toNat + 4
  else if c.toNat < 91 then c.toNat - 65
  else c.toNat - 71

/-- `base64.b64encode`. -/
def b64encode : List UInt8 → List Char
  | a :: b :: c :: rest =>
      b64Digit (a.toNat / 4) :: b64Digit (a.toNat % 4 * 16 + b.toNat / 16) ::
        b64Digit (b.toNat % 16 * 4 + c.toNat / 64) :: b64Digit (c.toNat % 64) :: b64encode rest
  | [a, b] =>
      [b64Digit (a.toNat / 4), b64Digit (a.toNat % 4 * 16 + b.toNat / 16),
        b64Digit (b.toNat % 16 * 4), '=']
  | [a] => [b64Digit (a.toNat / 4), b64Digit (a.toNat % 4 * 16), '=', '=']
  | [] => []

/-- The bytes of a padded text. A quad that starts with `=` has no bytes: the decoder skips padding
after the last whole quad. -/
def b64decode : List Char → List UInt8
  | w :: x :: y :: z :: rest =>
      let first := UInt8.ofNat (b64Value w * 4 + b64Value x / 16)
      let second := UInt8.ofNat (b64Value x % 16 * 16 + b64Value y / 4)
      if w = '=' then []
      else if y = '=' then [first]
      else if z = '=' then [first, second]
      else first :: second :: UInt8.ofNat (b64Value y % 4 * 64 + b64Value z) :: b64decode rest
  | _ => []

theorem b64Value_digit {n : Nat} (h : n < 64) : b64Value (b64Digit n) = n := by
  have hall : ∀ m : Fin 64, b64Value (b64Digit m) = m := by decide
  exact hall ⟨n, h⟩

theorem b64Digit_ne_pad {n : Nat} (h : n < 64) : b64Digit n ≠ '=' := by
  have hall : ∀ m : Fin 64, b64Digit m ≠ '=' := by decide
  exact hall ⟨n, h⟩

/-- A byte from its value. -/
theorem ofNat_eq {a : UInt8} {n : Nat} (h : n = a.toNat) : UInt8.ofNat n = a := by
  rw [h, UInt8.ofNat_toNat]

/-- The encoding loses nothing: the digits of three bytes are four, and the padding says how many
bytes there are at the end. -/
theorem b64decode_encode (bytes : List UInt8) : b64decode (b64encode bytes) = bytes := by
  induction bytes using b64encode.induct with
  | case1 a b c rest ih =>
      have ha := a.toNat_lt
      have hb := b.toNat_lt
      have hc := c.toNat_lt
      have hw : b64Digit (a.toNat / 4) ≠ '=' := b64Digit_ne_pad (by omega)
      have hy : b64Digit (b.toNat % 16 * 4 + c.toNat / 64) ≠ '=' := b64Digit_ne_pad (by omega)
      have hz : b64Digit (c.toNat % 64) ≠ '=' := b64Digit_ne_pad (by omega)
      rw [b64encode, b64decode, if_neg hw, if_neg hy, if_neg hz, ih, b64Value_digit (by omega),
        b64Value_digit (by omega), b64Value_digit (by omega), b64Value_digit (by omega)]
      have hfirst := @ofNat_eq a (a.toNat / 4 * 4 + (a.toNat % 4 * 16 + b.toNat / 16) / 16) (by omega)
      have hsecond := @ofNat_eq b ((a.toNat % 4 * 16 + b.toNat / 16) % 16 * 16 +
        (b.toNat % 16 * 4 + c.toNat / 64) / 4) (by omega)
      have hthird := @ofNat_eq c ((b.toNat % 16 * 4 + c.toNat / 64) % 4 * 64 + c.toNat % 64) (by omega)
      rw [hfirst, hsecond, hthird]
  | case2 a b =>
      have ha := a.toNat_lt
      have hb := b.toNat_lt
      have hw : b64Digit (a.toNat / 4) ≠ '=' := b64Digit_ne_pad (by omega)
      have hy : b64Digit (b.toNat % 16 * 4) ≠ '=' := b64Digit_ne_pad (by omega)
      rw [b64encode, b64decode, if_neg hw, if_neg hy, if_pos rfl, b64Value_digit (by omega),
        b64Value_digit (by omega), b64Value_digit (by omega)]
      have hfirst := @ofNat_eq a (a.toNat / 4 * 4 + (a.toNat % 4 * 16 + b.toNat / 16) / 16) (by omega)
      have hsecond := @ofNat_eq b ((a.toNat % 4 * 16 + b.toNat / 16) % 16 * 16 +
        b.toNat % 16 * 4 / 4) (by omega)
      rw [hfirst, hsecond]
  | case3 a =>
      have ha := a.toNat_lt
      have hw : b64Digit (a.toNat / 4) ≠ '=' := b64Digit_ne_pad (by omega)
      rw [b64encode, b64decode, if_neg hw, if_pos rfl, b64Value_digit (by omega),
        b64Value_digit (by omega)]
      have hfirst := @ofNat_eq a (a.toNat / 4 * 4 + a.toNat % 4 * 16 / 16) (by omega)
      rw [hfirst]
  | case4 => rfl

theorem b64encode_injective : Function.Injective b64encode :=
  Function.LeftInverse.injective b64decode_encode

theorem b64encode_length (bytes : List UInt8) :
    (b64encode bytes).length = 4 * ((bytes.length + 2) / 3) := by
  induction bytes using b64encode.induct with
  | case1 a b c rest ih =>
      rw [b64encode]
      simp only [List.length_cons, ih]
      omega
  | case2 a b => simp [b64encode]
  | case3 a => simp [b64encode]
  | case4 => rfl

end PortRag.Foundation
