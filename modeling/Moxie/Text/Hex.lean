/-
# Moxie.Text.Hex — hexadecimal numbers as they stand in messages and listings.

Two spellings occur.  An address or an instruction word is written with a fixed number of digits,
so that columns line up; a size or an interrupt number is written with as few digits as it needs.
Both carry the `0x` lead and use lower-case digits.
-/
namespace Moxie.Hex

/-- The last `k` hexadecimal digits of `n`, most significant first. -/
def lastDigits : Nat → Nat → List Char
  | 0, _ => []
  | k + 1, n => lastDigits k (n / 16) ++ [Nat.digitChar (n % 16)]

/-- **`fixed k n`** — `n` with exactly `k` digits, as `0x0000beef` for `k = 8`. -/
def fixed (k n : Nat) : String :=
  "0x" ++ String.ofList (lastDigits k n)

/-- **`shortest n`** — `n` with no leading zeros, as `0x1000`; zero is `0x0`. -/
def shortest (n : Nat) : String :=
  "0x" ++ String.ofList (Nat.toDigits 16 n)

end Moxie.Hex
