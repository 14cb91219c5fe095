/-!
# Hexadecimal text

Numbers in lower-case digits after `0x`, without leading zeros or filled with them to a width that
counts the `0x`.
-/

namespace KernelCore.Text

def hexDigits (n : Nat) : String := String.ofList (Nat.toDigits 16 n)

def hex (n : Nat) : String := "0x" ++ hexDigits n

/-- Text of at least `width` characters. -/
def hexFilled (width n : Nat) : String :=
  let digits := Nat.toDigits 16 n
  "0x" ++ String.ofList (List.replicate (width - 2 - digits.length) '0' ++ digits)

end KernelCore.Text
