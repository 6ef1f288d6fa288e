/-! Lenient reading of UTF-8: a byte that does not begin a well-formed sequence becomes U+FFFD, and reading goes
on with the byte after it. -/
namespace WhileStack.Text

private def isContinuation (b : UInt8) : Bool := b &&& 0xc0 == 0x80

private def joinBits (lead : Nat) (rest : List UInt8) : Nat :=
  rest.foldl (fun acc b => acc * 64 + (b.toNat - 0x80)) lead

/-- How many continuation bytes a lead byte asks for, with the bits it holds and the least code point that
needs that many. -/
private def leadByte (b : UInt8) : Option (Nat × Nat × Nat) :=
  let n := b.toNat
  if 0xc2 ≤ n ∧ n < 0xe0 then some (1, n - 0xc0, 0x80)
  else if 0xe0 ≤ n ∧ n < 0xf0 then some (2, n - 0xe0, 0x800)
  else if 0xf0 ≤ n ∧ n < 0xf5 then some (3, n - 0xf0, 0x10000)
  else none

/-- The character at the front of a byte list, with the number of bytes behind the first that belong to it. -/
private def decodeFront (b : UInt8) (bs : List UInt8) : Option (Char × Nat) :=
  if b < 0x80 then some (Char.ofNat b.toNat, 0)
  else do
    let (count, bits, least) ← leadByte b
    let tail := bs.take count
    guard (tail.length = count ∧ tail.all isContinuation)
    let n := joinBits bits tail
    guard (least ≤ n ∧ n.isValidChar)
    some (Char.ofNat n, count)

/-- Works through the bytes; `skip` counts those that a character already read has used. -/
private def decodeFrom : Nat → List UInt8 → List Char
  | _, [] => []
  | skip + 1, _ :: bs => decodeFrom skip bs
  | 0, b :: bs =>
    match decodeFront b bs with
    | some (c, count) => c :: decodeFrom count bs
    | none => '\ufffd' :: decodeFrom 0 bs

def decodeUtf8 (bytes : List UInt8) : List Char := decodeFrom 0 bytes

end WhileStack.Text
