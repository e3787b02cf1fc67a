namespace Egg.Utf8

inductive Reason where
  | invalidStart
  | invalidContinuation
  | endOfData
deriving DecidableEq, Repr

def Reason.message : Reason → String
  | invalidStart => "invalid start byte"
  | invalidContinuation => "invalid continuation byte"
  | endOfData => "unexpected end of data"

/-- Bytes that cannot be read: where they start, the first of them, how many they are, and why. -/
structure Error where
  start : Nat
  first : UInt8
  count : Nat
  reason : Reason
deriving DecidableEq, Repr

def hexByte (b : UInt8) : String :=
  let digits := Nat.toDigits 16 b.toNat
  String.ofList (List.replicate (2 - digits.length) '0' ++ digits)

def Error.message (e : Error) : String :=
  let place :=
    if e.count = 1 then s!"byte 0x{hexByte e.first} in position {e.start}"
    else s!"bytes in position {e.start}-{e.start + e.count - 1}"
  s!"'utf-8' codec can't decode {place}: {e.reason.message}"

/-- A character of which some bytes have been read: where it starts, its first byte, how many
bytes have been read and how many are still to come, its code point so far, and the range of the
next byte. -/
structure Pending where
  start : Nat
  first : UInt8
  got : Nat
  need : Nat
  value : Nat
  low : Nat
  high : Nat

/-- The character that a byte above 127 starts. The second byte is kept to a range that leaves out
overlong forms, surrogates, and what is beyond the last code point. -/
def Pending.ofLead? (start : Nat) (b : UInt8) : Option Pending :=
  let n := b.toNat
  let low := if n = 0xE0 then 0xA0 else if n = 0xF0 then 0x90 else 0x80
  let high := if n = 0xED then 0x9F else if n = 0xF4 then 0x8F else 0xBF
  if n < 0xC2 then none
  else if n < 0xE0 then some ⟨start, b, 1, 1, n - 0xC0, low, high⟩
  else if n < 0xF0 then some ⟨start, b, 1, 2, n - 0xE0, low, high⟩
  else if n < 0xF5 then some ⟨start, b, 1, 3, n - 0xF0, low, high⟩
  else none

/-- Read the bytes that stand at a place and go on with a character, if one is pending. -/
def decodeFrom (place : Nat) : Option Pending → List UInt8 → Except Error (List Char)
  | none, [] => .ok []
  | some p, [] => .error ⟨p.start, p.first, p.got, .endOfData⟩
  | none, b :: bs =>
    if b.toNat < 0x80 then do
      return Char.ofNat b.toNat :: (← decodeFrom (place + 1) none bs)
    else
      match Pending.ofLead? place b with
      | none => .error ⟨place, b, 1, .invalidStart⟩
      | some p => decodeFrom (place + 1) (some p) bs
  | some p, b :: bs =>
    if p.low ≤ b.toNat && b.toNat ≤ p.high then
      let value := p.value * 64 + b.toNat % 64
      if p.need ≤ 1 then do
        return Char.ofNat value :: (← decodeFrom (place + 1) none bs)
      else
        let next := ⟨p.start, p.first, p.got + 1, p.need - 1, value, 0x80, 0xBF⟩
        decodeFrom (place + 1) (some next) bs
    else .error ⟨p.start, p.first, p.got, .invalidContinuation⟩

def decode (bytes : List UInt8) : Except Error (List Char) :=
  decodeFrom 0 none bytes

end Egg.Utf8
