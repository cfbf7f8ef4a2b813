/-!
# UTF-8

Decoding bytes, with the place and the reason of the first failure.
-/

namespace DesignTokens.Text

/-- Why bytes are no text. -/
inductive Utf8Reason where
  /-- No character starts with this byte. -/
  | badStart
  /-- A byte inside a character is missing or out of range. -/
  | badContinuation
  /-- The bytes end inside a character. -/
  | unexpectedEnd
deriving DecidableEq

/-- The first failure: the bytes from `start` up to before `stop`, the first of them `byte`. -/
structure Utf8Error where
  /-- The position of the first byte concerned. -/
  start : Nat
  /-- The position after the last byte concerned. -/
  stop : Nat
  /-- The first byte concerned. -/
  byte : Nat
  /-- What is wrong. -/
  reason : Utf8Reason

/-- The length of the character that a byte starts, and the range of the byte after it. -/
def leadByte? (b : Nat) : Option (Nat × Nat × Nat) :=
  if b < 0x80 then some (1, 0x80, 0xBF)
  else if b < 0xC2 then none
  else if b < 0xE0 then some (2, 0x80, 0xBF)
  else if b < 0xF0 then
    some (3, if b = 0xE0 then 0xA0 else 0x80, if b = 0xED then 0x9F else 0xBF)
  else if b < 0xF5 then
    some (4, if b = 0xF0 then 0x90 else 0x80, if b = 0xF4 then 0x8F else 0xBF)
  else none

/-- The value bits of a first byte. -/
def leadBits (length b : Nat) : Nat :=
  match length with
  | 1 => b
  | 2 => b % 0x20
  | 3 => b % 0x10
  | _ => b % 0x08

/-- Reads `needed` more bytes of a character with value `value` so far; `read` bytes of it are
already read, and the next byte has to lie between `low` and `high`. -/
def continueChar (needed read value low high : Nat) (bytes : List Nat) :
    Except (Nat × Utf8Reason) (Nat × List Nat) :=
  match needed with
  | 0 => .ok (value, bytes)
  | n + 1 =>
    match bytes with
    | [] => .error (read, .unexpectedEnd)
    | b :: r =>
      if low ≤ b && b ≤ high then continueChar n (read + 1) (value * 64 + b % 64) 0x80 0xBF r
      else .error (read, .badContinuation)

/-- Decodes the bytes from a position on; `done` holds the characters before it, last first. -/
def decodeFrom : (fuel position : Nat) → (done : List Char) → List Nat →
    Except Utf8Error (List Char)
  | 0, _, done, _ => .ok done.reverse
  | _, _, done, [] => .ok done.reverse
  | fuel + 1, position, done, b :: r =>
    match leadByte? b with
    | none => .error ⟨position, position + 1, b, .badStart⟩
    | some (length, low, high) =>
      match continueChar (length - 1) 1 (leadBits length b) low high r with
      | .ok (value, rest) => decodeFrom fuel (position + length) (Char.ofNat value :: done) rest
      | .error (read, reason) =>
        let stop :=
          match reason with
          | .unexpectedEnd => position + 1 + r.length
          | _ => position + read
        .error ⟨position, stop, b, reason⟩

/-- The characters that the bytes encode. -/
def decodeUtf8 (bytes : List Nat) : Except Utf8Error (List Char) :=
  decodeFrom bytes.length 0 [] bytes

/-- The wording of a failure. -/
def Utf8Error.message (e : Utf8Error) : String :=
  let reason :=
    match e.reason with
    | .badStart => "invalid start byte"
    | .badContinuation => "invalid continuation byte"
    | .unexpectedEnd => "unexpected end of data"
  let place :=
    if e.stop = e.start + 1 then
      let hex := String.ofList (Nat.toDigits 16 e.byte)
      "byte 0x" ++ hex ++ " in position " ++ toString e.start
    else "bytes in position " ++ toString e.start ++ "-" ++ toString (e.stop - 1)
  "'utf-8' codec can't decode " ++ place ++ ": " ++ reason

end DesignTokens.Text
