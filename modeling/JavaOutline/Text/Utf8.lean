/-!
# JavaOutline.Text.Utf8

Reading bytes as UTF-8 without ever failing.  Each maximal sequence of
bytes that begins a character and cannot be completed, and each byte that
begins none, is read as one replacement character U+FFFD.

A character takes one to four bytes.  Its first byte says how many follow
and bounds the second one, which excludes overlong forms, surrogates and
code points above U+10FFFF; every later byte lies in `0x80`–`0xBF`.
-/

namespace JavaOutline.Text

/-- The character that stands for bytes that make none. -/
def replacement : Char := '\uFFFD'

/-- A character of which some bytes have been read: the bits so far, the
number of bytes still missing, and the bounds of the next one. -/
structure Unfinished where
  bits : Nat
  missing : Nat
  least : Nat
  greatest : Nat

/-- What a byte begins. -/
inductive Lead where
  /-- The byte is a character by itself. -/
  | whole (c : Char)
  /-- More bytes follow. -/
  | unfinished (u : Unfinished)
  /-- No character begins with the byte. -/
  | stray

/-- What a byte begins. -/
def lead (byte : Nat) : Lead :=
  if byte < 0x80 then .whole (Char.ofNat byte)
  else if byte < 0xC2 then .stray
  else if byte < 0xE0 then .unfinished ⟨byte - 0xC0, 1, 0x80, 0xBF⟩
  else if byte = 0xE0 then .unfinished ⟨0, 2, 0xA0, 0xBF⟩
  else if byte = 0xED then .unfinished ⟨0xD, 2, 0x80, 0x9F⟩
  else if byte < 0xF0 then .unfinished ⟨byte - 0xE0, 2, 0x80, 0xBF⟩
  else if byte = 0xF0 then .unfinished ⟨0, 3, 0x90, 0xBF⟩
  else if byte < 0xF4 then .unfinished ⟨byte - 0xF0, 3, 0x80, 0xBF⟩
  else if byte = 0xF4 then .unfinished ⟨4, 3, 0x80, 0x8F⟩
  else .stray

/-- The characters read so far, newest first, and the one being read. -/
structure Decoding where
  reversed : List Char
  pending : Option Unfinished

namespace Decoding

/-- Read a byte where a character begins. -/
def start (reversed : List Char) (byte : Nat) : Decoding :=
  match lead byte with
  | .whole c => ⟨c :: reversed, none⟩
  | .unfinished u => ⟨reversed, some u⟩
  | .stray => ⟨replacement :: reversed, none⟩

/-- Read one byte.  A byte that does not go on with the character being
read ends it as a replacement and begins another. -/
def push (d : Decoding) (byte : Nat) : Decoding :=
  match d.pending with
  | none => start d.reversed byte
  | some u =>
    if u.least ≤ byte ∧ byte ≤ u.greatest then
      let bits := u.bits * 0x40 + (byte - 0x80)
      if u.missing = 1 then ⟨Char.ofNat bits :: d.reversed, none⟩
      else ⟨d.reversed, some ⟨bits, u.missing - 1, 0x80, 0xBF⟩⟩
    else start (replacement :: d.reversed) byte

/-- The text read; a character cut off by the end is replaced. -/
def text (d : Decoding) : List Char :=
  match d.pending with
  | none => d.reversed.reverse
  | some _ => (replacement :: d.reversed).reverse

end Decoding

/-- The text that bytes stand for. -/
def ofUtf8 (bytes : List UInt8) : List Char :=
  (bytes.foldl (fun (d : Decoding) byte => d.push byte.toNat) ⟨[], none⟩).text

end JavaOutline.Text
