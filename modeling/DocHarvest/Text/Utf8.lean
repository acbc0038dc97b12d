import DocHarvest.Text.Basic

set_option autoImplicit false

namespace DocHarvest.Utf8

-- The start of a character: its bits so far, how many bytes it lacks, and the bounds of the next one.
structure Fragment where
  bits : Nat
  missing : Nat
  low : Nat := 0x80
  high : Nat := 0xBF

-- The narrower bounds leave out longer forms of a character, surrogates and what no plane holds.
def fragment? (b : Nat) : Option Fragment :=
  if 0xC2 ≤ b ∧ b ≤ 0xDF then some { bits := b - 0xC0, missing := 1 }
  else if b = 0xE0 then some { bits := 0, missing := 2, low := 0xA0 }
  else if b = 0xED then some { bits := 0xD, missing := 2, high := 0x9F }
  else if 0xE1 ≤ b ∧ b ≤ 0xEF then some { bits := b - 0xE0, missing := 2 }
  else if b = 0xF0 then some { bits := 0, missing := 3, low := 0x90 }
  else if 0xF1 ≤ b ∧ b ≤ 0xF3 then some { bits := b - 0xF0, missing := 3 }
  else if b = 0xF4 then some { bits := 4, missing := 3, high := 0x8F }
  else none

structure Decoder where
  /-- What was read so far, in reverse. -/
  shown : Text
  pending : Option Fragment

def Decoder.begin (shown : Text) (b : Nat) : Decoder :=
  if b < 0x80 then ⟨Char.ofNat b :: shown, none⟩
  else
    match fragment? b with
    | some f => ⟨shown, some f⟩
    | none => ⟨'\uFFFD' :: shown, none⟩

-- Bytes that can no longer become a character are replaced together, and the byte after them is
-- read anew.
def Decoder.feed (d : Decoder) (b : Nat) : Decoder :=
  match d.pending with
  | none => .begin d.shown b
  | some f =>
    if b < f.low ∨ f.high < b then .begin ('\uFFFD' :: d.shown) b
    else
      let bits := f.bits * 0x40 + (b - 0x80)
      if f.missing = 1 then ⟨Char.ofNat bits :: d.shown, none⟩
      else ⟨d.shown, some { bits := bits, missing := f.missing - 1 }⟩

def decode (bytes : ByteArray) : Text :=
  let d := bytes.foldl (fun (d : Decoder) b => d.feed b.toNat) ⟨[], none⟩
  (if d.pending.isSome then '\uFFFD' :: d.shown else d.shown).reverse

end DocHarvest.Utf8
