import Mathlib.Data.List.Basic
import Mathlib.Tactic.Common
import XToolkits.Lib.CInt
import XToolkits.Lib.Memory

set_option autoImplicit false

/-! # The base64 encoder and decoder

`base64Encode` and `base64Decode` of `xlib_base64`. Whether a plain `char` is signed depends on the
target, so the encoder takes it as a parameter: a `char` is promoted to `int` before a shift, and
with signed chars the shift to the right copies the sign bit. The output of both functions is the
list of the bytes they write to consecutive places from the beginning of their buffer. -/

namespace XToolkits.Base64

/-! ## Characters -/

/-- A `char` promoted to `int`. -/
def charToInt (signed : Bool) (c : UInt8) : BitVec 32 :=
  if signed then c.toBitVec.signExtend 32 else c.toBitVec.setWidth 32

/-- An `int` stored in a `char`. -/
def intToChar (i : BitVec 32) : UInt8 := ⟨i.setWidth 8⟩

/-- `Base64Table`. -/
def base64Table : List UInt8 :=
  "ABCDEFGHIJKLMNOPQRSTUVWXYZabcdefghijklmnopqrstuvwxyz0123456789+/".toList.map fun c =>
    c.toNat.toUInt8

/-- `Base64Table[temp & 0x3F]`. -/
def tableChar (temp : UInt8) : UInt8 := base64Table.getD (temp &&& 0x3F).toNat 0

/-! ## Encoding -/

/-- The first character of a group. -/
def firstChar (signed : Bool) (a : UInt8) : UInt8 :=
  tableChar (intToChar ((charToInt signed a).sshiftRight 2))

/-- The second character of a group: two bits of `a` and four of `b`. -/
def secondChar (signed : Bool) (a b : UInt8) : UInt8 :=
  let temp := intToChar (charToInt signed a <<< 4)
  let temp := intToChar (charToInt signed temp &&& 0x30)
  let temp := intToChar ((charToInt signed b).sshiftRight 4 ||| charToInt signed temp)
  tableChar temp

/-- The four bits of `b` that go into the third character. -/
def thirdHigh (signed : Bool) (b : UInt8) : UInt8 :=
  let temp := intToChar (charToInt signed b &&& 0x0f)
  let temp := intToChar (charToInt signed temp <<< 2)
  intToChar (charToInt signed temp &&& 0x3c)

/-- The third character of a group: four bits of `b` and two of `c`. -/
def thirdChar (signed : Bool) (b c : UInt8) : UInt8 :=
  tableChar (intToChar ((charToInt signed c).sshiftRight 6 ||| charToInt signed (thirdHigh signed b)))

/-- The four characters of a group of three bytes. -/
def groupChars (signed : Bool) (a b c : UInt8) : List UInt8 :=
  [firstChar signed a, secondChar signed a b, thirdChar signed b c, tableChar c]

/-- The state of the loop over the groups: what is written, `source_index` and the groups on the
    line, `y`. -/
structure EncodeState where
  out : List UInt8
  sourceIndex : Nat
  y : Nat
  deriving DecidableEq, Repr

/-- One round of the loop: the characters of a group, and after 18 groups the end of the line. -/
def encodeGroup (signed : Bool) (m : Mem UInt8) (inp : Int) (s : EncodeState) : EncodeState :=
  let out := s.out ++ groupChars signed (m (inp + s.sourceIndex)) (m (inp + (s.sourceIndex + 1)))
    (m (inp + (s.sourceIndex + 2)))
  if s.y + 1 = 18 then ⟨out ++ [0x0a], s.sourceIndex + 3, 0⟩
  else ⟨out, s.sourceIndex + 3, s.y + 1⟩

/-- The loop, `bits_8_group` rounds. -/
def encodeGroups (signed : Bool) (m : Mem UInt8) (inp : Int) : Nat → EncodeState → EncodeState
  | 0, s => s
  | n + 1, s => encodeGroups signed m inp n (encodeGroup signed m inp s)

/-- The one or two bytes behind the last group, with `=` for what is missing. With one byte left the
    second character is made with the byte behind the input. -/
def encodeTail (signed : Bool) (m : Mem UInt8) (p : Int) : Nat → List UInt8
  | 1 => [firstChar signed (m p), secondChar signed (m p) (m (p + 1)), 0x3d, 0x3d]
  | 2 => [firstChar signed (m p), secondChar signed (m p) (m (p + 1)),
      tableChar (thirdHigh signed (m (p + 1))), 0x3d]
  | _ => []

/-- `base64Encode`: what is written to `out`, `*dlen` is its length. `none`: `target_index` does not
    fit in an `int`. -/
def base64Encode (signed : Bool) (m : Mem UInt8) (inp : Int) (len : Nat) : Option (List UInt8) :=
  let s := encodeGroups signed m inp (len / 3) ⟨[], 0, 0⟩
  let out := s.out ++ encodeTail signed m (inp + s.sourceIndex) (len % 3)
  if out.length < 2 ^ 31 then some out else none

/-! ## Decoding -/

/-- The value of a character; `none` is the `-1` of the source. -/
def charVal (c : UInt8) : Option Nat :=
  if 0x41 ≤ c ∧ c ≤ 0x5a then some (c.toNat - 0x41)
  else if 0x61 ≤ c ∧ c ≤ 0x7a then some (c.toNat - 0x61 + 26)
  else if 0x30 ≤ c ∧ c ≤ 0x39 then some (c.toNat - 0x30 + 52)
  else if c = 0x2b then some 62
  else if c = 0x2d then some 63
  else none

/-- The state of the decoder: what is written, the bits waiting and their number. -/
structure DecodeState where
  out : List UInt8
  bitval : Nat
  bits : Nat
  deriving DecidableEq, Repr

/-- The inner loop: a byte is written for every eight bits waiting, as long as there is room. Each
    round takes eight bits, so the number of bits bounds the rounds. -/
def writeBytes (maxlen : Nat) : Nat → DecodeState → DecodeState
  | 0, s => s
  | fuel + 1, s =>
      if 8 ≤ s.bits then
        let out := if s.out.length < maxlen then
          s.out ++ [((s.bitval >>> (s.bits - 8)) &&& 0xFF).toUInt8] else s.out
        writeBytes maxlen fuel ⟨out, s.bitval &&& (1 <<< (s.bits - 8) - 1), s.bits - 8⟩
      else s

/-- One round of the loop over the characters. -/
def decodeChar (maxlen : Nat) (s : DecodeState) (c : UInt8) : DecodeState :=
  match charVal c with
  | some val => writeBytes maxlen (s.bits + 6) ⟨s.out, (s.bitval <<< 6) + val, s.bits + 6⟩
  | none => s

/-- The characters that are read. The string ends before the first `NUL`, and `len`, its length, is
    an `int`. -/
def charsRead (src : List UInt8) : List UInt8 :=
  let str := src.takeWhile (· != 0)
  str.take (wrapS32 str.length).toNat

/-- `base64Decode`: what is written to `dst`, from the bytes from `src` on. -/
def base64Decode (src : List UInt8) (maxlen : Nat) : List UInt8 :=
  let s := (charsRead src).foldl (decodeChar maxlen) ⟨[], 0, 0⟩
  if s.out.length < maxlen then s.out ++ [0] else s.out

theorem charsRead_eq {src : List UInt8} (h : (src.takeWhile (· != 0)).length < 2 ^ 31) :
    charsRead src = src.takeWhile (· != 0) := by
  rw [charsRead, wrapS32_of_mem (by omega) (by omega), Int.toNat_natCast, List.take_length]

/-! ## The sextets written

`signed` chars make a difference in two places: the high bits of the second and of the third sextet
are all set when the byte that gives the low bits is negative. -/

/-- The second sextet of a group. -/
def secondSextet (signed : Bool) (a b : UInt8) : Nat :=
  if signed ∧ 128 ≤ b.toNat then 48 + b.toNat / 16 else a.toNat % 4 * 16 + b.toNat / 16

/-- The third sextet of a group. -/
def thirdSextet (signed : Bool) (b c : UInt8) : Nat :=
  if signed ∧ 128 ≤ c.toNat then 60 + c.toNat / 64 else b.toNat % 16 * 4 + c.toNat / 64

/-- The character of a sextet. -/
def sextetChar (v : Nat) : UInt8 := base64Table.getD v 0

/-- A property of the 256 bytes. -/
theorem forall_uint8 {P : UInt8 → Prop} (h : ∀ n < 256, P (UInt8.ofNat n)) (c : UInt8) : P c :=
  UInt8.ofNat_toNat (x := c) ▸ h c.toNat (UInt8.toNat_lt c)

/-- What the operations of the encoder make of one `char`. -/
@[mk_iff]
structure CharFacts (signed : Bool) (c : UInt8) : Prop where
  promoted : intToChar (charToInt signed c) = c
  table : tableChar c = sextetChar (c.toNat % 64)
  first : firstChar signed c = sextetChar (c.toNat / 4)
  secondHigh : intToChar (charToInt signed (intToChar (charToInt signed c <<< 4)) &&& 0x30) =
    UInt8.ofNat (c.toNat % 4 * 16)
  secondLow : intToChar ((charToInt signed c).sshiftRight 4) =
    UInt8.ofNat (if signed ∧ 128 ≤ c.toNat then 240 + c.toNat / 16 else c.toNat / 16)
  thirdHigh : thirdHigh signed c = UInt8.ofNat (c.toNat % 16 * 4)
  thirdAlone : tableChar (Base64.thirdHigh signed c) = sextetChar (c.toNat % 16 * 4)
  thirdLow : intToChar ((charToInt signed c).sshiftRight 6) =
    UInt8.ofNat (if signed ∧ 128 ≤ c.toNat then 252 + c.toNat / 64 else c.toNat / 64)

/-- Checked for all bytes by evaluation. -/
theorem charFacts (signed : Bool) (c : UInt8) : CharFacts signed c := by
  revert c
  refine forall_uint8 ?_
  simp only [charFacts_iff]
  cases signed <;> decide +kernel

/-- The bits of a `char` that are put into an `int` come back. -/
theorem intToChar_or (signed : Bool) (i : BitVec 32) (temp : UInt8) :
    intToChar (i ||| charToInt signed temp) = intToChar i ||| temp :=
  calc intToChar (i ||| charToInt signed temp)
      = intToChar i ||| intToChar (charToInt signed temp) := by
        rw [intToChar, BitVec.setWidth_or]
        rfl
    _ = intToChar i ||| temp := by rw [(charFacts signed temp).promoted]

theorem secondChar_eq (signed : Bool) (a b : UInt8) :
    secondChar signed a b = sextetChar (secondSextet signed a b) := by
  have hor : ∀ k < 4, ∀ n < 16,
      tableChar (UInt8.ofNat (240 + n) ||| UInt8.ofNat (k * 16)) = sextetChar (48 + n) ∧
      tableChar (UInt8.ofNat n ||| UInt8.ofNat (k * 16)) = sextetChar (k * 16 + n) := by
    decide +kernel
  have hb : b.toNat / 16 < 16 := Nat.div_lt_of_lt_mul (UInt8.toNat_lt b)
  obtain ⟨hneg, hpos⟩ := hor (a.toNat % 4) (Nat.mod_lt _ (by decide)) (b.toNat / 16) hb
  rw [secondChar, (charFacts signed a).secondHigh, intToChar_or, (charFacts signed b).secondLow,
    secondSextet]
  split
  · exact hneg
  · exact hpos

theorem thirdChar_eq (signed : Bool) (b c : UInt8) :
    thirdChar signed b c = sextetChar (thirdSextet signed b c) := by
  have hor : ∀ k < 16, ∀ n < 4,
      tableChar (UInt8.ofNat (252 + n) ||| UInt8.ofNat (k * 4)) = sextetChar (60 + n) ∧
      tableChar (UInt8.ofNat n ||| UInt8.ofNat (k * 4)) = sextetChar (k * 4 + n) := by
    decide +kernel
  have hc : c.toNat / 64 < 4 := Nat.div_lt_of_lt_mul (UInt8.toNat_lt c)
  obtain ⟨hneg, hpos⟩ := hor (b.toNat % 16) (Nat.mod_lt _ (by decide)) (c.toNat / 64) hc
  rw [thirdChar, (charFacts signed b).thirdHigh, intToChar_or, (charFacts signed c).thirdLow,
    thirdSextet]
  split
  · exact hneg
  · exact hpos

/-- The decoder knows all the characters of the table but the last, and none is `NUL`. -/
theorem sextetChar_spec : ∀ v < 64,
    charVal (sextetChar v) = (if v = 63 then none else some v) ∧ sextetChar v ≠ 0 := by
  decide +kernel

theorem charVal_lt (c : UInt8) : ∀ v ∈ charVal c, v < 64 := by
  intro v hv
  rw [charVal] at hv
  split_ifs at hv with hupper hlower hdigit hplus hminus
  · have hle : c.toNat ≤ 0x5a := hupper.2
    obtain rfl := Option.some.inj hv
    omega
  · have hle : c.toNat ≤ 0x7a := hlower.2
    obtain rfl := Option.some.inj hv
    omega
  · have hle : c.toNat ≤ 0x39 := hdigit.2
    obtain rfl := Option.some.inj hv
    omega
  · obtain rfl := Option.some.inj hv
    decide
  · obtain rfl := Option.some.inj hv
    decide
  · cases hv

end XToolkits.Base64
