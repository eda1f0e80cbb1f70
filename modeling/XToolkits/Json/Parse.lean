import XToolkits.Json.Print

set_option autoImplicit false

/-! # Parsing text into items: `cJSON.c`

A pointer into the text is what the memory holds from there on, so a later pointer is a shorter list,
and a read at the end of the list is a read outside the memory of the text. A string ends with its
`NUL`, which is a byte of that memory.

Values nest and follow one another as deep and as long as the text says, so the functions take fuel;
the length of the text is enough. `malloc` gives the memory that is asked for, and `pow` is the power
of ten of the C library. -/

namespace XToolkits.Json

/-- The memory from a pointer on. -/
abbrev Text := List UInt8

/-- Why no item is returned: `*ep` is set, memory outside of the text or of the string made from it is
    used, or the fuel is used up. -/
inductive Stop where
  | fail (ep : Text)
  | outside
  | fuel
  deriving DecidableEq, Repr

/-- `skip`. -/
def skip : Text → Except Stop Text
  | [] => .error .outside
  | b :: t => if b ≠ 0 ∧ b ≤ 32 then skip t else .ok (b :: t)

/-- `!strncmp(value,s,n)`, with the length of `s` for `n`. -/
def startsWith : CStr → Text → Except Stop Bool
  | [], _ => .ok true
  | _ :: _, [] => .error .outside
  | c :: s, b :: t => if c = b then startsWith s t else .ok false

/-! ## Numbers -/

/-- `if (*num==c) num++`, and whether it was. -/
def skipByte (c : UInt8) : Text → Except Stop (Bool × Text)
  | [] => .error .outside
  | b :: t => if b = c then .ok (true, t) else .ok (false, b :: t)

/-- The digits that the loops of `parse_number` go over. -/
def takeDigits : Text → Except Stop (List UInt8 × Text)
  | [] => .error .outside
  | b :: t =>
      if IsDigit b then do
        let (ds, t) ← takeDigits t
        .ok (b :: ds, t)
      else .ok ([], b :: t)

/-- The digits in front of the point, but for a first `0`. -/
def takeInt : Text → Except Stop (List UInt8 × Text)
  | [] => .error .outside
  | b :: t => if 49 ≤ b ∧ b ≤ 57 then takeDigits (b :: t) else .ok ([], b :: t)

/-- The digits behind it. -/
def takeFrac : Text → Except Stop (List UInt8 × Text)
  | [] => .error .outside
  | b :: t =>
      if b = 46 then
        match t with
        | [] => .error .outside
        | d :: _ => if IsDigit d then takeDigits t else .ok ([], b :: t)
      else .ok ([], b :: t)

/-- `subscale*signsubscale`. -/
def takeExp : Text → Except Stop (Int × Text)
  | [] => .error .outside
  | b :: t =>
      if b = 101 ∨ b = 69 then do
        let (plus, t) ← skipByte 43 t
        let (minus, t) ← if plus then .ok (false, t) else skipByte 45 t
        let (ds, t) ← takeDigits t
        .ok (wrapS32 (accInt 0 ds * if minus then -1 else 1), t)
      else .ok (0, b :: t)

/-- `parse_number`. -/
def parseNumber (pow : Int → Double) (item : Fields) (num : Text) : Except Stop (Fields × Text) := do
  let (minus, num) ← skipByte 45 num
  let (_, num) ← skipByte 48 num
  let (int, num) ← takeInt num
  let (frac, num) ← takeFrac num
  let (exp, num) ← takeExp num
  let n := ((Double.ofInt (if minus then -1 else 1)).mul (accDigits (.ofInt 0) (int ++ frac))).mul
    (pow (-(frac.length : Int) + exp))
  .ok ({ item with valuedouble := n, valueint := n.toInt, type := cJSONNumber }, num)

/-! ## Strings -/

def hexVal (b : UInt8) : Option Nat :=
  if 48 ≤ b ∧ b ≤ 57 then some (b.toNat - 48)
  else if 65 ≤ b ∧ b ≤ 70 then some (10 + b.toNat - 65)
  else if 97 ≤ b ∧ b ≤ 102 then some (10 + b.toNat - 97)
  else none

/-- The `n` digits of `parse_hex4` that are left, behind those of `h`. -/
def hexLoop : Nat → Nat → Text → Except Stop Nat
  | 0, h, _ => .ok h
  | _ + 1, _, [] => .error .outside
  | n + 1, h, b :: t =>
      match hexVal b with
      | none => .ok 0
      | some v => hexLoop n (h <<< 4 + v) t

/-- `parse_hex4`. -/
def parseHex4 (str : Text) : Except Stop Nat := hexLoop 4 0 str

/-- `firstByteMark`. -/
def firstByteMark : Nat → Nat
  | 2 => 0xC0
  | 3 => 0xE0
  | 4 => 0xF0
  | _ => 0

/-- The bytes of `uc` behind the first one, `n` of them, and what is left of it. -/
def utf8Tail : Nat → Nat → List UInt8 → Nat × List UInt8
  | 0, uc, s => (uc, s)
  | n + 1, uc, s => utf8Tail n (uc >>> 6) (UInt8.ofNat ((uc ||| 0x80) &&& 0xBF) :: s)

/-- The bytes of `uc`. -/
def utf8 (uc : Nat) : List UInt8 :=
  let len := if uc < 0x80 then 1 else if uc < 0x800 then 2 else if uc < 0x10000 then 3 else 4
  let (uc, s) := utf8Tail (len - 1) uc []
  UInt8.ofNat (uc ||| firstByteMark len) :: s

/-- A character behind a backslash, other than `u`. -/
def unescape (b : UInt8) : UInt8 :=
  if b = 98 then 8 else if b = 102 then 12 else if b = 110 then 10 else if b = 114 then 13
  else if b = 116 then 9 else b

/-- The first loop of `parse_string`: `len` and `end_ptr`. -/
def scanString : Text → Except Stop (Nat × Text)
  | [] => .error .outside
  | b :: t =>
      if b = 34 ∨ b = 0 then .ok (0, b :: t)
      else if b = 92 then
        match t with
        | [] => .error .outside
        | _ :: t => (scanString t).map fun r => (r.1 + 1, r.2)
      else (scanString t).map fun r => (r.1 + 1, r.2)

/-- `case 'u'`: the bytes of the character, and `ptr` at its last digit. -/
def transcode (str : Text) (endLen : Nat) (digits : Text) : Except Stop (List UInt8 × Text) := do
  let uc ← parseHex4 digits
  let ptr := digits.drop 3
  if ptr.length ≤ endLen then .error (.fail str)
  else if (0xDC00 ≤ uc ∧ uc ≤ 0xDFFF) ∨ uc = 0 then .error (.fail str)
  else if 0xD800 ≤ uc ∧ uc ≤ 0xDBFF then
    if ptr.length < endLen + 6 then .error (.fail str)
    else if ptr[1]? ≠ some 92 ∨ ptr[2]? ≠ some 117 then .error (.fail str)
    else do
      let uc2 ← parseHex4 (ptr.drop 3)
      if uc2 < 0xDC00 ∨ 0xDFFF < uc2 then .error (.fail str)
      else .ok (utf8 (0x10000 + ((uc &&& 0x3FF) <<< 10 ||| (uc2 &&& 0x3FF))), ptr.drop 6)
  else .ok (utf8 uc, ptr)

/-- A round of its second loop: what is written to `ptr2`, and `ptr`. -/
def decodeChar (str : Text) (endLen : Nat) : Text → Except Stop (List UInt8 × Text)
  | [] => .error .outside
  | b :: t =>
      if b ≠ 92 then .ok ([b], t)
      else
        match t with
        | [] => .error .outside
        | c :: t =>
            if c ≠ 117 then .ok ([unescape c], t)
            else (transcode str endLen t).map fun r => (r.1, r.2.drop 1)

/-- The loop goes up to the pointer with `endLen` bytes from it on. -/
def decodeString (str : Text) (endLen : Nat) : Nat → Text → Except Stop (List UInt8 × Text)
  | 0, _ => .error .fuel
  | fuel + 1, ptr =>
      if endLen < ptr.length then do
        let (bytes, ptr) ← decodeChar str endLen ptr
        (decodeString str endLen fuel ptr).map fun r => (bytes ++ r.1, r.2)
      else .ok ([], ptr)

/-- `parse_string`: the string has room for `len` bytes and the `NUL`. -/
def parseString (item : Fields) (str : Text) : Except Stop (Fields × Text) :=
  match str with
  | [] => .error .outside
  | b :: t =>
      if b ≠ 34 then .error (.fail str)
      else do
        let (len, endPtr) ← scanString t
        let (out, ptr) ← decodeString str endPtr.length (t.length + 1) t
        if len < out.length then .error .outside
        else
          let item := { item with
            valuestring := some (out.takeWhile fun b => b ≠ 0), type := cJSONString }
          match ptr with
          | [] => .error .outside
          | q :: rest => .ok (item, if q = 34 then rest else q :: rest)

/-! ## Values -/

/-- An item that is filled in, with what its `child` points to, and the end of its text. -/
abbrev ValueParser := Fields → Text → Except Stop ((Fields × Item) × Text)

/-- The items of `parse_array`, from the first one on. -/
def parseElements (parseValue : ValueParser) : Nat → Text → Except Stop (Item × Text)
  | 0, _ => .error .fuel
  | fuel + 1, value => do
      let value ← skip value
      let ((item, child), value) ← parseValue newItem value
      let value ← skip value
      match value with
      | [] => .error .outside
      | b :: t =>
          if b = 44 then do
            let (next, value) ← parseElements parseValue fuel t
            .ok (.node item child next, value)
          else .ok (.node item child .null, b :: t)

/-- `parse_array`. -/
def parseArray (parseValue : ValueParser) (fuel : Nat) (item : Fields) (value : Text) :
    Except Stop ((Fields × Item) × Text) :=
  match value with
  | [] => .error .outside
  | b :: t =>
      if b ≠ 91 then .error (.fail value)
      else do
        let item := { item with type := cJSONArray }
        let value ← skip t
        match value with
        | [] => .error .outside
        | b :: t =>
            if b = 93 then .ok ((item, .null), t)
            else do
              let (child, value) ← parseElements parseValue fuel (b :: t)
              match value with
              | [] => .error .outside
              | b :: t => if b = 93 then .ok ((item, child), t) else .error (.fail (b :: t))

/-- The members of `parse_object`, from the first one on. -/
def parseMembers (parseValue : ValueParser) : Nat → Text → Except Stop (Item × Text)
  | 0, _ => .error .fuel
  | fuel + 1, value => do
      let value ← skip value
      let (item, value) ← parseString newItem value
      let value ← skip value
      let item := { item with string := item.valuestring, valuestring := none }
      match value with
      | [] => .error .outside
      | b :: t =>
          if b ≠ 58 then .error (.fail (b :: t))
          else do
            let value ← skip t
            let ((item, child), value) ← parseValue item value
            let value ← skip value
            match value with
            | [] => .error .outside
            | b :: t =>
                if b = 44 then do
                  let (next, value) ← parseMembers parseValue fuel t
                  .ok (.node item child next, value)
                else .ok (.node item child .null, b :: t)

/-- `parse_object`. -/
def parseObject (parseValue : ValueParser) (fuel : Nat) (item : Fields) (value : Text) :
    Except Stop ((Fields × Item) × Text) :=
  match value with
  | [] => .error .outside
  | b :: t =>
      if b ≠ 123 then .error (.fail value)
      else do
        let item := { item with type := cJSONObject }
        let value ← skip t
        match value with
        | [] => .error .outside
        | b :: t =>
            if b = 125 then .ok ((item, .null), t)
            else do
              let (child, value) ← parseMembers parseValue fuel (b :: t)
              match value with
              | [] => .error .outside
              | b :: t => if b = 125 then .ok ((item, child), t) else .error (.fail (b :: t))

/-- `parse_value`. -/
def parseValue (pow : Int → Double) : Nat → ValueParser
  | 0, _, _ => .error .fuel
  | fuel + 1, item, value => do
      if ← startsWith (cstr "null") value then
        .ok (({ item with type := cJSONNull }, .null), value.drop 4)
      else if ← startsWith (cstr "false") value then
        .ok (({ item with type := cJSONFalse }, .null), value.drop 5)
      else if ← startsWith (cstr "true") value then
        .ok (({ item with type := cJSONTrue, valueint := 1 }, .null), value.drop 4)
      else
        match value with
        | [] => .error .outside
        | b :: _ =>
            if b = 34 then (parseString item value).map fun r => ((r.1, .null), r.2)
            else if b = 45 ∨ IsDigit b then (parseNumber pow item value).map fun r => ((r.1, .null), r.2)
            else if b = 91 then parseArray (parseValue pow fuel) fuel item value
            else if b = 123 then parseObject (parseValue pow fuel) fuel item value
            else .error (.fail value)

/-- `cJSON_ParseWithOpts`: the item, and `*return_parse_end`. -/
def cJSONParseWithOpts (pow : Int → Double) (value : Text) (requireNullTerminated : Bool) :
    Except Stop (Item × Text) := do
  let start ← skip value
  let ((c, child), endPtr) ← parseValue pow (value.length + 1) newItem start
  if requireNullTerminated then do
    let endPtr ← skip endPtr
    match endPtr with
    | [] => .error .outside
    | b :: t => if b ≠ 0 then .error (.fail (b :: t)) else .ok (.node c child .null, b :: t)
  else .ok (.node c child .null, endPtr)

/-- `cJSON_Parse`. -/
def cJSONParse (pow : Int → Double) (value : Text) : Except Stop (Item × Text) :=
  cJSONParseWithOpts pow value false

end XToolkits.Json
