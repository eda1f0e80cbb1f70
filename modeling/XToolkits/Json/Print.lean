import XToolkits.Lib.Decimal

set_option autoImplicit false

/-! # Items and their text: `cJSON.c`

An item with its children and the items after it in the same array or object, and the functions that
write an item into a string of its own. A function that allocates the string says how many bytes it
asks for, which it counts in an `int`; `malloc` gives them. A result of `none` is a null pointer. -/

namespace XToolkits.Json

/-! ## Items -/

/-- The types of items. The field of an item may carry flags above the low byte. -/
def cJSONFalse : Nat := 1
def cJSONTrue : Nat := 2
def cJSONNull : Nat := 4
def cJSONNumber : Nat := 8
def cJSONString : Nat := 16
def cJSONArray : Nat := 32
def cJSONObject : Nat := 64
def cJSONIsReference : Nat := 256
def cJSONStringIsConst : Nat := 512

/-- What an item holds besides its links. -/
structure Fields where
  type : Nat
  valuestring : Option CStr
  valueint : Int
  valuedouble : Double
  string : Option CStr
  deriving DecidableEq

/-- `cJSON`: an item, what `child` points to and what `next` points to. `prev` is the link back. -/
inductive Item where
  | null
  | node (fields : Fields) (child next : Item)
  deriving DecidableEq

/-- `cJSON_New_Item`. -/
def newItem : Fields := ⟨0, none, 0, .ofInt 0, none⟩

/-- `cJSON_CreateNull`, `cJSON_CreateTrue`, `cJSON_CreateFalse`, `cJSON_CreateArray` and
    `cJSON_CreateObject`. -/
def cJSONCreate (type : Nat) : Item := .node { newItem with type := type } .null .null

/-- `cJSON_CreateNumber`. -/
def cJSONCreateNumber (num : Double) : Item :=
  .node { newItem with type := cJSONNumber, valuedouble := num, valueint := num.toInt } .null .null

/-- `cJSON_CreateString`. -/
def cJSONCreateString (string : CStr) : Item :=
  .node { newItem with type := cJSONString, valuestring := some string } .null .null

/-! ## Numbers -/

/-- A string written into newly allocated memory. -/
structure Printed where
  size : Nat
  text : CStr
  deriving DecidableEq, Repr

/-- `INT_MAX`, `INT_MIN` and `DBL_EPSILON`. -/
def intMax : Int := 2 ^ 31 - 1
def intMin : Int := -2 ^ 31
def dblEpsilon : Double := .round (2 ^ (-52 : Int))

/-- What `sprintf` writes for a double with a format. -/
def sprintf (format : ℚ → NumberText) : Double → CStr
  | .finite q _ => (format q).text
  | .infinity negative => if negative then cstr "-inf" else cstr "inf"
  | .nan => cstr "nan"

/-- `print_number`. -/
def printNumber (valuedouble : Double) (valueint : Int) : Printed :=
  let d := valuedouble
  if d.eq (.ofInt 0) then ⟨2, cstr "0"⟩
  else if (Double.sub (.ofInt valueint) d).abs.le dblEpsilon ∧ d.le (.ofInt intMax) ∧
      Double.le (.ofInt intMin) d then
    ⟨21, (intText valueint).text⟩
  else ⟨64,
    if ¬ (d.mul (.ofInt 0)).eq (.ofInt 0) then cstr "null"
    else if (d.floor.sub d).abs.le dblEpsilon ∧ d.abs.lt (.round (10 ^ (60 : Int))) then
      sprintf fixed0 d
    else if d.abs.lt (.round (10 ^ (-6 : Int))) ∨ Double.lt (.round (10 ^ (9 : Int))) d.abs then
      sprintf scientific d
    else sprintf fixed6 d⟩

/-! ## Strings -/

/-- A digit of `%x`. -/
def hexDigit (n : Nat) : UInt8 := if n < 10 then UInt8.ofNat (48 + n) else UInt8.ofNat (87 + n)

/-- `sprintf(ptr2,"u%04x",token)`. -/
def unicodeEscape (token : UInt8) : List UInt8 :=
  [117, 48, 48, hexDigit (token.toNat / 16), hexDigit (token.toNat % 16)]

/-- Whether a byte stands for itself in a string. -/
def isPlain (b : UInt8) : Bool := b > 31 ∧ b ≠ 34 ∧ b ≠ 92

/-- What the loop of `print_string_ptr` writes for a byte. -/
def escapeByte (token : UInt8) : List UInt8 :=
  if isPlain token then [token]
  else 92 :: (
    if token = 92 then [92]
    else if token = 34 then [34]
    else if token = 8 then [98]
    else if token = 12 then [102]
    else if token = 10 then [110]
    else if token = 13 then [114]
    else if token = 9 then [116]
    else unicodeEscape token)

/-- What the loop before it counts for the byte: `strchr` finds the characters with an escape of
    their own. -/
def escapeLen (token : UInt8) : Nat :=
  if token ∈ [34, 92, 8, 12, 10, 13, 9] then 2 else if token < 32 then 6 else 1

/-- `print_string_ptr`. A string without bytes to escape is copied. -/
def printStringPtr : Option CStr → Printed
  | none => ⟨3, [34, 34]⟩
  | some str =>
      if str.all isPlain then ⟨sizeT (wrapS32 (wrapS32 str.length + 3)), 34 :: str ++ [34]⟩
      else ⟨sizeT (wrapS32 (sumS32 0 (str.map escapeLen) + 3)), 34 :: str.flatMap escapeByte ++ [34]⟩

/-! ## Arrays and objects -/

def tabs (n : Nat) : List UInt8 := List.replicate n 9

/-- `fmt?x:[]`. -/
def whenFmt (fmt : Bool) (s : List UInt8) : List UInt8 := if fmt then s else []

/-- The entries of `print_array`, each but the last one with a comma. -/
def joinEntries (fmt : Bool) : List CStr → CStr
  | [] => []
  | [e] => e
  | e :: es => e ++ 44 :: whenFmt fmt [32] ++ joinEntries fmt es

/-- `print_array`, from what `print_value` gives for the children. -/
def printArray (fmt : Bool) (entries : List Printed) : Printed :=
  if entries = [] then ⟨3, [91, 93]⟩
  else ⟨sizeT (sumS32 5 (entries.map fun e => e.text.length + 2 + if fmt then 1 else 0)),
    91 :: joinEntries fmt (entries.map Printed.text) ++ [93]⟩

/-- The members of `print_object`, each but the last one with a comma. -/
def joinMembers (fmt : Bool) (depth : Nat) : List (CStr × CStr) → CStr
  | [] => []
  | (name, entry) :: es =>
      whenFmt fmt (tabs depth) ++ name ++ 58 :: whenFmt fmt [9] ++ entry ++
        (if es = [] then [] else [44]) ++ whenFmt fmt [10] ++ joinMembers fmt depth es

/-- `print_object`, from what `print_string_ptr` and `print_value` give for the children. -/
def printObject (fmt : Bool) (depth : Nat) (entries : List (Printed × Printed)) : Printed :=
  if entries = [] then
    ⟨if fmt then sizeT (wrapS32 (depth + 4)) else 3, 123 :: whenFmt fmt (10 :: tabs depth) ++ [125]⟩
  else
    let depth := depth + 1
    ⟨sizeT (sumS32 (if fmt then wrapS32 (7 + depth) else 7) (entries.map fun e =>
        e.2.text.length + e.1.text.length + 2 + if fmt then 2 + depth else 0)),
      123 :: whenFmt fmt [10] ++
        joinMembers fmt depth (entries.map fun e => (e.1.text, e.2.text)) ++
        whenFmt fmt (tabs (depth - 1)) ++ [125]⟩

/-- `print_value`, from what the children give. -/
def printValue (fmt : Bool) (depth : Nat) (item : Fields)
    (children : List (Printed × Option Printed)) : Option Printed :=
  let type := item.type % 256
  if type = cJSONNull then some ⟨5, cstr "null"⟩
  else if type = cJSONFalse then some ⟨6, cstr "false"⟩
  else if type = cJSONTrue then some ⟨5, cstr "true"⟩
  else if type = cJSONNumber then some (printNumber item.valuedouble item.valueint)
  else if type = cJSONString then some (printStringPtr item.valuestring)
  else if type = cJSONArray then (children.mapM Prod.snd).map (printArray fmt)
  else if type = cJSONObject then
    (children.mapM fun (e : Printed × Option Printed) => e.2.map fun r => (e.1, r)).map
      (printObject fmt depth)
  else none

/-- `print_string_ptr` for the name of every item of a chain, and `print_value` for the item. -/
def Item.printChain (fmt : Bool) : Item → Nat → List (Printed × Option Printed)
  | .null, _ => []
  | .node fields child next, depth =>
      (printStringPtr fields.string, printValue fmt depth fields (child.printChain fmt (depth + 1))) ::
        next.printChain fmt depth

/-- `cJSON_Print` and `cJSON_PrintUnformatted`. -/
def cJSONPrint (fmt : Bool) : Item → Option Printed
  | .null => none
  | .node fields child _ => printValue fmt 0 fields (child.printChain fmt 1)

end XToolkits.Json
