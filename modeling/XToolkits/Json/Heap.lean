import XToolkits.Json.Print
import XToolkits.Lib.LinkedTree

set_option autoImplicit false

/-! # Items in memory: `cJSON.c`

The functions that make, link, search, copy and free items. A function gives `none` where the code
reads, writes or frees what is not allocated, and where it runs in a circle. `malloc` may refuse any
request: what it answers to each is part of the memory, and so is how many it has refused. -/

namespace XToolkits.Json

/-! ## Memory -/

/-- An address. -/
abbrev Ptr := Nat

/-- `NULL`. -/
def nullPtr : Ptr := 0

/-- A `char *`: `NULL`, a string that was allocated, or one of the caller that is never freed. -/
inductive CharPtr where
  | null
  | heap (a : Ptr)
  | const (s : CStr)
  deriving DecidableEq

/-- `cJSON` without its links. -/
structure Cell where
  type : Nat
  valuestring : CharPtr
  valueint : Int
  valuedouble : Double
  string : CharPtr
  deriving DecidableEq

/-- `memset(node,0,sizeof(cJSON))`. -/
def Cell.zero : Cell := ⟨0, .null, 0, .ofInt 0, .null⟩

def Cell.isReference (c : Cell) : Bool := c.type &&& cJSONIsReference ≠ 0
def Cell.stringIsConst (c : Cell) : Bool := c.type &&& cJSONStringIsConst ≠ 0

/-- What `malloc` is going to answer, and how many requests it has refused. -/
structure Answers where
  next : List Ptr
  refused : Nat
  deriving DecidableEq

/-- The items and the strings that are allocated, how many items they are, and the answers of
    `malloc`. -/
structure Memory where
  items : Heap Ptr (Node Ptr (Twig Ptr Cell))
  strings : Heap Ptr CStr
  live : Nat
  answers : Answers

namespace Memory

/-- How many requests `malloc` has refused. -/
def refused (m : Memory) : Nat := m.answers.refused

/-- `malloc` does not answer with memory that is in use. -/
def malloc (m : Memory) : Ptr × Memory :=
  match m.answers.next with
  | [] => (nullPtr, { m with answers := ⟨[], m.refused + 1⟩ })
  | a :: next =>
      if a = nullPtr ∨ (m.items a).isSome ∨ (m.strings a).isSome then
        (nullPtr, { m with answers := ⟨next, m.refused + 1⟩ })
      else (a, { m with answers := ⟨next, m.refused⟩ })

/-- What a `char *` points to. -/
def read (m : Memory) : CharPtr → Option (Option CStr)
  | .null => some none
  | .heap a => (m.strings a).map some
  | .const s => some (some s)

/-- `if (s) cJSON_free(s);` -/
def freeString (m : Memory) : CharPtr → Option Memory
  | .null => some m
  | .heap a => (m.strings a).map fun _ => { m with strings := m.strings.free a }
  | .const _ => none

/-- `if (! kept && s) cJSON_free(s);` -/
def freeUnless (m : Memory) (kept : Bool) (s : CharPtr) : Option Memory :=
  if kept then some m else m.freeString s

/-- `cJSON_free(c);` -/
def freeItem (m : Memory) (c : Ptr) : Option Memory :=
  (m.items c).map fun _ => { m with items := m.items.free c, live := m.live - 1 }

/-- `a->child = child;` -/
def setChild (m : Memory) (a child : Ptr) : Option Memory :=
  (m.items a).map fun n => { m with items := m.items.set a { n with val.child := child } }

/-- Writes to the other fields of `a`. -/
def setVal (m : Memory) (a : Ptr) (f : Cell → Cell) : Option Memory :=
  (m.items a).map fun n => { m with items := m.items.set a { n with val.val := f n.val.val } }

/-- `cJSON_strdup`. -/
def cJSONStrdup (m : Memory) (str : CharPtr) : Option (CharPtr × Memory) := do
  let s ← (← m.read str)
  let (copy, m) := m.malloc
  if copy = nullPtr then some (.null, m)
  else some (.heap copy, { m with strings := m.strings.set copy s })

/-- The copy of a string, if there is one. -/
def strdupIf (m : Memory) (str : CharPtr) : Option (CharPtr × Memory) :=
  if str = .null then some (.null, m) else m.cJSONStrdup str

/-- `cJSON_New_Item`. -/
def cJSONNewItem (m : Memory) : Ptr × Memory :=
  let (node, m) := m.malloc
  if node = nullPtr then (nullPtr, m)
  else
    (node, { m with
      items := m.items.set node ⟨⟨nullPtr, .zero⟩, nullPtr, nullPtr⟩,
      live := m.live + 1 })

/-! ## Deleting -/

/-- `cJSON_Delete`, for an item and the ones after it. -/
def deleteLoop : Nat → Memory → Ptr → Option Memory
  | 0, _, _ => none
  | fuel + 1, m, c =>
      if c = nullPtr then some m
      else do
        let n ← m.items c
        let next := n.next
        let m ← (if ¬ n.val.val.isReference ∧ n.val.child ≠ nullPtr then
          deleteLoop fuel m n.val.child else some m)
        let n ← m.items c
        let m ← m.freeUnless n.val.val.isReference n.val.val.valuestring
        let m ← m.freeUnless n.val.val.stringIsConst n.val.val.string
        let m ← m.freeItem c
        deleteLoop fuel m next

def cJSONDelete (m : Memory) (c : Ptr) : Option Memory := deleteLoop (m.live + 1) m c

/-! ## Creating -/

/-- `item = cJSON_New_Item(); if (item) …` -/
def createWith (m : Memory) (f : Cell → Cell) : Option (Ptr × Memory) :=
  let (item, m) := m.cJSONNewItem
  if item = nullPtr then some (nullPtr, m) else (m.setVal item f).map (item, ·)

/-- `cJSON_CreateNull`, `cJSON_CreateTrue`, `cJSON_CreateFalse`, `cJSON_CreateBool`,
    `cJSON_CreateArray` and `cJSON_CreateObject`. -/
def cJSONCreate (m : Memory) (type : Nat) : Option (Ptr × Memory) :=
  m.createWith fun v => { v with type }

/-- `cJSON_CreateNumber`. -/
def cJSONCreateNumber (m : Memory) (num : Double) : Option (Ptr × Memory) :=
  m.createWith fun v =>
    { v with type := cJSONNumber, valuedouble := num, valueint := num.toInt }

/-- `cJSON_CreateString`. -/
def cJSONCreateString (m : Memory) (string : CharPtr) : Option (Ptr × Memory) := do
  let (item, m) ← m.createWith fun v => { v with type := cJSONString }
  if item = nullPtr then some (nullPtr, m)
  else
    let (s, m) ← m.cJSONStrdup string
    let m ← m.setVal item fun v => { v with valuestring := s }
    if s = .null then (m.cJSONDelete item).map (nullPtr, ·) else some (item, m)

/-! ## Searching -/

/-- `tolower`, in the C locale. -/
def tolower (b : UInt8) : UInt8 := if 65 ≤ b ∧ b ≤ 90 then b + 32 else b

/-- The loop of `cJSON_strcasecmp`. -/
def strcasecmpLoop : CStr → CStr → Int
  | [], [] => 0
  | [], b :: _ => -(tolower b).toNat
  | a :: _, [] => (tolower a).toNat
  | a :: s, b :: t =>
      if tolower a = tolower b then strcasecmpLoop s t
      else (tolower a).toNat - (tolower b).toNat

/-- `cJSON_strcasecmp`. -/
def cJSONStrcasecmp : Option CStr → Option CStr → Int
  | none, none => 0
  | none, some _ => 1
  | some _, none => 1
  | some s, some t => strcasecmpLoop s t

/-- `array ? array->child : 0`. -/
def childOf (m : Memory) (array : Ptr) : Option Ptr :=
  if array = nullPtr then some nullPtr else (m.items array).map (·.val.child)

/-- Whether the name of an item is `string`. -/
def named (m : Memory) (string : CharPtr) (t : Twig Ptr Cell) : Option Bool := do
  let s ← m.read t.val.string
  let k ← m.read string
  some (cJSONStrcasecmp s k = 0)

/-- `while (c && cJSON_strcasecmp(c->string,string)) i++,c=c->next;` -/
def findItem (m : Memory) (string : CharPtr) (c : Ptr) : Option (Ptr × Nat) :=
  indexWhere m.items nullPtr (m.named string) (m.live + 1) c 0

/-- `cJSON_GetArraySize`. -/
def cJSONGetArraySize (m : Memory) (array : Ptr) : Option Nat := do
  let n ← m.items array
  let (_, i) ← indexWhere m.items nullPtr (fun _ => some false) (m.live + 1) n.val.child 0
  some i

/-- `cJSON_GetArrayItem`. -/
def cJSONGetArrayItem (m : Memory) (array : Ptr) (item : Int) : Option Ptr := do
  nth m.items nullPtr item.toNat (← m.childOf array)

/-- `cJSON_GetObjectItem`. -/
def cJSONGetObjectItem (m : Memory) (object : Ptr) (string : CharPtr) : Option Ptr := do
  let (c, _) ← m.findItem string (← m.childOf object)
  some c

/-! ## Linking -/

/-- `suffix_object`. -/
def suffixObject (m : Memory) (prev item : Ptr) : Option Memory := do
  let items ← setNext m.items prev item
  let items ← setPre items item prev
  some { m with items }

/-- `create_reference`. -/
def createReference (m : Memory) (item : Ptr) : Option (Ptr × Memory) :=
  let (ref, m) := m.cJSONNewItem
  if ref = nullPtr then some (nullPtr, m)
  else do
    let n ← m.items item
    let t := { n.val with
      val.string := .null, val.type := n.val.val.type ||| cJSONIsReference }
    some (ref, { m with items := m.items.set ref ⟨t, nullPtr, nullPtr⟩ })

/-- `cJSON_AddItemToArray`. -/
def cJSONAddItemToArray (m : Memory) (array item : Ptr) : Option Memory := do
  let n ← m.items array
  if item = nullPtr then some m
  else if n.val.child = nullPtr then m.setChild array item
  else
    let c ← lastNode m.items nullPtr (m.live + 1) n.val.child
    m.suffixObject c item

/-- `cJSON_AddItemToObject`. -/
def cJSONAddItemToObject (m : Memory) (object : Ptr) (string : CharPtr) (item : Ptr) :
    Option Memory :=
  if item = nullPtr then some m
  else do
    let n ← m.items item
    let m ← m.freeString n.val.val.string
    let (s, m) ← m.cJSONStrdup string
    let m ← m.setVal item fun v => { v with string := s }
    m.cJSONAddItemToArray object item

/-- `cJSON_AddItemToObjectCS`. -/
def cJSONAddItemToObjectCS (m : Memory) (object : Ptr) (string : CharPtr) (item : Ptr) :
    Option Memory :=
  if item = nullPtr then some m
  else do
    let n ← m.items item
    let m ← m.freeUnless n.val.val.stringIsConst n.val.val.string
    let m ← m.setVal item fun v =>
      { v with string, type := v.type ||| cJSONStringIsConst }
    m.cJSONAddItemToArray object item

/-- `cJSON_AddItemReferenceToArray`. -/
def cJSONAddItemReferenceToArray (m : Memory) (array item : Ptr) : Option Memory := do
  let (ref, m) ← m.createReference item
  m.cJSONAddItemToArray array ref

/-- `cJSON_AddItemReferenceToObject`. -/
def cJSONAddItemReferenceToObject (m : Memory) (object : Ptr) (string : CharPtr) (item : Ptr) :
    Option Memory := do
  let (ref, m) ← m.createReference item
  m.cJSONAddItemToObject object string ref

/-- `cJSON_DetachItemFromArray`. -/
def cJSONDetachItemFromArray (m : Memory) (array : Ptr) (which : Int) : Option (Ptr × Memory) := do
  let n ← m.items array
  let c ← nth m.items nullPtr which.toNat n.val.child
  if c = nullPtr then some (nullPtr, m)
  else
    let n ← m.items c
    let items ← setNextIf m.items nullPtr n.pre n.next
    let n ← items c
    let items ← setPreIf items nullPtr n.next n.pre
    let m := { m with items }
    let n ← m.items array
    let m ← (if c = n.val.child then (m.items c).bind fun n => m.setChild array n.next else some m)
    let items ← setNext m.items c nullPtr
    let items ← setPre items c nullPtr
    some (c, { m with items })

/-- `cJSON_DeleteItemFromArray`. -/
def cJSONDeleteItemFromArray (m : Memory) (array : Ptr) (which : Int) : Option Memory := do
  let (c, m) ← m.cJSONDetachItemFromArray array which
  m.cJSONDelete c

/-- `cJSON_DetachItemFromObject`. -/
def cJSONDetachItemFromObject (m : Memory) (object : Ptr) (string : CharPtr) :
    Option (Ptr × Memory) := do
  let n ← m.items object
  let (c, i) ← m.findItem string n.val.child
  if c = nullPtr then some (nullPtr, m) else m.cJSONDetachItemFromArray object i

/-- `cJSON_DeleteItemFromObject`. -/
def cJSONDeleteItemFromObject (m : Memory) (object : Ptr) (string : CharPtr) : Option Memory := do
  let (c, m) ← m.cJSONDetachItemFromObject object string
  m.cJSONDelete c

/-- `if (c==array->child) array->child=newitem; else newitem->prev->next=newitem;` -/
def linkIn (m : Memory) (array c newitem : Ptr) : Option Memory := do
  let n ← m.items array
  if c = n.val.child then m.setChild array newitem
  else
    let n ← m.items newitem
    let items ← setNext m.items n.pre newitem
    some { m with items }

/-- `cJSON_InsertItemInArray`. -/
def cJSONInsertItemInArray (m : Memory) (array : Ptr) (which : Int) (newitem : Ptr) :
    Option Memory := do
  let n ← m.items array
  let c ← nth m.items nullPtr which.toNat n.val.child
  if c = nullPtr then m.cJSONAddItemToArray array newitem
  else
    let items ← setNext m.items newitem c
    let n ← items c
    let items ← setPre items newitem n.pre
    let items ← setPre items c newitem
    { m with items : Memory }.linkIn array c newitem

/-- `cJSON_ReplaceItemInArray`. -/
def cJSONReplaceItemInArray (m : Memory) (array : Ptr) (which : Int) (newitem : Ptr) :
    Option Memory := do
  let n ← m.items array
  let c ← nth m.items nullPtr which.toNat n.val.child
  if c = nullPtr then some m
  else
    let n ← m.items c
    let items ← setNext m.items newitem n.next
    let n ← items c
    let items ← setPre items newitem n.pre
    let n ← items newitem
    let items ← setPreIf items nullPtr n.next newitem
    let m := { m with items }
    let m ← m.linkIn array c newitem
    let items ← setPre m.items c nullPtr
    let items ← setNext items c nullPtr
    let m := { m with items }
    m.cJSONDelete c

/-- `cJSON_ReplaceItemInObject`. -/
def cJSONReplaceItemInObject (m : Memory) (object : Ptr) (string : CharPtr) (newitem : Ptr) :
    Option Memory := do
  let n ← m.items object
  let (c, i) ← m.findItem string n.val.child
  if c = nullPtr then some m
  else
    let (s, m) ← m.cJSONStrdup string
    let m ← m.setVal newitem fun v => { v with string := s }
    m.cJSONReplaceItemInArray object i newitem

/-! ## Creating arrays and copies -/

/-- The loop of the functions that create an array: `p` is the item before, if there is one. -/
def fillArray {α : Type} (make : Memory → α → Option (Ptr × Memory)) (a : Ptr) :
    Memory → Ptr → List α → Option (Ptr × Memory)
  | m, _, [] => some (a, m)
  | m, p, x :: xs => do
      let (n, m) ← make m x
      if n = nullPtr then (m.cJSONDelete a).map (nullPtr, ·)
      else
        let m ← (if p = nullPtr then m.setChild a n else m.suffixObject p n)
        fillArray make a m n xs

def createFilled {α : Type} (make : Memory → α → Option (Ptr × Memory)) (m : Memory) (xs : List α) :
    Option (Ptr × Memory) := do
  let (a, m) ← m.cJSONCreate cJSONArray
  if a = nullPtr then some (nullPtr, m) else fillArray make a m nullPtr xs

/-- `cJSON_CreateDoubleArray` and `cJSON_CreateFloatArray`. -/
def cJSONCreateDoubleArray : Memory → List Double → Option (Ptr × Memory) :=
  createFilled cJSONCreateNumber

/-- `cJSON_CreateIntArray`. -/
def cJSONCreateIntArray : Memory → List Int → Option (Ptr × Memory) :=
  createFilled fun m number => m.cJSONCreateNumber (.ofInt number)

/-- `cJSON_CreateStringArray`. -/
def cJSONCreateStringArray : Memory → List CharPtr → Option (Ptr × Memory) :=
  createFilled cJSONCreateString

mutual

/-- `cJSON_Duplicate`. -/
def duplicateItem : Nat → Memory → Ptr → Bool → Option (Ptr × Memory)
  | 0, _, _, _ => none
  | fuel + 1, m, item, recurse =>
      if item = nullPtr then some (nullPtr, m)
      else
        let (newitem, m) := m.cJSONNewItem
        if newitem = nullPtr then some (nullPtr, m)
        else do
          let n ← m.items item
          let v := n.val.val
          let m ← m.setVal newitem fun w => { w with
            type := v.type ^^^ (v.type &&& cJSONIsReference), valueint := v.valueint,
            valuedouble := v.valuedouble }
          let (s, m) ← m.strdupIf v.valuestring
          let m ← m.setVal newitem fun w => { w with valuestring := s }
          if v.valuestring ≠ .null ∧ s = .null then (m.cJSONDelete newitem).map (nullPtr, ·)
          else
            let (s, m) ← m.strdupIf v.string
            let m ← m.setVal newitem fun w => { w with string := s }
            if v.string ≠ .null ∧ s = .null then (m.cJSONDelete newitem).map (nullPtr, ·)
            else if ¬ recurse then some (newitem, m)
            else duplicateChildren fuel m newitem n.val.child nullPtr

/-- The loop along the children, behind the copy `nptr`. -/
def duplicateChildren : Nat → Memory → Ptr → Ptr → Ptr → Option (Ptr × Memory)
  | 0, _, _, _, _ => none
  | fuel + 1, m, newitem, cptr, nptr =>
      if cptr = nullPtr then some (newitem, m)
      else do
        let (newchild, m) ← duplicateItem fuel m cptr true
        if newchild = nullPtr then (m.cJSONDelete newitem).map (nullPtr, ·)
        else
          let m ← (if nptr ≠ nullPtr then m.suffixObject nptr newchild
            else m.setChild newitem newchild)
          let n ← m.items cptr
          duplicateChildren fuel m newitem n.next newchild

end

end Memory

end XToolkits.Json
