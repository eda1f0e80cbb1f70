import XToolkits.Json.Parse

set_option autoImplicit false

/-! # JSON values and their texts

What JSON is about: values, and which texts stand for a value. A text may have gaps between its
tokens; what a gap is made of is a parameter, so the same grammar describes texts with white space,
without, and with comments. Which double a number is read as is another. `Item.value` is the value that
an item of the program stands for. -/

namespace XToolkits.Json

/-! ## Values -/

/-- A JSON value. Numbers are doubles and strings are bytes. -/
inductive Value where
  | null
  | bool (b : Bool)
  | num (d : Double)
  | str (s : CStr)
  | arr (vs : List Value)
  | obj (ms : List (CStr × Value))

/-! ## Strings -/

/-- The characters behind a backslash, and what they stand for. -/
def escapes : List (UInt8 × UInt8) :=
  [(34, 34), (92, 92), (47, 47), (98, 8), (102, 12), (110, 10), (114, 13), (116, 9)]

/-- Four hexadecimal digits, of either case. -/
inductive Hex4 : Nat → List UInt8 → Prop where
  | mk {b₀ b₁ b₂ b₃ : UInt8} {d₀ d₁ d₂ d₃ : Nat} (h₀ : hexVal b₀ = some d₀) (h₁ : hexVal b₁ = some d₁)
      (h₂ : hexVal b₂ = some d₂) (h₃ : hexVal b₃ = some d₃) :
      Hex4 (((d₀ * 16 + d₁) * 16 + d₂) * 16 + d₃) [b₀, b₁, b₂, b₃]

/-- The bytes of a string, and what stands for them between the quotes: a byte for itself, an escaped
    one, the code point of a character, or its two surrogates. -/
inductive Escaped : CStr → List UInt8 → Prop where
  | nil : Escaped [] []
  | plain {b : UInt8} {s e : List UInt8} (hb : b ≠ 0 ∧ b ≠ 34 ∧ b ≠ 92) (h : Escaped s e) :
      Escaped (b :: s) (b :: e)
  | escape {c b : UInt8} {s e : List UInt8} (hc : (c, b) ∈ escapes) (h : Escaped s e) :
      Escaped (b :: s) (92 :: c :: e)
  | unicode {c : Char} {u s e : List UInt8} (hc : c ≠ '\x00') (hu : Hex4 c.toNat u)
      (h : Escaped s e) : Escaped (String.utf8EncodeChar c ++ s) (92 :: 117 :: u ++ e)
  | surrogates {c : Char} {u v s e : List UInt8} (hc : 0x10000 ≤ c.toNat)
      (hu : Hex4 (0xD800 + (c.toNat - 0x10000) / 1024) u)
      (hv : Hex4 (0xDC00 + (c.toNat - 0x10000) % 1024) v) (h : Escaped s e) :
      Escaped (String.utf8EncodeChar c ++ s) (92 :: 117 :: u ++ (92 :: 117 :: v ++ e))

/-! ## Texts -/

/-- What a part of a text stands for: a value, a value with gaps around it, one or more of these with
    commas between them, and the same with names. -/
inductive Part where
  | value (v : Value)
  | element (v : Value)
  | elements (vs : List Value)
  | member (name : CStr) (v : Value)
  | members (ms : List (CStr × Value))

/-- The texts of a part, with gaps between the tokens, when numbers are read with `read`. -/
inductive Renders (gap : List UInt8 → Prop) (read : NumberText → Double) : Part → List UInt8 → Prop where
  | null : Renders gap read (.value .null) (cstr "null")
  | bool (b : Bool) : Renders gap read (.value (.bool b)) (if b then cstr "true" else cstr "false")
  | num {t : NumberText} (ht : t.Valid) : Renders gap read (.value (.num (read t))) t.text
  | str {s e : List UInt8} (he : Escaped s e) : Renders gap read (.value (.str s)) (34 :: e ++ [34])
  | arrNil {w : List UInt8} (hw : gap w) : Renders gap read (.value (.arr [])) (91 :: w ++ [93])
  | arr {vs : List Value} {s : List UInt8} (h : Renders gap read (.elements vs) s) :
      Renders gap read (.value (.arr vs)) (91 :: s ++ [93])
  | objNil {w : List UInt8} (hw : gap w) : Renders gap read (.value (.obj [])) (123 :: w ++ [125])
  | obj {ms : List (CStr × Value)} {s : List UInt8} (h : Renders gap read (.members ms) s) :
      Renders gap read (.value (.obj ms)) (123 :: s ++ [125])
  | element {v : Value} {w s w' : List UInt8} (hw : gap w) (h : Renders gap read (.value v) s)
      (hw' : gap w') : Renders gap read (.element v) (w ++ s ++ w')
  | lastElement {v : Value} {s : List UInt8} (h : Renders gap read (.element v) s) :
      Renders gap read (.elements [v]) s
  | elements {v : Value} {vs : List Value} {s s' : List UInt8} (h : Renders gap read (.element v) s)
      (h' : Renders gap read (.elements vs) s') : Renders gap read (.elements (v :: vs)) (s ++ 44 :: s')
  | member {name : CStr} {v : Value} {w e w' s : List UInt8} (hw : gap w) (he : Escaped name e)
      (hw' : gap w') (h : Renders gap read (.element v) s) :
      Renders gap read (.member name v) (w ++ (34 :: e ++ [34]) ++ w' ++ 58 :: s)
  | lastMember {name : CStr} {v : Value} {s : List UInt8} (h : Renders gap read (.member name v) s) :
      Renders gap read (.members [(name, v)]) s
  | members {name : CStr} {v : Value} {ms : List (CStr × Value)} {s s' : List UInt8}
      (h : Renders gap read (.member name v) s) (h' : Renders gap read (.members ms) s') :
      Renders gap read (.members ((name, v) :: ms)) (s ++ 44 :: s')

/-- White space, as `skip` has it. -/
def Blank (w : List UInt8) : Prop := ∀ b ∈ w, b ≠ 0 ∧ b ≤ 32

instance (w : List UInt8) : Decidable (Blank w) :=
  List.decidableBAll (fun b => b ≠ 0 ∧ b ≤ 32) w

/-- Texts with fewer gaps are texts. -/
theorem Renders.mono {gap gap' : List UInt8 → Prop} {read : NumberText → Double} (hgap : ∀ w, gap w → gap' w) {p : Part}
    {s : List UInt8} (h : Renders gap read p s) : Renders gap' read p s := by
  induction h with
  | null => exact .null
  | bool b => exact .bool b
  | num ht => exact .num ht
  | str he => exact .str he
  | arrNil hw => exact .arrNil (hgap _ hw)
  | arr _ ih => exact .arr ih
  | objNil hw => exact .objNil (hgap _ hw)
  | obj _ ih => exact .obj ih
  | element hw _ hw' ih => exact .element (hgap _ hw) ih (hgap _ hw')
  | lastElement _ ih => exact .lastElement ih
  | elements _ _ ih ih' => exact .elements ih ih'
  | member hw he hw' _ ih => exact .member (hgap _ hw) he (hgap _ hw') ih
  | lastMember _ ih => exact .lastMember ih
  | members _ _ ih ih' => exact .members ih ih'

/-! ## Items -/

/-- A string that a pointer can give. -/
def cString (s : Option CStr) : Option CStr := s.bind fun s => if 0 ∈ s then none else some s

/-- The value of an item, from the names and values of its children. The two fields of a number agree;
    `num` is the value of a number. -/
def valueOf (num : Double → Option Value) (item : Fields) (children : List (Option CStr × Value)) :
    Option Value :=
  let type := item.type % 256
  if type = cJSONNull then some .null
  else if type = cJSONFalse then some (.bool false)
  else if type = cJSONTrue then some (.bool true)
  else if type = cJSONNumber then
    if item.valueint = item.valuedouble.toInt then num item.valuedouble else none
  else if type = cJSONString then (cString item.valuestring).map .str
  else if type = cJSONArray then some (.arr (children.map Prod.snd))
  else if type = cJSONObject then
    (children.mapM fun c => (cString c.1).map fun name => (name, c.2)).map .obj
  else none

/-- The names and values of the items of a chain. -/
def Item.parts (num : Double → Option Value) : Item → Option (List (Option CStr × Value))
  | .null => some []
  | .node item child next => do
      let v ← valueOf num item (← child.parts num)
      return (item.string, v) :: (← next.parts num)

/-- The value of an item by itself. -/
def Item.value (num : Double → Option Value) : Item → Option Value
  | .null => none
  | .node item child _ => (child.parts num).bind (valueOf num item)

/-- Every number has its own value. -/
def anyNumber (d : Double) : Option Value := some (.num d)

end XToolkits.Json
