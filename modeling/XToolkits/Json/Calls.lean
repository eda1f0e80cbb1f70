import XToolkits.Json.Edits
import XToolkits.Lib.Transition

set_option autoImplicit false

/-! # Programs that work with items

A program calls the functions one after the other, in any order. `Call.Allowed` says what each of them
needs: an item that is added or deleted is a root of the forest, it is not put below itself, and a
string that is passed can be read. A program that keeps to this never makes the code read, write or
free what is not allocated, nor run in a circle, whatever `malloc` answers. -/

namespace XToolkits.Json

open Siblings Memory

/-! ## Calls -/

inductive Call where
  | create (type : Nat)
  | createNumber (num : Double)
  | createString (string : CharPtr)
  | delete (c : Ptr)
  | addItemToArray (array item : Ptr)
  | addItemToObject (object : Ptr) (string : CharPtr) (item : Ptr)
  | addItemToObjectCS (object : Ptr) (string : CStr) (item : Ptr)
  | addItemReferenceToArray (array item : Ptr)
  | addItemReferenceToObject (object : Ptr) (string : CharPtr) (item : Ptr)
  | detachItemFromArray (array : Ptr) (which : Int)
  | deleteItemFromArray (array : Ptr) (which : Int)
  | detachItemFromObject (object : Ptr) (string : CharPtr)
  | deleteItemFromObject (object : Ptr) (string : CharPtr)
  | insertItemInArray (array : Ptr) (which : Int) (newitem : Ptr)
  | replaceItemInArray (array : Ptr) (which : Int) (newitem : Ptr)
  | replaceItemInObject (object : Ptr) (string : CharPtr) (newitem : Ptr)
  | getArraySize (array : Ptr)
  | getArrayItem (array : Ptr) (item : Int)
  | getObjectItem (object : Ptr) (string : CharPtr)
  deriving DecidableEq

/-- What a function returns. -/
inductive Answer where
  | item (p : Ptr)
  | size (n : Nat)
  deriving DecidableEq

/-- A function that returns an item, and one that returns nothing. -/
def returning (r : Option (Ptr × Memory)) : Option (Memory × List Answer) :=
  r.map fun q => (q.2, [.item q.1])

def silent (r : Option Memory) : Option (Memory × List Answer) := r.map (·, [])

/-- A function that writes nothing. -/
def showing (m : Memory) (r : Option Answer) : Option (Memory × List Answer) := r.map fun e => (m, [e])

def Memory.step (m : Memory) : Call → Option (Memory × List Answer)
  | .create type => returning (m.cJSONCreate type)
  | .createNumber num => returning (m.cJSONCreateNumber num)
  | .createString string => returning (m.cJSONCreateString string)
  | .delete c => silent (m.cJSONDelete c)
  | .addItemToArray array item => silent (m.cJSONAddItemToArray array item)
  | .addItemToObject object string item => silent (m.cJSONAddItemToObject object string item)
  | .addItemToObjectCS object s item => silent (m.cJSONAddItemToObjectCS object (.const s) item)
  | .addItemReferenceToArray array item => silent (m.cJSONAddItemReferenceToArray array item)
  | .addItemReferenceToObject object string item =>
      silent (m.cJSONAddItemReferenceToObject object string item)
  | .detachItemFromArray array which => returning (m.cJSONDetachItemFromArray array which)
  | .deleteItemFromArray array which => silent (m.cJSONDeleteItemFromArray array which)
  | .detachItemFromObject object string => returning (m.cJSONDetachItemFromObject object string)
  | .deleteItemFromObject object string => silent (m.cJSONDeleteItemFromObject object string)
  | .insertItemInArray array which newitem => silent (m.cJSONInsertItemInArray array which newitem)
  | .replaceItemInArray array which newitem => silent (m.cJSONReplaceItemInArray array which newitem)
  | .replaceItemInObject object string newitem =>
      silent (m.cJSONReplaceItemInObject object string newitem)
  | .getArraySize array => showing m ((m.cJSONGetArraySize array).map .size)
  | .getArrayItem array item => showing m ((m.cJSONGetArrayItem array item).map .item)
  | .getObjectItem object string => showing m ((m.cJSONGetObjectItem object string).map .item)

/-- Nothing is allocated. -/
def emptyMemory (answers : Answers) : Memory := ⟨fun _ => none, fun _ => none, 0, answers⟩

/-! ## What the functions need -/

/-- A string that is not `NULL` and can be read. -/
def Readable (m : Memory) (string : CharPtr) : Prop := ∃ s, m.read string = some (some s)

/-- An item that is no reference is at the address. -/
def Holder (F : Forest) (array : Ptr) : Prop := ∃ d, At F array d

/-- The item is a root, and the array is in another tree. -/
def Movable (F : Forest) (array item : Ptr) : Prop := ∃ b G d, Move F array item b G d

def Call.Allowed (m : Memory) (F : Forest) : Call → Prop
  -- the types that the functions set have no flags
  | .create type => type < 256
  | .createNumber _ => True
  | .createString string => Readable m string
  | .delete c => c = nullPtr ∨ ∃ b ∈ F, b.addr = c
  | .addItemToArray array item => (item = nullPtr ∧ array ∈ F.addrs) ∨ Movable F array item
  -- the old name is freed before the new one is read
  | .addItemToObject object string item => item = nullPtr ∨ ∃ b G d, Move F object item b G d ∧
      b.twig.val.string.Freeable ∧ Readable (m.without [] b.twig.val.string.addrs) string
  | .addItemToObjectCS object _ item => item = nullPtr ∨ Movable F object item
  | .addItemReferenceToArray array item => item ∈ F.addrs ∧ Holder F array
  | .addItemReferenceToObject object string item =>
      item ∈ F.addrs ∧ Holder F object ∧ Readable m string
  | .detachItemFromArray array _ | .deleteItemFromArray array _ | .getArraySize array => Holder F array
  | .detachItemFromObject object string | .deleteItemFromObject object string =>
      Holder F object ∧ (m.read string).isSome
  -- only these two look whether there is an array at all
  | .getArrayItem array _ => array = nullPtr ∨ Holder F array
  | .getObjectItem object string => object = nullPtr ∨ (Holder F object ∧ (m.read string).isSome)
  | .insertItemInArray array _ newitem | .replaceItemInArray array _ newitem =>
      Movable F array newitem
  | .replaceItemInObject object string newitem => Movable F object newitem ∧ Readable m string

/-- The call is allowed in the forest that the memory holds. -/
def Call.Legal (m : Memory) (c : Call) : Prop := ∀ F lost, Owns m F lost → c.Allowed m F

variable {m m' : Memory} {F G : Forest} {lost lost' : List Ptr}

theorem owns_empty (answers : Answers) : Owns (emptyMemory answers) [] [] where
  roots := fun _ hd => absurd hd List.not_mem_nil
  items := ⟨List.nodup_nil, fun _ => iff_of_false Bool.false_ne_true List.not_mem_nil⟩
  strings := ⟨List.nodup_nil, fun _ => iff_of_false Bool.false_ne_true List.not_mem_nil⟩
  sound := fun _ hc => absurd hc List.not_mem_nil
  live := rfl
  null := rfl

/-! ## What the functions do -/

/-- The memory, the forest in it, and the strings that are lost. -/
structure World where
  memory : Memory
  forest : Forest
  lost : List Ptr

def World.Valid (w : World) : Prop := Owns w.memory w.forest w.lost

/-- What a call leaves: no string is written to, and only the `released` ones are given back. -/
structure Leaves (w w' : World) (forest : Forest) (lost released : List Ptr) : Prop where
  forest : w'.forest = forest
  lost : w'.lost = lost
  kept : ∀ x, x ∉ released → (w.memory.strings x).isSome →
    w'.memory.strings x = w.memory.strings x

/-- `malloc` has refused a request. -/
def Refuses (w w' : World) : Prop := w.memory.refused < w'.memory.refused

/-- It has refused none. -/
def Serves (w w' : World) : Prop := w'.memory.refused = w.memory.refused

/-- `NULL` when `malloc` refuses, and a new root without children when it does not. -/
def Creates (w : World) (es : List Answer) (w' : World) (v : Cell) : Prop :=
  (Refuses w w' ∧ es = [.item nullPtr] ∧ Leaves w w' w.forest w.lost []) ∨
    (Serves w w' ∧ ∃ a, a ≠ nullPtr ∧ es = [.item a] ∧
      Leaves w w' (leaf a v :: w.forest) w.lost [])

/-- The child with the number that `k` gives becomes a root, if there is one. -/
def Detaches (w : World) (es : List Answer) (w' : World) (array : Ptr) (k : Branch Ptr Cell → Nat) :
    Prop :=
  ∃ d, At w.forest array d ∧
    ((d.children.toList[k d]? = none ∧ es = [.item nullPtr] ∧ w' = w) ∨
      ∃ c, d.children.toList[k d]? = some c ∧ es = [.item c.addr] ∧
        Leaves w w' (c :: w.forest.edit array (·.eraseIdx (k d))) w.lost [])

/-- It is deleted. -/
def Removes (w w' : World) (array : Ptr) (k : Branch Ptr Cell → Nat) : Prop :=
  ∃ d, At w.forest array d ∧
    ((d.children.toList[k d]? = none ∧ w' = w) ∨
      ∃ c, d.children.toList[k d]? = some c ∧
        Leaves w w' (w.forest.edit array (·.eraseIdx (k d))) (w.lost ++ strayStrings c)
          (ownedStrings (onlyChild c)))

/-- The root, with another name. -/
def renamed (b : Branch Ptr Cell) (name : CharPtr) : Branch Ptr Cell :=
  withVal b { b.twig.val with string := name }

def renamedConst (b : Branch Ptr Cell) (s : CStr) : Branch Ptr Cell :=
  withVal b { b.twig.val with
    string := .const s, type := b.twig.val.type ||| cJSONStringIsConst }

/-- The answers and what becomes of the forest. -/
def Call.Does (w : World) (es : List Answer) (w' : World) : Call → Prop
  | .create type => Creates w es w' { Cell.zero with type }
  | .createNumber num =>
      Creates w es w' { Cell.zero with type := cJSONNumber, valuedouble := num, valueint := num.toInt }
  | .createString string => ∃ text, Creates w es w' (stringCell text) ∧
      (es = [.item nullPtr] ∨ w'.memory.read text = w.memory.read string)
  | .delete c => es = [] ∧ ((c = nullPtr ∧ w' = w) ∨
      ∃ b G, w.forest.Perm (b :: G) ∧ b.addr = c ∧
        Leaves w w' G (w.lost ++ strayStrings b) (ownedStrings (onlyChild b)))
  | .addItemToArray array item => es = [] ∧ ((item = nullPtr ∧ w' = w) ∨
      ∃ b G d, Move w.forest array item b G d ∧ Leaves w w' (G.edit array (· ++ [b])) w.lost [])
  | .addItemToObject object string item => es = [] ∧ ((item = nullPtr ∧ w' = w) ∨
      ∃ b G d name, Move w.forest object item b G d ∧
        Names (w.memory.without [] b.twig.val.string.addrs) string w'.memory name ∧
        Leaves w w' (G.edit object (· ++ [renamed b name])) w.lost b.twig.val.string.addrs)
  -- a name that was allocated under the flag is lost
  | .addItemToObjectCS object s item => es = [] ∧ ((item = nullPtr ∧ w' = w) ∨
      ∃ b G d, Move w.forest object item b G d ∧
        Leaves w w' (G.edit object (· ++ [renamedConst b s])) (b.twig.val.stray ++ w.lost)
          b.twig.val.string.addrs)
  -- without memory for the reference nothing is added
  | .addItemReferenceToArray array item => es = [] ∧
      ((Refuses w w' ∧ Leaves w w' w.forest w.lost []) ∨
        (Serves w w' ∧ ∃ a n, w.memory.items item = some n ∧
          Leaves w w' (w.forest.edit array (· ++ [reference a n.val])) w.lost []))
  | .addItemReferenceToObject object string item => es = [] ∧
      ((Refuses w w' ∧ Leaves w w' w.forest w.lost []) ∨
        ∃ a n name, w.memory.items item = some n ∧ Names w.memory string w'.memory name ∧
          Leaves w w' (w.forest.edit object (· ++ [renamed (reference a n.val) name])) w.lost [])
  | .detachItemFromArray array which => Detaches w es w' array fun _ => which.toNat
  | .deleteItemFromArray array which => es = [] ∧ Removes w w' array fun _ => which.toNat
  | .detachItemFromObject object string =>
      Detaches w es w' object (indexOf w.memory (w.memory.read string).join)
  | .deleteItemFromObject object string =>
      es = [] ∧ Removes w w' object (indexOf w.memory (w.memory.read string).join)
  | .insertItemInArray array which newitem => es = [] ∧ ∃ b G d, Move w.forest array newitem b G d ∧
      Leaves w w' (G.edit array (insertAt which.toNat b)) w.lost []
  | .replaceItemInArray array which newitem => es = [] ∧ ∃ b G d, Move w.forest array newitem b G d ∧
      ((d.children.toList[which.toNat]? = none ∧ w' = w) ∨
        ∃ c, d.children.toList[which.toNat]? = some c ∧
          Leaves w w' (G.edit array (·.set which.toNat b)) (w.lost ++ strayStrings c)
            (ownedStrings (onlyChild c)))
  -- the name that the item had is lost
  | .replaceItemInObject object string newitem => es = [] ∧
      ∃ b G d, Move w.forest object newitem b G d ∧
        let k := indexOf w.memory (w.memory.read string).join d
        ((d.children.toList[k]? = none ∧ w' = w) ∨
          ∃ c name, d.children.toList[k]? = some c ∧ Names w.memory string w'.memory name ∧
            Leaves w w' (G.edit object (·.set k (renamed b name)))
              (b.twig.val.string.addrs ++ w.lost ++ strayStrings c) (ownedStrings (onlyChild c)))
  | .getArraySize array => w' = w ∧ ∃ d, At w.forest array d ∧
      es = [.size d.children.toList.length]
  | .getArrayItem array item => w' = w ∧ ((array = nullPtr ∧ es = [.item nullPtr]) ∨
      ∃ d, At w.forest array d ∧
        es = [.item ((d.children.toList[item.toNat]?.map Branch.addr).getD nullPtr)])
  | .getObjectItem object string => w' = w ∧ ((object = nullPtr ∧ es = [.item nullPtr]) ∨
      ∃ d, At w.forest object d ∧
        es = [.item ((d.children.toList[indexOf w.memory (w.memory.read string).join d]?.map
          Branch.addr).getD nullPtr)])

/-! ## One call -/

variable {w w' : World} {string : CharPtr} {item array : Ptr}

/-- A call that is served. -/
def Served (w : World) (c : Call) : Prop :=
  ∃ w' es, w.memory.step c = some (w'.memory, es) ∧ w'.Valid ∧ c.Does w es w'

/-- Only strings that stay are read. -/
theorem leaves_of_strings {m : Memory} {F : Forest} {lost released : List Ptr}
    (hkept : ∀ x, x ∉ released → (w.memory.strings x).isSome → m.strings x = w.memory.strings x) :
    Leaves w ⟨m, F, lost⟩ F lost released := ⟨rfl, rfl, hkept⟩

theorem leaves_of_eq {m : Memory} {F : Forest} {lost : List Ptr} (heq : m.strings = w.memory.strings) :
    Leaves w ⟨m, F, lost⟩ F lost [] := leaves_of_strings fun x _ _ => by rw [heq]

theorem creates_of_made {m : Memory} {a : Ptr} {v : Cell}
    (hmade : Made w.memory m w.forest w.lost (leaf a v))
    (hkept : ∀ x, (w.memory.strings x).isSome → m.strings x = w.memory.strings x) :
    ∃ w' : World, w'.memory = m ∧ w'.Valid ∧ Creates w [.item a] w' v := by
  rcases hmade with ⟨hnull, hrefused, hF⟩ | ⟨hnull, hserved, hF⟩
  · change a = nullPtr at hnull
    subst hnull
    exact ⟨⟨m, w.forest, w.lost⟩, rfl, hF,
      Or.inl ⟨hrefused, rfl, leaves_of_strings fun x _ => hkept x⟩⟩
  · exact ⟨⟨m, _, w.lost⟩, rfl, hF,
      Or.inr ⟨hserved, a, hnull, rfl, leaves_of_strings fun x _ => hkept x⟩⟩

theorem served_createWith (h : w.Valid) {c : Call} {f : Cell → Cell}
    (hstep : w.memory.step c = returning (w.memory.createWith f)) (htype : (f .zero).type < 256)
    (hvaluestring : (f .zero).valuestring = .null) (hstring : (f .zero).string = .null)
    (hdoes : ∀ es w', Creates w es w' (f .zero) → c.Does w es w') : Served w c := by
  obtain ⟨a, m', hcreate, hstrings, hmade⟩ := Owns.createWith h htype hvaluestring hstring
  obtain ⟨w', rfl, hvalid, hcreates⟩ := creates_of_made hmade fun x _ => by rw [hstrings]
  rw [hcreate] at hstep
  exact ⟨w', _, hstep, hvalid, hdoes _ _ hcreates⟩

theorem served_createString (h : w.Valid) (hread : Readable w.memory string) :
    Served w (.createString string) := by
  obtain ⟨s, hs⟩ := hread
  obtain ⟨a, m', text, hcreate, hkept, htext, hmade⟩ := Owns.createString h hs
  obtain ⟨w', rfl, hvalid, hcreates⟩ := creates_of_made hmade hkept
  have hstep : w.memory.step (.createString string) = some (w'.memory, [.item a]) :=
    congrArg returning hcreate
  refine ⟨w', _, hstep, hvalid, text, hcreates, ?_⟩
  by_cases hnull : a = nullPtr
  · exact Or.inl (by rw [hnull])
  · exact Or.inr ((htext hnull).trans hs.symm)

/-- A call that does nothing. -/
theorem served_idle (h : w.Valid) {c : Call} {es : List Answer}
    (hstep : w.memory.step c = some (w.memory, es)) (hdoes : c.Does w es w) : Served w c :=
  ⟨w, es, hstep, h, hdoes⟩

theorem served_delete (h : w.Valid) {c : Ptr} (hc : c = nullPtr ∨ ∃ b ∈ w.forest, b.addr = c) :
    Served w (.delete c) := by
  rcases hc with rfl | ⟨b, hb, rfl⟩
  · exact served_idle h rfl ⟨rfl, Or.inl ⟨rfl, rfl⟩⟩
  · obtain ⟨l, r, hsplit⟩ := List.append_of_mem hb
    have hperm : w.forest.Perm (b :: (l ++ r)) := hsplit ▸ List.perm_middle
    obtain ⟨hdel, hown⟩ := (Owns.perm h hperm).delete
    refine ⟨⟨_, l ++ r, _⟩, [], congrArg silent hdel, hown, rfl, Or.inr ⟨b, l ++ r, hperm, rfl, ?_⟩⟩
    exact leaves_of_strings fun x hx _ => without_strings w.memory hx

theorem served_addItemToArray (h : w.Valid)
    (hc : (item = nullPtr ∧ array ∈ w.forest.addrs) ∨ Movable w.forest array item) :
    Served w (.addItemToArray array item) := by
  rcases hc with ⟨rfl, harray⟩ | ⟨b, G, d, hm⟩
  · exact served_idle h (congrArg silent (Owns.addItemToArray_null h harray)) ⟨rfl, Or.inl ⟨rfl, rfl⟩⟩
  · obtain ⟨m', hadd, hstrings, -, hown⟩ := Owns.addItemToArray h hm
    exact ⟨⟨m', _, _⟩, [], congrArg silent hadd, hown, rfl,
      Or.inr ⟨b, G, d, hm, leaves_of_eq hstrings⟩⟩

theorem served_addItemToObject (h : w.Valid) {object : Ptr}
    (hc : item = nullPtr ∨ ∃ b G d, Move w.forest object item b G d ∧ b.twig.val.string.Freeable ∧
      Readable (w.memory.without [] b.twig.val.string.addrs) string) :
    Served w (.addItemToObject object string item) := by
  rcases hc with rfl | ⟨b, G, d, hm, hfree, s, hs⟩
  · exact served_idle h rfl ⟨rfl, Or.inl ⟨rfl, rfl⟩⟩
  · obtain ⟨m', name, hadd, hname, hkept, hown⟩ := Owns.addItemToObject h hm hfree hs
    exact ⟨⟨m', _, _⟩, [], congrArg silent hadd, hown, rfl,
      Or.inr ⟨b, G, d, name, hm, hname, leaves_of_strings hkept⟩⟩

theorem served_addItemToObjectCS (h : w.Valid) {object : Ptr} (s : CStr)
    (hc : item = nullPtr ∨ Movable w.forest object item) :
    Served w (.addItemToObjectCS object s item) := by
  rcases hc with rfl | ⟨b, G, d, hm⟩
  · exact served_idle h rfl ⟨rfl, Or.inl ⟨rfl, rfl⟩⟩
  · obtain ⟨m', hadd, hown, hkept⟩ := Owns.addItemToObjectCS h hm s
    exact ⟨⟨m', _, _⟩, [], congrArg silent hadd, hown, rfl,
      Or.inr ⟨b, G, d, hm, leaves_of_strings fun x hx _ => hkept x hx⟩⟩

theorem served_addItemReferenceToArray (h : w.Valid) (hitem : item ∈ w.forest.addrs)
    (harray : Holder w.forest array) : Served w (.addItemReferenceToArray array item) := by
  obtain ⟨d, hd⟩ := harray
  obtain ⟨n, hn⟩ := h.items.exists_eq hitem
  obtain ⟨m', hadd, hstrings, ⟨hrefused, hF⟩ | ⟨hserved, a, hF⟩⟩ :=
    Owns.addItemReferenceToArray h hn hd
  · exact ⟨⟨m', _, _⟩, [], congrArg silent hadd, hF, rfl, Or.inl ⟨hrefused, leaves_of_eq hstrings⟩⟩
  · exact ⟨⟨m', _, _⟩, [], congrArg silent hadd, hF, rfl,
      Or.inr ⟨hserved, a, n, hn, leaves_of_eq hstrings⟩⟩

theorem served_addItemReferenceToObject (h : w.Valid) {object : Ptr} (hitem : item ∈ w.forest.addrs)
    (hobject : Holder w.forest object) (hread : Readable w.memory string) :
    Served w (.addItemReferenceToObject object string item) := by
  obtain ⟨d, hd⟩ := hobject
  obtain ⟨s, hs⟩ := hread
  obtain ⟨n, hn⟩ := h.items.exists_eq hitem
  obtain ⟨m', hadd, hkept, ⟨hrefused, hF⟩ | ⟨a, name, hname, hF⟩⟩ :=
    Owns.addItemReferenceToObject h hn hd hs
  · exact ⟨⟨m', _, _⟩, [], congrArg silent hadd, hF, rfl,
      Or.inl ⟨hrefused, leaves_of_strings fun x _ => hkept x⟩⟩
  · exact ⟨⟨m', _, _⟩, [], congrArg silent hadd, hF, rfl,
      Or.inr ⟨a, n, name, hn, hname, leaves_of_strings fun x _ => hkept x⟩⟩

/-! ## One call: taking out and putting in -/

theorem served_detachItemFromArray (h : w.Valid) (harray : Holder w.forest array) (which : Int) :
    Served w (.detachItemFromArray array which) := by
  obtain ⟨d, hd⟩ := harray
  cases hc : d.children.toList[which.toNat]? with
  | none =>
      exact served_idle h (congrArg returning (Owns.detachItemFromArray_out h hd hc))
        ⟨d, hd, Or.inl ⟨hc, rfl, rfl⟩⟩
  | some c =>
      obtain ⟨m', hdetach, hstrings, hown⟩ := Owns.detachItemFromArray h hd hc
      exact ⟨⟨m', _, _⟩, _, congrArg returning hdetach, hown, d, hd,
        Or.inr ⟨c, hc, rfl, leaves_of_eq hstrings⟩⟩

theorem served_deleteItemFromArray (h : w.Valid) (harray : Holder w.forest array) (which : Int) :
    Served w (.deleteItemFromArray array which) := by
  obtain ⟨d, hd⟩ := harray
  cases hc : d.children.toList[which.toNat]? with
  | none =>
      exact served_idle h (congrArg silent (Owns.deleteItemFromArray_out h hd hc))
        ⟨rfl, d, hd, Or.inl ⟨hc, rfl⟩⟩
  | some c =>
      obtain ⟨m', hdelete, hown, hkept⟩ := Owns.deleteItemFromArray h hd hc
      exact ⟨⟨m', _, _⟩, _, congrArg silent hdelete, hown, rfl, d, hd,
        Or.inr ⟨c, hc, leaves_of_strings fun x hx _ => hkept x hx⟩⟩

theorem served_detachItemFromObject (h : w.Valid) {object : Ptr} (hobject : Holder w.forest object)
    (hread : (w.memory.read string).isSome) : Served w (.detachItemFromObject object string) := by
  obtain ⟨d, hd⟩ := hobject
  obtain ⟨key, hkey⟩ := Option.isSome_iff_exists.1 hread
  have hjoin : (w.memory.read string).join = key := by rw [hkey]; rfl
  simp only [Served, Call.Does, hjoin]
  cases hc : d.children.toList[indexOf w.memory key d]? with
  | none =>
      exact ⟨w, _, congrArg returning (Owns.detachItemFromObject_out h hd hkey hc), h, d, hd,
        Or.inl ⟨hc, rfl, rfl⟩⟩
  | some c =>
      obtain ⟨m', hdetach, hstrings, hown⟩ := Owns.detachItemFromObject h hd hkey hc
      exact ⟨⟨m', _, _⟩, _, congrArg returning hdetach, hown, d, hd,
        Or.inr ⟨c, hc, rfl, leaves_of_eq hstrings⟩⟩

theorem served_deleteItemFromObject (h : w.Valid) {object : Ptr} (hobject : Holder w.forest object)
    (hread : (w.memory.read string).isSome) : Served w (.deleteItemFromObject object string) := by
  obtain ⟨d, hd⟩ := hobject
  obtain ⟨key, hkey⟩ := Option.isSome_iff_exists.1 hread
  have hjoin : (w.memory.read string).join = key := by rw [hkey]; rfl
  simp only [Served, Call.Does, hjoin]
  cases hc : d.children.toList[indexOf w.memory key d]? with
  | none =>
      exact ⟨w, _, congrArg silent (Owns.deleteItemFromObject_out h hd hkey hc), h, rfl, d, hd,
        Or.inl ⟨hc, rfl⟩⟩
  | some c =>
      obtain ⟨m', hdelete, hown, hkept⟩ := Owns.deleteItemFromObject h hd hkey hc
      exact ⟨⟨m', _, _⟩, _, congrArg silent hdelete, hown, rfl, d, hd,
        Or.inr ⟨c, hc, leaves_of_strings fun x hx _ => hkept x hx⟩⟩

theorem served_insertItemInArray (h : w.Valid) (hc : Movable w.forest array item) (which : Int) :
    Served w (.insertItemInArray array which item) := by
  obtain ⟨b, G, d, hm⟩ := hc
  obtain ⟨m', hinsert, hstrings, hown⟩ := Owns.insertItemInArray h hm which
  exact ⟨⟨m', _, _⟩, [], congrArg silent hinsert, hown, rfl, b, G, d, hm, leaves_of_eq hstrings⟩

theorem served_replaceItemInArray (h : w.Valid) (hc : Movable w.forest array item) (which : Int) :
    Served w (.replaceItemInArray array which item) := by
  obtain ⟨b, G, d, hm⟩ := hc
  have hF := Owns.perm h hm.perm
  cases hc : d.children.toList[which.toNat]? with
  | none =>
      exact served_idle h (congrArg silent (hF.replaceItemInArray_out (hm.at_cons h) hc))
        ⟨rfl, b, G, d, hm, Or.inl ⟨hc, rfl⟩⟩
  | some c =>
      obtain ⟨m₁, m', hreplace, hstrings, -, rfl, hown⟩ := Owns.replaceItemInArray h hm hc
      refine ⟨⟨_, _, _⟩, [], congrArg silent hreplace, hown, rfl, b, G, d, hm,
        Or.inr ⟨c, hc, leaves_of_strings fun x hx _ => ?_⟩⟩
      exact (without_strings m₁ hx).trans (by rw [hstrings])

theorem served_replaceItemInObject (h : w.Valid) {object : Ptr} (hc : Movable w.forest object item)
    (hread : Readable w.memory string) : Served w (.replaceItemInObject object string item) := by
  obtain ⟨b, G, d, hm⟩ := hc
  obtain ⟨s, hs⟩ := hread
  have hF := Owns.perm h hm.perm
  have hjoin : (w.memory.read string).join = some s := by rw [hs]; rfl
  simp only [Served, Call.Does, hjoin]
  cases hc : d.children.toList[indexOf w.memory (some s) d]? with
  | none =>
      exact ⟨w, [], congrArg silent (hF.replaceItemInObject_out (hm.at_cons h) hs hc), h, rfl, b, G, d,
        hm, Or.inl ⟨hc, rfl⟩⟩
  | some c =>
      obtain ⟨m₁, m', name, hreplace, hname, hkept, rfl, hown⟩ := Owns.replaceItemInObject h hm hs hc
      refine ⟨⟨_, _, _⟩, [], congrArg silent hreplace, hown, rfl, b, G, d, hm,
        Or.inr ⟨c, name, hc, hname, leaves_of_strings fun x hx hsome => ?_⟩⟩
      exact (without_strings m₁ hx).trans (hkept x hsome)

/-! ## One call: looking -/

theorem served_getArraySize (h : w.Valid) (harray : Holder w.forest array) :
    Served w (.getArraySize array) := by
  obtain ⟨d, hd⟩ := harray
  exact served_idle h (congrArg (fun r : Option Nat => showing w.memory (r.map .size)) (Owns.getArraySize h hd))
    ⟨rfl, d, hd, rfl⟩

theorem served_getArrayItem (h : w.Valid) (harray : array = nullPtr ∨ Holder w.forest array)
    (which : Int) : Served w (.getArrayItem array which) := by
  rcases harray with rfl | ⟨d, hd⟩
  · exact served_idle h (congrArg (fun r : Option Ptr => showing w.memory (r.map .item))
      (cJSONGetArrayItem_null w.memory which)) ⟨rfl, Or.inl ⟨rfl, rfl⟩⟩
  · exact served_idle h (congrArg (fun r : Option Ptr => showing w.memory (r.map .item))
      (Owns.getArrayItem h hd which)) ⟨rfl, Or.inr ⟨d, hd, rfl⟩⟩

theorem served_getObjectItem (h : w.Valid) {object : Ptr}
    (hobject : object = nullPtr ∨ (Holder w.forest object ∧ (w.memory.read string).isSome)) :
    Served w (.getObjectItem object string) := by
  rcases hobject with rfl | ⟨⟨d, hd⟩, hread⟩
  · exact served_idle h (congrArg (fun r : Option Ptr => showing w.memory (r.map .item))
      (cJSONGetObjectItem_null w.memory string)) ⟨rfl, Or.inl ⟨rfl, rfl⟩⟩
  · obtain ⟨key, hkey⟩ := Option.isSome_iff_exists.1 hread
    refine served_idle h (congrArg (fun r : Option Ptr => showing w.memory (r.map .item))
      (Owns.getObjectItem h hd hkey)) ⟨rfl, Or.inr ⟨d, hd, ?_⟩⟩
    rw [hkey]
    rfl

/-- **One call.** -/
theorem World.Valid.served (h : w.Valid) {c : Call} (hc : c.Allowed w.memory w.forest) : Served w c := by
  cases c with
  | create type => exact served_createWith h rfl hc rfl rfl fun _ _ hdoes => hdoes
  | createNumber num =>
      exact served_createWith h rfl (show cJSONNumber < 256 by decide) rfl rfl fun _ _ hdoes => hdoes
  | createString string => exact served_createString h hc
  | delete c => exact served_delete h hc
  | addItemToArray array item => exact served_addItemToArray h hc
  | addItemToObject object string item => exact served_addItemToObject h hc
  | addItemToObjectCS object s item => exact served_addItemToObjectCS h s hc
  | addItemReferenceToArray array item => exact served_addItemReferenceToArray h hc.1 hc.2
  | addItemReferenceToObject object string item =>
      exact served_addItemReferenceToObject h hc.1 hc.2.1 hc.2.2
  | detachItemFromArray array which => exact served_detachItemFromArray h hc which
  | deleteItemFromArray array which => exact served_deleteItemFromArray h hc which
  | detachItemFromObject object string => exact served_detachItemFromObject h hc.1 hc.2
  | deleteItemFromObject object string => exact served_deleteItemFromObject h hc.1 hc.2
  | insertItemInArray array which newitem => exact served_insertItemInArray h hc which
  | replaceItemInArray array which newitem => exact served_replaceItemInArray h hc which
  | replaceItemInObject object string newitem => exact served_replaceItemInObject h hc.1 hc.2
  | getArraySize array => exact served_getArraySize h hc
  | getArrayItem array item => exact served_getArrayItem h hc item
  | getObjectItem object string => exact served_getObjectItem h hc

/-! ## The forest that a memory holds -/

theorem Owns.standAll (h : Owns m F lost) : cJSONLayout.Stand m.items false nullPtr (ofList F) := by
  have hF : Owns m ([] ++ F) lost := h
  exact hF.stand

theorem addrs_ofList (F : Forest) : (ofList F).addrs = F.addrs := gather_ofList _ F

theorem Owns.mem_addrs_iff (h : Owns m F lost) (h' : Owns m G lost') (x : Ptr) :
    x ∈ (ofList F).addrs ↔ x ∈ (ofList G).addrs := by
  rw [addrs_ofList, addrs_ofList]
  exact (h.items.mem x).symm.trans (h'.items.mem x)

theorem Owns.nodup_roots (h : Owns m F lost) : F.Nodup :=
  List.Nodup.of_map Branch.addr (h.items.nodup.sublist (map_addr_sublist F))

theorem Owns.subset (h : Owns m F lost) (h' : Owns m G lost') : F ⊆ G := by
  have hsub := h.standAll.subset h'.standAll (addrs_ofList F ▸ h.items.nodup)
    (addrs_ofList G ▸ h'.items.nodup) (h.mem_addrs_iff h') (addrs_ofList F ▸ h.null_notMem)
  rwa [toList_ofList, toList_ofList] at hsub

/-- **The memory decides the forest**: only the order of the roots is open. -/
theorem Owns.unique (h : Owns m F lost) (h' : Owns m G lost') : F.Perm G :=
  (List.perm_ext_iff_of_nodup h.nodup_roots h'.nodup_roots).2 fun _ => ⟨(h.subset h' ·), (h'.subset h ·)⟩

theorem Owns.at_unique (h : Owns m F lost) (h' : Owns m G lost') {array : Ptr} {d : Branch Ptr Cell}
    (hd : At F array d) : At G array d := by
  have hmem := (h.mem_addrs_iff h' array).1 (mem_addrs_of_find hd.found)
  obtain ⟨d', hfind'⟩ := Option.isSome_iff_exists.1 (find_isSome.2 hmem)
  obtain ⟨⟨_, _, hnode⟩, hinner⟩ := h.standAll.find hd.found
  obtain ⟨⟨_, _, hnode'⟩, hinner'⟩ := h'.standAll.find hfind'
  obtain ⟨htwig, -, -⟩ := Node.mk.inj (Option.some.inj (hnode.symm.trans hnode'))
  have hnull := addrs_ofList F ▸ h.null_notMem
  have hnull' := addrs_ofList G ▸ h'.null_notMem
  have heq := hinner.unique hinner' ((find_addr hd.found).trans (find_addr hfind').symm) htwig
    (fun hx => hnull (find_children_subset hd.found hx))
    fun hx => hnull' (find_children_subset hfind' hx)
  exact ⟨heq ▸ hfind', hd.own⟩

/-- Whether a call is legal can be told from one forest. -/
theorem Call.Allowed.legal {c : Call} (hc : c.Allowed m F) (h : Owns m F lost) : c.Legal m := by
  intro G lost' h'
  have hperm := h.unique h'
  have hmem : ∀ {x}, x ∈ F.addrs → x ∈ G.addrs := fun hx => (hperm.flatMap_right _).mem_iff.1 hx
  have hholder : ∀ {array}, Holder F array → Holder G array := by
    rintro array ⟨d, hd⟩
    exact ⟨d, h.at_unique h' hd⟩
  have hmove : ∀ {array item b H d}, Move F array item b H d → Move G array item b H d :=
    fun hm => ⟨hperm.symm.trans hm.perm, hm.addr, hm.place⟩
  have hmovable : ∀ {array item}, Movable F array item → Movable G array item := by
    rintro array item ⟨b, H, d, hm⟩
    exact ⟨b, H, d, hmove hm⟩
  cases c with
  | create | createNumber | createString => exact hc
  | delete =>
      refine hc.imp_right ?_
      rintro ⟨b, hb, haddr⟩
      exact ⟨b, hperm.mem_iff.1 hb, haddr⟩
  | addItemToArray => exact hc.imp (And.imp_right hmem) hmovable
  | addItemToObject =>
      refine hc.imp_right ?_
      rintro ⟨b, H, d, hm, hname⟩
      exact ⟨b, H, d, hmove hm, hname⟩
  | addItemToObjectCS => exact hc.imp_right hmovable
  | addItemReferenceToArray => exact ⟨hmem hc.1, hholder hc.2⟩
  | addItemReferenceToObject => exact ⟨hmem hc.1, hholder hc.2.1, hc.2.2⟩
  | detachItemFromArray | deleteItemFromArray | getArraySize => exact hholder hc
  | detachItemFromObject | deleteItemFromObject => exact ⟨hholder hc.1, hc.2⟩
  | getArrayItem => exact hc.imp_right hholder
  | getObjectItem => exact hc.imp_right (And.imp_left hholder)
  | insertItemInArray | replaceItemInArray => exact hmovable hc
  | replaceItemInObject => exact ⟨hmovable hc.1, hc.2⟩

/-! ## Whole programs -/

/-- The worlds that the calls lead through, with the answers. -/
inductive History : World → List Call → List Answer → World → Prop
  | nil (w : World) : History w [] [] w
  | cons {w w' w'' : World} {c : Call} {cs : List Call} {es es' : List Answer} :
      c.Does w es w' → History w' cs es' w'' → History w (c :: cs) (es ++ es') w''

/-- **A run of calls**: it goes to its end, the memory is a forest and the lost strings again, and the
    forest has become what the calls make of it. -/
theorem World.Valid.run (h : w.Valid) {cs : List Call}
    (hcs : EachStep Memory.step Call.Legal w.memory cs) :
    ∃ w' es, XToolkits.run Memory.step w.memory cs = some (w'.memory, es) ∧ w'.Valid ∧
      History w cs es w' := by
  induction cs generalizing w with
  | nil => exact ⟨w, [], rfl, h, .nil w⟩
  | cons c cs ih =>
      obtain ⟨hc, hrest⟩ := eachStep_cons.1 hcs
      obtain ⟨w', es, hstep, hvalid, hdoes⟩ := h.served (hc w.forest w.lost h)
      obtain ⟨w'', es', hrun, hvalid', hhist⟩ := ih hvalid (hrest w'.memory es hstep)
      exact ⟨w'', es ++ es', run_cons_eq_some.2 ⟨w'.memory, es, es', hstep, hrun, rfl⟩, hvalid',
        .cons hdoes hhist⟩

/-- **Main result.** From the empty memory, every program whose calls are legal where they are made is
    served to its end, whatever `malloc` answers, and each of its calls does what it is for. -/
theorem legal_calls_served (answers : Answers) (cs : List Call)
    (h : EachStep Memory.step Call.Legal (emptyMemory answers) cs) :
    ∃ w es, XToolkits.run Memory.step (emptyMemory answers) cs = some (w.memory, es) ∧ w.Valid ∧
      History ⟨emptyMemory answers, [], []⟩ cs es w := by
  have hempty : World.Valid ⟨emptyMemory answers, [], []⟩ := owns_empty answers
  exact hempty.run h

/-! ## A program -/

/-- The first call of a program, and what is known of the world behind it. -/
theorem World.Valid.legal_cons (h : w.Valid) {c : Call} {cs : List Call} {es : List Answer}
    (hc : c.Allowed w.memory w.forest) (hstep : w.memory.step c = some (m, es))
    (hrest : ∀ F lost, World.Valid ⟨m, F, lost⟩ → c.Does w es ⟨m, F, lost⟩ →
      EachStep Memory.step Call.Legal m cs) :
    EachStep Memory.step Call.Legal w.memory (c :: cs) := by
  obtain ⟨⟨m', F, lost⟩, es', hstep', hvalid, hdoes⟩ := h.served hc
  obtain ⟨rfl, rfl⟩ := Prod.mk.inj (Option.some.inj (hstep.symm.trans hstep'))
  exact (eachStep_cons_of_step hstep).2 ⟨hc.legal h, hrest F lost hvalid hdoes⟩

theorem Creates.forest_eq {es : List Answer} {v : Cell} {a : Ptr} (hc : Creates w es w' v)
    (hes : es = [.item a]) (ha : a ≠ nullPtr) : w'.forest = leaf a v :: w.forest := by
  subst hes
  rcases hc with ⟨-, heq, -⟩ | ⟨-, a', -, heq, hleaves⟩
  · cases heq
    exact absurd rfl ha
  · cases heq
    exact hleaves.forest

/-- An object with a number in it stays, a string is deleted again, and there is no memory left for an
    array. -/
def sampleProgram : List Call :=
  [.create cJSONObject, .createNumber (.ofInt 7), .addItemToObject 1 (.const [97]) 2,
    .createString (.const [120]), .delete 4, .create cJSONArray]

def sampleAnswers : Answers := ⟨[1, 2, 3, 4, 5], 0⟩

theorem sampleProgram_legal :
    EachStep Memory.step Call.Legal (emptyMemory sampleAnswers) sampleProgram := by
  have hempty : World.Valid ⟨emptyMemory sampleAnswers, [], []⟩ := owns_empty _
  refine hempty.legal_cons (show cJSONObject < 256 by decide) rfl fun F₁ lost₁ hvalid₁ hdoes₁ => ?_
  have hforest₁ := Creates.forest_eq (a := 1) hdoes₁ rfl (by decide)
  refine hvalid₁.legal_cons (c := .createNumber _) trivial rfl fun F₂ lost₂ hvalid₂ hdoes₂ => ?_
  have hforest₂ := Creates.forest_eq (a := 2) hdoes₂ rfl (by decide)
  change F₁ = _ at hforest₁
  change F₂ = leaf 2 _ :: F₁ at hforest₂
  rw [hforest₁] at hforest₂
  -- the number goes below the object
  let object : Branch Ptr Cell := leaf 1 { Cell.zero with type := cJSONObject }
  have hown : object.twig.val.isReference = false := isReference_of_lt (show cJSONObject < 256 by decide)
  have hmove : Move F₂ 1 2 _ [object] object := ⟨List.Perm.of_eq hforest₂, rfl, rfl, hown⟩
  refine hvalid₂.legal_cons (c := .addItemToObject 1 (.const [97]) 2)
    (Or.inr ⟨_, _, _, hmove, trivial, [97], rfl⟩) rfl fun F₃ lost₃ hvalid₃ _ => ?_
  refine hvalid₃.legal_cons (c := .createString (.const [120])) ⟨[120], rfl⟩ rfl
    fun F₄ lost₄ hvalid₄ hdoes₄ => ?_
  -- the string is a root
  obtain ⟨text, hcreates, -⟩ := hdoes₄
  have hroot : leaf 4 (stringCell text) ∈ F₄ := by
    have hforest₄ := hcreates.forest_eq (a := 4) rfl (by decide)
    change F₄ = _ at hforest₄
    rw [hforest₄]
    exact List.mem_cons_self ..
  refine hvalid₄.legal_cons (c := .delete 4) (Or.inr ⟨_, hroot, rfl⟩) rfl fun F₅ lost₅ hvalid₅ _ => ?_
  refine hvalid₅.legal_cons (c := .create cJSONArray) (show cJSONArray < 256 by decide) rfl
    fun _ _ _ _ => EachStep.nil _ _

/-- The answers of the program, the last of them a refusal. -/
theorem sampleProgram_run : ∃ m, XToolkits.run Memory.step (emptyMemory sampleAnswers) sampleProgram =
    some (m, [.item 1, .item 2, .item 4, .item nullPtr]) ∧ (m.items 1).isSome ∧ m.refused = 1 :=
  ⟨_, rfl, rfl, rfl⟩

/-- **A witness**: the program is served, its last request refused. -/
theorem legal_calls_served_sample :
    ∃ w : World, XToolkits.run Memory.step (emptyMemory sampleAnswers) sampleProgram =
        some (w.memory, [.item 1, .item 2, .item 4, .item nullPtr]) ∧ w.Valid ∧
      w.memory.refused = 1 ∧ History ⟨emptyMemory sampleAnswers, [], []⟩ sampleProgram
        [.item 1, .item 2, .item 4, .item nullPtr] w := by
  obtain ⟨w, es, hrun, hvalid, hhist⟩ := legal_calls_served sampleAnswers sampleProgram sampleProgram_legal
  obtain ⟨m, hrun', -, hrefused⟩ := sampleProgram_run
  obtain ⟨rfl, rfl⟩ := Prod.mk.inj (Option.some.inj (hrun.symm.trans hrun'))
  exact ⟨w, hrun, hvalid, hrefused, hhist⟩

end XToolkits.Json
