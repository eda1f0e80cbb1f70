import XToolkits.Json.PrintSize

set_option autoImplicit false

/-! # Printing into one buffer: `cJSON.c`

`cJSON_PrintBuffered` writes everything into one buffer that grows when it has to. What new memory holds
is not known, so `malloc` is a parameter; the printer finds the end of what it wrote by `strlen`. A
result of `none` is an access outside of the buffer, or a size that an `int` does not hold.

Whatever the size of the first buffer, it ends up with the text that `cJSON_Print` gives. -/

namespace XToolkits.Json

/-! ## The buffer -/

/-- `printbuffer`: the memory of `length` bytes at `buffer`, and `offset`. -/
structure PrintBuffer where
  buffer : List UInt8
  offset : Nat

/-- `pow2gt`. -/
def pow2gt (x : Nat) : Nat :=
  let x := x - 1
  let x := x ||| x >>> 1
  let x := x ||| x >>> 2
  let x := x ||| x >>> 4
  let x := x ||| x >>> 8
  let x := x ||| x >>> 16
  x + 1

/-- `ensure`: the pointer it returns is the one at `offset`. -/
def ensure (malloc : Nat → List UInt8) (needed : Nat) (p : PrintBuffer) : Option PrintBuffer :=
  let needed := needed + p.offset
  if needed ≤ p.buffer.length then some p
  else
    let newsize := pow2gt needed
    if 2 ^ 31 ≤ newsize then none
    else some { p with buffer := p.buffer ++ (malloc newsize).drop p.buffer.length }

/-- The bytes written from `offset` on. -/
def PrintBuffer.write (s : List UInt8) (p : PrintBuffer) : Option PrintBuffer :=
  if p.offset + s.length ≤ p.buffer.length then
    some { p with buffer := p.buffer.take p.offset ++ s ++ p.buffer.drop (p.offset + s.length) }
  else none

/-- `p->offset+=len`. -/
def PrintBuffer.advance (len : Nat) (p : PrintBuffer) : PrintBuffer :=
  { p with offset := p.offset + len }

/-- `p->offset=update(p)`. -/
def update (p : PrintBuffer) : Option PrintBuffer :=
  let str := p.buffer.drop p.offset
  if 0 ∈ str then some (p.advance (str.takeWhile fun b => b ≠ 0).length) else none

/-! ## The printer -/

/-- A string of known size. -/
def Printed.put (malloc : Nat → List UInt8) (r : Printed) (p : PrintBuffer) : Option PrintBuffer := do
  let p ← ensure malloc r.size p
  p.write (r.text ++ [0])

/-- A part of known text, of which `ensure` is asked for `needed` bytes and `s` remains. -/
def putPart (malloc : Nat → List UInt8) (needed : Nat) (s behind : List UInt8) (p : PrintBuffer) :
    Option PrintBuffer := do
  let p ← ensure malloc needed p
  let p ← p.write (s ++ behind)
  some (p.advance s.length)

/-- `print_array` with a buffer, from the loop over the children. -/
def putArray (malloc : Nat → List UInt8) (fmt : Bool) (depth : Nat) (child : Item)
    (loop : Nat → PrintBuffer → Option PrintBuffer) (p : PrintBuffer) : Option PrintBuffer :=
  if child = .null then (printArray fmt []).put malloc p
  else do
    let p ← putPart malloc 1 [91] [] p
    let p ← loop (depth + 1) p
    let p ← ensure malloc 2 p
    p.write [93, 0]

/-- `print_object` with a buffer, from the loop over the children. -/
def putObject (malloc : Nat → List UInt8) (fmt : Bool) (depth : Nat) (child : Item)
    (loop : Nat → PrintBuffer → Option PrintBuffer) (p : PrintBuffer) : Option PrintBuffer :=
  if child = .null then (printObject fmt depth []).put malloc p
  else do
    let p ← putPart malloc ((if fmt then 2 else 1) + 1) (123 :: whenFmt fmt [10]) [0] p
    let depth := depth + 1
    let p ← loop depth p
    let p ← ensure malloc (if fmt then depth + 1 else 2) p
    p.write (whenFmt fmt (tabs (depth - 1)) ++ [125, 0])

/-- `print_value` with a buffer. -/
def putValue (malloc : Nat → List UInt8) (fmt : Bool) (depth : Nat) (item : Fields) (child : Item)
    (loop : Bool → Nat → PrintBuffer → Option PrintBuffer) (p : PrintBuffer) : Option PrintBuffer :=
  let type := item.type % 256
  if type = cJSONNull then Printed.put malloc ⟨5, cstr "null"⟩ p
  else if type = cJSONFalse then Printed.put malloc ⟨6, cstr "false"⟩ p
  else if type = cJSONTrue then Printed.put malloc ⟨5, cstr "true"⟩ p
  else if type = cJSONNumber then (printNumber item.valuedouble item.valueint).put malloc p
  else if type = cJSONString then (printStringPtr item.valuestring).put malloc p
  else if type = cJSONArray then putArray malloc fmt depth child (loop false) p
  else if type = cJSONObject then putObject malloc fmt depth child (loop true) p
  else some p

/-- The tabs in front of a member. -/
def putTabs (malloc : Nat → List UInt8) (fmt : Bool) (depth : Nat) (p : PrintBuffer) :
    Option PrintBuffer :=
  if fmt then putPart malloc depth (tabs depth) [] p else some p

/-- The loops of `print_array` and `print_object`, from an item on. -/
def Item.putLoop (malloc : Nat → List UInt8) (fmt : Bool) :
    Item → Bool → Nat → PrintBuffer → Option PrintBuffer
  | .null, _, _, p => some p
  | .node item child next, isObject, depth, p => do
      let comma := if next = .null then [] else [44]
      if isObject then do
        let p ← putTabs malloc fmt depth p
        let p ← (printStringPtr item.string).put malloc p
        let p ← update p
        let p ← putPart malloc (if fmt then 2 else 1) (58 :: whenFmt fmt [9]) [] p
        let p ← putValue malloc fmt depth item child (child.putLoop malloc fmt) p
        let p ← update p
        let s := comma ++ whenFmt fmt [10]
        let p ← putPart malloc (s.length + 1) s [0] p
        next.putLoop malloc fmt isObject depth p
      else do
        let p ← putValue malloc fmt depth item child (child.putLoop malloc fmt) p
        let p ← update p
        let p ← if next = .null then some p
          else putPart malloc ((if fmt then 2 else 1) + 1) (comma ++ whenFmt fmt [32]) [0] p
        next.putLoop malloc fmt isObject depth p

/-- `cJSON_PrintBuffered`. -/
def cJSONPrintBuffered (malloc : Nat → List UInt8) (prebuffer : Nat) (fmt : Bool) :
    Item → Option PrintBuffer
  | .null => none
  | .node item child _ =>
      putValue malloc fmt 0 item child (child.putLoop malloc fmt) ⟨malloc prebuffer, 0⟩

/-! ## What the buffer holds -/

namespace PrintBuffer

/-- What is written in front of `offset`. -/
def done (p : PrintBuffer) : List UInt8 := p.buffer.take p.offset

/-- The offset is in the buffer. -/
def Ok (p : PrintBuffer) : Prop := p.offset ≤ p.buffer.length

theorem length_done {p : PrintBuffer} (h : p.Ok) : p.done.length = p.offset :=
  List.length_take_of_le h

end PrintBuffer

open PrintBuffer

variable {malloc : Nat → List UInt8} {fmt : Bool} {p p' : PrintBuffer} {s t behind : List UInt8}
  {f g : PrintBuffer → Option PrintBuffer} {needed depth : Nat}

/-- Up to the size `2 ^ 30` the next size is an `int`. -/
theorem pow2gt_bounds {x : Nat} (h : x ≤ 2 ^ 30) : x ≤ pow2gt x ∧ pow2gt x < 2 ^ 31 := by
  have hor : ∀ {y : Nat} (n : Nat), x - 1 ≤ y → y < 2 ^ 30 → x - 1 ≤ y ||| y >>> n ∧ y ||| y >>> n < 2 ^ 30 := by
    intro y n hle hlt
    refine ⟨hle.trans Nat.left_le_or, Nat.or_lt_two_pow hlt ?_⟩
    exact Nat.lt_of_le_of_lt (Nat.shiftRight_le y n) hlt
  obtain ⟨h1, h1'⟩ := hor 1 (Nat.le_refl _) (by omega)
  obtain ⟨h2, h2'⟩ := hor 2 h1 h1'
  obtain ⟨h4, h4'⟩ := hor 4 h2 h2'
  obtain ⟨h8, h8'⟩ := hor 8 h4 h4'
  obtain ⟨h16, h16'⟩ := hor 16 h8 h8'
  simp only [pow2gt]
  omega

/-- **There is room after `ensure`, and nothing that was written is lost.** -/
theorem ensure_eq (hmalloc : ∀ n, (malloc n).length = n) (hp : p.Ok)
    (h : needed + p.offset ≤ 2 ^ 30) :
    ∃ p', ensure malloc needed p = some p' ∧ p'.offset = p.offset ∧ p'.done = p.done ∧
      needed + p.offset ≤ p'.buffer.length := by
  obtain ⟨hle, hlt⟩ := pow2gt_bounds h
  simp only [ensure]
  split
  · next hroom => exact ⟨p, rfl, rfl, rfl, hroom⟩
  · refine ⟨_, if_neg (by omega), rfl, ?_, ?_⟩
    · exact List.take_append_of_le_length hp
    · simp only [List.length_append, List.length_drop, hmalloc]
      omega

theorem write_eq (h : p.offset + s.length ≤ p.buffer.length) :
    ∃ p', p.write s = some p' ∧ p'.offset = p.offset ∧ p'.done = p.done ∧
      p'.buffer.length = p.buffer.length ∧ s <+: p'.buffer.drop p'.offset := by
  have htake : (p.buffer.take p.offset).length = p.offset :=
    List.length_take_of_le (Nat.le_of_add_right_le h)
  refine ⟨_, if_pos h, rfl, ?_, ?_, ?_⟩
  · simp only [done, List.append_assoc, List.take_left' htake]
  · simp only [List.length_append, htake, List.length_drop]
    omega
  · simp only [List.append_assoc, List.drop_left' htake]
    exact List.prefix_append s _

/-- `f` writes `s` and goes on behind it. -/
def Advances (f : PrintBuffer → Option PrintBuffer) (s : List UInt8) : Prop :=
  ∀ p : PrintBuffer, p.Ok → p.offset + s.length + 64 ≤ 2 ^ 30 →
    ∃ p', f p = some p' ∧ p'.Ok ∧ p'.done = p.done ++ s

/-- `f` writes `s` with its `NUL`, and goes on in it. -/
def Puts (f : PrintBuffer → Option PrintBuffer) (s : List UInt8) : Prop :=
  ∀ p : PrintBuffer, p.Ok → p.offset + s.length + 64 ≤ 2 ^ 30 →
    ∃ p' u v, f p = some p' ∧ p'.Ok ∧ s = u ++ v ∧ p'.done = p.done ++ u ∧
      v ++ [0] <+: p'.buffer.drop p'.offset

theorem advances_nil : Advances some [] := fun p hp _ => ⟨p, rfl, hp, (List.append_nil _).symm⟩

theorem Advances.bind (hf : Advances f s) (hg : Advances g t) :
    Advances (fun p => f p >>= g) (s ++ t) := by
  intro p hp hbound
  rw [List.length_append] at hbound
  obtain ⟨p', hfp, hp', hdone⟩ := hf p hp (by omega)
  have hoffset : p'.offset = p.offset + s.length := by
    rw [← length_done hp', hdone, List.length_append, length_done hp]
  obtain ⟨p'', hgp, hp'', hdone'⟩ := hg p' hp' (by omega)
  refine ⟨p'', ?_, hp'', ?_⟩
  · show (f p >>= g) = _
    rw [hfp]
    exact hgp
  · rw [hdone', hdone, List.append_assoc]

theorem Advances.puts (hf : Advances f s) (hg : Puts g t) :
    Puts (fun p => f p >>= g) (s ++ t) := by
  intro p hp hbound
  rw [List.length_append] at hbound
  obtain ⟨p', hfp, hp', hdone⟩ := hf p hp (by omega)
  have hoffset : p'.offset = p.offset + s.length := by
    rw [← length_done hp', hdone, List.length_append, length_done hp]
  obtain ⟨p'', u, v, hgp, hp'', rfl, hdone', hrest⟩ := hg p' hp' (by omega)
  refine ⟨p'', s ++ u, v, ?_, hp'', ?_, ?_, hrest⟩
  · show (f p >>= g) = _
    rw [hfp]
    exact hgp
  · rw [List.append_assoc]
  · rw [hdone', hdone, List.append_assoc]

/-- `strlen` finds the end of a string. -/
theorem Puts.update (hf : Puts f s) (hs : 0 ∉ s) :
    Advances (fun p => f p >>= XToolkits.Json.update) s := by
  intro p hp hbound
  obtain ⟨p', u, v, hfp, hp', rfl, hdone, rest, hrest⟩ := hf p hp hbound
  have hv : ∀ b ∈ v, decide (b ≠ 0) = true := fun b hb =>
    decide_eq_true fun h => hs (List.mem_append_right u (h ▸ hb))
  have htake : (p'.buffer.drop p'.offset).takeWhile (fun b => b ≠ 0) = v := by
    rw [← hrest, List.append_assoc, List.takeWhile_append_of_pos hv]
    simp
  have hmem : (0 : UInt8) ∈ p'.buffer.drop p'.offset := by
    rw [← hrest]
    simp
  have hlength : v.length ≤ (p'.buffer.drop p'.offset).length := by
    rw [← hrest]
    simp
  refine ⟨p'.advance v.length, ?_, ?_, ?_⟩
  · show (f p >>= XToolkits.Json.update) = _
    rw [hfp]
    show XToolkits.Json.update p' = _
    rw [XToolkits.Json.update, if_pos hmem, htake]
  · rw [List.length_drop] at hlength
    show p'.offset + v.length ≤ p'.buffer.length
    have := hp'
    unfold PrintBuffer.Ok at this
    omega
  · show p'.buffer.take (p'.offset + v.length) = _
    rw [List.take_add, ← hrest, List.append_assoc, List.take_left']
    · rw [← List.append_assoc, ← hdone]
      rfl
    · rfl

/-- A value, the end of it, and what comes behind. -/
theorem Puts.bind (hf : Puts f s) (hs : 0 ∉ s) (hg : Advances g t) :
    Advances (fun p => f p >>= fun p => XToolkits.Json.update p >>= g) (s ++ t) := by
  have hboth := (hf.update hs).bind hg
  simpa only [bind_assoc] using hboth

section Put

variable (hmalloc : ∀ n, (malloc n).length = n)
include hmalloc

/-- After `ensure` a text that fits is written behind what is there. -/
theorem ensure_write (hp : p.Ok) (h : s.length ≤ needed) (hbound : p.offset + needed ≤ 2 ^ 30) :
    ∃ p', (ensure malloc needed p >>= PrintBuffer.write s) = some p' ∧ p'.offset = p.offset ∧
      p'.done = p.done ∧ p'.Ok ∧ s <+: p'.buffer.drop p'.offset := by
  rw [Nat.add_comm] at hbound
  obtain ⟨p₁, hensure, hoffset, hdone, hroom⟩ := ensure_eq hmalloc hp hbound
  obtain ⟨p₂, hwrite, hoffset', hdone', hlength, hpre⟩ := write_eq (p := p₁) (s := s) (by omega)
  refine ⟨p₂, ?_, hoffset'.trans hoffset, hdone'.trans hdone, ?_, hpre⟩
  · rw [hensure]
    exact hwrite
  · unfold PrintBuffer.Ok
    omega

theorem putPart_advances (h : (s ++ behind).length ≤ needed) (hneeded : needed ≤ s.length + 64) :
    Advances (putPart malloc needed s behind) s := by
  intro p hp hbound
  obtain ⟨p', hput, hoffset, hdone, hp', rest, hrest⟩ := ensure_write hmalloc hp h (by omega)
  have hlength : s.length ≤ (p'.buffer.drop p'.offset).length := by
    rw [← hrest]
    simp
  refine ⟨p'.advance s.length, ?_, ?_, ?_⟩
  · obtain ⟨p₁, hensure, hwrite⟩ := Option.bind_eq_some_iff.1 hput
    simp only [putPart, hensure, Option.bind_eq_bind, Option.bind_some, hwrite]
  · rw [List.length_drop] at hlength
    have hle : p'.offset ≤ p'.buffer.length := hp'
    show p'.offset + s.length ≤ p'.buffer.length
    omega
  · show p'.buffer.take (p'.offset + s.length) = _
    rw [List.take_add, ← hrest, List.append_assoc, List.take_left' rfl, ← hdone]
    rfl

/-- A text with its `NUL` behind it, written where `ensure` makes room. -/
theorem ensure_write_puts (h : s.length < needed) (hneeded : needed ≤ s.length + 64) :
    Puts (fun p => ensure malloc needed p >>= PrintBuffer.write (s ++ [0])) s := by
  intro p hp hbound
  have hlength : (s ++ [0]).length ≤ needed := by
    rw [List.length_append]
    exact h
  obtain ⟨p', hput, -, hdone, hp', hpre⟩ := ensure_write hmalloc hp hlength (by omega)
  exact ⟨p', [], s, hput, hp', rfl, by rw [hdone, List.append_nil], hpre⟩

/-- **A string of known size is written when it fits.** -/
theorem Printed.put_puts {r : Printed} (h : r.Short → r.Fits)
    (hsize : r.Short → r.size ≤ r.text.length + 64) : Puts (r.put malloc) r.text := by
  intro p hp hbound
  have hshort : r.Short := by
    unfold Printed.Short
    omega
  exact ensure_write_puts hmalloc (h hshort) (hsize hshort) p hp hbound

end Put

/-! ## Texts without `NUL` -/

section NoZero

theorem zero_notMem_append (hs : (0 : UInt8) ∉ s) (ht : (0 : UInt8) ∉ t) : (0 : UInt8) ∉ s ++ t :=
  fun h => (List.mem_append.1 h).elim hs ht

theorem zero_notMem_text {t : NumberText} (ht : t.Valid) : 0 ∉ t.text := fun h =>
  (mem_text ht h).elim (by decide) (by decide)

theorem zero_notMem_printNumber (d : Double) (valueint : Int) :
    0 ∉ (printNumber d valueint).text := by
  rcases printNumber_text d valueint with ⟨t, ht, htext⟩ | htext
  · rw [htext]
    exact zero_notMem_text ht
  · rw [htext]
    decide

theorem zero_notMem_escapeByte {b : UInt8} (hb : b ≠ 0) : 0 ∉ escapeByte b := by
  have hall : ∀ n < 256, n ≠ 0 → 0 ∉ escapeByte (UInt8.ofNat n) := by decide +kernel
  have hn : b.toNat ≠ 0 := fun h => hb (UInt8.toNat_inj.1 h)
  have hb := hall b.toNat b.toNat_lt hn
  rwa [UInt8.ofNat_toNat] at hb

theorem zero_notMem_printStringPtr {str : Option CStr} (h : ∀ s ∈ str, 0 ∉ s) :
    0 ∉ (printStringPtr str).text := by
  cases str with
  | none => decide
  | some s =>
      have hs := h s rfl
      rw [printStringPtr_some]
      refine zero_notMem_append (fun hzero => ?_) (by decide)
      rcases List.mem_cons.1 hzero with hzero | hzero
      · exact absurd hzero (by decide)
      · obtain ⟨b, hb, hzero⟩ := List.mem_flatMap.1 hzero
        exact zero_notMem_escapeByte (fun h => hs (h ▸ hb)) hzero

theorem zero_notMem_whenFmt (h : 0 ∉ s) : 0 ∉ whenFmt fmt s := by
  cases fmt with
  | false => exact List.not_mem_nil
  | true => exact h

theorem zero_notMem_tabs (n : Nat) : 0 ∉ tabs n := fun h =>
  absurd (List.eq_of_mem_replicate h) (by decide)

theorem zero_notMem_cons {b : UInt8} (hb : 0 ≠ b) (h : 0 ∉ s) : 0 ∉ b :: s := fun hzero =>
  (List.mem_cons.1 hzero).elim hb h

theorem zero_notMem_joinEntries {es : List CStr} (h : ∀ e ∈ es, 0 ∉ e) : 0 ∉ joinEntries fmt es := by
  induction es with
  | nil => exact List.not_mem_nil
  | cons e es ih =>
      have he := h e (List.mem_cons_self ..)
      have hes := ih fun e' he' => h e' (List.mem_cons_of_mem e he')
      cases es with
      | nil => exact he
      | cons e' es =>
          show (0 : UInt8) ∉ e ++ 44 :: whenFmt fmt [32] ++ joinEntries fmt (e' :: es)
          refine zero_notMem_append (zero_notMem_append he ?_) hes
          exact zero_notMem_cons (by decide) (zero_notMem_whenFmt (by decide))

theorem zero_notMem_joinMembers {es : List (CStr × CStr)} (h : ∀ e ∈ es, 0 ∉ e.1 ∧ 0 ∉ e.2) :
    0 ∉ joinMembers fmt depth es := by
  induction es with
  | nil => exact List.not_mem_nil
  | cons e es ih =>
      obtain ⟨name, entry⟩ := e
      obtain ⟨hname, hentry⟩ := h _ (List.mem_cons_self ..)
      have hes := ih fun e' he' => h e' (List.mem_cons_of_mem _ he')
      have hcomma : (0 : UInt8) ∉ if es = [] then [] else [(44 : UInt8)] := by
        split <;> decide
      have htabs : 0 ∉ whenFmt fmt (tabs depth) := zero_notMem_whenFmt (zero_notMem_tabs depth)
      have htab : (0 : UInt8) ∉ 58 :: whenFmt fmt [9] :=
        zero_notMem_cons (by decide) (zero_notMem_whenFmt (by decide))
      have hline : (0 : UInt8) ∉ whenFmt fmt [10] := zero_notMem_whenFmt (by decide)
      exact zero_notMem_append (zero_notMem_append (zero_notMem_append (zero_notMem_append
        (zero_notMem_append (zero_notMem_append htabs hname) htab) hentry) hcomma) hline) hes

theorem zero_notMem_printArray {entries : List Printed} (h : ∀ e ∈ entries, 0 ∉ e.text) :
    0 ∉ (printArray fmt entries).text := by
  rw [printArray]
  split
  · show (0 : UInt8) ∉ [91, 93]
    decide
  · refine zero_notMem_append (zero_notMem_cons (by decide) (zero_notMem_joinEntries ?_)) (by decide)
    intro e he
    obtain ⟨r, hr, rfl⟩ := List.mem_map.1 he
    exact h r hr

theorem zero_notMem_printObject {entries : List (Printed × Printed)}
    (h : ∀ e ∈ entries, 0 ∉ e.1.text ∧ 0 ∉ e.2.text) : 0 ∉ (printObject fmt depth entries).text := by
  have htabs : ∀ n, (0 : UInt8) ∉ whenFmt fmt (tabs n) := fun n =>
    zero_notMem_whenFmt (zero_notMem_tabs n)
  rw [printObject]
  split
  · have hline : (0 : UInt8) ∉ whenFmt fmt (10 :: tabs depth) :=
      zero_notMem_whenFmt (zero_notMem_cons (by decide) (zero_notMem_tabs depth))
    exact zero_notMem_append (zero_notMem_cons (by decide) hline) (by decide)
  · have hline : (0 : UInt8) ∉ 123 :: whenFmt fmt [10] :=
      zero_notMem_cons (by decide) (zero_notMem_whenFmt (by decide))
    refine zero_notMem_append (zero_notMem_append (zero_notMem_append hline ?_) (htabs _)) (by decide)
    refine zero_notMem_joinMembers fun e he => ?_
    obtain ⟨r, hr, rfl⟩ := List.mem_map.1 he
    exact h r hr

theorem Scalar.zero_notMem {item : Fields} {r : Printed} (h : Scalar item r) (hitem : item.Typed) :
    0 ∉ r.text := by
  cases h with
  | null | false | true => decide
  | number => exact zero_notMem_printNumber _ _
  | string => exact zero_notMem_printStringPtr hitem.valuestring

end NoZero

/-! ## The printer with a buffer -/

/-- What a chain gives when all of its items are printed. -/
def printedChain (ps : List (Printed × Printed)) : List (Printed × Option Printed) :=
  ps.map fun r => (r.1, some r.2)

theorem eq_printedChain_of_mapM_snd {children : List (Printed × Option Printed)}
    {entries : List Printed} (h : children.mapM Prod.snd = some entries) :
    ∃ ps, children = printedChain ps ∧ entries = ps.map Prod.snd := by
  induction children generalizing entries with
  | nil =>
      obtain rfl := Option.some_inj.1 h
      exact ⟨[], rfl, rfl⟩
  | cons e children ih =>
      rw [List.mapM_cons] at h
      obtain ⟨r, hr, h⟩ := Option.bind_eq_some_iff.1 h
      obtain ⟨entries', hentries, h⟩ := Option.bind_eq_some_iff.1 h
      obtain rfl := Option.some_inj.1 h
      obtain ⟨ps, rfl, rfl⟩ := ih hentries
      refine ⟨(e.1, r) :: ps, ?_, rfl⟩
      show e :: printedChain ps = (e.1, some r) :: printedChain ps
      rw [← hr]

theorem eq_printedChain_of_mapM_pair {children : List (Printed × Option Printed)}
    {ps : List (Printed × Printed)}
    (h : children.mapM (fun (e : Printed × Option Printed) => e.2.map fun r => (e.1, r)) = some ps) :
    children = printedChain ps := by
  induction children generalizing ps with
  | nil =>
      obtain rfl := Option.some_inj.1 h
      rfl
  | cons e children ih =>
      rw [List.mapM_cons] at h
      obtain ⟨r, hr, h⟩ := Option.bind_eq_some_iff.1 h
      obtain ⟨ps', hps, h⟩ := Option.bind_eq_some_iff.1 h
      obtain rfl := Option.some_inj.1 h
      obtain ⟨r', hr', rfl⟩ := Option.map_eq_some_iff.1 hr
      rw [ih hps]
      show e :: printedChain ps' = (e.1, some r') :: printedChain ps'
      rw [← hr']

/-- The loops write the items of a chain, and no text has a `NUL` in it. -/
def LoopsPut (malloc : Nat → List UInt8) (fmt : Bool) (chain : Item) : Prop :=
  ∀ depth ps, chain.printChain fmt depth = printedChain ps →
    Advances (chain.putLoop malloc fmt false depth) (joinEntries fmt (ps.map fun r => r.2.text)) ∧
    Advances (chain.putLoop malloc fmt true depth)
      (joinMembers fmt depth (ps.map fun r => (r.1.text, r.2.text))) ∧
    ∀ r ∈ ps, 0 ∉ r.1.text ∧ 0 ∉ r.2.text

/-- A chain without items prints nothing. -/
theorem eq_null_iff {chain : Item} {ps : List (Printed × Printed)}
    (h : chain.printChain fmt depth = printedChain ps) : chain = .null ↔ ps = [] := by
  cases chain with
  | null => exact ⟨fun _ => List.map_eq_nil_iff.1 h.symm, fun _ => rfl⟩
  | node item child next =>
      refine ⟨fun hnull => Item.noConfusion hnull, fun hnil => ?_⟩
      rw [hnil] at h
      cases h

section Types

variable {item : Fields} {child : Item} {r : Printed}
  {loop : Bool → Nat → PrintBuffer → Option PrintBuffer}

theorem Scalar.putValue (h : Scalar item r) : putValue malloc fmt depth item child loop = r.put malloc := by
  funext p
  cases h with
  | null h | false h | true h | number h | string h => simp only [Json.putValue, h]; rfl

theorem putValue_array (h : item.type % 256 = cJSONArray) :
    putValue malloc fmt depth item child loop = putArray malloc fmt depth child (loop false) := by
  funext p
  simp only [putValue, h]
  rfl

theorem putValue_object (h : item.type % 256 = cJSONObject) :
    putValue malloc fmt depth item child loop = putObject malloc fmt depth child (loop true) := by
  funext p
  simp only [putValue, h]
  rfl

theorem Scalar.size_le (h : Scalar item r) (hshort : r.Short) : r.size ≤ r.text.length + 64 := by
  cases h with
  | null | false | true => decide
  | number =>
      have hsize := size_printNumber_le item.valuedouble item.valueint
      omega
  | string =>
      have hsize := size_printStringPtr hshort
      omega

end Types

section Put

variable {item : Fields} {child : Item} {r : Printed}
variable (hmalloc : ∀ n, (malloc n).length = n)
include hmalloc

/-- The items of an array with the brackets around them. -/
theorem putArray_puts {loop : Nat → PrintBuffer → Option PrintBuffer} {ps : List (Printed × Printed)}
    (hnil : child = .null ↔ ps = [])
    (hloop : Advances (loop (depth + 1)) (joinEntries fmt (ps.map fun r => r.2.text))) :
    Puts (putArray malloc fmt depth child loop) (printArray fmt (ps.map Prod.snd)).text := by
  unfold putArray
  split
  · next hchild =>
      obtain rfl := hnil.1 hchild
      exact Printed.put_puts hmalloc printArray_fits fun _ => by show 3 ≤ 2 + 64; decide
  · next hchild =>
      have hne : ps.map Prod.snd ≠ [] := fun h => hchild (hnil.2 (List.map_eq_nil_iff.1 h))
      have hopen : Advances (putPart malloc 1 [91] []) [91] :=
        putPart_advances hmalloc (Nat.le_refl 1) (by decide)
      have hclose : Puts (fun p => ensure malloc 2 p >>= PrintBuffer.write ([93] ++ [0])) [93] :=
        ensure_write_puts hmalloc (by decide) (by decide)
      have htext : (printArray fmt (ps.map Prod.snd)).text =
          [91] ++ (joinEntries fmt (ps.map fun r => r.2.text) ++ [93]) := by
        rw [printArray, if_neg hne]
        simp only [List.map_map]
        rfl
      rw [htext]
      exact hopen.puts (hloop.puts hclose)

/-- The members of an object with the braces around them. -/
theorem putObject_puts {loop : Nat → PrintBuffer → Option PrintBuffer} {ps : List (Printed × Printed)}
    (hnil : child = .null ↔ ps = [])
    (hloop : Advances (loop (depth + 1))
      (joinMembers fmt (depth + 1) (ps.map fun r => (r.1.text, r.2.text)))) :
    Puts (putObject malloc fmt depth child loop) (printObject fmt depth ps).text := by
  unfold putObject
  split
  · next hchild =>
      obtain rfl := hnil.1 hchild
      refine Printed.put_puts hmalloc printObject_fits fun hshort => ?_
      rw [size_printObject_nil hshort]
      omega
  · next hchild =>
      have hne : ps ≠ [] := fun h => hchild (hnil.2 h)
      have hopen : Advances (putPart malloc ((if fmt then 2 else 1) + 1) (123 :: whenFmt fmt [10]) [0])
          (123 :: whenFmt fmt [10]) := by
        refine putPart_advances hmalloc ?_ ?_ <;> cases fmt <;> decide
      have hclose : Puts (fun p => ensure malloc (if fmt then depth + 1 + 1 else 2) p >>=
          PrintBuffer.write (whenFmt fmt (tabs depth) ++ [125] ++ [0]))
          (whenFmt fmt (tabs depth) ++ [125]) := by
        refine ensure_write_puts hmalloc ?_ ?_ <;>
          simp only [List.length_append, length_whenFmt, length_tabs, List.length_singleton] <;>
          cases fmt <;> simp only [if_true, if_false, Bool.false_eq_true] <;> omega
      have htext : (printObject fmt depth ps).text = 123 :: whenFmt fmt [10] ++
          (joinMembers fmt (depth + 1) (ps.map fun r => (r.1.text, r.2.text)) ++
            (whenFmt fmt (tabs depth) ++ [125])) := by
        rw [printObject, if_neg hne]
        simp only [List.append_assoc, Nat.add_sub_cancel]
      have hputs := hopen.puts (hloop.puts hclose)
      rw [htext]
      simp only [List.append_assoc, List.singleton_append] at hputs
      simp only [Nat.add_sub_cancel]
      exact hputs

/-- **A value is written into the buffer with the text that it is printed with.** -/
theorem putValue_puts (hitem : item.Typed) (hchild : LoopsPut malloc fmt child)
    (h : printValue fmt depth item (child.printChain fmt (depth + 1)) = some r) :
    Puts (putValue malloc fmt depth item child (child.putLoop malloc fmt)) r.text ∧
      0 ∉ r.text := by
  rcases printValue_cases h with hscalar | ⟨harray, entries, hentries, rfl⟩ | ⟨hobject, ps, hps, rfl⟩
  · rw [hscalar.putValue]
    exact ⟨Printed.put_puts hmalloc (hscalar.fits hitem) hscalar.size_le, hscalar.zero_notMem hitem⟩
  · obtain ⟨ps, hps, rfl⟩ := eq_printedChain_of_mapM_snd hentries
    obtain ⟨hloop, -, hzero⟩ := hchild (depth + 1) ps hps
    rw [putValue_array harray]
    refine ⟨putArray_puts hmalloc (eq_null_iff hps) hloop, zero_notMem_printArray fun r hr => ?_⟩
    obtain ⟨e, he, rfl⟩ := List.mem_map.1 hr
    exact (hzero e he).2
  · have hps := eq_printedChain_of_mapM_pair hps
    obtain ⟨-, hloop, hzero⟩ := hchild (depth + 1) ps hps
    rw [putValue_object hobject]
    exact ⟨putObject_puts hmalloc (eq_null_iff hps) hloop, zero_notMem_printObject hzero⟩

/-- A round of the loop of `print_array`. -/
theorem putLoop_entry {next : Item} {ps : List (Printed × Printed)} (hnil : next = .null ↔ ps = [])
    (hput : Puts (putValue malloc fmt depth item child (child.putLoop malloc fmt)) r.text)
    (hzero : 0 ∉ r.text)
    (hnext : Advances (next.putLoop malloc fmt false depth) (joinEntries fmt (ps.map fun r => r.2.text))) :
    Advances ((Item.node item child next).putLoop malloc fmt false depth)
      (joinEntries fmt (r.text :: ps.map fun r => r.2.text)) := by
  simp only [Item.putLoop, Bool.false_eq_true, if_false]
  obtain _ | ⟨r', ps⟩ := ps
  · obtain rfl := hnil.2 rfl
    simp only [if_true]
    have hboth := hput.bind hzero (advances_nil.bind hnext)
    simpa only [List.map_nil, joinEntries, List.append_nil] using hboth
  · have hne : next ≠ .null := fun h => absurd (hnil.1 h) (List.cons_ne_nil r' ps)
    simp only [if_neg hne]
    have hcomma : Advances (putPart malloc ((if fmt then 2 else 1) + 1) ([44] ++ whenFmt fmt [32]) [0])
        ([44] ++ whenFmt fmt [32]) := by
      refine putPart_advances hmalloc ?_ ?_ <;> cases fmt <;> decide
    have hboth := hput.bind hzero (hcomma.bind hnext)
    simpa only [List.map_cons, joinEntries, List.append_assoc, List.nil_append, List.cons_append]
      using hboth

/-- A round of the loop of `print_object`. -/
theorem putLoop_member {next : Item} {ps : List (Printed × Printed)} (hnil : next = .null ↔ ps = [])
    (hname : 0 ∉ (printStringPtr item.string).text)
    (hput : Puts (putValue malloc fmt depth item child (child.putLoop malloc fmt)) r.text)
    (hzero : 0 ∉ r.text)
    (hnext : Advances (next.putLoop malloc fmt true depth)
      (joinMembers fmt depth (ps.map fun r => (r.1.text, r.2.text)))) :
    Advances ((Item.node item child next).putLoop malloc fmt true depth)
      (joinMembers fmt depth (((printStringPtr item.string).text, r.text) ::
        ps.map fun r => (r.1.text, r.2.text))) := by
  have htabs : Advances (putTabs malloc fmt depth) (whenFmt fmt (tabs depth)) := by
    unfold putTabs
    cases fmt with
    | false => exact advances_nil
    | true =>
        refine putPart_advances hmalloc ?_ ?_ <;> simp only [List.append_nil, length_tabs] <;> omega
  have hstring : Puts ((printStringPtr item.string).put malloc) (printStringPtr item.string).text :=
    Printed.put_puts hmalloc printStringPtr_fits fun hshort => by rw [size_printStringPtr hshort]; omega
  have hcolon : Advances (putPart malloc (if fmt then 2 else 1) (58 :: whenFmt fmt [9]) [])
      (58 :: whenFmt fmt [9]) := by
    refine putPart_advances hmalloc ?_ ?_ <;> cases fmt <;> decide
  have hend : ∀ comma : List UInt8, Advances (putPart malloc ((comma ++ whenFmt fmt [10]).length + 1)
      (comma ++ whenFmt fmt [10]) [0]) (comma ++ whenFmt fmt [10]) := fun comma =>
    putPart_advances hmalloc (by rw [List.length_append]; exact Nat.le_refl _) (by omega)
  have hcomma : (if ps.map (fun r => (r.1.text, r.2.text)) = [] then [] else [(44 : UInt8)]) =
      if next = .null then [] else [44] := by
    simp only [List.map_eq_nil_iff, hnil]
  have hround := htabs.bind (hstring.bind hname (hcolon.bind (hput.bind hzero
    ((hend (if next = .null then [] else [44])).bind hnext))))
  simp only [Item.putLoop, if_true, joinMembers, hcomma]
  simpa only [List.append_assoc, List.cons_append] using hround

/-- The loops write what the children are printed with. -/
theorem loopsPut {chain : Item} (h : chain.Typed) : LoopsPut malloc fmt chain := by
  induction chain with
  | null =>
      intro depth ps hps
      obtain rfl : ps = [] := List.map_eq_nil_iff.1 hps.symm
      exact ⟨advances_nil, advances_nil, fun r hr => absurd hr List.not_mem_nil⟩
  | node item child next ihChild ihNext =>
      obtain ⟨hitem, hchild, hnext⟩ := h
      intro depth ps hps
      obtain _ | ⟨r, ps⟩ := ps
      · cases hps
      rw [Item.printChain] at hps
      obtain ⟨hhead, hps⟩ := List.cons.inj hps
      obtain ⟨hname, hvalue⟩ := Prod.mk.inj hhead
      have hnil := eq_null_iff hps
      obtain ⟨hput, hzero⟩ := putValue_puts hmalloc hitem (ihChild hchild) hvalue
      obtain ⟨hentries, hmembers, hzeros⟩ := ihNext hnext depth ps hps
      have hstring := zero_notMem_printStringPtr hitem.string
      refine ⟨putLoop_entry hmalloc hnil hput hzero hentries, ?_, ?_⟩
      · have hmember := putLoop_member hmalloc hnil hstring hput hzero hmembers
        rwa [hname] at hmember
      · intro r' hr'
        rcases List.mem_cons.1 hr' with rfl | hr'
        · exact ⟨hname ▸ hstring, hzero⟩
        · exact hzeros r' hr'

/-- **The buffer ends up with the text that `cJSON_Print` gives**, whatever its first size and the
    contents of new memory. -/
theorem cJSONPrintBuffered_eq {t : Item} (ht : t.Typed) (h : cJSONPrint fmt t = some r)
    (hsize : r.text.length + 64 ≤ 2 ^ 30) (prebuffer : Nat) :
    ∃ p, cJSONPrintBuffered malloc prebuffer fmt t = some p ∧ r.text ++ [0] <+: p.buffer := by
  cases t with
  | null => cases h
  | node item child next =>
      obtain ⟨hitem, hchild, -⟩ := ht
      obtain ⟨hput, -⟩ := putValue_puts hmalloc hitem (loopsPut hmalloc hchild) h
      obtain ⟨p, u, v, hp, -, htext, hdone, rest, hrest⟩ := hput ⟨malloc prebuffer, 0⟩ (Nat.zero_le _)
        (by simpa using hsize)
      refine ⟨p, hp, rest, ?_⟩
      have hu : p.done = u := hdone
      calc r.text ++ [0] ++ rest = u ++ (v ++ [0] ++ rest) := by rw [htext]; simp
        _ = p.buffer.take p.offset ++ p.buffer.drop p.offset := by rw [hrest, ← hu]; rfl
        _ = p.buffer := List.take_append_drop ..

end Put

/-- A string in a buffer that is too small for it. -/
theorem cJSONPrintBuffered_eq_string :
    ∃ p, cJSONPrintBuffered (fun n => List.replicate n 255) 1 true (cJSONCreateString [34, 97]) =
      some p ∧ [34, 92, 34, 97, 34] ++ [0] <+: p.buffer :=
  have ht : (cJSONCreateString [34, 97]).Typed :=
    ⟨⟨by decide, by decide, by decide⟩, trivial, trivial⟩
  have h : cJSONPrint true (cJSONCreateString [34, 97]) = some ⟨6, [34, 92, 34, 97, 34]⟩ := by
    decide +kernel
  cJSONPrintBuffered_eq (fun _ => List.length_replicate) ht h (by decide) 1

end XToolkits.Json
