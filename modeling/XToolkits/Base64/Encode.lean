import XToolkits.Base64.Codec
import XToolkits.Lib.BitString

set_option autoImplicit false

/-! # What the encoder writes

`sextets` are the sextets for which the encoder writes a character. With unsigned chars they are the
bits of the input cut in pieces of six (`bitString_sextets`): that is what base64 is. The rest of the
output is `=` and line ends, which the decoder does not read, so for the decoder the output is the
list of the sextets other than `63` (`base64Encode_eq`), of which it does not know the character. -/

namespace XToolkits.Base64

variable {signed : Bool} {z : UInt8}

/-! ## The sextets of a list of bytes -/

/-- The sextets for which a character is written; `z` is the byte behind the list. -/
def sextets (signed : Bool) (z : UInt8) : List UInt8 → List Nat
  | [] => []
  | [a] => [a.toNat / 4, secondSextet signed a z]
  | [a, b] => [a.toNat / 4, secondSextet signed a b, b.toNat % 16 * 4]
  | a :: b :: c :: xs =>
      a.toNat / 4 :: secondSextet signed a b :: thirdSextet signed b c :: c.toNat % 64 ::
        sextets signed z xs

/-- Whole groups in front. -/
theorem sextets_append {n : Nat} {xs : List UInt8} (hxs : xs.length = 3 * n) (ys : List UInt8) :
    sextets signed z (xs ++ ys) = sextets signed z xs ++ sextets signed z ys := by
  induction n generalizing xs with
  | zero =>
      rw [List.eq_nil_of_length_eq_zero hxs]
      rfl
  | succ n ih =>
      match xs, hxs with
      | a :: b :: c :: xs, hxs =>
          simp only [List.cons_append, sextets]
          rw [ih (by simpa [Nat.mul_succ] using hxs)]

theorem secondSextet_lt (signed : Bool) (a b : UInt8) : secondSextet signed a b < 64 := by
  have hb := UInt8.toNat_lt b
  rw [secondSextet]
  split <;> omega

theorem thirdSextet_lt (signed : Bool) (b c : UInt8) : thirdSextet signed b c < 64 := by
  have hc := UInt8.toNat_lt c
  rw [thirdSextet]
  split <;> omega

theorem sextets_lt (signed : Bool) (z : UInt8) (xs : List UInt8) :
    ∀ v ∈ sextets signed z xs, v < 64 := by
  have hfirst : ∀ a : UInt8, a.toNat / 4 < 64 := fun a => by have := UInt8.toNat_lt a; omega
  have hsecond := secondSextet_lt signed
  have hthird := thirdSextet_lt signed
  have halone : ∀ b : UInt8, b.toNat % 16 * 4 < 64 := fun b => by omega
  have hfourth : ∀ c : UInt8, c.toNat % 64 < 64 := fun c => Nat.mod_lt _ (by decide)
  fun_induction sextets signed z xs with
  | case1 => exact fun v hv => absurd hv List.not_mem_nil
  | case2 a => simp [hfirst, hsecond]
  | case3 a b => simp [hfirst, hsecond, halone]
  | case4 a b c xs ih => simpa [hfirst, hsecond, hthird, hfourth] using ih

theorem length_sextets (signed : Bool) (z : UInt8) (xs : List UInt8) :
    (sextets signed z xs).length = (4 * xs.length + 2) / 3 := by
  fun_induction sextets signed z xs with
  | case1 => simp
  | case2 a => simp
  | case3 a b => simp
  | case4 a b c xs ih =>
      simp only [List.length_cons, ih]
      omega

/-! ## The bits of the sextets -/

/-- The bits behind the input: the beginning of the byte behind it, or two that are not set. -/
def tailBits (z : UInt8) : Nat → List Bool
  | 1 => bitsOf 4 (z.toNat / 16)
  | 2 => bitsOf 2 0
  | _ => []

theorem bitsOf_first (a : UInt8) :
    bitsOf 8 a.toNat = bitsOf 6 (a.toNat / 4) ++ bitsOf 2 (a.toNat % 4) := bitsOf_split 6 2 _

theorem bitsOf_middle (b : UInt8) :
    bitsOf 8 b.toNat = bitsOf 4 (b.toNat / 16) ++ bitsOf 4 (b.toNat % 16) := bitsOf_split 4 4 _

theorem bitsOf_last (c : UInt8) :
    bitsOf 8 c.toNat = bitsOf 2 (c.toNat / 64) ++ bitsOf 6 (c.toNat % 64) := bitsOf_split 2 6 _

theorem bitsOf_second (a b : UInt8) :
    bitsOf 6 (secondSextet false a b) = bitsOf 2 (a.toNat % 4) ++ bitsOf 4 (b.toNat / 16) :=
  bitsOf_add (w := 4) 2 (a.toNat % 4) (Nat.div_lt_of_lt_mul (UInt8.toNat_lt b))

theorem bitsOf_third (b c : UInt8) :
    bitsOf 6 (thirdSextet false b c) = bitsOf 4 (b.toNat % 16) ++ bitsOf 2 (c.toNat / 64) :=
  bitsOf_add (w := 2) 4 (b.toNat % 16) (Nat.div_lt_of_lt_mul (UInt8.toNat_lt c))

theorem bitsOf_alone (b : UInt8) :
    bitsOf 6 (b.toNat % 16 * 4) = bitsOf 4 (b.toNat % 16) ++ bitsOf 2 0 :=
  bitsOf_add (w := 2) (n := 0) 4 (b.toNat % 16) (by decide)

/-- **With unsigned chars the sextets are the bits of the input in pieces of six.** -/
theorem bitString_sextets (z : UInt8) (xs : List UInt8) :
    bitString 6 (sextets false z xs) =
      bitString 8 (xs.map UInt8.toNat) ++ tailBits z (xs.length % 3) := by
  fun_induction sextets false z xs with
  | case1 => simp [tailBits]
  | case2 a => simp [bitsOf_first, bitsOf_second, tailBits]
  | case3 a b => simp [bitsOf_first a, bitsOf_second, bitsOf_middle b, bitsOf_alone, tailBits]
  | case4 a b c xs ih =>
      have hlen : (a :: b :: c :: xs).length % 3 = xs.length % 3 := by
        simp only [List.length_cons]
        omega
      rw [hlen]
      simp [bitsOf_first a, bitsOf_second, bitsOf_third, bitsOf_middle b, bitsOf_last c, ih]

/-! ## Text in lines -/

/-- The characters of the sextets, and `=` up to the end of a group. -/
def encodeText (signed : Bool) (z : UInt8) (xs : List UInt8) : List UInt8 :=
  (sextets signed z xs).map sextetChar ++ List.replicate ((3 - xs.length % 3) % 3) 0x3d

/-- What stands behind the group `i`: after 18 groups the end of the line. -/
def lineEnd (i : Nat) : List UInt8 := if (i + 1) % 18 = 0 then [0x0a] else []

/-- A text with the first `groups` groups of four characters in lines. -/
def inLines (groups : Nat) (cs : List UInt8) : List UInt8 :=
  (List.range groups).flatMap (fun i => (cs.drop (4 * i)).take 4 ++ lineEnd i) ++ cs.drop (4 * groups)

theorem inLines_append {groups : Nat} {cs : List UInt8} (hcs : cs.length = 4 * groups)
    (ds : List UInt8) : inLines groups (cs ++ ds) = inLines groups cs ++ ds := by
  have hgroup : ∀ i ∈ List.range groups, ((cs ++ ds).drop (4 * i)).take 4 ++ lineEnd i =
      (cs.drop (4 * i)).take 4 ++ lineEnd i := fun i hi => by
    have hlt := List.mem_range.1 hi
    rw [List.drop_append_of_le_length (by omega),
      List.take_append_of_le_length (by rw [List.length_drop]; omega)]
  rw [inLines, inLines, List.flatMap_congr hgroup, List.append_assoc,
    List.drop_append_of_le_length (by omega)]

/-- One more group. -/
theorem inLines_succ {groups : Nat} {cs ds : List UInt8} (hcs : cs.length = 4 * groups)
    (hds : ds.length = 4) :
    inLines (groups + 1) (cs ++ ds) = inLines groups cs ++ (ds ++ lineEnd groups) := by
  have hlast : ((cs ++ ds).drop (4 * groups)).take 4 = ds := by
    rw [← hcs, List.drop_left, ← hds, List.take_length]
  have hend : (cs ++ ds).drop (4 * (groups + 1)) = [] :=
    List.drop_eq_nil_of_le (by rw [List.length_append]; omega)
  have hfront := inLines_append hcs ds
  rw [inLines, List.drop_left' hcs] at hfront
  rw [inLines, hend, List.append_nil, List.range_succ, List.flatMap_append, List.flatMap_singleton,
    hlast, List.append_cancel_right hfront]

/-- Without the line ends the text comes back. -/
theorem filter_inLines (groups : Nat) {cs : List UInt8} (hcs : 0x0a ∉ cs) :
    (inLines groups cs).filter (· != 0x0a) = cs := by
  have hkeep : ∀ ds : List UInt8, ds.Sublist cs → ds.filter (· != 0x0a) = ds := fun ds hds =>
    List.filter_eq_self.2 fun c hc => by simpa using fun h : c = 0x0a => hcs (h ▸ hds.subset hc)
  have hline : ∀ i, (lineEnd i).filter (· != 0x0a) = [] := fun i => by
    rw [lineEnd]
    split <;> rfl
  induction groups with
  | zero => simpa [inLines] using hkeep cs (List.Sublist.refl cs)
  | succ groups ih =>
      have hdrop : cs.drop (4 * groups) =
          (cs.drop (4 * groups)).take 4 ++ cs.drop (4 * (groups + 1)) := by
        rw [Nat.mul_succ, ← List.drop_drop, List.take_append_drop]
      rw [inLines, hdrop, List.filter_append, List.filter_append] at ih
      rw [inLines, List.range_succ, List.flatMap_append, List.flatMap_singleton, List.filter_append,
        List.filter_append, List.filter_append, hline, List.append_nil, List.append_assoc]
      exact ih

/-! ## The output of the encoder -/

theorem filterMap_sextetChar {vs : List Nat} (hvs : ∀ v ∈ vs, v < 64) :
    (vs.map sextetChar).filterMap charVal = vs.filter (· != 63) := by
  induction vs with
  | nil => rfl
  | cons v vs ih =>
      obtain ⟨hv, hvs⟩ := List.forall_mem_cons.1 hvs
      rw [List.map_cons, List.filterMap_cons, (sextetChar_spec v hv).1, ih hvs, List.filter_cons]
      by_cases h : v = 63
      · simp [h]
      · simp [h]

theorem groupChars_eq (signed : Bool) (z a b c : UInt8) :
    groupChars signed a b c = (sextets signed z [a, b, c]).map sextetChar := by
  rw [groupChars, (charFacts signed a).first, secondChar_eq, thirdChar_eq,
    (charFacts signed c).table]
  rfl

/-- Only characters of sextets, line ends and `=` are written, and the decoder reads the sextets. -/
structure Written (signed : Bool) (z : UInt8) (xs out : List UInt8) : Prop where
  values : out.filterMap charVal = (sextets signed z xs).filter (· != 63)
  text : 0 ∉ out

/-- Characters of sextets and then some that the decoder does not read. -/
theorem Written.of_chars (xs : List UInt8) {ends : List UInt8}
    (hends : ∀ c ∈ ends, c = 0x0a ∨ c = 0x3d) :
    Written signed z xs ((sextets signed z xs).map sextetChar ++ ends) := by
  have hskip : ends.filterMap charVal = [] := List.filterMap_eq_nil_iff.2 fun c hc => by
    rcases hends c hc with rfl | rfl <;> rfl
  constructor
  · rw [List.filterMap_append, filterMap_sextetChar (sextets_lt signed z xs), hskip, List.append_nil]
  · rw [List.mem_append, List.mem_map]
    rintro (⟨v, hv, hzero⟩ | hzero)
    · exact (sextetChar_spec v (sextets_lt signed z xs v hv)).2 hzero
    · rcases hends 0 hzero with h | h <;> exact absurd h (by decide)

theorem Written.append {n : Nat} {xs ys out out' : List UInt8} (hxs : xs.length = 3 * n)
    (h : Written signed z xs out) (h' : Written signed z ys out') :
    Written signed z (xs ++ ys) (out ++ out') := by
  constructor
  · rw [List.filterMap_append, sextets_append hxs, List.filter_append, h.values, h'.values]
  · rw [List.mem_append, not_or]
    exact ⟨h.text, h'.text⟩

variable {m : Mem UInt8} {inp : Int}

/-- The state of the loop after `n` groups. -/
structure EncodeState.Holds (signed : Bool) (z : UInt8) (m : Mem UInt8) (inp : Int) (n : Nat)
    (s : EncodeState) : Prop where
  index : s.sourceIndex = 3 * n
  written : Written signed z (m.read inp (3 * n)) s.out
  line : s.y = n % 18
  length : s.out.length = 4 * n + n / 18

variable {n : Nat} {s : EncodeState}

theorem EncodeState.Holds.read_succ (h : s.Holds signed z m inp n) :
    m.read inp (3 * (n + 1)) = m.read inp (3 * n) ++
      [m (inp + s.sourceIndex), m (inp + (s.sourceIndex + 1)), m (inp + (s.sourceIndex + 2))] := by
  rw [Nat.mul_succ, Mem.read_add, h.index]
  simp [Mem.read, Int.add_assoc]

/-- A round behind `n` groups. -/
theorem encodeGroup_eq (signed : Bool) (m : Mem UInt8) (inp : Int) (hy : s.y = n % 18) :
    encodeGroup signed m inp s =
      ⟨s.out ++ (groupChars signed (m (inp + s.sourceIndex)) (m (inp + (s.sourceIndex + 1)))
        (m (inp + (s.sourceIndex + 2))) ++ lineEnd n), s.sourceIndex + 3, (n + 1) % 18⟩ := by
  rw [encodeGroup, hy, lineEnd]
  rcases Nat.lt_or_ge (n % 18 + 1) 18 with hlt | hge
  · rw [if_neg (by omega), if_neg (by omega), List.append_nil, show n % 18 + 1 = (n + 1) % 18 by omega]
  · rw [if_pos (by omega), if_pos (by omega), List.append_assoc, show (n + 1) % 18 = 0 by omega]

theorem length_lineEnd (i : Nat) : (lineEnd i).length + i / 18 = (i + 1) / 18 := by
  rw [lineEnd]
  split
  · rw [List.length_singleton]
    omega
  · rw [List.length_nil]
    omega

theorem mem_lineEnd {i : Nat} {c : UInt8} (hc : c ∈ lineEnd i) : c = 0x0a := by
  rw [lineEnd] at hc
  split at hc
  · exact List.mem_singleton.1 hc
  · cases hc

theorem EncodeState.Holds.encodeGroup (h : s.Holds signed z m inp n) :
    (encodeGroup signed m inp s).Holds signed z m inp (n + 1) := by
  rw [encodeGroup_eq signed m inp h.line]
  refine ⟨?_, ?_, rfl, ?_⟩
  · show s.sourceIndex + 3 = 3 * (n + 1)
    rw [h.index, Nat.mul_succ]
  · rw [h.read_succ, groupChars_eq signed z]
    exact h.written.append (Mem.length_read ..) (Written.of_chars _ fun _ hc => Or.inl (mem_lineEnd hc))
  · have hend := length_lineEnd n
    have hgroup : ∀ a b c, (groupChars signed a b c).length = 4 := fun _ _ _ => rfl
    show (s.out ++ _).length = _
    rw [List.length_append, h.length, List.length_append, hgroup]
    omega

/-- The loop, with its last round. -/
theorem encodeGroups_succ (signed : Bool) (m : Mem UInt8) (inp : Int) (n : Nat) (s : EncodeState) :
    encodeGroups signed m inp (n + 1) s = encodeGroup signed m inp (encodeGroups signed m inp n s) := by
  induction n generalizing s with
  | zero => rfl
  | succ n ih =>
      rw [encodeGroups, ih]
      rfl

theorem holds_encodeGroups (signed : Bool) (z : UInt8) (m : Mem UInt8) (inp : Int) (n : Nat) :
    (encodeGroups signed m inp n ⟨[], 0, 0⟩).Holds signed z m inp n := by
  induction n with
  | zero => exact ⟨rfl, ⟨rfl, List.not_mem_nil⟩, rfl, rfl⟩
  | succ n ih =>
      rw [encodeGroups_succ]
      exact ih.encodeGroup

/-- The groups are written in lines. -/
theorem encodeGroups_out (signed : Bool) (z : UInt8) (m : Mem UInt8) (inp : Int) (n : Nat) :
    (encodeGroups signed m inp n ⟨[], 0, 0⟩).out =
      inLines n ((sextets signed z (m.read inp (3 * n))).map sextetChar) := by
  induction n with
  | zero => rfl
  | succ n ih =>
      have h := holds_encodeGroups signed z m inp n
      have hlen : ((sextets signed z (m.read inp (3 * n))).map sextetChar).length = 4 * n := by
        rw [List.length_map, length_sextets, Mem.length_read]
        omega
      rw [encodeGroups_succ, encodeGroup_eq signed m inp h.line, ih, h.read_succ, sextets_append
        (Mem.length_read ..), List.map_append, ← groupChars_eq, inLines_succ hlen rfl]

/-- The tail is the text of the bytes that are left. -/
theorem encodeTail_eq (signed : Bool) (m : Mem UInt8) (p : Int) {r : Nat} (hr : r < 3) :
    encodeTail signed m p r = encodeText signed (m (p + r)) (m.read p r) := by
  match r, hr with
  | 0, _ => simp [encodeTail, encodeText, sextets]
  | 1, _ =>
      rw [encodeTail, (charFacts signed (m p)).first, secondChar_eq]
      rfl
  | 2, _ =>
      rw [encodeTail, (charFacts signed (m p)).first, secondChar_eq,
        (charFacts signed (m (p + 1))).thirdAlone]
      rfl

theorem written_encodeText (signed : Bool) (z : UInt8) (xs : List UInt8) :
    Written signed z xs (encodeText signed z xs) :=
  Written.of_chars xs fun _ hc => Or.inr (List.eq_of_mem_replicate hc)

theorem length_encodeText (signed : Bool) (z : UInt8) (xs : List UInt8) :
    (encodeText signed z xs).length = 4 * ((xs.length + 2) / 3) := by
  rw [encodeText, List.length_append, List.length_map, length_sextets, List.length_replicate]
  omega

/-- The text of whole groups and of what follows. -/
theorem encodeText_append {n : Nat} {xs : List UInt8} (hxs : xs.length = 3 * n) (ys : List UInt8) :
    encodeText signed z (xs ++ ys) =
      (sextets signed z xs).map sextetChar ++ encodeText signed z ys := by
  rw [encodeText, encodeText, sextets_append hxs, List.map_append, List.append_assoc,
    List.length_append, hxs, Nat.mul_add_mod]

/-- **What `base64Encode` writes**, when its length fits in an `int`: the text of the bytes in
    lines. -/
theorem base64Encode_eq (signed : Bool) (m : Mem UInt8) (inp : Int) (len : Nat) :
    ∃ out, base64Encode signed m inp len = (if out.length < 2 ^ 31 then some out else none) ∧
      out = inLines (len / 3) (encodeText signed (m (inp + len)) (m.read inp len)) ∧
      Written signed (m (inp + len)) (m.read inp len) out ∧
      out.length = 4 * ((len + 2) / 3) + len / 3 / 18 := by
  have h := holds_encodeGroups signed (m (inp + len)) m inp (len / 3)
  have hout := encodeGroups_out signed (m (inp + len)) m inp (len / 3)
  have hlen : 3 * (len / 3) + len % 3 = len := Nat.div_add_mod len 3
  have hread : m.read inp len =
      m.read inp (3 * (len / 3)) ++ m.read (inp + (3 * (len / 3) : Nat)) (len % 3) := by
    rw [← Mem.read_add, hlen]
  have htail := encodeTail_eq signed m (inp + (3 * (len / 3) : Nat)) (Nat.mod_lt len (by decide))
  rw [Int.add_assoc, ← Int.natCast_add, hlen] at htail
  have hgroups : ((sextets signed (m (inp + len)) (m.read inp (3 * (len / 3)))).map
      sextetChar).length = 4 * (len / 3) := by
    rw [List.length_map, length_sextets, Mem.length_read]
    omega
  refine ⟨_, rfl, ?_, ?_, ?_⟩
  · rw [h.index, htail, hout, hread, encodeText_append (Mem.length_read ..),
      inLines_append hgroups]
  · rw [h.index, htail, hread]
    exact h.written.append (Mem.length_read ..) (written_encodeText ..)
  · rw [List.length_append, h.length, h.index, htail, length_encodeText, Mem.length_read]
    omega

end XToolkits.Base64
