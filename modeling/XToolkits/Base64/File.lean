import XToolkits.Base64.Encode

set_option autoImplicit false

/-! # The file encoder

`base64Encode_file` reads a file in blocks of `BUFFER_SIZE` bytes into `in`, encodes a block into
`out` and writes it to the pipe when the block is used up; the groups on the line are counted across
the blocks. The rounds are those of `base64Encode`, on another memory. Behind the loop both indices
are set back, so the tail is taken from the beginning of `in`, and three of its four characters are
written to the pipe. `base64EncodeFile_iff` says when the pipe gets what `base64Encode` produces. -/

namespace XToolkits.Base64

/-- `BUFFER_SIZE`. -/
def bufferSize : Nat := 3072

/-- `BASE64_BUFFER`. -/
def base64Buffer : Nat := bufferSize / 24 + bufferSize * 4 / 3

/-- The state of the loop: `in`, what is left of the file, the state of the encoder with `out`, and
    what the pipe got. -/
structure FileState where
  buf : Mem UInt8
  file : List UInt8
  enc : EncodeState
  piped : List UInt8

/-- `read(fd, in, BUFFER_SIZE)`: the bytes behind the end of the file stay as they are. -/
def FileState.refill (s : FileState) : FileState :=
  { s with buf := s.buf.write 0 (s.file.take bufferSize), file := s.file.drop bufferSize }

/-- `fwrite` of what is in `out`; both indices are set back. -/
def FileState.flush (s : FileState) : FileState :=
  { s with piped := s.piped ++ s.enc.out, enc := ⟨[], 0, s.enc.y⟩ }

/-- One round of the loop. `none`: a character is written behind `out`. -/
def fileGroup (signed : Bool) (s : FileState) : Option FileState :=
  let s := { s with enc := encodeGroup signed s.buf 0 s.enc }
  if s.enc.out.length ≤ base64Buffer then
    if s.enc.sourceIndex = bufferSize then some s.flush.refill else some s
  else none

/-- The loop, `bits_8_group` rounds. -/
def fileGroups (signed : Bool) : Nat → FileState → Option FileState
  | 0, s => some s
  | n + 1, s => fileGroup signed s >>= fileGroups signed n

/-- `base64Encode_file` on a file whose length is `fileSize`: what the pipe gets. `junk` is what `in`
    holds when it is allocated. -/
def base64EncodeFile (signed : Bool) (junk : Mem UInt8) (file : List UInt8) : Option (List UInt8) := do
  let fileSize := file.length
  let s ← fileGroups signed (fileSize / 3) (FileState.refill ⟨junk, file, ⟨[], 0, 0⟩, []⟩)
  let s := s.flush
  let out := encodeTail signed s.buf s.enc.sourceIndex (fileSize % 3)
  if out.length ≤ base64Buffer then some (s.piped ++ out.take 3) else none

/-- The file encoder writes to the pipe what `base64Encode` produces for the content of the file,
    and stays inside of its output buffer. -/
def FileAgrees (signed : Bool) (junk m : Mem UInt8) (inp : Int) (len : Nat) : Prop :=
  ∃ out, base64EncodeFile signed junk (m.read inp len) = some out ∧
    base64Encode signed m inp len = some out

/-! ## The loop -/

variable {signed : Bool} {m : Mem UInt8} {inp : Int} {len n : Nat} {s : FileState}

/-- After `n` groups, `n % 1024` of them in this block: `base64Encode` would have written what is in
    the pipe and in `out`, and `in` holds the block as far as the file goes. -/
structure FileState.Holds (signed : Bool) (m : Mem UInt8) (inp : Int) (len n : Nat) (s : FileState) :
    Prop where
  written : s.piped ++ s.enc.out = (encodeGroups signed m inp n ⟨[], 0, 0⟩).out
  line : s.enc.y = n % 18
  index : s.enc.sourceIndex = 3 * (n % 1024)
  room : s.enc.out.length = 4 * (n % 1024) + (n / 18 - n / 1024 * 1024 / 18)
  block : ∀ k < 3072, 3072 * (n / 1024) + k < len → s.buf k = m (inp + (3072 * (n / 1024) + k : Nat))
  file : s.file = (m.read inp len).drop (3072 * (n / 1024 + 1))

/-- A block is read. -/
theorem refill_block {q : Nat} (hfile : s.file = (m.read inp len).drop (3072 * q)) :
    (∀ k < 3072, 3072 * q + k < len → s.refill.buf k = m (inp + (3072 * q + k : Nat))) ∧
      s.refill.file = (m.read inp len).drop (3072 * (q + 1)) := by
  constructor
  · intro k hk hlen
    have hget : (s.file.take bufferSize)[k]? = some (m (inp + (3072 * q + k : Nat))) := by
      rw [hfile, List.getElem?_take_of_lt (show k < bufferSize from hk), List.getElem?_drop,
        Mem.getElem?_read _ _ _ _ hlen]
    obtain ⟨hlt, hval⟩ := List.getElem?_eq_some_iff.1 hget
    have hinside := Mem.write_apply_inside s.buf 0 _ k hlt
    rw [Int.zero_add, hval] at hinside
    exact hinside
  · show s.file.drop bufferSize = _
    rw [hfile, List.drop_drop]
    rfl

/-- The round reads the group `n` of the input. -/
theorem FileState.Holds.encodeGroup (h : s.Holds signed m inp len n) (hn : 3 * (n + 1) ≤ len) :
    ∃ group, encodeGroup signed s.buf 0 s.enc =
        ⟨s.enc.out ++ group, 3 * (n % 1024) + 3, (n + 1) % 18⟩ ∧
      (encodeGroups signed m inp (n + 1) ⟨[], 0, 0⟩).out =
        (encodeGroups signed m inp n ⟨[], 0, 0⟩).out ++ group ∧
      group.length + n / 18 = 4 + (n + 1) / 18 := by
  have hholds := holds_encodeGroups signed 0 m inp n
  have hbyte : ∀ j : Nat, j < 3 →
      s.buf (0 + ((3 * (n % 1024) : Nat) + (j : Int))) = m (inp + ((3 * n : Nat) + (j : Int))) := by
    intro j hj
    have hk : (0 : Int) + ((3 * (n % 1024) : Nat) + (j : Int)) = (3 * (n % 1024) + j : Nat) := by
      omega
    rw [hk, h.block (3 * (n % 1024) + j) (by omega) (by omega)]
    congr 2
    omega
  refine ⟨groupChars signed (m (inp + (3 * n : Nat))) (m (inp + ((3 * n : Nat) + 1)))
    (m (inp + ((3 * n : Nat) + 2))) ++ lineEnd n, ?_, ?_, ?_⟩
  rotate_left
  · rw [encodeGroups_succ, encodeGroup_eq signed m inp hholds.line, hholds.index]
  · have hend := length_lineEnd n
    rw [List.length_append, groupChars]
    simp only [List.length_cons, List.length_nil]
    omega
  · rw [encodeGroup_eq signed s.buf 0 h.line, h.index]
    have h0 : s.buf (0 + (3 * (n % 1024) : Nat)) = m (inp + (3 * n : Nat)) := by
      rw [← Int.add_zero ((3 * (n % 1024) : Nat) : Int), ← Int.add_zero ((3 * n : Nat) : Int)]
      exact hbyte 0 (by decide)
    have h1 : s.buf (0 + ((3 * (n % 1024) : Nat) + 1)) = m (inp + ((3 * n : Nat) + 1)) :=
      hbyte 1 (by decide)
    have h2 : s.buf (0 + ((3 * (n % 1024) : Nat) + 2)) = m (inp + ((3 * n : Nat) + 2)) :=
      hbyte 2 (by decide)
    rw [h0, h1, h2]

theorem FileState.Holds.fileGroup (h : s.Holds signed m inp len n) (hn : 3 * (n + 1) ≤ len) :
    ∃ s', fileGroup signed s = some s' ∧ s'.Holds signed m inp len (n + 1) := by
  obtain ⟨group, henc, hout, hgroup⟩ := h.encodeGroup hn
  have hroom := h.room
  have hwritten : s.piped ++ (s.enc.out ++ group) =
      (encodeGroups signed m inp (n + 1) ⟨[], 0, 0⟩).out := by
    rw [hout, ← h.written, List.append_assoc]
  have hinside : (s.enc.out ++ group).length ≤ base64Buffer := by
    rw [List.length_append, base64Buffer, bufferSize]
    omega
  simp only [Base64.fileGroup, henc, if_pos hinside]
  split
  · case isTrue hend =>
      -- the block is used up
      rw [bufferSize] at hend
      have hq : (n + 1) / 1024 = n / 1024 + 1 := by omega
      have hr : (n + 1) % 1024 = 0 := by omega
      obtain ⟨hblock, hfile⟩ := refill_block (s := FileState.flush
        { s with enc := ⟨s.enc.out ++ group, 3 * (n % 1024) + 3, (n + 1) % 18⟩ }) h.file
      refine ⟨_, rfl, ?_, rfl, ?_, ?_, ?_, ?_⟩
      · exact (List.append_nil _).trans hwritten
      · rw [hr]
        rfl
      · rw [hr, hq]
        show 0 = _
        omega
      · rw [hq]
        exact hblock
      · rw [hq]
        exact hfile
  · case isFalse hmore =>
      rw [bufferSize] at hmore
      have hq : (n + 1) / 1024 = n / 1024 := by omega
      have hr : (n + 1) % 1024 = n % 1024 + 1 := by omega
      refine ⟨_, rfl, hwritten, rfl, ?_, ?_, ?_, ?_⟩
      · rw [hr]
        rfl
      · rw [hr, hq]
        show (s.enc.out ++ group).length = _
        rw [List.length_append]
        omega
      · rw [hq]
        exact h.block
      · rw [hq]
        exact h.file

theorem FileState.Holds.fileGroups (h : s.Holds signed m inp len n) {k : Nat}
    (hk : 3 * (n + k) ≤ len) :
    ∃ s', fileGroups signed k s = some s' ∧ s'.Holds signed m inp len (n + k) := by
  induction k generalizing s n with
  | zero => exact ⟨s, rfl, h⟩
  | succ k ih =>
      obtain ⟨s', hs', h'⟩ := h.fileGroup (by omega)
      rw [Base64.fileGroups, hs', ← Nat.succ_add_eq_add_succ]
      exact ih h' (by omega)

/-! ## The file -/

/-- **What the pipe gets**: what `base64Encode` writes for the groups, and the first three
    characters of the tail of what is in `in`. No character is written behind `out`. -/
theorem base64EncodeFile_eq (signed : Bool) (junk m : Mem UInt8) (inp : Int) (len : Nat) :
    ∃ buf, base64EncodeFile signed junk (m.read inp len) =
      some ((encodeGroups signed m inp (len / 3) ⟨[], 0, 0⟩).out ++
        (encodeTail signed buf 0 (len % 3)).take 3) := by
  have hinit : FileState.Holds signed m inp len 0
      (FileState.refill ⟨junk, m.read inp len, ⟨[], 0, 0⟩, []⟩) := by
    let s : FileState := ⟨junk, m.read inp len, ⟨[], 0, 0⟩, []⟩
    have hwhole : s.file = (m.read inp len).drop (3072 * 0) := rfl
    obtain ⟨hblock, hfile⟩ := refill_block hwhole
    exact ⟨rfl, rfl, rfl, rfl, hblock, hfile⟩
  obtain ⟨s, hs, h⟩ := hinit.fileGroups (k := len / 3) (by omega)
  rw [Nat.zero_add] at h
  have htail : (encodeTail signed s.buf 0 (len % 3)).length ≤ base64Buffer := by
    rw [encodeTail_eq signed s.buf 0 (Nat.mod_lt len (by decide)), length_encodeText,
      Mem.length_read, base64Buffer, bufferSize]
    omega
  refine ⟨s.buf, ?_⟩
  rw [← h.written]
  simp only [base64EncodeFile, Mem.length_read, hs, Option.bind_eq_bind, Option.bind_some]
  exact if_pos htail

/-- **When the two encoders agree.** For every content of a file of every length, every content of
    `in` before, every memory around the bytes for `base64Encode`, signed or unsigned chars: the
    file encoder writes to the pipe what `base64Encode` produces exactly when no byte is left behind
    the groups and the length of the encoding fits in an `int`. -/
theorem base64EncodeFile_iff (signed : Bool) (junk m : Mem UInt8) (inp : Int) (len : Nat) :
    FileAgrees signed junk m inp len ↔ len % 3 = 0 ∧ 4 * (len / 3) + len / 3 / 18 < 2 ^ 31 := by
  obtain ⟨buf, hfile⟩ := base64EncodeFile_eq signed junk m inp len
  obtain ⟨out, hout, -, -, hlen⟩ := base64Encode_eq signed m inp len
  have hgroups := (holds_encodeGroups signed 0 m inp (len / 3)).length
  have htail := encodeTail_eq signed buf 0 (Nat.mod_lt len (by decide))
  rw [FileAgrees, hfile]
  constructor
  · rintro ⟨out', hpiped, h⟩
    obtain rfl := Option.some.inj hpiped
    rw [hout] at h
    split at h
    · case isTrue hfit =>
        have heq := congrArg List.length (Option.some.inj h)
        rw [hlen, List.length_append, List.length_take, htail, length_encodeText, Mem.length_read,
          hgroups] at heq
        omega
    · cases h
  · rintro ⟨hzero, hfit⟩
    refine ⟨_, rfl, ?_⟩
    have hnone : ∀ (m : Mem UInt8) (p : Int), encodeTail signed m p (len % 3) = [] := fun m p => by
      rw [hzero]
      rfl
    simp only [base64Encode, hnone, List.append_nil, List.take_nil]
    exact if_pos (by rw [hgroups]; omega)

/-- Of the one byte `4D` the pipe gets `TQ=` and not `TQ==`. -/
theorem base64EncodeFile_one :
    ¬ FileAgrees true (fun _ => 0) (Mem.write (fun _ => 0) 0 [0x4d]) 0 1 := by
  rintro ⟨out, hfile, hmem⟩
  have hencode : base64Encode true (Mem.write (fun _ => 0) 0 [0x4d]) 0 1 =
      some [0x54, 0x51, 0x3d, 0x3d] := by decide
  have hpipe : base64EncodeFile true (fun _ => 0) ((Mem.write (fun _ => 0) 0 [0x4d]).read 0 1) =
      some [0x54, 0x51, 0x3d] := by decide
  rw [hfile] at hpipe
  rw [hmem, hpipe] at hencode
  exact absurd hencode (by decide)

end XToolkits.Base64
