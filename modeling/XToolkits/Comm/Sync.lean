import XToolkits.Comm.Deframe
import XToolkits.Lib.BlockScan

set_option autoImplicit false

/-! # Finding the sync code

`comm_find_magic_num` for any flag. After a partial match its `i += j` and the `i++` of the loop go
behind the byte that differs, so a flag that begins with that byte, or in the part that matched, is
not seen. -/

namespace XToolkits.Comm

/-- Bytes with a mismatch begin with a block. -/
theorem block_of_mismatch {flag xs : List UInt8} {i j : Nat} (h : mismatch flag xs i = some j)
    (hlen : flag.length ≤ xs.length) :
    ∃ k x ys, j = i + k ∧ k < flag.length ∧ flag[k]? ≠ some x ∧ xs = flag.take k ++ x :: ys := by
  induction flag generalizing xs i with
  | nil => cases h
  | cons b flag ih =>
      cases xs with
      | nil => simp at hlen
      | cons x xs =>
          simp only [mismatch] at h
          split at h
          · next hbx =>
              cases h
              exact ⟨0, x, xs, rfl, Nat.succ_pos _, by simpa using hbx, rfl⟩
          · next hbx =>
              obtain ⟨k, y, ys, rfl, hk, hy, rfl⟩ := ih h (by simpa using hlen)
              refine ⟨k + 1, y, ys, by omega, Nat.succ_lt_succ hk, hy, ?_⟩
              rw [List.take_succ_cons, List.cons_append, not_not.1 hbx]

/-- Bytes without a mismatch begin with the flag. -/
theorem prefix_of_mismatch {flag xs : List UInt8} {i : Nat} (h : mismatch flag xs i = none) :
    flag <+: xs :=
  List.prefix_iff_eq_take.2 (take_of_mismatch h).symm

/-- **The scan goes over blocks**, and stops at the flag or where it has no room. -/
theorem findLoop_scanEnd {flag : List UInt8} (hflag : flag ≠ []) {m : Mem UInt8} {src : Int}
    {n fuel i : Nat} (h : ScanAt flag (m.read src n) i) (hfuel : n < fuel + i) :
    ScanEnd flag (m.read src n) (findLoop flag m src (n - flag.length) fuel i) := by
  have hlen : (m.read src n).length = n := Mem.length_read m src n
  have hi := h.le_length
  induction fuel generalizing i with
  | zero => omega
  | succ fuel ih =>
      by_cases hroom : (i : Int) ≤ n - flag.length
      · have hread : (m.read src n).drop i = m.read (src + i) (n - i) :=
          Mem.drop_read m src n i (by omega)
        rw [findLoop_succ hflag m src _ fuel i (n - i) hroom (by omega), ← hread]
        cases hmis : mismatch flag ((m.read src n).drop i) 0 with
        | none => exact ⟨h, Or.inr (prefix_of_mismatch hmis)⟩
        | some j =>
            obtain ⟨k, x, ys, rfl, hk, hx, hblock⟩ := block_of_mismatch hmis
              (by rw [hread, Mem.length_read]; omega)
            rw [Nat.zero_add]
            have hnext := h.next (by omega) hk hx hblock
            exact ih hnext (by omega) hnext.le_length
      · have hstay : findLoop flag m src (n - flag.length) (fuel + 1) i = i := by
          simp only [findLoop, if_neg hroom]
        rw [hstay]
        exact ⟨h, Or.inl (by omega)⟩

/-- **When `comm_find_magic_num` finds the first sync code and skips none.** For every flag of four
    bytes, every buffer and every length: the result is the first offset of the flag, or, when the
    flag is not there, in range and not behind the beginning of a flag at the end of the buffer,
    exactly when the bytes before the first place where the flag begins are blocks, each a part of
    the flag and one byte that does not go on with it, or blocks lead to a place before it with less
    than four bytes behind. -/
theorem commFindMagicNum_first_iff (flag : List UInt8) (hflag : flag.length = 4) (m : Mem UInt8)
    (src : Int) (len : Nat) :
    FindsFirst flag (m.read src len) (commFindMagicNum flag m src len) ↔
      BlocksReach flag (m.read src len) := by
  have hne : flag ≠ [] := List.ne_nil_of_length_pos (by omega)
  exact (findLoop_scanEnd hne (ScanAt.zero flag _) (by omega)).findsFirst_iff hne

/-- Behind two bytes `55`, which are a block, the sync code is found. -/
theorem commFindMagicNum_first_even :
    FindsFirst syncFlag ((Mem.write (fun _ => 0) 0 (0x55 :: 0x55 :: syncFlag)).read 0 6)
      (commFindMagicNum syncFlag (Mem.write (fun _ => 0) 0 (0x55 :: 0x55 :: syncFlag)) 0 (6 : Nat)) := by
  refine (commFindMagicNum_first_iff syncFlag rfl _ 0 6).2 fun p _ hbegin hfirst => ?_
  have hnot : ∀ q < 2, ¬ BeginsAt syncFlag
      ((Mem.write (fun _ => 0) 0 (0x55 :: 0x55 :: syncFlag)).read 0 6) q := by decide
  have hge : 2 ≤ p := Nat.le_of_not_lt fun hp => hnot p hp hbegin
  have hle : p ≤ 2 := Nat.le_of_not_lt fun hp => hfirst 2 hp (by decide)
  exact ⟨2, hge, Blocks.cons (j := 1) (x := 0x55) (by decide) (by decide) Blocks.nil,
    Or.inl (Nat.le_antisymm hge hle)⟩

/-- Behind one byte `55` it is not: the result is `2`, but the sync code is at offset `1`. -/
theorem commFindMagicNum_skips :
    ¬ FindsFirst syncFlag ((Mem.write (fun _ => 0) 0 (0x55 :: syncFlag)).read 0 5)
      (commFindMagicNum syncFlag (Mem.write (fun _ => 0) 0 (0x55 :: syncFlag)) 0 (5 : Nat)) := by
  have hfind : commFindMagicNum syncFlag (Mem.write (fun _ => 0) 0 (0x55 :: syncFlag)) 0 (5 : Nat) =
      2 := by decide
  intro h
  rw [hfind] at h
  exact (h.present ⟨1, by decide⟩).2 1 (by decide) (by decide)

end XToolkits.Comm
